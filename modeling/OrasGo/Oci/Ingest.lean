import OrasGo.Base.CreateTemp
import OrasGo.Oci.Failure

/-! `Storage.Push` with the directories it works in: the blobs and the temporary
files of `Storage.ingest`. -/

namespace OrasGo.Oci

/-- The directories of the algorithms below `blobs`, the blobs, and the files
below `ingest`, if it is there. -/
structure RootDir where
  directories : Finset String := ∅
  blobs : Blobs := ∅
  ingestRoot : Bool := false
  ingest : Finmap (fun _ : String => Bytes) := ∅

/-- The errors of `os.Rename` that are told apart. -/
inductive RenameError
  | permission
  | other (err : Error)

/-- What the file system does during a push: which of the calls fail, the random
strings that `os.CreateTemp` tries, and what a copy that fails has written. -/
structure IngestFaults where
  stat : Option Error := none
  ensureDir : Option Error := none
  ensureIngestRoot : Option Error := none
  createTemp : Option Error := none
  randoms : List String := []
  written : Bytes := []
  chmod : Option Error := none
  close : Option Error := none
  rename : Option RenameError := none

namespace IngestFaults
variable (faults : IngestFaults)

/-- `os.CreateTemp` for the digest. -/
def tempName (ingest : Finmap (fun _ : String => Bytes)) (expected : Descriptor) : Except Error String :=
  TempFile.create faults.createTemp (.fileSystem "file exists") (Digest.encoded expected.digest ++ "_") faults.randoms ingest

end IngestFaults

namespace RootDir

/-- `os.Remove` of an ingest file. The empty path is that of no file. -/
def remove (l : RootDir) (path : String) : RootDir :=
  if path = "" then l else { l with ingest := l.ingest.erase path }

@[simp] theorem remove_blobs (l : RootDir) (path : String) : (l.remove path).blobs = l.blobs := by
  unfold remove
  split <;> rfl

/-- The body of `Storage.ingest` once the file is created, with the results as
`return` assigns them. -/
def ingestBody (faults : IngestFaults) (l : RootDir) (path : String) (copied : Except Error Bytes) :
    (String × Option Error) × RootDir :=
  match copied with
  | .error err =>
    (("", some (.wrap "failed to ingest" err)), { l with ingest := l.ingest.insert path faults.written })
  | .ok content =>
    let l := { l with ingest := l.ingest.insert path content }
    match faults.chmod with
    | some err => (("", some (.wrap "failed to make readonly" err)), l)
    | none => ((path, none), l)

/-- The function that `Storage.ingest` defers. It reads and writes the results. -/
def closeIngest (faults : IngestFaults) : (String × Option Error) × RootDir → (String × Option Error) × RootDir
  | ((path, ingestErr), l) =>
    let ingestErr := match faults.close, ingestErr with
      | some err, none => some (.wrap "failed to close ingest file" err)
      | _, ingestErr => ingestErr
    if ingestErr.isSome then ((path, ingestErr), l.remove path) else ((path, ingestErr), l)

/-- `Storage.ingest`, where `copied` is what `CopyBuffer` makes of the reader. -/
def ingestFile (faults : IngestFaults) (l : RootDir) (expected : Descriptor) (copied : Except Error Bytes) :
    (String × Option Error) × RootDir :=
  match faults.ensureIngestRoot with
  | some err => (("", some (.wrap "failed to ensure ingest dir" err)), l)
  | none =>
    let l := { l with ingestRoot := true }
    match faults.tempName l.ingest expected with
    | .error err => (("", some (.wrap "failed to create ingest file" err)), l)
    | .ok path => closeIngest faults (ingestBody faults l path copied)

/-- `Storage.Push`, where `copied` is what `CopyBuffer` makes of the reader. -/
def push (faults : IngestFaults) (l : RootDir) (expected : Descriptor) (copied : Except Error Bytes) :
    Option Error × RootDir :=
  if Digest.validate expected.digest = false then
    (some (.wrap (Storage.describe expected) .invalidDigest), l)
  else match faults.stat with
  | some err => (some err, l)
  | none =>
    if (l.blobs.lookup expected.digest).isSome then
      (some (.wrap (Storage.describe expected) .alreadyExists), l)
    else match faults.ensureDir with
    | some err => (some err, l)
    | none =>
      let l := { l with directories := insert (Digest.algorithm expected.digest) l.directories }
      match l.ingestFile faults expected copied with
      | ((_, some err), l) => (some err, l)
      | ((ingest, none), l) =>
        match faults.rename with
        | some .permission => (some (.wrap (Storage.describe expected) .alreadyExists), l.remove ingest)
        | some (.other err) => (some err, l.remove ingest)
        | none =>
          (none, { l with blobs := l.blobs.insert expected.digest ((l.ingest.lookup ingest).getD [])
                          ingest := l.ingest.erase ingest })

end RootDir

variable {faults : IngestFaults} {l : RootDir} {expected : Descriptor} {copied : Except Error Bytes}

/-- The push comes to the directory of the algorithm. -/
structure Opened (faults : IngestFaults) (l : RootDir) (expected : Descriptor) : Prop where
  valid : Digest.validate expected.digest = true
  stat : faults.stat = none
  fresh : expected.digest ∉ l.blobs
  ensureDir : faults.ensureDir = none

/-- The ingest file is created. -/
structure Created (faults : IngestFaults) (ingest : Finmap (fun _ : String => Bytes)) (expected : Descriptor)
    (path : String) : Prop where
  ensureIngestRoot : faults.ensureIngestRoot = none
  path : faults.tempName ingest expected = .ok path

/-- The push comes to the copy into the ingest file. -/
structure Started (faults : IngestFaults) (l : RootDir) (expected : Descriptor) (path : String) : Prop
    extends Opened faults l expected, Created faults l.ingest expected path

/-- The root with the directories that a push makes. -/
def RootDir.opened (l : RootDir) (expected : Descriptor) (ingestRoot : Bool) : RootDir :=
  { l with directories := insert (Digest.algorithm expected.digest) l.directories, ingestRoot }

/-- What `ingest` may come to. A file that could not be filled or protected stays,
one that could not be closed is removed. -/
inductive IngestOutcome (faults : IngestFaults) (l : RootDir) (expected : Descriptor) (copied : Except Error Bytes) :
    (String × Option Error) × RootDir → Prop
  | noFile (err : Error) (ingestRoot : Bool) : (∀ path, ¬ Created faults l.ingest expected path) →
      IngestOutcome faults l expected copied (("", some err), { l with ingestRoot })
  | kept (err : Error) (path : String) (content : Bytes) : Created faults l.ingest expected path →
      (∀ content, copied = .ok content → faults.chmod ≠ none) →
      IngestOutcome faults l expected copied
        (("", some err), { l with ingestRoot := true, ingest := l.ingest.insert path content })
  | removed (err : Error) (path : String) (content : Bytes) : Created faults l.ingest expected path →
      copied = .ok content → faults.chmod = none →
      IngestOutcome faults l expected copied ((path, some err), { l with ingestRoot := true })
  | ready (path : String) (content : Bytes) : Created faults l.ingest expected path →
      copied = .ok content → faults.chmod = none →
      IngestOutcome faults l expected copied
        ((path, none), { l with ingestRoot := true, ingest := l.ingest.insert path content })

theorem ingest_outcome (faults : IngestFaults) (l : RootDir) (expected : Descriptor) (copied : Except Error Bytes) :
    IngestOutcome faults l expected copied (l.ingestFile faults expected copied) := by
  unfold RootDir.ingestFile
  cases root : faults.ensureIngestRoot with
  | some err => exact .noFile _ l.ingestRoot fun path created => by simp [created.ensureIngestRoot] at root
  | none =>
    dsimp only
    cases named : faults.tempName l.ingest expected with
    | error err =>
      refine .noFile _ true fun path created => ?_
      cases created.path.symm.trans named
    | ok path =>
      obtain ⟨new, nonempty⟩ := TempFile.create_ok (by simp) named
      have created : Created faults l.ingest expected path := ⟨root, named⟩
      -- The deferred function removes the file at the path that `return` has left.
      have gone (root : RootDir) (content : Bytes) (same : root.ingest = l.ingest.insert path content) :
          root.remove path = { root with ingest := l.ingest } := by
        rw [RootDir.remove, if_neg nonempty, same, TempFile.erase_insert new]
      cases copied with
      | error err =>
        cases closed : faults.close <;> simp only [RootDir.ingestBody, RootDir.closeIngest, closed] <;>
          exact .kept _ path _ created fun _ impossible => by cases impossible
      | ok content =>
        cases chmod : faults.chmod with
        | some err =>
          cases closed : faults.close <;>
            simp only [RootDir.ingestBody, RootDir.closeIngest, closed, chmod] <;>
            exact .kept _ path content created fun _ _ => by simp [chmod]
        | none =>
          cases closed : faults.close with
          | some err =>
            simp only [RootDir.ingestBody, RootDir.closeIngest, closed, chmod, Option.isSome_some, if_true]
            rw [gone _ content rfl]
            exact .removed _ path content created rfl chmod
          | none =>
            simp only [RootDir.ingestBody, RootDir.closeIngest, closed, chmod]
            exact .ready path content created rfl chmod

/-- What a push may come to. -/
inductive PushOutcome (faults : IngestFaults) (l : RootDir) (expected : Descriptor) (copied : Except Error Bytes) :
    Option Error × RootDir → Prop
  | refused (err : Error) : ¬ Opened faults l expected → PushOutcome faults l expected copied (some err, l)
  | noFile (err : Error) (ingestRoot : Bool) : Opened faults l expected → (∀ path, ¬ Started faults l expected path) →
      PushOutcome faults l expected copied (some err, l.opened expected ingestRoot)
  | kept (err : Error) (path : String) (content : Bytes) : Started faults l expected path →
      (∀ content, copied = .ok content → faults.chmod ≠ none) →
      PushOutcome faults l expected copied
        (some err, { l.opened expected true with ingest := l.ingest.insert path content })
  | removed (err : Error) (path : String) (content : Bytes) : Started faults l expected path →
      copied = .ok content → faults.chmod = none →
      PushOutcome faults l expected copied (some err, l.opened expected true)
  | stored (path : String) (content : Bytes) : Started faults l expected path → copied = .ok content →
      PushOutcome faults l expected copied
        (none, { l.opened expected true with blobs := l.blobs.insert expected.digest content })

theorem push_outcome (faults : IngestFaults) (l : RootDir) (expected : Descriptor) (copied : Except Error Bytes) :
    PushOutcome faults l expected copied (l.push faults expected copied) := by
  unfold RootDir.push
  split
  · rename_i invalid
    exact .refused _ fun opened => by simp [opened.valid] at invalid
  rename_i valid
  split
  · rename_i err stat
    exact .refused _ fun opened => by simp [opened.stat] at stat
  rename_i stat
  split
  · rename_i known
    exact .refused _ fun opened => opened.fresh (Finmap.lookup_isSome.mp known)
  rename_i fresh
  split
  · rename_i err ensureDir
    exact .refused _ fun opened => by simp [opened.ensureDir] at ensureDir
  rename_i ensureDir
  have opened : Opened faults l expected :=
    ⟨by simpa using valid, stat, by simpa [Finmap.lookup_isSome] using fresh, ensureDir⟩
  dsimp only
  generalize outcome : RootDir.ingestFile faults _ expected copied = result
  have ingested := ingest_outcome faults
    { l with directories := insert (Digest.algorithm expected.digest) l.directories } expected copied
  rw [outcome] at ingested
  cases ingested with
  | noFile err ingestRoot nowhere => exact .noFile err ingestRoot opened fun path started => nowhere path started.toCreated
  | kept err path content created failed => exact .kept err path content ⟨opened, created⟩ failed
  | removed err path content created ok chmod => exact .removed err path content ⟨opened, created⟩ ok chmod
  | ready path content created ok chmod =>
    obtain ⟨new, nonempty⟩ := TempFile.create_ok (by simp) created.path
    dsimp only
    cases faults.rename with
    | none =>
      simp only [Finmap.lookup_insert, Option.getD_some, TempFile.erase_insert new]
      exact .stored path content ⟨opened, created⟩ ok
    | some err =>
      cases err <;> simp only [RootDir.remove, if_neg nonempty, TempFile.erase_insert new] <;>
        exact .removed _ path content ⟨opened, created⟩ ok chmod

/-- The same failures by the parts of the push in which they happen. -/
def IngestFaults.summary (faults : IngestFaults) (l : RootDir) (expected : Descriptor) : Faults where
  stat := faults.stat
  ingest := faults.ensureDir <|> faults.ensureIngestRoot.map (.wrap "failed to ensure ingest dir") <|>
    match faults.tempName l.ingest expected with
    | .error err => some (.wrap "failed to create ingest file" err)
    | .ok _ => none
  rename := faults.chmod.map (.wrap "failed to make readonly") <|>
    faults.close.map (.wrap "failed to close ingest file") <|>
    match faults.rename with
    | some .permission => some (.wrap (Storage.describe expected) .alreadyExists)
    | some (.other err) => some err
    | none => none

/-- The blobs are those of the push that knows of no other files. -/
theorem push_eq_pushFrom (faults : IngestFaults) (l : RootDir) (expected : Descriptor) (copied : Except Error Bytes) :
    ((l.push faults expected copied).1, (l.push faults expected copied).2.blobs) =
      Storage.pushFrom (faults.summary l expected) l.blobs expected copied := by
  unfold RootDir.push Storage.pushFrom IngestFaults.summary
  split
  · rfl
  cases faults.stat with
  | some err => rfl
  | none =>
    dsimp only
    split
    · rfl
    cases faults.ensureDir with
    | some err => rfl
    | none =>
      unfold RootDir.ingestFile
      cases faults.ensureIngestRoot with
      | some err => rfl
      | none =>
        cases named : faults.tempName l.ingest expected with
        | error err => simp only [named]; rfl
        | ok path =>
          simp only [named]
          cases copied with
          | error err => cases closed : faults.close <;> simp [RootDir.ingestBody, RootDir.closeIngest, closed]
          | ok content =>
            cases chmod : faults.chmod with
            | some err => cases closed : faults.close <;> simp [RootDir.ingestBody, RootDir.closeIngest, closed, chmod]
            | none =>
              cases closed : faults.close with
              | some err => simp [RootDir.ingestBody, RootDir.closeIngest, closed, chmod]
              | none =>
                rcases renamed : faults.rename with _ | _ | err <;>
                  simp [RootDir.ingestBody, RootDir.closeIngest, closed, chmod]

/-- The copy into the ingest file fails, or the file cannot be made readonly. -/
def LeavesFile (faults : IngestFaults) (l : RootDir) (expected : Descriptor) (copied : Except Error Bytes) : Prop :=
  (∃ path, Started faults l expected path) ∧ ∀ content, copied = .ok content → faults.chmod ≠ none

/-- A push that fails has stored nothing and touched no file that was there; it leaves no
file of its own exactly if it did not fail while it filled or protected the ingest file,
and no directory exactly if that of the algorithm was there or it did not come so far. A
push that succeeds has stored the content the reader delivers. -/
theorem push_atomic_iff (cd : Codec) (faults : IngestFaults) (l : RootDir) (expected : Descriptor)
    (copied : Except Error Bytes) :
    ((l.push faults expected copied).1 ≠ none →
      (((l.push faults expected copied).2.blobs = l.blobs ∧ (l.push faults expected copied).2.ingest = l.ingest) ↔
        ¬ LeavesFile faults l expected copied) ∧
      (l.push faults expected copied).2.blobs = l.blobs ∧
      (∀ name ∈ l.ingest, (l.push faults expected copied).2.ingest.lookup name = l.ingest.lookup name) ∧
      ((l.push faults expected copied).2.directories = l.directories ↔
        (Opened faults l expected → Digest.algorithm expected.digest ∈ l.directories))) ∧
    ((l.push faults expected copied).1 = none → (l.push faults expected copied).2.ingest = l.ingest ∧
      ∃ content, copied = .ok content ∧ (l.push faults expected copied).2.blobs = l.blobs.insert expected.digest content ∧
        ∀ (R : FiniteReader) (reader : R.State), copied = R.copyBuffer cd reader expected →
          R.bytes reader = content ∧ R.ending reader = .eof ∧ content.length = expected.size.toNat ∧
            cd.verified expected.digest content = true) := by
  have outcome := push_outcome faults l expected copied
  generalize l.push faults expected copied = result at outcome
  have made (opened : Opened faults l expected) :
      insert (Digest.algorithm expected.digest) l.directories = l.directories ↔
        (Opened faults l expected → Digest.algorithm expected.digest ∈ l.directories) := by
    rw [Finset.insert_eq_self]
    exact ⟨fun member _ => member, fun known => known opened⟩
  cases outcome with
  | refused err closed =>
    refine ⟨fun _ => ⟨iff_of_true ⟨rfl, rfl⟩ ?_, rfl, fun _ _ => rfl, iff_of_true rfl ?_⟩, fun nil => absurd nil (Option.some_ne_none _)⟩
    · rintro ⟨⟨path, started⟩, _⟩
      exact closed started.toOpened
    · exact fun opened => absurd opened closed
  | noFile err ingestRoot opened nowhere =>
    refine ⟨fun _ => ⟨iff_of_true ⟨rfl, rfl⟩ ?_, rfl, fun _ _ => rfl, made opened⟩, fun nil => absurd nil (Option.some_ne_none _)⟩
    rintro ⟨⟨path, started⟩, _⟩
    exact nowhere path started
  | kept err path content started failed =>
    have new := (TempFile.create_ok (by simp) started.path).1
    refine ⟨fun _ => ⟨iff_of_false (fun same => TempFile.insert_ne new content same.2) (not_not_intro ⟨⟨path, started⟩, failed⟩),
      rfl, fun name known => ?_, made started.toOpened⟩, fun nil => absurd nil (Option.some_ne_none _)⟩
    refine Finmap.lookup_insert_of_ne _ ?_
    rintro rfl
    exact new known
  | removed err path content started ok chmod =>
    refine ⟨fun _ => ⟨iff_of_true ⟨rfl, rfl⟩ ?_, rfl, fun _ _ => rfl, made started.toOpened⟩, fun nil => absurd nil (Option.some_ne_none _)⟩
    rintro ⟨_, failed⟩
    exact failed content ok chmod
  | stored path content started ok =>
    refine ⟨fun failed => absurd rfl failed, fun _ => ⟨rfl, content, ok, rfl, fun R reader same => ?_⟩⟩
    have result := FiniteReader.copyBuffer_result cd reader (available_of_validate started.valid)
    exact (result.ok_iff content).mp (same.symm.trans ok)

namespace Interrupted
open Sample

/-- The first bytes of the content and then an error. -/
def copy : Except Error Bytes :=
  (pieceReader (.failed (.text "blob source failed")) false).copyBuffer codec [helloBytes.take 2] hello

def disk : IngestFaults := { randoms := ["1"], written := helloBytes.take 2 }

def file : String := "2cf24dba5fb0a30e26e83b2ac5b9e29e1b161e5c1fa7425e73043362938b9824_1"

end Interrupted

/-- A reader that fails leaves its first bytes in the ingest directory. -/
theorem push_leaves_ingest :
    (RootDir.push Interrupted.disk {} Sample.hello Interrupted.copy).1 =
      some (.wrap "failed to ingest" (.wrap "copy failed" (.text "blob source failed"))) ∧
    (RootDir.push Interrupted.disk {} Sample.hello Interrupted.copy).2.ingest.lookup Interrupted.file =
      some (Sample.helloBytes.take 2) := by
  decide +kernel

end OrasGo.Oci
