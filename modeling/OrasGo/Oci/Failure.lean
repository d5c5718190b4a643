import OrasGo.MemoryStore.Store
import OrasGo.Oci.Delete

/-! What a failed push leaves behind in `memory.Store` and in `oci.Store`. Both store the
content before they parse it, and take nothing back. -/

namespace OrasGo.Oci
open Graph Iteration

/-- The errors of the file system that a push meets: when it looks for the blob, before all of
the content is in the ingest file, after that and before the blob is in its place, when the blob
is opened to be parsed, and when `index.json` is written. -/
structure Faults where
  stat : Option Error := none
  ingest : Option Error := none
  rename : Option Error := none
  reopen : Option Error := none
  save : Option Error := none

/-- `ReadOnlyStorage.Fetch` on a file system that may fail. -/
def Faults.fetch (faults : Faults) (blobs : Blobs) : Fetcher := fun target =>
  match faults.reopen with
  | some err => .error err
  | none => Storage.fetch blobs target

/-- `Storage.Push`, where `copied` is what `CopyBuffer` makes of the reader. -/
def Storage.pushFrom (faults : Faults) (blobs : Blobs) (expected : Descriptor) (copied : Except Error Bytes) :
    Option Error × Blobs :=
  if Digest.validate expected.digest = false then
    (some (.wrap (describe expected) .invalidDigest), blobs)
  else match faults.stat with
  | some err => (some err, blobs)
  | none =>
    if (blobs.lookup expected.digest).isSome then
      (some (.wrap (describe expected) .alreadyExists), blobs)
    else match faults.ingest with
    | some err => (some err, blobs)
    | none =>
      match copied with
      | .error err => (some (.wrap "failed to ingest" err), blobs)
      | .ok ingest =>
        match faults.rename with
        | some err => (some err, blobs)
        | none => (none, blobs.insert expected.digest ingest)

/-- `descriptor.DefaultMediaType`. -/
def defaultMediaType := "application/octet-stream"

/-- `resolveBlob`. -/
def resolveBlob (blobs : Blobs) (dgst : String) : Except Error Descriptor :=
  if Digest.validate dgst = false then .error .notFound
  else match blobs.lookup dgst with
    | none => .error .notFound
    | some content => .ok { mediaType := defaultMediaType, size := content.length, digest := dgst }

namespace Store

/-- `Store.tag` on a file system that may fail. What is tagged in memory stays. -/
def tagWith (fault : Option Error) (s : Store) (orders : SaveOrders) (desc : Descriptor) (reference : String) :
    Option Error × Store :=
  let tagged := s.tagInternal orders desc reference
  match fault with
  | none => (none, tagged)
  | some err => if s.autoSaveIndex then (some err, { tagged with indexFile := s.indexFile }) else (none, tagged)

/-- `Store.Push`, where `copied` is what `CopyBuffer` makes of the reader. -/
def pushFrom (cd : Codec) (faults : Faults) (s : Store) (orders : SaveOrders) (expected : Descriptor)
    (copied : Except Error Bytes) : Option Error × Store :=
  match Storage.pushFrom faults s.blobs expected copied with
  | (some err, blobs) => (some err, { s with blobs })
  | (none, blobs) =>
    match s.graph.index cd (faults.fetch blobs) expected with
    | (.error err, graph) => (some err, { s with blobs, graph })
    | (.ok _, graph) =>
      let s := { s with blobs, graph }
      if isManifest expected then s.tagWith faults.save orders expected expected.digest else (none, s)

/-- `Store.Resolve`. -/
def resolve (s : Store) (reference : String) : Except Error Descriptor :=
  if reference = "" then .error .missingReference
  else match s.tagResolver.resolve reference with
    | .error err => if Error.is .notFound err then resolveBlob s.blobs reference else .error err
    | .ok desc => if reference = desc.digest then .ok (plain desc) else .ok desc

/-- Nothing that can be asked of the store tells the two states apart. -/
structure SameAnswers (s s' : Store) : Prop where
  contains : ∀ target, Storage.contains s'.blobs target = Storage.contains s.blobs target
  fetch : ∀ target, Storage.fetch s'.blobs target = Storage.fetch s.blobs target
  resolve : ∀ reference, s'.resolve reference = s.resolve reference
  predecessors : ∀ order node, s'.graph.predecessorList order node = s.graph.predecessorList order node

theorem SameAnswers.refl (s : Store) : SameAnswers s s := ⟨fun _ => rfl, fun _ => rfl, fun _ => rfl, fun _ _ => rfl⟩

end Store

section
variable {cd : Codec} {faults : Faults} {blobs : Blobs} {expected : Descriptor} {copied : Except Error Bytes}

/-- The blob gets to its place. -/
structure Stored (faults : Faults) (blobs : Blobs) (expected : Descriptor) (copied : Except Error Bytes)
    (content : Bytes) : Prop where
  valid : Digest.validate expected.digest = true
  stat : faults.stat = none
  fresh : expected.digest ∉ blobs
  ingest : faults.ingest = none
  copied : copied = .ok content
  rename : faults.rename = none

/-- What `Push` does after it has stored the blob comes to an error. -/
def Unfinished (cd : Codec) (faults : Faults) (s : Store) (expected : Descriptor) (content : Bytes) : Prop :=
  (∃ err, successors cd (faults.fetch (s.blobs.insert expected.digest content)) expected = .error err) ∨
    isManifest expected = true ∧ s.autoSaveIndex = true ∧ faults.save ≠ none

theorem Stored.pushFrom {content : Bytes} (stored : Stored faults blobs expected copied content) :
    Storage.pushFrom faults blobs expected copied = (none, blobs.insert expected.digest content) := by
  have absent : (blobs.lookup expected.digest).isSome = false := by
    rw [Finmap.lookup_eq_none.mpr stored.fresh, Option.isSome_none]
  simp [Storage.pushFrom, stored.valid, stored.stat, absent, stored.ingest, stored.copied, stored.rename]

theorem pushFrom_refused (refused : ¬ ∃ content, Stored faults blobs expected copied content) :
    ∃ err, Storage.pushFrom faults blobs expected copied = (some err, blobs) := by
  unfold Storage.pushFrom
  split
  · exact ⟨_, rfl⟩
  rename_i valid
  split
  · exact ⟨_, rfl⟩
  rename_i stat
  split
  · exact ⟨_, rfl⟩
  rename_i fresh
  split
  · exact ⟨_, rfl⟩
  rename_i ingest
  split
  · exact ⟨_, rfl⟩
  split
  · exact ⟨_, rfl⟩
  rename_i content _ rename
  rw [Finmap.lookup_isSome] at fresh
  exact absurd ⟨content, by simpa using valid, stat, fresh, ingest, rfl, rename⟩ refused

theorem copyBuffer_eof {R : FiniteReader} {reader : R.State} (eof : R.ending reader = .eof)
    (available : algorithmSize (Digest.algorithm expected.digest) ≠ none) :
    R.copyBuffer cd reader expected = Storage.copyBuffer cd (R.bytes reader) expected := by
  have outcome := FiniteReader.copyBuffer_result cd reader available
  generalize R.copyBuffer cd reader expected = result at outcome
  unfold Storage.copyBuffer
  cases outcome with
  | failed err last =>
    unfold VerifyReader.lastErr at last
    split at last
    · rename_i short
      cases last
      rw [if_pos (by omega)]
    · rw [eof] at last
      cases last
  | copied content verdict full verified =>
    cases verified with
    | accepted same _ digest =>
      subst same
      rw [if_neg (by omega), if_neg (by omega), if_pos digest]
      rfl
    | mismatched same _ digest =>
      subst same
      rw [if_neg (by omega), if_neg (by omega), if_neg (by simp [digest])]
      rfl
    | trailing longer =>
      rw [if_neg (by omega), if_pos (by omega)]
      rfl
    | failed _ _ failed => rw [eof] at failed; cases failed
    | failedLater _ _ failed => rw [eof] at failed; cases failed

/-- Where nothing fails but the push itself, this is `Push` of the bytes that the reader delivers. -/
theorem pushFrom_eof {R : FiniteReader} {reader : R.State} (eof : R.ending reader = .eof) (s : Store)
    (orders : SaveOrders) : s.pushFrom cd {} orders expected (R.copyBuffer cd reader expected) =
      s.push cd orders expected (R.bytes reader) := by
  have storage : Storage.pushFrom {} s.blobs expected (R.copyBuffer cd reader expected) =
      Storage.push cd s.blobs expected (R.bytes reader) := by
    unfold Storage.pushFrom Storage.push
    cases valid : Digest.validate expected.digest with
    | false => rfl
    | true =>
      have same : R.copyBuffer cd reader expected = Storage.copyBuffer cd (R.bytes reader) expected :=
        copyBuffer_eof eof (available_of_validate valid)
      generalize R.copyBuffer cd reader expected = copied at same
      subst same
      cases Storage.copyBuffer cd (R.bytes reader) expected <;> rfl
  unfold Store.pushFrom Store.push
  rw [storage]
  rfl

end

namespace Store
variable {cd : Codec} {faults : Faults} {s : Store} {orders : SaveOrders} {expected : Descriptor}
  {copied : Except Error Bytes} {content : Bytes}

theorem tagWith_blobs (fault : Option Error) (s : Store) (desc : Descriptor) (reference : String) :
    (s.tagWith fault orders desc reference).2.blobs = s.blobs := by
  have tagged := (s.tagInternal_frame orders desc reference).1
  cases fault with
  | none => exact tagged
  | some err =>
    simp only [tagWith]
    split
    · exact tagged
    · exact tagged

theorem pushFrom_blobs (stored : Stored faults s.blobs expected copied content) :
    (s.pushFrom cd faults orders expected copied).2.blobs = s.blobs.insert expected.digest content := by
  unfold pushFrom
  rw [stored.pushFrom]
  simp only
  split
  · rfl
  · split
    · exact tagWith_blobs ..
    · rfl

theorem pushFrom_error_iff (stored : Stored faults s.blobs expected copied content) :
    (s.pushFrom cd faults orders expected copied).1 ≠ none ↔ Unfinished cd faults s expected content := by
  unfold pushFrom Unfinished
  rw [stored.pushFrom]
  simp only [Graph.Memory.index]
  cases successors cd (faults.fetch (s.blobs.insert expected.digest content)) expected with
  | error err => simp
  | ok nodes =>
    cases manifest : isManifest expected with
    | false => simp
    | true =>
      unfold tagWith
      cases fault : faults.save with
      | none => simp
      | some err => cases s.autoSaveIndex <;> simp

theorem not_sameAnswers (cd : Codec) (orders : SaveOrders) (stored : Stored faults s.blobs expected copied content) :
    ¬ SameAnswers s (s.pushFrom cd faults orders expected copied).2 := by
  intro same
  have answer := same.contains expected
  rw [pushFrom_blobs stored] at answer
  simp [Storage.contains, stored.valid, Finmap.lookup_eq_none.mpr stored.fresh] at answer

/-- A failed `Push` shows exactly if it fails after the blob is stored. -/
theorem unseen_iff : ((s.pushFrom cd faults orders expected copied).1 ≠ none →
      SameAnswers s (s.pushFrom cd faults orders expected copied).2) ↔
    ¬ ∃ content, Stored faults s.blobs expected copied content ∧ Unfinished cd faults s expected content := by
  by_cases accepted : ∃ content, Stored faults s.blobs expected copied content
  · obtain ⟨content, stored⟩ := accepted
    have shown := not_sameAnswers cd orders stored
    constructor
    · rintro unseen ⟨content', stored', unfinished⟩
      exact shown (unseen ((pushFrom_error_iff stored').mpr unfinished))
    · intro finished failed
      exact absurd ⟨content, stored, (pushFrom_error_iff stored).mp failed⟩ finished
  · obtain ⟨err, refused⟩ := pushFrom_refused accepted
    have unchanged : (s.pushFrom cd faults orders expected copied).2 = s := by
      unfold pushFrom
      rw [refused]
    rw [unchanged]
    exact iff_of_true (fun _ => .refl s) fun ⟨content, stored, _⟩ => accepted ⟨content, stored⟩

end Store

end OrasGo.Oci

namespace OrasGo.MemoryStore
open Iteration

namespace Store

/-- Nothing that can be asked of the store tells the two states apart. -/
structure SameAnswers (s s' : Store) : Prop where
  contains : ∀ target, s'.contains target = s.contains target
  fetch : ∀ target, s'.fetch target = s.fetch target
  resolve : ∀ reference, s'.resolve reference = s.resolve reference
  predecessors : ∀ order node, s'.predecessors order node = s.predecessors order node

theorem SameAnswers.refl (s : Store) : SameAnswers s s := ⟨fun _ => rfl, fun _ => rfl, fun _ => rfl, fun _ _ => rfl⟩

/-- A failed `Push` shows exactly if it stores content that is no manifest as a manifest. -/
theorem unseen_iff (cd : Codec) (s : Store) (expected : Descriptor) (read : Except Error Bytes) :
    ((s.push cd expected read).1 ≠ none → SameAnswers s (s.push cd expected read).2) ↔
      ¬ ∃ content err, fromOCI expected ∉ s.storage ∧ read = .ok content ∧
        successors cd (fun _ => .ok content) expected = .error err := by
  by_cases present : fromOCI expected ∈ s.storage
  · rw [push_present present]
    exact iff_of_true (fun _ => .refl s) fun ⟨_, _, absent, _⟩ => absent present
  cases read with
  | error err =>
    rw [push_refused present]
    exact iff_of_true (fun _ => .refl s) fun ⟨_, _, _, impossible, _⟩ => by cases impossible
  | ok content =>
    rw [push_stored present]
    have fetched : fetch { s with storage := s.storage.insert (fromOCI expected) content } expected = .ok content :=
      fetch_of_lookup (Finmap.lookup_insert _)
    have same : successors cd (fun _ => .ok content) expected =
        successors cd (fetch { s with storage := s.storage.insert (fromOCI expected) content }) expected :=
      successors_congr rfl fetched.symm
    cases found : successors cd (fetch { s with storage := s.storage.insert (fromOCI expected) content }) expected with
    | ok nodes =>
      rw [run_index_ok found]
      refine iff_of_true (fun impossible => absurd rfl impossible) ?_
      rintro ⟨_, err, _, ⟨⟩, failed⟩
      cases failed.symm.trans (same.trans found)
    | error err =>
      rw [run_index_error found]
      refine iff_of_false (fun unseen => ?_) fun parsed => parsed ⟨content, err, present, rfl, same.trans found⟩
      have answer := (unseen (Option.some_ne_none err)).contains expected
      simp [contains_eq, Finmap.lookup_eq_none.mpr present] at answer

end Store

end OrasGo.MemoryStore

namespace OrasGo

/-- Content that is stored is there for everyone, though `Push` fails to index or to record it. All
other failures leave no trace. -/
theorem failed_push_unseen_iff (cd : Codec) (R : FiniteReader) (reader : R.State) (expected : Descriptor) :
    (∀ s : MemoryStore.Store,
      ((s.push cd expected (R.readAll cd reader expected)).1 ≠ none →
        MemoryStore.Store.SameAnswers s (s.push cd expected (R.readAll cd reader expected)).2) ↔
      ¬ ∃ content err, fromOCI expected ∉ s.storage ∧ R.readAll cd reader expected = .ok content ∧
        successors cd (fun _ => .ok content) expected = .error err) ∧
    ∀ (s : Oci.Store) (faults : Oci.Faults) (orders : Oci.SaveOrders),
      ((s.pushFrom cd faults orders expected (R.copyBuffer cd reader expected)).1 ≠ none →
        Oci.Store.SameAnswers s (s.pushFrom cd faults orders expected (R.copyBuffer cd reader expected)).2) ↔
      ¬ ∃ content, Oci.Stored faults s.blobs expected (R.copyBuffer cd reader expected) content ∧
        Oci.Unfinished cd faults s expected content :=
  ⟨fun s => MemoryStore.Store.unseen_iff cd s expected _, fun _ _ _ => Oci.Store.unseen_iff⟩

namespace PushedText

/-- A reader of five bytes of text. -/
def reader : FiniteReader := pieceReader .eof false

def read : Except Error Bytes := reader.readAll Sample.codec [Sample.helloBytes] Sample.helloManifest

def copied : Except Error Bytes := reader.copyBuffer Sample.codec [Sample.helloBytes] Sample.helloManifest

theorem text_invalid : read = .ok Sample.helloBytes ∧ copied = .ok Sample.helloBytes ∧
    Digest.validate Sample.helloManifest.digest = true ∧
    successors Sample.codec (fun _ => .ok Sample.helloBytes) Sample.helloManifest = .error (.json "invalid manifest") := by
  decide +kernel

end PushedText

/-- The text is pushed as an image manifest to empty stores: both pushes fail, and both stores have it. -/
theorem failed_push_seen :
    ¬ ((({} : MemoryStore.Store).push Sample.codec Sample.helloManifest PushedText.read).1 ≠ none →
      MemoryStore.Store.SameAnswers {} (({} : MemoryStore.Store).push Sample.codec Sample.helloManifest PushedText.read).2) ∧
    ∀ orders, ¬ ((({} : Oci.Store).pushFrom Sample.codec {} orders Sample.helloManifest PushedText.copied).1 ≠ none →
      Oci.Store.SameAnswers {} (({} : Oci.Store).pushFrom Sample.codec {} orders Sample.helloManifest PushedText.copied).2) := by
  obtain ⟨read, copied, valid, failed⟩ := PushedText.text_invalid
  refine ⟨fun unseen => ?_, fun orders unseen => ?_⟩
  · exact (MemoryStore.Store.unseen_iff _ _ _ _).mp unseen ⟨_, _, Finmap.notMem_empty, read, failed⟩
  · refine Oci.Store.unseen_iff.mp unseen
      ⟨Sample.helloBytes, ⟨valid, rfl, Finmap.notMem_empty, rfl, copied, rfl⟩, .inl ⟨.json "invalid manifest", ?_⟩⟩
    have fetched : Oci.Storage.fetch ((∅ : Oci.Blobs).insert Sample.helloManifest.digest Sample.helloBytes)
        Sample.helloManifest = .ok Sample.helloBytes := by
      simp [Oci.Storage.fetch, valid]
    rw [← failed]
    exact successors_congr rfl fetched

end OrasGo
