import OrasGo.Base.CreateTemp
import OrasGo.Credentials.FileStore

/-! Changes of the configuration whose saving may fail at any step. -/

namespace OrasGo.Credentials
open Iteration Auth

/-- The directory of the configuration file, with the temporary files of `Ingest`. -/
structure ConfigDir (Data : Type) where
  file : ConfigFile Data
  temps : Fields Data := ∅

/-- What the file system does during a save: the steps that fail, the random strings that
`os.CreateTemp` tries, and what the temporary file contains when `Ingest` stops early. -/
structure DirFaults (Data : Type) where
  mkdir : Option Error := none
  createTemp : Option Error := none
  randoms : List String := []
  chmod : Option Error := none
  copy : Option Error := none
  written : Data
  close : Option Error := none
  rename : Option Error := none

/-- The calls that change a configuration. -/
inductive ConfigCall
  | putCredential (serverAddress : String) (cred : Credential)
  | deleteCredential (serverAddress : String)
  | setCredentialsStore (credsStore : String)

variable {Raw Entry Data : Type}

namespace DirFaults
variable (faults : DirFaults Data)

/-- `os.CreateTemp` for `Ingest`. -/
def tempName (temps : Fields Data) : Except Error String :=
  TempFile.create faults.createTemp (.fileSystem "file exists") "oras_credstore_temp_" faults.randoms temps

end DirFaults

namespace ConfigDir

/-- `os.Remove` of a temporary file. The empty path is that of no file. -/
def remove (d : ConfigDir Data) (path : String) : ConfigDir Data :=
  if path = "" then d else { d with temps := d.temps.erase path }

/-- The body of `Ingest` once the file is created, with the results as `return` assigns them. -/
def ingestBody (faults : DirFaults Data) (d : ConfigDir Data) (path : String) (content : Data) :
    (String × Option Error) × ConfigDir Data :=
  match faults.chmod, faults.copy with
  | some err, _ =>
    (("", some (.wrap "failed to ensure permission" err)), { d with temps := d.temps.insert path faults.written })
  | none, some err =>
    (("", some (.wrap "failed to ingest" err)), { d with temps := d.temps.insert path faults.written })
  | none, none => ((path, none), { d with temps := d.temps.insert path content })

/-- The function that `Ingest` defers. It reads and writes the results. -/
def closeIngest (faults : DirFaults Data) :
    (String × Option Error) × ConfigDir Data → (String × Option Error) × ConfigDir Data
  | ((path, ingestErr), d) =>
    let ingestErr := match faults.close, ingestErr with
      | some err, none => some (.wrap "failed to close ingest file" err)
      | _, ingestErr => ingestErr
    if ingestErr.isSome then ((path, ingestErr), d.remove path) else ((path, ingestErr), d)

/-- `Ingest`. -/
def ingest (faults : DirFaults Data) (d : ConfigDir Data) (content : Data) : (String × Option Error) × ConfigDir Data :=
  match faults.tempName d.temps with
  | .error err => (("", some (.wrap "failed to create ingest file" err)), d)
  | .ok path => closeIngest faults (ingestBody faults d path content)

end ConfigDir

namespace Encoding
variable (enc : Encoding Raw Entry Data)

/-- `saveFile`, with the directory it works in. -/
def saveFileIn (dir : String → String) (faults : DirFaults Data) (cfg : Config Raw Entry) (d : ConfigDir Data) :
    Option Error × Config Raw Entry × ConfigDir Data :=
  match cfg.content with
  | none => (some (.panicked "assignment to entry in nil map"), cfg, d)
  | some content =>
    let content := enc.savedContent cfg content
    let cfg := { cfg with content := some content }
    match faults.mkdir with
    | some err => (some (.wrap ("failed to make directory " ++ dir cfg.path) err), cfg, d)
    | none =>
      match d.ingest faults (enc.marshalContent content) with
      | ((_, some err), d) => (some (.wrap "failed to save config file" err), cfg, d)
      | ((ingest, none), d) =>
        match faults.rename with
        | some err => (some (.wrap "failed to save config file" err), cfg, d.remove ingest)
        | none =>
          (none, cfg, { file := .text ((d.temps.lookup ingest).getD faults.written), temps := d.temps.erase ingest })

/-- What a call does in memory before it saves the file. There is nothing to save if the
credential to delete is not there. -/
def change (cfg : Config Raw Entry) : ConfigCall → Option (Config Raw Entry)
  | .putCredential serverAddress cred =>
    some { cfg with
      authsCache := cfg.authsCache.insert serverAddress (enc.marshalAuthConfig (enc.newAuthConfig cred)) }
  | .deleteCredential serverAddress =>
    if serverAddress ∈ cfg.authsCache then some { cfg with authsCache := cfg.authsCache.erase serverAddress } else none
  | .setCredentialsStore credsStore => some { cfg with credentialsStore := credsStore }

/-- A call, with the directory it works in. -/
def callIn (dir : String → String) (faults : DirFaults Data) (cfg : Config Raw Entry) (d : ConfigDir Data)
    (call : ConfigCall) : Option Error × Config Raw Entry × ConfigDir Data :=
  match enc.change cfg call with
  | none => (none, cfg, d)
  | some changed => enc.saveFileIn dir faults changed d

/-- The calls as they are without the directory. -/
def callOn (dir : String → String) (faults : SaveFaults) (cfg : Config Raw Entry) (file : ConfigFile Data) :
    ConfigCall → Option Error × Config Raw Entry × ConfigFile Data
  | .putCredential serverAddress cred => enc.putCredential dir faults cfg file serverAddress cred
  | .deleteCredential serverAddress => enc.deleteCredential dir faults cfg file serverAddress
  | .setCredentialsStore credsStore => enc.setCredentialsStore dir faults cfg file credsStore

end Encoding

/-! ### What a save leaves behind -/

section
variable {faults : DirFaults Data} {d : ConfigDir Data} {content : Data}

/-- `Ingest` does not come to the end of its file. -/
def DirFaults.Interrupted (faults : DirFaults Data) : Prop := faults.chmod ≠ none ∨ faults.copy ≠ none

/-- The outcomes of `Ingest`: a file with the content, nothing at all, or a file that is
not removed because the path is already lost. -/
inductive Ingested (faults : DirFaults Data) (d : ConfigDir Data) (content : Data) :
    (String × Option Error) × ConfigDir Data → Prop
  | refused (err : Error) (named : ∀ path, faults.tempName d.temps ≠ .ok path) :
      Ingested faults d content (("", some err), d)
  | left (path : String) (err : Error) (named : faults.tempName d.temps = .ok path) (stopped : faults.Interrupted) :
      Ingested faults d content (("", some err), { d with temps := d.temps.insert path faults.written })
  | removed (path : String) (err : Error) (whole : ¬ faults.Interrupted) (closed : faults.close ≠ none) :
      Ingested faults d content ((path, some err), d)
  | made (path : String) (named : faults.tempName d.temps = .ok path) (whole : ¬ faults.Interrupted)
      (closed : faults.close = none) :
      Ingested faults d content ((path, none), { d with temps := d.temps.insert path content })

theorem ConfigDir.remove_insert {path : String} (named : faults.tempName d.temps = .ok path) :
    ({ d with temps := d.temps.insert path content } : ConfigDir Data).remove path = d := by
  obtain ⟨fresh, proper⟩ := TempFile.create_ok (by decide) named
  rw [ConfigDir.remove, if_neg proper]
  simp only [TempFile.erase_insert fresh]

theorem ConfigDir.ingested (faults : DirFaults Data) (d : ConfigDir Data) (content : Data) :
    Ingested faults d content (d.ingest faults content) := by
  rw [ConfigDir.ingest]
  split
  · rename_i err failed
    exact .refused _ fun path named => by rw [failed] at named; cases named
  · rename_i path named
    rw [ConfigDir.ingestBody]
    split
    · rename_i err stopped
      have lost : faults.Interrupted := .inl (by rw [stopped]; exact Option.some_ne_none _)
      cases closed : faults.close <;> simp only [ConfigDir.closeIngest, closed, ConfigDir.remove, if_true, Option.isSome] <;>
        exact .left path _ named lost
    · rename_i err unchanged stopped
      have lost : faults.Interrupted := .inr (by rw [stopped]; exact Option.some_ne_none _)
      cases closed : faults.close <;> simp only [ConfigDir.closeIngest, closed, ConfigDir.remove, if_true, Option.isSome] <;>
        exact .left path _ named lost
    · rename_i changed copied
      have whole : ¬ faults.Interrupted := by simp [DirFaults.Interrupted, changed, copied]
      cases closed : faults.close with
      | none =>
        simp only [ConfigDir.closeIngest, closed, Option.isSome, Bool.false_eq_true, if_false]
        exact .made path named whole closed
      | some err =>
        simp only [ConfigDir.closeIngest, closed, Option.isSome, if_true, ConfigDir.remove_insert named]
        exact .removed path _ whole (by rw [closed]; exact Option.some_ne_none _)

/-- Some step of a save fails. -/
def DirFaults.Fails (faults : DirFaults Data) (d : ConfigDir Data) : Prop :=
  faults.mkdir ≠ none ∨ (∀ path, faults.tempName d.temps ≠ .ok path) ∨ faults.Interrupted ∨ faults.close ≠ none ∨
    faults.rename ≠ none

/-- A save leaves its temporary file behind. -/
def DirFaults.Leaves (faults : DirFaults Data) (d : ConfigDir Data) : Prop :=
  faults.mkdir = none ∧ (∃ path, faults.tempName d.temps = .ok path) ∧ faults.Interrupted

/-- The outcomes of `saveFile`. The configuration in memory is that of the call in any case. -/
inductive SaveOutcome (enc : Encoding Raw Entry Data) (faults : DirFaults Data) (cfg : Config Raw Entry)
    (d : ConfigDir Data) : Option Error × Config Raw Entry × ConfigDir Data → Prop
  | panicked (message : String) (nil : cfg.content = none) :
      SaveOutcome enc faults cfg d (some (.panicked message), cfg, d)
  | clean (content : Fields Raw) (message : String) (err : Error) (old : cfg.content = some content) (fails : faults.Fails d)
      (tidy : ¬ faults.Leaves d) :
      SaveOutcome enc faults cfg d
        (some (.wrap message err), { cfg with content := some (enc.savedContent cfg content) }, d)
  | littered (content : Fields Raw) (message : String) (err : Error) (path : String) (old : cfg.content = some content)
      (leaves : faults.Leaves d) (fresh : path ∉ d.temps) :
      SaveOutcome enc faults cfg d
        (some (.wrap message err), { cfg with content := some (enc.savedContent cfg content) },
          { d with temps := d.temps.insert path faults.written })
  | saved (content : Fields Raw) (old : cfg.content = some content) (works : ¬ faults.Fails d) :
      SaveOutcome enc faults cfg d
        (none, { cfg with content := some (enc.savedContent cfg content) },
          { d with file := .text (enc.marshalContent (enc.savedContent cfg content)) })

theorem Encoding.saveFileIn_outcome (enc : Encoding Raw Entry Data) (dir : String → String) (faults : DirFaults Data)
    (cfg : Config Raw Entry) (d : ConfigDir Data) : SaveOutcome enc faults cfg d (enc.saveFileIn dir faults cfg d) := by
  rw [Encoding.saveFileIn]
  split
  · rename_i nil
    exact .panicked _ nil
  · rename_i content old
    dsimp only
    split
    · rename_i err failed
      have fails : faults.mkdir ≠ none := by rw [failed]; exact Option.some_ne_none _
      exact .clean content _ err old (.inl fails) fun leaves => fails leaves.1
    · rename_i made
      have outcome := d.ingested faults (enc.marshalContent (enc.savedContent cfg content))
      generalize d.ingest faults (enc.marshalContent (enc.savedContent cfg content)) = ingested at outcome ⊢
      cases outcome with
      | refused err named =>
        refine .clean content _ err old (.inr (.inl named)) fun leaves => ?_
        obtain ⟨path, found⟩ := leaves.2.1
        exact named path found
      | left path err named stopped =>
        have fresh := (TempFile.create_ok (by decide) named).1
        exact .littered content _ err path old ⟨made, ⟨path, named⟩, stopped⟩ fresh
      | removed path err whole closed =>
        exact .clean content _ err old (.inr (.inr (.inr (.inl closed)))) fun leaves => whole leaves.2.2
      | made path named whole closed =>
        dsimp only
        split
        · rename_i err failed
          have fails : faults.rename ≠ none := by rw [failed]; exact Option.some_ne_none _
          rw [ConfigDir.remove_insert named]
          exact .clean content _ err old (.inr (.inr (.inr (.inr fails)))) fun leaves => whole leaves.2.2
        · rename_i renamed
          have works : ¬ faults.Fails d := by
            rintro (failed | unnamed | stopped | unclosed | failed)
            · exact failed made
            · exact unnamed path named
            · exact whole stopped
            · exact unclosed closed
            · exact failed renamed
          rw [Finmap.lookup_insert, Option.getD_some, TempFile.erase_insert (TempFile.create_ok (by decide) named).1]
          exact .saved content old works

/-- What `saveFile` sees of the directory. -/
def DirFaults.onSave (enc : Encoding Raw Entry Data) (faults : DirFaults Data) (cfg : Config Raw Entry)
    (d : ConfigDir Data) : SaveFaults where
  mkdir := faults.mkdir
  ingest := cfg.content.bind fun content => (d.ingest faults (enc.marshalContent (enc.savedContent cfg content))).1.2
  rename := faults.rename

theorem Encoding.saveFileIn_file (enc : Encoding Raw Entry Data) (dir : String → String) (faults : DirFaults Data)
    (cfg : Config Raw Entry) (d : ConfigDir Data) :
    enc.saveFile dir (faults.onSave enc cfg d) cfg d.file =
      ((enc.saveFileIn dir faults cfg d).1, (enc.saveFileIn dir faults cfg d).2.1,
        (enc.saveFileIn dir faults cfg d).2.2.file) := by
  rw [Encoding.saveFile, Encoding.saveFileIn]
  cases old : cfg.content with
  | none => rfl
  | some content =>
    simp only [DirFaults.onSave, old, Option.bind_some]
    cases made : faults.mkdir with
    | some err => rfl
    | none =>
      have outcome := d.ingested faults (enc.marshalContent (enc.savedContent cfg content))
      generalize d.ingest faults (enc.marshalContent (enc.savedContent cfg content)) = ingested at outcome ⊢
      cases outcome with
      | refused | left | removed => rfl
      | made path named whole closed =>
        cases renamed : faults.rename with
        | some err => simp only [ConfigDir.remove_insert named]
        | none => simp only [Finmap.lookup_insert, Option.getD_some]

end

/-! ### Errors that leave no trace -/

section
variable {enc : Encoding Raw Entry Data} {cfg cfg' : Config Raw Entry} {d : ConfigDir Data} {faults : DirFaults Data}
  {dir : String → String} {call : ConfigCall}

/-- The configurations give the same credentials and have the same credentials store. -/
structure AnswersKept (enc : Encoding Raw Entry Data) (cfg cfg' : Config Raw Entry) : Prop where
  credentials : ∀ t result, Gives enc cfg' t result ↔ Gives enc cfg t result
  credentialsStore : cfg'.credentialsStore = cfg.credentialsStore

/-- The call returns, and if it returns an error then nothing has changed that can be seen. -/
structure ErrorAtomic (enc : Encoding Raw Entry Data) (cfg : Config Raw Entry) (d : ConfigDir Data)
    (out : Option Error × Config Raw Entry × ConfigDir Data) : Prop where
  returns : ∀ message, out.1 ≠ some (.panicked message)
  file : out.1 ≠ none → out.2.2.file = d.file
  temps : out.1 ≠ none → out.2.2.temps = d.temps
  answers : out.1 ≠ none → AnswersKept enc cfg out.2.1

theorem Encoding.change_content (changed : enc.change cfg call = some cfg') : cfg'.content = cfg.content := by
  cases call with
  | putCredential serverAddress cred =>
    cases changed
    rfl
  | deleteCredential serverAddress =>
    rw [Encoding.change, Option.ite_none_right_eq_some] at changed
    obtain ⟨-, changed⟩ := changed
    cases changed
    rfl
  | setCredentialsStore credsStore =>
    cases changed
    rfl

/-- Only the deletion of a credential that is not there has nothing to save. -/
theorem Encoding.change_isSome (enc : Encoding Raw Entry Data) :
    (enc.change cfg call).isSome = true ↔ ∀ s, call = .deleteCredential s → s ∈ cfg.authsCache := by
  cases call with
  | putCredential serverAddress cred => exact iff_of_true rfl fun s impossible => by cases impossible
  | deleteCredential serverAddress => simp [Encoding.change]
  | setCredentialsStore credsStore => exact iff_of_true rfl fun s impossible => by cases impossible

theorem Encoding.callIn_file (enc : Encoding Raw Entry Data) (dir : String → String) (faults : DirFaults Data)
    (cfg : Config Raw Entry) (d : ConfigDir Data) (call : ConfigCall) :
    enc.callOn dir (faults.onSave enc ((enc.change cfg call).getD cfg) d) cfg d.file call =
      ((enc.callIn dir faults cfg d call).1, (enc.callIn dir faults cfg d call).2.1,
        (enc.callIn dir faults cfg d call).2.2.file) := by
  cases call with
  | putCredential | setCredentialsStore => exact enc.saveFileIn_file dir faults _ d
  | deleteCredential serverAddress =>
    by_cases present : serverAddress ∈ cfg.authsCache
    · simp only [Encoding.callOn, Encoding.deleteCredential, Encoding.callIn, Encoding.change, if_pos present,
        Option.getD_some]
      exact enc.saveFileIn_file dir faults _ d
    · simp only [Encoding.callOn, Encoding.deleteCredential, Encoding.callIn, Encoding.change, if_neg present]

/-- An entry for `s` with this result changes no lookup in the entries, of which none is for `s`:
the address gives just that already, and its hostname, if it has no own entry either, may give it. -/
structure Redundant (enc : Encoding Raw Entry Data) (entries : Fields Entry) (s : String)
    (result : Except Error Credential) : Prop where
  own : ∀ r, Found enc entries s r → r = result
  hostname : toHostname s ∉ entries → Found enc entries (toHostname s) result

/-- No lookup can tell the change of the call from the entries that are there. -/
def Unseen (enc : Encoding Raw Entry Data) (cfg : Config Raw Entry) : ConfigCall → Prop
  | .putCredential s cred =>
    let result := enc.entryCredential (enc.marshalAuthConfig (enc.newAuthConfig cred))
    match cfg.authsCache.lookup s with
    | some entry => enc.entryCredential entry = result
    | none => Redundant enc cfg.authsCache s result
  | .deleteCredential s =>
    ∀ entry, cfg.authsCache.lookup s = some entry → Redundant enc (cfg.authsCache.erase s) s (enc.entryCredential entry)
  | .setCredentialsStore credsStore => credsStore = cfg.credentialsStore

section
variable {s : String} {entry : Entry} (rest : ∀ t, t ≠ s → cfg'.authsCache.lookup t = cfg.authsCache.lookup t)
  (own : cfg'.authsCache.lookup s = some entry)
include rest own

/-- The lookups of an address with the hostname of `s` also see the entry for `s`. -/
theorem gives_hostname (absent : toHostname s ∉ cfg.authsCache) (other : toHostname s ≠ s) (result : Except Error Credential) :
    Gives enc cfg' (toHostname s) result ↔ enc.entryCredential entry = result ∨ ∃ addr e, addr ≠ s ∧
      cfg.authsCache.lookup addr = some e ∧ toHostname addr = toHostname s ∧ enc.entryCredential e = result := by
  rw [Encoding.gives_iff ((rest _ other).trans (Finmap.lookup_eq_none.mpr absent))]
  constructor
  · rintro (⟨addr, e, found, matched, rfl⟩ | ⟨nothing, -⟩)
    · by_cases same : addr = s
      · subst same
        rw [own] at found
        exact .inl (congrArg _ (Option.some.inj found))
      · exact .inr ⟨addr, e, same, (rest addr same).symm.trans found, matched, rfl⟩
    · exact absurd rfl (nothing s (Finmap.mem_of_lookup_eq_some own))
  · rintro (same | ⟨addr, e, differs, found, matched, result⟩)
    · exact .inl ⟨s, entry, own, rfl, same⟩
    · exact .inl ⟨addr, e, (rest addr differs).trans found, matched, result⟩

/-- A new entry is not seen exactly if it is redundant. -/
theorem gives_added_iff (absent : s ∉ cfg.authsCache) :
    (∀ t result, Gives enc cfg' t result ↔ Gives enc cfg t result) ↔
      Redundant enc cfg.authsCache s (enc.entryCredential entry) := by
  have before := Finmap.lookup_eq_none.mpr absent
  constructor
  · intro kept
    refine ⟨fun r found => ?_, fun unknown => ?_⟩
    · have gives := (kept s r).mpr ((Encoding.gives_iff before r).mpr found)
      exact ((Encoding.gives_of_entry own r).mp gives).symm
    · rw [← Encoding.gives_iff (Finmap.lookup_eq_none.mpr unknown), ← kept]
      by_cases same : toHostname s = s
      · rw [same, Encoding.gives_of_entry own]
      · exact (gives_hostname rest own unknown same _).mpr (.inl rfl)
  · intro redundant t result
    by_cases same : t = s
    · subst same
      obtain ⟨r, found⟩ : ∃ r, Found enc cfg.authsCache t r :=
        ⟨_, (Encoding.gives_iff before _).mp ⟨Enumeration.startingWith t, rfl⟩⟩
      rw [Encoding.gives_of_entry own, Encoding.gives_iff before]
      constructor
      · rintro rfl
        exact redundant.own r found ▸ found
      · intro found'
        exact (redundant.own result found').symm
    · by_cases unrelated : t ∈ cfg.authsCache ∨ toHostname s ≠ t
      · exact Encoding.gives_elsewhere rest same unrelated result
      · obtain ⟨unknown, rfl⟩ : t ∉ cfg.authsCache ∧ toHostname s = t := by simpa using unrelated
        have found := redundant.hostname unknown
        rw [gives_hostname rest own unknown same, Encoding.gives_iff (Finmap.lookup_eq_none.mpr unknown)]
        constructor
        · rintro (rfl | ⟨addr, e, -, stored, matched, result⟩)
          · exact found
          · exact .inl ⟨addr, e, stored, matched, result⟩
        · rintro (⟨addr, e, stored, matched, result⟩ | ⟨nothing, rfl⟩)
          · refine .inr ⟨addr, e, ?_, stored, matched, result⟩
            rintro rfl
            exact absent (Finmap.mem_of_lookup_eq_some stored)
          · rcases found with ⟨addr, e, stored, matched, -⟩ | ⟨-, empty⟩
            · exact absurd matched (nothing addr (Finmap.mem_of_lookup_eq_some stored))
            · exact .inl empty

/-- An entry that is replaced is not seen exactly if the new one has the same credential. -/
theorem gives_replaced_iff {old : Entry} (before : cfg.authsCache.lookup s = some old) :
    (∀ t result, Gives enc cfg' t result ↔ Gives enc cfg t result) ↔
      enc.entryCredential old = enc.entryCredential entry := by
  constructor
  · intro kept
    have gives := (kept s _).mp ((Encoding.gives_of_entry own _).mpr rfl)
    exact (Encoding.gives_of_entry before _).mp gives
  · intro agree t result
    by_cases same : t = s
    · subst same
      rw [Encoding.gives_of_entry own, Encoding.gives_of_entry before, agree]
    · by_cases unrelated : t ∈ cfg.authsCache ∨ toHostname s ≠ t
      · exact Encoding.gives_elsewhere rest same unrelated result
      · obtain ⟨unknown, rfl⟩ : t ∉ cfg.authsCache ∧ toHostname s = t := by simpa using unrelated
        rw [gives_hostname rest own unknown same, gives_hostname (fun _ _ => rfl) before unknown same, agree]

end

/-- The answers are kept exactly if the change is not seen in the entries. -/
theorem answersKept_iff (changed : enc.change cfg call = some cfg') : AnswersKept enc cfg cfg' ↔ Unseen enc cfg call := by
  have iff_credentials (same : cfg'.credentialsStore = cfg.credentialsStore) :
      AnswersKept enc cfg cfg' ↔ ∀ t result, Gives enc cfg' t result ↔ Gives enc cfg t result :=
    ⟨fun kept => kept.credentials, fun kept => ⟨kept, same⟩⟩
  cases call with
  | putCredential s cred =>
    cases changed
    rw [iff_credentials rfl, Unseen]
    have rest (t : String) (other : t ≠ s) := Finmap.lookup_insert_of_ne (b := enc.marshalAuthConfig (enc.newAuthConfig cred))
      cfg.authsCache other
    have own := Finmap.lookup_insert cfg.authsCache (a := s) (b := enc.marshalAuthConfig (enc.newAuthConfig cred))
    cases before : cfg.authsCache.lookup s with
    | some entry => exact gives_replaced_iff rest own before
    | none => exact gives_added_iff rest own (Finmap.lookup_eq_none.mp before)
  | deleteCredential s =>
    rw [Encoding.change, Option.ite_none_right_eq_some] at changed
    obtain ⟨present, changed⟩ := changed
    obtain ⟨entry, found⟩ := Finmap.mem_iff.mp present
    cases changed
    have rest (t : String) (other : t ≠ s) := (Finmap.lookup_erase_ne (s := cfg.authsCache) other).symm
    let erased : Config Raw Entry := { cfg with authsCache := cfg.authsCache.erase s }
    have absent : s ∉ erased.authsCache := Finmap.notMem_erase_self
    have added : (∀ t result, Gives enc cfg t result ↔ Gives enc erased t result) ↔ _ := gives_added_iff rest found absent
    rw [iff_credentials rfl, Unseen]
    simp only [found, Option.some.injEq, forall_eq']
    rw [← added]
    exact forall₂_congr fun t result => Iff.comm
  | setCredentialsStore credsStore =>
    cases changed
    exact ⟨fun kept => kept.credentialsStore, fun same => ⟨fun t result => .rfl, same⟩⟩

theorem answersKept_content {content : Option (Fields Raw)} :
    AnswersKept enc cfg { cfg' with content } ↔ AnswersKept enc cfg cfg' :=
  ⟨fun kept => ⟨kept.credentials, kept.credentialsStore⟩, fun kept => ⟨kept.credentials, kept.credentialsStore⟩⟩

theorem ErrorAtomic.of_nil {out : Option Error × Config Raw Entry × ConfigDir Data} (nil : out.1 = none) :
    ErrorAtomic enc cfg d out where
  returns message panicked := by rw [nil] at panicked; cases panicked
  file failed := absurd nil failed
  temps failed := absurd nil failed
  answers failed := absurd nil failed

theorem SaveOutcome.errorAtomic_iff {out : Option Error × Config Raw Entry × ConfigDir Data}
    (outcome : SaveOutcome enc faults cfg' d out) :
    ErrorAtomic enc cfg d out ↔
      cfg'.content ≠ none ∧ (faults.Fails d → ¬ faults.Leaves d ∧ AnswersKept enc cfg cfg') := by
  cases outcome with
  | panicked message nil =>
    constructor
    · intro atomic
      exact absurd rfl (atomic.returns message)
    · intro condition
      exact absurd nil condition.1
  | clean content message err old fails tidy =>
    have present : cfg'.content ≠ none := by rw [old]; exact Option.some_ne_none _
    constructor
    · intro atomic
      exact ⟨present, fun _ => ⟨tidy, answersKept_content.mp (atomic.answers (Option.some_ne_none _))⟩⟩
    · intro condition
      have kept := (condition.2 fails).2
      exact ⟨(fun text same => by cases same), fun _ => rfl, fun _ => rfl, fun _ => answersKept_content.mpr kept⟩
  | littered content message err path old leaves fresh =>
    constructor
    · intro atomic
      exact absurd (atomic.temps (Option.some_ne_none _)) (TempFile.insert_ne fresh _)
    · intro condition
      exact absurd leaves (condition.2 (.inr (.inr (.inl leaves.2.2)))).1
  | saved content old works =>
    have present : cfg'.content ≠ none := by rw [old]; exact Option.some_ne_none _
    exact iff_of_true (.of_nil rfl) ⟨present, fun fails => absurd fails works⟩

/-- A call is error-atomic exactly if it has nothing to save, or there is a map to write to and
a failing save neither stops inside `Ingest` nor follows a change that the entries show. -/
theorem callIn_errorAtomic_iff (enc : Encoding Raw Entry Data) (dir : String → String) (faults : DirFaults Data)
    (cfg : Config Raw Entry) (d : ConfigDir Data) (call : ConfigCall) :
    ErrorAtomic enc cfg d (enc.callIn dir faults cfg d call) ↔
      ((∀ s, call = .deleteCredential s → s ∈ cfg.authsCache) →
        cfg.content ≠ none ∧ (faults.Fails d → ¬ faults.Leaves d ∧ Unseen enc cfg call)) := by
  rw [Encoding.callIn, ← Encoding.change_isSome enc]
  cases change : enc.change cfg call with
  | none => exact iff_of_true (.of_nil rfl) fun impossible => by cases impossible
  | some changed =>
    rw [(enc.saveFileIn_outcome dir faults changed d).errorAtomic_iff, Encoding.change_content change,
      answersKept_iff change]
    exact ⟨fun condition _ => condition, fun condition => condition rfl⟩

end

/-! A save that fails, with no file yet and with a file that contains `null`. -/

namespace Unsaved

def decodeContent : Option (Fields Legacy.Value) → Decoded Legacy.Value
  | none => .null
  | some fields => .object fields

def encoding : Encoding Legacy.Value AuthConfig (Option (Fields Legacy.Value)) :=
  { Legacy.encoding with marshalContent := some, decodeContent, content := fun _ => rfl }

def config : Config Legacy.Value AuthConfig := { path := "config.json" }

def nullConfig : Config Legacy.Value AuthConfig := { path := "config.json", content := none }

def call : ConfigCall := .putCredential "registry.example" Legacy.newCred

/-- The permission of the temporary file cannot be changed. -/
def unchanged : DirFaults (Option (Fields Legacy.Value)) :=
  { randoms := ["1"], chmod := some (.fileSystem "operation not permitted"), written := none }

/-- The temporary file cannot be renamed. -/
def unrenamed : DirFaults (Option (Fields Legacy.Value)) :=
  { randoms := ["1"], rename := some (.fileSystem "permission denied"), written := none }

theorem answered_before (order : Enumeration String) (t : String) :
    encoding.getCredential order config t = .ok emptyCredential := by
  have absent : config.authsCache.lookup t = none := Finmap.lookup_empty t
  obtain ⟨addr, entry, found, -⟩ | ⟨-, empty⟩ := (Encoding.gives_iff absent _).mp ⟨order, rfl⟩
  · rw [config, Finmap.lookup_empty] at found
    cases found
  · exact empty

theorem changed : ¬ AnswersKept encoding config (encoding.callIn id unrenamed config { file := .missing } call).2.1 := by
  intro kept
  have after : encoding.getCredential (.startingWith "")
      (encoding.callIn id unrenamed config { file := .missing } call).2.1 "registry.example" = .ok Legacy.newCred :=
    getCredential_of_entry (by decide) (Finmap.lookup_insert _) _
  obtain ⟨order, before⟩ := (kept.credentials "registry.example" (.ok Legacy.newCred)).mp ⟨_, after⟩
  rw [answered_before] at before
  exact absurd (Except.ok.inj before) (by decide)

end Unsaved

/-- A credential that could not be saved is returned; the temporary file stays when its
permission cannot be changed; and with a file that contains `null` the call panics. -/
theorem callIn_not_errorAtomic :
    Unsaved.encoding.load "config.json" .missing = .ok Unsaved.config ∧
    ¬ ErrorAtomic Unsaved.encoding Unsaved.config { file := .missing }
      (Unsaved.encoding.callIn id Unsaved.unrenamed Unsaved.config { file := .missing } Unsaved.call) ∧
    ¬ ErrorAtomic Unsaved.encoding Unsaved.config { file := .missing }
      (Unsaved.encoding.callIn id Unsaved.unchanged Unsaved.config { file := .missing } Unsaved.call) ∧
    Unsaved.encoding.load "config.json" (.text none) = .ok Unsaved.nullConfig ∧
    ¬ ErrorAtomic Unsaved.encoding Unsaved.nullConfig { file := .text none }
      (Unsaved.encoding.callIn id Unsaved.unrenamed Unsaved.nullConfig { file := .text none } Unsaved.call) := by
  refine ⟨rfl, fun atomic => ?_, fun atomic => ?_, rfl, fun atomic => ?_⟩
  · exact Unsaved.changed (atomic.answers (Option.some_ne_none _))
  · have left : (Unsaved.encoding.callIn id Unsaved.unchanged Unsaved.config { file := .missing }
        Unsaved.call).2.2.temps.lookup "oras_credstore_temp_1" = some none := rfl
    rw [atomic.temps (Option.some_ne_none _), Finmap.lookup_empty] at left
    cases left
  · exact atomic.returns _ rfl

end OrasGo.Credentials
