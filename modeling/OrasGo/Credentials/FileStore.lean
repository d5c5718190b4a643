import OrasGo.Credentials.Config

/-! What `FileStore.Put` writes is read back, and nothing else changes. -/

namespace OrasGo.Credentials
open Iteration Auth

variable {Raw Entry Data : Type} {enc : Encoding Raw Entry Data} {cfg : Config Raw Entry} {s t : String}
  {cred : Credential}

/-- The results that a lookup can have, whatever the order of the map. -/
def Gives (enc : Encoding Raw Entry Data) (cfg : Config Raw Entry) (t : String) (result : Except Error Credential) : Prop :=
  ∃ order, enc.getCredential order cfg t = result

/-- Beside the entry for `s`, the two configurations say the same. -/
structure Kept (enc : Encoding Raw Entry Data) (s : String) (before after : Config Raw Entry) : Prop where
  others : ∀ t, t ≠ s → t ∈ before.authsCache ∨ toHostname s ≠ t → ∀ result, Gives enc after t result ↔ Gives enc before t result
  entries : ∀ t, t ≠ s → after.authsCache.lookup t = before.authsCache.lookup t
  credentialsStore : after.credentialsStore = before.credentialsStore
  credentialHelpers : after.credentialHelpers = before.credentialHelpers
  fields : ∀ name, name ≠ "auths" → name ≠ "credsStore" →
    after.content.bind (·.lookup name) = before.content.bind (·.lookup name)

/-- What a lookup of an address without an entry of its own may find in these entries. -/
def Found (enc : Encoding Raw Entry Data) (entries : Fields Entry) (t : String) (result : Except Error Credential) : Prop :=
  (∃ addr entry, entries.lookup addr = some entry ∧ toHostname addr = t ∧ enc.entryCredential entry = result) ∨
    (∀ addr ∈ entries, toHostname addr ≠ t) ∧ result = .ok emptyCredential

namespace Encoding

theorem encodeToString_ne_empty {text : String} (nonempty : text ≠ "") : enc.encodeToString text ≠ "" := by
  intro empty
  have decoded := enc.base64 text
  rw [empty, ← enc.base64_empty, enc.base64] at decoded
  exact nonempty (Except.ok.inj decoded).symm

theorem credential_newAuthConfig (valid : ':' ∉ cred.username.toList) :
    enc.credential (enc.newAuthConfig cred) = .ok cred := by
  by_cases blank : cred.username = "" ∧ cred.password = ""
  · obtain ⟨username, password, refreshToken, accessToken⟩ := cred
    obtain ⟨rfl, rfl⟩ := blank
    simp [credential, newAuthConfig, encodeAuth]
  · have joined : cred.username ++ ":" ++ cred.password ≠ "" := by
      intro empty
      have length := congrArg (fun text => text.toList.length) empty
      simp at length
    have encoded : enc.encodeToString (cred.username ++ ":" ++ cred.password) ≠ "" := encodeToString_ne_empty joined
    have cut : Text.cut ':' (cred.username ++ ":" ++ cred.password) = some (cred.username, cred.password) :=
      Text.cut_join valid
    simp [credential, newAuthConfig, encodeAuth, decodeAuth, blank, encoded, enc.base64, cut]

theorem gives_iff (absent : cfg.authsCache.lookup t = none) (result : Except Error Credential) :
    Gives enc cfg t result ↔ Found enc cfg.authsCache t result := by
  constructor
  · rintro ⟨order, rfl⟩
    rw [getCredential, absent]
    dsimp only
    split
    · rename_i e found
      have matched : toHostname e.1 = t := by simpa using List.find?_some found
      exact .inl ⟨e.1, e.2, Enumeration.mem_entries.mp (List.mem_of_find?_eq_some found), matched, rfl⟩
    · rename_i nothing
      refine .inr ⟨fun addr member matched => ?_, rfl⟩
      obtain ⟨entry, found⟩ := Finmap.mem_iff.mp member
      have differs := List.find?_eq_none.mp nothing (addr, entry) (Enumeration.mem_entries.mpr found)
      simp [matched] at differs
  · rintro (⟨addr, entry, found, matched, rfl⟩ | ⟨nothing, rfl⟩)
    · -- the order that comes to this entry first
      obtain ⟨rest, first⟩ := Enumeration.startingWith_entries found
      refine ⟨Enumeration.startingWith addr, ?_⟩
      simp [getCredential, absent, first, matched]
    · refine ⟨Enumeration.startingWith t, ?_⟩
      have missed : ((Enumeration.startingWith t).entries cfg.authsCache).find? (fun e => toHostname e.1 = t) = none := by
        rw [List.find?_eq_none]
        intro e member
        have found := Enumeration.mem_entries.mp member
        simpa using nothing e.1 (Finmap.mem_of_lookup_eq_some found)
      simp [getCredential, absent, missed]

theorem gives_of_entry {entry : Entry} (own : cfg.authsCache.lookup t = some entry) (result : Except Error Credential) :
    Gives enc cfg t result ↔ enc.entryCredential entry = result := by
  have lookup (order : Enumeration String) : enc.getCredential order cfg t = enc.entryCredential entry := by
    rw [getCredential, own]
  constructor
  · rintro ⟨order, rfl⟩
    exact (lookup order).symm
  · rintro rfl
    exact ⟨Enumeration.startingWith t, lookup _⟩

theorem gives_congr {cfg' : Config Raw Entry} (own : cfg'.authsCache.lookup t = cfg.authsCache.lookup t)
    (hosts : cfg.authsCache.lookup t = none → ∀ addr, toHostname addr = t →
      cfg'.authsCache.lookup addr = cfg.authsCache.lookup addr) (result : Except Error Credential) :
    Gives enc cfg' t result ↔ Gives enc cfg t result := by
  cases entry : cfg.authsCache.lookup t with
  | some e => rw [gives_of_entry entry, gives_of_entry (own.trans entry)]
  | none =>
    have same := hosts entry
    have members : (∀ addr ∈ cfg'.authsCache, toHostname addr ≠ t) ↔ ∀ addr ∈ cfg.authsCache, toHostname addr ≠ t := by
      refine forall_congr' fun addr => ?_
      by_cases matched : toHostname addr = t
      · rw [← Finmap.lookup_isSome, ← Finmap.lookup_isSome, same addr matched]
      · simp [matched]
    rw [gives_iff (own.trans entry), gives_iff entry, Found, Found, members]
    refine or_congr_left (exists_congr fun addr => exists_congr fun e => ?_)
    constructor
    · rintro ⟨found, matched, gives⟩
      exact ⟨same addr matched ▸ found, matched, gives⟩
    · rintro ⟨found, matched, gives⟩
      exact ⟨(same addr matched).trans found, matched, gives⟩

/-- Addresses other than `s` and its hostname do not see the entry for `s`. -/
theorem gives_elsewhere {cfg' : Config Raw Entry}
    (rest : ∀ addr, addr ≠ s → cfg'.authsCache.lookup addr = cfg.authsCache.lookup addr) (other : t ≠ s)
    (unrelated : t ∈ cfg.authsCache ∨ toHostname s ≠ t) (result : Except Error Credential) :
    Gives enc cfg' t result ↔ Gives enc cfg t result := by
  refine gives_congr (rest t other) (fun absent addr matched => rest addr ?_) result
  rintro rfl
  rcases unrelated with member | differs
  · exact Finmap.lookup_eq_none.mp absent member
  · exact differs matched

variable {path : String} {file file' : ConfigFile Data} {dir : String → String} {faults : SaveFaults}
  {cfg' : Config Raw Entry}

/-- The helpers in memory are those of the content, as `saveFile` relies on. -/
def HelpersDecoded (enc : Encoding Raw Entry Data) (cfg : Config Raw Entry) : Prop :=
  enc.decodeCredentialHelpers cfg.content = .ok cfg.credentialHelpers

theorem loadContent_eq_ok {content : Option (Fields Raw)} :
    enc.loadContent path content = .ok cfg ↔
      cfg.path = path ∧ cfg.content = content ∧ enc.decodeCredentialsStore content = .ok cfg.credentialsStore ∧
        enc.decodeCredentialHelpers content = .ok cfg.credentialHelpers ∧ enc.decodeAuths content = .ok cfg.authsCache := by
  obtain ⟨cfgPath, cfgContent, authsCache, credentialsStore, credentialHelpers⟩ := cfg
  rw [loadContent]
  cases enc.decodeCredentialsStore content <;> cases enc.decodeCredentialHelpers content <;>
    cases enc.decodeAuths content <;> simp [bind, Except.bind, pure, Except.pure, eq_comm]
  tauto

theorem load_path (loaded : enc.load path file = .ok cfg) : cfg.path = path ∧ HelpersDecoded enc cfg := by
  have fresh : HelpersDecoded enc ({ path } : Config Raw Entry) := by
    simp [HelpersDecoded, decodeCredentialHelpers, decodeField]
  have decoded {content : Option (Fields Raw)} (loaded : enc.loadContent path content = .ok cfg) :
      cfg.path = path ∧ HelpersDecoded enc cfg := by
    obtain ⟨samePath, rfl, -, helpers, -⟩ := loadContent_eq_ok.mp loaded
    exact ⟨samePath, helpers⟩
  rw [load.eq_def] at loaded
  split at loaded
  · cases loaded
    exact ⟨rfl, fresh⟩
  · cases loaded
  · split at loaded
    · cases loaded
      exact ⟨rfl, fresh⟩
    · cases loaded
    · exact decoded loaded
    · exact decoded loaded

theorem savedContent_lookup_of_ne {content : Fields Raw} {name : String} (auths : name ≠ "auths")
    (credsStore : name ≠ "credsStore") : (enc.savedContent cfg content).lookup name = content.lookup name := by
  rw [savedContent, Finmap.lookup_insert_of_ne _ auths]
  split
  · exact Finmap.lookup_insert_of_ne _ credsStore
  · exact Finmap.lookup_erase_ne credsStore

theorem loadContent_savedContent {content : Fields Raw} (helpers : HelpersDecoded enc cfg)
    (old : cfg.content = some content) :
    enc.loadContent cfg.path (some (enc.savedContent cfg content)) =
      .ok { cfg with content := some (enc.savedContent cfg content) } := by
  refine loadContent_eq_ok.mpr ⟨rfl, rfl, ?_, ?_, ?_⟩
  · have other : "credsStore" ≠ "auths" := by decide
    by_cases empty : cfg.credentialsStore = ""
    · simp [decodeCredentialsStore, decodeField, savedContent, Finmap.lookup_insert_of_ne _ other, empty]
    · simp [decodeCredentialsStore, decodeField, savedContent, Finmap.lookup_insert_of_ne _ other, empty, enc.string]
  · have same : (enc.savedContent cfg content).lookup "credHelpers" = content.lookup "credHelpers" :=
      savedContent_lookup_of_ne (by decide) (by decide)
    rw [HelpersDecoded, old] at helpers
    simpa [decodeCredentialHelpers, decodeField, same] using helpers
  · simp [decodeAuths, decodeField, savedContent, enc.auths]

theorem saveFile_eq_none (saved : enc.saveFile dir faults cfg file = (none, cfg', file')) :
    ∃ content, cfg.content = some content ∧ cfg' = { cfg with content := some (enc.savedContent cfg content) } ∧
      file' = .text (enc.marshalContent (enc.savedContent cfg content)) := by
  rw [saveFile] at saved
  split at saved
  · cases saved
  · rename_i content old
    dsimp only at saved
    split at saved
    · cases saved
    · cases saved
    · cases saved
    · cases saved
      exact ⟨content, old, rfl, rfl⟩

end Encoding

section
variable {path : String} {file file' : ConfigFile Data} {dir : String → String} {faults : SaveFaults}
  {fs fs' : FileStore Raw Entry}

/-- `Put` accepts user names without a colon, and then saves the file. -/
theorem FileStore.put_eq_none (put : fs.put enc dir faults file s cred = (none, fs', file')) :
    ':' ∉ cred.username.toList ∧ enc.putCredential dir faults fs.config file s cred = (none, fs'.config, file') := by
  rw [FileStore.put] at put
  split at put
  · cases put
  · split at put
    · cases put
    · rename_i valid
      rw [validateCredentialFormat, ite_eq_right_iff] at valid
      refine ⟨fun colon => absurd (valid colon) (Option.some_ne_none _), ?_⟩
      rcases result : enc.putCredential dir faults fs.config file s cred with ⟨err, config, written⟩
      rw [result] at put
      cases put
      rfl

theorem getCredential_of_entry (valid : ':' ∉ cred.username.toList)
    (entry : cfg.authsCache.lookup s = some (enc.marshalAuthConfig (enc.newAuthConfig cred))) (order : Enumeration String) :
    enc.getCredential order cfg s = .ok cred := by
  simp [Encoding.getCredential, entry, Encoding.entryCredential, enc.authConfig, Encoding.credential_newAuthConfig valid]

theorem Kept.of_insert {entry : Entry} {content : Fields Raw} (old : cfg.content = some content) :
    Kept enc s cfg { cfg with
      authsCache := cfg.authsCache.insert s entry
      content := some (enc.savedContent { cfg with authsCache := cfg.authsCache.insert s entry } content) } where
  others t other unrelated :=
    Encoding.gives_elsewhere (fun addr differs => Finmap.lookup_insert_of_ne _ differs) other unrelated
  entries t other := Finmap.lookup_insert_of_ne _ other
  credentialsStore := rfl
  credentialHelpers := rfl
  fields name auths credsStore := by
    simp [old, Encoding.savedContent_lookup_of_ne auths credsStore]

/-- After a successful `Put` the credential is found, on the same store and after loading
the file again, and everything else is as it was. An empty `credsStore` is left out of the
file, which does not change its value. -/
theorem put_round_trip (loaded : enc.load path file = .ok fs.config)
    (put : fs.put enc dir faults file s cred = (none, fs', file')) :
    (∀ order, fs'.get enc order s = .ok cred) ∧ Kept enc s fs.config fs'.config ∧
      ∃ reloaded, enc.load path file' = .ok reloaded ∧ (∀ order, enc.getCredential order reloaded s = .ok cred) ∧
        Kept enc s fs.config reloaded := by
  obtain ⟨samePath, helpers⟩ := Encoding.load_path loaded
  obtain ⟨valid, saved⟩ := FileStore.put_eq_none put
  obtain ⟨content, old, same, written⟩ := Encoding.saveFile_eq_none saved
  have found (order : Enumeration String) : enc.getCredential order fs'.config s = .ok cred := by
    refine getCredential_of_entry valid ?_ order
    rw [same]
    exact Finmap.lookup_insert _
  have kept : Kept enc s fs.config fs'.config := by
    rw [same]
    exact Kept.of_insert old
  refine ⟨found, kept, fs'.config, ?_, found, kept⟩
  -- the saved content loads as the configuration in memory
  rw [written, Encoding.load, enc.content, ← samePath, same]
  exact Encoding.loadContent_savedContent helpers old

end

/-! A file with a legacy key, a credential store, helpers and a field nobody knows. -/

namespace Legacy

inductive Value
  | string (text : String)
  | strings (fields : Fields String)
  | auths (entries : Fields AuthConfig)
  | other (text : String)

def wrongType : Error := .json "cannot unmarshal"

def unmarshalString : Value → Except Error String
  | .string text => .ok text
  | _ => .error wrongType

def unmarshalStrings : Value → Except Error (Fields String)
  | .strings fields => .ok fields
  | _ => .error wrongType

def unmarshalAuths : Value → Except Error (Fields AuthConfig)
  | .auths entries => .ok entries
  | _ => .error wrongType

def encoding : Encoding Value AuthConfig (Fields Value) where
  marshalString := .string
  unmarshalString
  unmarshalStrings
  marshalAuths := .auths
  unmarshalAuths
  marshalAuthConfig config := config
  unmarshalAuthConfig := .ok
  marshalContent fields := fields
  decodeContent := .object
  encodeToString text := text
  decodeString := .ok
  string _ := rfl
  auths _ := rfl
  authConfig _ := rfl
  content _ := rfl
  base64 _ := rfl
  base64_empty := rfl

def auths : Fields AuthConfig := Finmap.singleton "https://legacy.example/" { auth := "bob:old" }

def helpers : Fields String := Finmap.singleton "helped.example" "pass"

def content : Fields Value :=
  (((∅ : Fields Value).insert "HttpHeaders" (.other "headers")).insert "credHelpers" (.strings helpers)).insert
    "credsStore" (.string "desktop") |>.insert "auths" (.auths auths)

def store : FileStore Value AuthConfig where
  config :=
    { path := "config.json", content := some content, authsCache := auths, credentialsStore := "desktop",
      credentialHelpers := helpers }

def newCred : Credential := { username := "alice", password := "a:b", refreshToken := "r" }

theorem loaded : encoding.load "config.json" (.text content) = .ok store.config :=
  Encoding.loadContent_eq_ok.mpr ⟨rfl, rfl, rfl, rfl, rfl⟩

end Legacy

theorem put_round_trip_legacy :
    ∃ fs' file', Legacy.store.put Legacy.encoding id {} (.text Legacy.content) "registry.example" Legacy.newCred =
        (none, fs', file') ∧
      (∀ order, fs'.get Legacy.encoding order "registry.example" = .ok Legacy.newCred) ∧
      Kept Legacy.encoding "registry.example" Legacy.store.config fs'.config := by
  have put : Legacy.store.put Legacy.encoding id {} (.text Legacy.content) "registry.example" Legacy.newCred =
      (none, _, _) := rfl
  have round := put_round_trip Legacy.loaded put
  exact ⟨_, _, put, round.1, round.2.1⟩

end OrasGo.Credentials
