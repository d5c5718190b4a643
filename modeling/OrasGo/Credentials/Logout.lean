import OrasGo.Credentials.FileStore

/-! What is left of a credential after `DeleteCredential`. -/

namespace OrasGo.Credentials
open Iteration Auth

variable {Raw Entry Data : Type} {enc : Encoding Raw Entry Data} {cfg cfg' : Config Raw Entry} {s : String}
  {dir : String → String} {faults : SaveFaults} {file file' : ConfigFile Data}

/-- The address is another key for the hostname `s`. -/
structure Alias (cfg : Config Raw Entry) (s addr : String) (entry : Entry) : Prop where
  other : addr ≠ s
  stored : cfg.authsCache.lookup addr = some entry
  hostname : toHostname addr = s

theorem deleteCredential_lookup (deleted : enc.deleteCredential dir faults cfg file s = (none, cfg', file')) :
    cfg'.authsCache.lookup s = none ∧ ∀ t, t ≠ s → cfg'.authsCache.lookup t = cfg.authsCache.lookup t := by
  rw [Encoding.deleteCredential] at deleted
  split at deleted
  · obtain ⟨content, -, rfl, -⟩ := Encoding.saveFile_eq_none deleted
    exact ⟨Finmap.lookup_erase _ _, fun t other => Finmap.lookup_erase_ne other⟩
  · rename_i absent
    cases deleted
    exact ⟨Finmap.lookup_eq_none.mpr absent, fun t other => rfl⟩

theorem Alias.found {addr : String} {entry : Entry} (absent : cfg.authsCache.lookup s = none)
    (found : Alias cfg s addr entry) : ∃ order, enc.getCredential order cfg s = enc.entryCredential entry :=
  (Encoding.gives_iff absent _).mpr (.inl ⟨addr, entry, found.stored, found.hostname, rfl⟩)

theorem getCredential_cases (enc : Encoding Raw Entry Data) (absent : cfg.authsCache.lookup s = none) (order : Enumeration String) :
    (∃ addr entry, Alias cfg s addr entry ∧ enc.getCredential order cfg s = enc.entryCredential entry) ∨
      (∀ addr entry, ¬ Alias cfg s addr entry) ∧ enc.getCredential order cfg s = .ok emptyCredential := by
  have gives : Gives enc cfg s (enc.getCredential order cfg s) := ⟨order, rfl⟩
  rcases (Encoding.gives_iff absent _).mp gives with ⟨addr, entry, stored, hostname, result⟩ | ⟨nothing, empty⟩
  · have other : addr ≠ s := by
      intro same
      rw [same, absent] at stored
      cases stored
    exact .inl ⟨addr, entry, ⟨other, stored, hostname⟩, result.symm⟩
  · refine .inr ⟨fun addr entry found => ?_, empty⟩
    exact nothing addr (Finmap.mem_of_lookup_eq_some found.stored) found.hostname

theorem getCredential_empty_iff (absent : cfg.authsCache.lookup s = none) :
    (∀ order, enc.getCredential order cfg s = .ok emptyCredential) ↔
      ∀ addr entry, Alias cfg s addr entry → enc.entryCredential entry = .ok emptyCredential := by
  constructor
  · intro empty addr entry found
    obtain ⟨order, result⟩ : ∃ order, enc.getCredential order cfg s = enc.entryCredential entry := found.found absent
    rw [← result, empty]
  · intro aliases order
    rcases getCredential_cases enc absent order with ⟨addr, entry, found, result⟩ | ⟨-, empty⟩
    · rw [result]
      exact aliases addr entry found
    · exact empty

/-- The result of a lookup is the same in every order exactly if there is an own entry, or
all the other keys for the hostname have the same credential. -/
theorem getCredential_order_iff :
    (∀ order order', enc.getCredential order cfg s = enc.getCredential order' cfg s) ↔
      s ∈ cfg.authsCache ∨ ∀ addr entry addr' entry', Alias cfg s addr entry → Alias cfg s addr' entry' →
        enc.entryCredential entry = enc.entryCredential entry' := by
  by_cases own : s ∈ cfg.authsCache
  · refine iff_of_true (fun order order' => ?_) (.inl own)
    obtain ⟨entry, found⟩ := Finmap.mem_iff.mp own
    simp only [Encoding.getCredential, found]
  · have absent := Finmap.lookup_eq_none.mpr own
    constructor
    · intro same
      refine .inr fun addr entry addr' entry' found found' => ?_
      obtain ⟨order, result⟩ : ∃ order, enc.getCredential order cfg s = enc.entryCredential entry := found.found absent
      obtain ⟨order', result'⟩ : ∃ order, enc.getCredential order cfg s = enc.entryCredential entry' :=
        found'.found absent
      rw [← result, ← result', same]
    · rintro (stored | agree) order order'
      · exact absurd stored own
      · have first := getCredential_cases enc absent order
        have second := getCredential_cases enc absent order'
        rcases first with ⟨addr, entry, found, result⟩ | ⟨nothing, empty⟩
        · rcases second with ⟨addr', entry', found', result'⟩ | ⟨nothing, -⟩
          · rw [result, result', agree addr entry addr' entry' found found']
          · exact absurd found (nothing addr entry)
        · rcases second with ⟨addr', entry', found', -⟩ | ⟨-, empty'⟩
          · exact absurd found' (nothing addr' entry')
          · rw [empty, empty']

/-- After a deletion the credential is gone exactly if no other key for the hostname has one,
and lookups do not depend on the order of the map exactly if there is an own entry or these
keys agree. -/
theorem deleteCredential_logout_iff :
    (enc.deleteCredential dir faults cfg file s = (none, cfg', file') →
      ((∀ order, enc.getCredential order cfg' s = .ok emptyCredential) ↔
        ∀ addr entry, Alias cfg s addr entry → enc.entryCredential entry = .ok emptyCredential)) ∧
    ((∀ order order', enc.getCredential order cfg s = enc.getCredential order' cfg s) ↔
      s ∈ cfg.authsCache ∨ ∀ addr entry addr' entry', Alias cfg s addr entry → Alias cfg s addr' entry' →
        enc.entryCredential entry = enc.entryCredential entry') := by
  refine ⟨fun deleted => ?_, getCredential_order_iff⟩
  obtain ⟨absent, others⟩ := deleteCredential_lookup deleted
  rw [getCredential_empty_iff absent]
  refine forall_congr' fun addr => forall_congr' fun entry => ?_
  constructor
  · intro empty found
    exact empty ⟨found.other, (others addr found.other).trans found.stored, found.hostname⟩
  · intro empty found
    exact empty ⟨found.other, (others addr found.other).symm.trans found.stored, found.hostname⟩

/-! Two legacy keys for one registry, and a file without any. -/

namespace Aliased

def bob : AuthConfig := { auth := "bob:old" }

def carol : AuthConfig := { auth := "carol:new" }

/-- The keys of the registry in a file of an old client. -/
def legacy : Config Legacy.Value AuthConfig where
  path := "config.json"
  content := some (Finmap.singleton "auths" (.auths
    ((Finmap.singleton "https://registry.example/v1/" bob).insert "http://registry.example" carol)))
  authsCache := (Finmap.singleton "https://registry.example/v1/" bob).insert "http://registry.example" carol

def plain : Config Legacy.Value AuthConfig where
  path := "config.json"
  content := some (Finmap.singleton "auths" (.auths (Finmap.singleton "registry.example" bob)))
  authsCache := Finmap.singleton "registry.example" bob

theorem legacy_loaded : Legacy.encoding.load "config.json"
    (.text (Finmap.singleton "auths" (.auths legacy.authsCache))) = .ok legacy :=
  Encoding.loadContent_eq_ok.mpr ⟨rfl, rfl, rfl, rfl, rfl⟩

theorem plain_loaded : Legacy.encoding.load "config.json"
    (.text (Finmap.singleton "auths" (.auths plain.authsCache))) = .ok plain :=
  Encoding.loadContent_eq_ok.mpr ⟨rfl, rfl, rfl, rfl, rfl⟩

theorem carol_alias : Alias legacy "registry.example" "http://registry.example" carol :=
  ⟨by decide, rfl, by decide⟩

theorem bob_alias : Alias legacy "registry.example" "https://registry.example/v1/" bob :=
  ⟨by decide, rfl, by decide⟩

theorem no_alias (addr : String) (entry : AuthConfig) : ¬ Alias plain "registry.example" addr entry := by
  intro found
  have absent : plain.authsCache.lookup addr = none := by
    rw [plain, Finmap.lookup_eq_none, Finmap.mem_singleton]
    exact found.other
  rw [found.stored] at absent
  cases absent

end Aliased

/-- With the own key alone the credential is gone. -/
theorem deleteCredential_logout_plain :
    Legacy.encoding.load "config.json" (.text (Finmap.singleton "auths" (.auths Aliased.plain.authsCache))) =
        .ok Aliased.plain ∧
      ∃ cfg' file', Legacy.encoding.deleteCredential id {} Aliased.plain
          (.text (Finmap.singleton "auths" (.auths Aliased.plain.authsCache))) "registry.example" = (none, cfg', file') ∧
        ∀ order, Legacy.encoding.getCredential order cfg' "registry.example" = .ok emptyCredential := by
  have deleted : Legacy.encoding.deleteCredential id {} Aliased.plain
      (.text (Finmap.singleton "auths" (.auths Aliased.plain.authsCache))) "registry.example" = (none, _, _) := rfl
  refine ⟨Aliased.plain_loaded, _, _, deleted, ?_⟩
  exact (deleteCredential_logout_iff.1 deleted).mpr fun addr entry found => absurd found (Aliased.no_alias addr entry)

/-- With a legacy key the deletion returns nil and the credential is still found, and which
one it is depends on the order. -/
theorem deleteCredential_keeps_legacy :
    Legacy.encoding.load "config.json" (.text (Finmap.singleton "auths" (.auths Aliased.legacy.authsCache))) =
        .ok Aliased.legacy ∧
      Legacy.encoding.deleteCredential id {} Aliased.legacy
          (.text (Finmap.singleton "auths" (.auths Aliased.legacy.authsCache))) "registry.example" =
        (none, Aliased.legacy, .text (Finmap.singleton "auths" (.auths Aliased.legacy.authsCache))) ∧
      ∃ order order', Legacy.encoding.getCredential order Aliased.legacy "registry.example" =
          .ok { username := "bob", password := "old" } ∧
        Legacy.encoding.getCredential order' Aliased.legacy "registry.example" =
          .ok { username := "carol", password := "new" } := by
  have absent : Aliased.legacy.authsCache.lookup "registry.example" = none := rfl
  obtain ⟨order, bob⟩ : ∃ order, Legacy.encoding.getCredential order Aliased.legacy "registry.example" =
      Legacy.encoding.entryCredential Aliased.bob := Aliased.bob_alias.found absent
  obtain ⟨order', carol⟩ : ∃ order, Legacy.encoding.getCredential order Aliased.legacy "registry.example" =
      Legacy.encoding.entryCredential Aliased.carol := Aliased.carol_alias.found absent
  exact ⟨Aliased.legacy_loaded, rfl, order, order', bob.trans (by decide), carol.trans (by decide)⟩

end OrasGo.Credentials
