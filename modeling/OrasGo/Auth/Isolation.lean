import OrasGo.Auth.Cache

/-! Tokens come from a `Set` call for the same registry, scheme and key. -/

namespace OrasGo.Auth
open Interleaving Syncutil

/-- What a token is for. -/
structure Slot where
  registry : String
  scheme : Scheme
  key : String

def Slot.statusKey (slot : Slot) : String := Auth.statusKey slot.registry slot.scheme slot.key

def Call.slot : Call → Option Slot
  | .getScheme _ => none
  | .getToken registry scheme key => some ⟨registry, scheme, key⟩
  | .set registry scheme key => some ⟨registry, scheme, key⟩

def Call.registry : Call → String
  | .getScheme registry => registry
  | .getToken registry _ _ => registry
  | .set registry _ _ => registry

/-- A `Set` call is made with a declared scheme. -/
def Call.Declared : Call → Prop
  | .set _ scheme _ => scheme.Declared
  | _ => True

instance : DecidablePred Call.Declared
  | .set _ scheme _ => inferInstanceAs (Decidable scheme.Declared)
  | .getScheme _ | .getToken _ _ _ => .isTrue trivial

/-- All schemes without a constant have the name of `SchemeUnknown`. -/
theorem Scheme.Declared.eq {a b : Scheme} (declared : a.Declared) (declared' : b.Declared)
    (same : a.string = b.string) : a = b := by
  rcases declared with rfl | rfl | rfl <;> rcases declared' with rfl | rfl | rfl <;>
    first | rfl | exact absurd same (by decide)

theorem Scheme.space_notMem (scheme : Scheme) : ' ' ∉ scheme.string.toList := by
  unfold Scheme.string
  split <;> decide

theorem eq_of_append_cons {α : Type} {xs ys as bs : List α} {c : α} (before : c ∉ xs) (before' : c ∉ ys)
    (same : xs ++ c :: as = ys ++ c :: bs) : xs = ys ∧ as = bs := by
  induction xs generalizing ys with
  | nil =>
    cases ys with
    | nil => exact ⟨rfl, (List.cons.inj same).2⟩
    | cons y ys =>
      have head : c = y := (List.cons.inj same).1
      exact absurd (head ▸ List.mem_cons_self) before'
  | cons x xs ih =>
    cases ys with
    | nil =>
      have head : x = c := (List.cons.inj same).1
      exact absurd (head ▸ List.mem_cons_self) before
    | cons y ys =>
      obtain ⟨rfl, rest⟩ := List.cons.inj same
      obtain ⟨rfl, tails⟩ := ih (List.not_mem_of_not_mem_cons before) (List.not_mem_of_not_mem_cons before') rest
      exact ⟨rfl, tails⟩

/-- The separators can be told apart from the registry and the scheme. -/
theorem Slot.statusKey_injective {a b : Slot} (spaceless : ' ' ∉ a.registry.toList) (spaceless' : ' ' ∉ b.registry.toList)
    (declared : a.scheme.Declared) (declared' : b.scheme.Declared) (same : a.statusKey = b.statusKey) : a = b := by
  have split (slot : Slot) : slot.statusKey.toList =
      slot.registry.toList ++ ' ' :: (slot.scheme.string.toList ++ ' ' :: slot.key.toList) := by
    simp [Slot.statusKey, Auth.statusKey]
  have lists := congrArg String.toList same
  rw [split, split] at lists
  obtain ⟨registry, rest⟩ := eq_of_append_cons spaceless spaceless' lists
  obtain ⟨scheme, key⟩ := eq_of_append_cons a.scheme.space_notMem b.scheme.space_notMem rest
  obtain ⟨registry', scheme', key'⟩ := a
  obtain ⟨registry'', scheme'', key''⟩ := b
  cases String.toList_injective registry
  cases declared.eq declared' (String.toList_injective scheme)
  cases String.toList_injective key
  rfl

/-- What a goroutine holds: its `Once`, a token for its slot, and an entry of its registry and
scheme. -/
structure Held where
  once : Option Nat := none
  token : Option String := none
  entry : Option Nat := none

def Held.after (slot : Slot) (h : Held) : (op : CacheOp) → CacheAns op → Held
  | .loadEntry _, some entry => if entry.2 = slot.scheme then { h with entry := some entry.1 } else h
  | .loadToken _ _, some token => { h with token := some token }
  | .loadOrStoreOnce _, once => { h with once := some once }
  | .receive _, .finished (.ok token) => { h with token := some token }
  | .fetch, .returned (.ok token) => { h with token := some token }
  | .loadOrStoreEntry _ _, (new, none) => { h with entry := some new }
  | .loadOrStoreEntry _ _, (new, some entry) =>
    { h with entry := some (if entry.2 = slot.scheme then entry.1 else new) }
  | _, _ => h

def slotPre (call : Call) (slot : Slot) (h : Held) : CacheOp → Prop
  | .loadEntry registry => registry = slot.registry
  | .loadToken entry key => h.entry = some entry ∧ key = slot.key
  | .loadOrStoreOnce statusKey => statusKey = slot.statusKey
  | .receive once => h.once = some once ∧ call = .set slot.registry slot.scheme slot.key
  | .fetch => call = .set slot.registry slot.scheme slot.key
  | .release _ => True
  | .finish once result => h.once = some once ∧ ∀ token, result = .ok token → h.token = some token
  | .deleteOnce _ => True
  | .loadOrStoreEntry registry scheme => registry = slot.registry ∧ scheme = slot.scheme
  | .storeEntry registry entry => registry = slot.registry ∧ h.entry = some entry
  | .storeToken entry key token => h.entry = some entry ∧ key = slot.key ∧ h.token = some token

def cacheGhost (call : Call) : Ghost CacheOp CacheAns Held where
  pre op h := match call.slot with
    | none => ∃ registry, op = .loadEntry registry
    | some slot => slotPre call slot h op
  next op a h h' := match call.slot with
    | none => h' = h
    | some slot => h' = h.after slot op a

/-- A call returns no token but the one it holds. -/
def cachePost (_ : Call) (result : CacheResult) (h : Held) : Prop :=
  ∀ token, result = .token (.ok token) → h.token = some token

section Outlines
variable {registry : String} {scheme : Scheme} {key : String}

theorem wp_getScheme : wp (cacheGhost (.getScheme registry)) (getScheme registry) (cachePost (.getScheme registry)) {} := by
  refine ⟨⟨registry, rfl⟩, fun found h _ => ?_⟩
  cases found <;> exact nofun

theorem wp_getToken : wp (cacheGhost (.getToken registry scheme key)) (getToken registry scheme key)
    (cachePost (.getToken registry scheme key)) {} := by
  refine ⟨rfl, fun found h moved => ?_⟩
  cases found with
  | none => exact nofun
  | some entry =>
    change wp _ (if entry.2 ≠ scheme then _ else _) _ _
    by_cases same : entry.2 = scheme
    · rw [if_neg (not_not_intro same)]
      cases moved
      refine ⟨⟨?_, rfl⟩, fun token h moved => ?_⟩
      · simp only [Held.after, if_pos same]
      · cases token with
        | none => exact nofun
        | some token =>
          cases moved
          rintro _ ⟨⟩
          rfl
    · rw [if_pos same]
      exact nofun

/-- The entry of the registry is one that the goroutine holds. -/
theorem wp_entryFor {h : Held} :
    wp (cacheGhost (.set registry scheme key)) (CacheCode.loadOrStoreEntry registry scheme >>= entryFor registry scheme)
      (fun entry h' => h' = { h with entry := some entry }) h := by
  refine ⟨⟨rfl, rfl⟩, ?_⟩
  rintro ⟨new, present⟩ _ rfl
  cases present with
  | none => exact rfl
  | some entry =>
    change wp _ (if entry.2 ≠ scheme then _ else _) _ _
    by_cases same : entry.2 = scheme
    · rw [if_neg (not_not_intro same)]
      simp only [Held.after, if_pos same]
      exact rfl
    · rw [if_pos same]
      simp only [Held.after, if_neg same]
      refine ⟨⟨rfl, rfl⟩, ?_⟩
      rintro _ _ rfl
      exact rfl

theorem wp_cacheToken {done : Option (Done String)} {h : Held}
    (known : ∀ first token, done = some ⟨first, .ok token⟩ → h.token = some token) :
    wp (cacheGhost (.set registry scheme key)) (cacheToken registry scheme key done) (cachePost (.set registry scheme key)) h := by
  cases done with
  | none => exact nofun
  | some done =>
    obtain ⟨first, result⟩ := done
    cases first with
    | false =>
      cases result with
      | error err => exact nofun
      | ok token =>
        rintro _ ⟨⟩
        exact known false token rfl
    | true =>
      refine ⟨trivial, ?_⟩
      rintro _ _ rfl
      cases result with
      | error err => exact nofun
      | ok token =>
        have holds := known true token rfl
        refine wp_seq (p := CacheCode.loadOrStoreEntry registry scheme >>= entryFor registry scheme) _ wp_entryFor
          fun entry h' held => ?_
        subst held
        refine ⟨⟨rfl, rfl, holds⟩, ?_⟩
        rintro _ _ rfl _ ⟨⟩
        exact holds

/-- A goroutine holds the token that `Do` returns. -/
theorem wp_onceDo {once : Nat} {h : Held} (held : h.once = some once) :
    wp (cacheGhost (.set registry scheme key)) (onceDo (CacheCode.receive once) (Prog.perform (CacheOp.release once))
      (fun result => Prog.perform (CacheOp.finish once result)) CacheCode.fetch)
      (fun done h' => ∀ first token, done = some ⟨first, .ok token⟩ → h'.token = some token) h := by
  refine ⟨⟨held, rfl⟩, ?_⟩
  rintro received _ rfl
  cases received with
  | cancelled err =>
    rintro _ _ ⟨⟩
  | finished result =>
    rintro _ token ⟨⟩
    rfl
  | inProgress =>
    refine ⟨rfl, ?_⟩
    rintro outcome _ rfl
    cases outcome with
    | panicked =>
      refine ⟨trivial, ?_⟩
      rintro _ _ _ _ _ ⟨⟩
    | returned result =>
      cases result with
      | ok token =>
        refine ⟨⟨held, ?_⟩, ?_⟩
        · rintro _ ⟨⟩
          rfl
        · rintro _ _ rfl _ _ ⟨⟩
          rfl
      | error err =>
        change wp _ (if isContextError err then _ else _) _ _
        split
        · refine ⟨trivial, ?_⟩
          rintro _ _ _ _ _ ⟨⟩
        · refine ⟨⟨held, nofun⟩, ?_⟩
          rintro _ _ _ _ _ ⟨⟩

theorem wp_set : wp (cacheGhost (.set registry scheme key)) (set registry scheme key CacheCode.fetch)
    (cachePost (.set registry scheme key)) {} := by
  refine ⟨rfl, ?_⟩
  rintro once _ rfl
  exact wp_seq (p := onceDo _ _ _ _) _ (wp_onceDo rfl) fun done h known => wp_cacheToken known

theorem wp_code (call : Call) : wp (cacheGhost call) call.code (cachePost call) {} := by
  cases call with
  | getScheme registry => exact wp_getScheme
  | getToken registry scheme key => exact wp_getToken
  | set registry scheme key => exact wp_set

end Outlines

abbrev Log := List (Event CacheOp CacheAns)

/-- The function of a `Set` call for the slot has returned the token. -/
def Fetched (calls : List Call) (log : Log) (slot : Slot) (token : String) : Prop :=
  ∃ t, calls[t]? = some (.set slot.registry slot.scheme slot.key) ∧ ⟨t, .fetch, .returned (.ok token)⟩ ∈ log

section Invariant
variable (calls : List Call) (owner home : Nat → String) (s : CacheState) (log : Log)

structure HeldInv (slot : Slot) (h : Held) : Prop where
  once : ∀ once, h.once = some once → owner once = slot.statusKey ∧ once < s.onces.length
  token : ∀ token, h.token = some token → Fetched calls log slot token
  entry : ∀ entry, h.entry = some entry → home entry = slot.registry ∧ s.entries[entry]?.map Entry.scheme = some slot.scheme

/-- `owner` and `home` are the status key and the registry that a `Once` and an entry were
allocated for. Every result and every token in them was fetched for these. -/
structure Owned (ghosts : List (Call × Held)) : Prop where
  status : ∀ key once, s.status.lookup key = some once → owner once = key ∧ once < s.onces.length
  results : ∀ (once : Nat) token, s.onces[once]? = some (.closed (.ok token)) →
    ∃ slot : Slot, slot.statusKey = owner once ∧ Fetched calls log slot token
  cache : ∀ registry entry, s.cache.lookup registry = some entry → home entry = registry ∧ entry < s.entries.length
  tokens : ∀ (entry : Nat) e key token, s.entries[entry]? = some e → e.tokens.lookup key = some token →
    Fetched calls log ⟨home entry, e.scheme, key⟩ token
  held : ∀ call h slot, (call, h) ∈ ghosts → call.slot = some slot → HeldInv calls owner home s log slot h

end Invariant

/-- Objects are only added, and they keep what they were allocated for. -/
structure Extends (owner home : Nat → String) (s : CacheState) (owner' home' : Nat → String) (s' : CacheState) : Prop where
  owner : ∀ once < s.onces.length, owner' once = owner once
  onces : s.onces.length ≤ s'.onces.length
  home : ∀ entry < s.entries.length, home' entry = home entry
  entries : ∀ (entry : Nat) e, s.entries[entry]? = some e → s'.entries[entry]?.map Entry.scheme = some e.scheme

section Step
variable {calls : List Call} {owner home owner' home' : Nat → String} {s s' : CacheState} {log log' : Log}
  {ghosts : List (Call × Held)} {t : Nat} {call : Call} {h h' : Held} {slot : Slot} {token : String}

theorem Fetched.mono (fetched : Fetched calls log slot token) (more : log ⊆ log') : Fetched calls log' slot token := by
  obtain ⟨t, listed, member⟩ := fetched
  exact ⟨t, listed, more member⟩

theorem HeldInv.extend (held : HeldInv calls owner home s log slot h) (extends' : Extends owner home s owner' home' s') :
    HeldInv calls owner' home' s' log slot h := by
  refine ⟨fun once holds => ?_, held.token, fun entry holds => ?_⟩
  · obtain ⟨own, inside⟩ := held.once once holds
    exact ⟨(extends'.owner once inside).trans own, inside.trans_le extends'.onces⟩
  · obtain ⟨own, found⟩ := held.entry entry holds
    obtain ⟨e, atEntry, same⟩ := Option.map_eq_some_iff.mp found
    have inside : entry < s.entries.length := (List.getElem?_eq_some_iff.mp atEntry).1
    exact ⟨(extends'.home entry inside).trans own, same ▸ extends'.entries entry e atEntry⟩

theorem Owned.held_extend (owned : Owned calls owner home s log ghosts) (extends' : Extends owner home s owner' home' s') :
    ∀ call h slot, (call, h) ∈ ghosts → call.slot = some slot → HeldInv calls owner' home' s' log slot h :=
  fun call h slot member slotted => (owned.held call h slot member slotted).extend extends'

theorem Owned.move (owned : Owned calls owner home s log ghosts) (more : log ⊆ log')
    (moved : ∀ slot, call.slot = some slot → HeldInv calls owner home s log' slot h') :
    Owned calls owner home s log' (ghosts.set t (call, h')) := by
  refine ⟨owned.status, fun once token closed => ?_, owned.cache, fun entry e key token found stored => ?_,
    fun call' h slot member slotted => ?_⟩
  · obtain ⟨slot, own, fetched⟩ := owned.results once token closed
    exact ⟨slot, own, fetched.mono more⟩
  · exact (owned.tokens entry e key token found stored).mono more
  · rcases List.mem_or_eq_of_mem_set member with old | new
    · have held := owned.held call' h slot old slotted
      exact ⟨held.once, fun token holds => (held.token token holds).mono more, held.entry⟩
    · cases new
      exact moved slot slotted

theorem Owned.setOnce (once : Nat) (status : Status) (owned : Owned calls owner home s log ghosts)
    (result : ∀ token, status = .closed (.ok token) → ∃ slot : Slot, slot.statusKey = owner once ∧ Fetched calls log slot token) :
    Owned calls owner home { s with onces := s.onces.set once status } log ghosts := by
  have extends' : Extends owner home s owner home { s with onces := s.onces.set once status } :=
    ⟨fun _ _ => rfl, by rw [List.length_set], fun _ _ => rfl, fun entry e found => by rw [found]; rfl⟩
  refine ⟨fun key id stored => ?_, fun id token closed => ?_, owned.cache, owned.tokens, owned.held_extend extends'⟩
  · obtain ⟨own, inside⟩ := owned.status key id stored
    exact ⟨own, by rw [List.length_set]; exact inside⟩
  · rcases getElem?_set_cases closed with ⟨rfl, new⟩ | ⟨_, old⟩
    · exact result token new.symm
    · exact owned.results id token old

theorem Owned.newOnce (owned : Owned calls owner home s log ghosts) (key : String) :
    Owned calls (Function.update owner s.onces.length key) home
      { s with status := s.status.insert key s.onces.length, onces := s.onces ++ [.ready] } log ghosts := by
  have kept (once : Nat) (inside : once < s.onces.length) : Function.update owner s.onces.length key once = owner once :=
    Function.update_of_ne inside.ne key owner
  have longer : (s.onces ++ [Status.ready]).length = s.onces.length + 1 := List.length_append
  have extends' : Extends owner home s (Function.update owner s.onces.length key) home
      { s with status := s.status.insert key s.onces.length, onces := s.onces ++ [.ready] } :=
    ⟨kept, by rw [longer]; exact Nat.le_succ _, fun _ _ => rfl, fun entry e found => by rw [found]; rfl⟩
  refine ⟨fun key' once stored => ?_, fun once token closed => ?_, owned.cache, owned.tokens, owned.held_extend extends'⟩
  · obtain ⟨rfl, rfl⟩ | ⟨_, stored⟩ := lookup_insert_cases stored
    · exact ⟨Function.update_self _ _ _, by rw [longer]; exact Nat.lt_succ_self _⟩
    · obtain ⟨own, inside⟩ := owned.status key' once stored
      exact ⟨(kept once inside).trans own, by rw [longer]; exact inside.trans (Nat.lt_succ_self _)⟩
  · rcases getElem?_concat_cases closed with old | ⟨_, new⟩
    · obtain ⟨slot, own, fetched⟩ := owned.results once token old
      exact ⟨slot, own.trans (kept once (List.getElem?_eq_some_iff.mp old).1).symm, fetched⟩
    · cases new

theorem Owned.deleteOnce (owned : Owned calls owner home s log ghosts) (key : String) :
    Owned calls owner home { s with status := s.status.erase key } log ghosts := by
  refine { owned with status := fun key' once stored => ?_, held := fun call h slot member slotted =>
    { owned.held call h slot member slotted with } }
  by_cases same : key' = key
  · subst same
    rw [Finmap.lookup_erase] at stored
    cases stored
  · rw [Finmap.lookup_erase_ne same] at stored
    exact owned.status key' once stored

theorem extends_newEntry (owner home : Nat → String) (s : CacheState) (registry : String) (scheme : Scheme) :
    Extends owner home s owner (Function.update home s.entries.length registry)
      { s with entries := s.entries ++ [{ scheme }] } := by
  refine ⟨fun _ _ => rfl, le_rfl, fun entry inside => Function.update_of_ne inside.ne registry home, fun entry e found => ?_⟩
  change (s.entries ++ [_])[entry]?.map Entry.scheme = _
  rw [List.getElem?_append_left (List.getElem?_eq_some_iff.mp found).1, found]
  rfl

theorem Owned.newEntry (owned : Owned calls owner home s log ghosts) (registry : String) (scheme : Scheme) :
    Owned calls owner (Function.update home s.entries.length registry) { s with entries := s.entries ++ [{ scheme }] } log
      ghosts := by
  have extends' := extends_newEntry owner home s registry scheme
  refine ⟨owned.status, owned.results, fun registry' entry stored => ?_, fun entry e key token found stored => ?_,
    owned.held_extend extends'⟩
  · obtain ⟨own, inside⟩ := owned.cache registry' entry stored
    refine ⟨(extends'.home entry inside).trans own, ?_⟩
    change entry < (s.entries ++ [_]).length
    rw [List.length_append]
    exact inside.trans (Nat.lt_succ_self _)
  · rcases getElem?_concat_cases found with old | ⟨_, new⟩
    · rw [extends'.home entry (List.getElem?_eq_some_iff.mp old).1]
      exact owned.tokens entry e key token old stored
    · subst new
      rw [Finmap.lookup_empty] at stored
      cases stored

theorem Owned.storeEntry {registry : String} {entry : Nat} (owned : Owned calls owner home s log ghosts)
    (own : home entry = registry) (inside : entry < s.entries.length) :
    Owned calls owner home { s with cache := s.cache.insert registry entry } log ghosts := by
  refine { owned with cache := fun registry' entry' stored => ?_, held := fun call h slot member slotted =>
    { owned.held call h slot member slotted with } }
  obtain ⟨rfl, rfl⟩ | ⟨_, stored⟩ := lookup_insert_cases stored
  · exact ⟨own, inside⟩
  · exact owned.cache registry' entry' stored

theorem storeToken_cases {entry id : Nat} {key token : String} {e : Entry}
    (found : (s.storeToken entry key token).entries[id]? = some e) :
    ∃ old, s.entries[id]? = some old ∧ e.scheme = old.scheme ∧
      (e.tokens = old.tokens ∨ id = entry ∧ e.tokens = old.tokens.insert key token) := by
  simp only [CacheState.storeToken, List.getElem?_modify] at found
  obtain ⟨old, atId, same⟩ := Option.map_eq_some_iff.mp found
  refine ⟨old, atId, ?_⟩
  by_cases here : entry = id
  · rw [if_pos here] at same
    subst same
    exact ⟨rfl, .inr ⟨here.symm, rfl⟩⟩
  · rw [if_neg here] at same
    subst same
    exact ⟨rfl, .inl rfl⟩

theorem Owned.storeToken {entry : Nat} {token : String} (owned : Owned calls owner home s log ghosts)
    (own : home entry = slot.registry) (found : s.entries[entry]?.map Entry.scheme = some slot.scheme)
    (fetched : Fetched calls log slot token) :
    Owned calls owner home (s.storeToken entry slot.key token) log ghosts := by
  have extends' : Extends owner home s owner home (s.storeToken entry slot.key token) := by
    refine ⟨fun _ _ => rfl, le_rfl, fun _ _ => rfl, fun id e atId => ?_⟩
    simp only [CacheState.storeToken, List.getElem?_modify, atId]
    split <;> rfl
  refine ⟨owned.status, owned.results, fun registry id stored => ?_, fun id e key token' atId stored => ?_,
    owned.held_extend extends'⟩
  · obtain ⟨own', inside⟩ := owned.cache registry id stored
    refine ⟨own', ?_⟩
    simp only [CacheState.storeToken, List.length_modify]
    exact inside
  · obtain ⟨old, atOld, scheme, unchanged | ⟨rfl, changed⟩⟩ := storeToken_cases atId
    · rw [scheme]
      exact owned.tokens id old key token' atOld (unchanged ▸ stored)
    · rw [changed] at stored
      obtain ⟨rfl, rfl⟩ | ⟨_, stored⟩ := lookup_insert_cases stored
      · rw [atOld] at found
        rw [own, scheme, Option.some.inj found]
        exact fetched
      · rw [scheme]
        exact owned.tokens id old key token' atOld stored

theorem entryOf_eq_some {registry : String} {entry : Nat × Scheme} (found : s.entryOf registry = some entry) :
    s.cache.lookup registry = some entry.1 ∧ s.entries[entry.1]?.map Entry.scheme = some entry.2 := by
  obtain ⟨id, stored, same⟩ := Option.bind_eq_some_iff.mp found
  obtain ⟨e, atId, rfl⟩ := Option.map_eq_some_iff.mp same
  exact ⟨stored, by rw [atId]; rfl⟩

theorem Owned.entryOf (owned : Owned calls owner home s log ghosts) {entry : Nat × Scheme}
    (found : s.entryOf slot.registry = some entry) (same : entry.2 = slot.scheme) :
    home entry.1 = slot.registry ∧ s.entries[entry.1]?.map Entry.scheme = some slot.scheme := by
  obtain ⟨stored, scheme⟩ := entryOf_eq_some found
  exact ⟨(owned.cache _ _ stored).1, same ▸ scheme⟩

section

variable (held : HeldInv calls owner home s log slot h)
include held

theorem HeldInv.hold_token (fetched : Fetched calls log slot token) :
    HeldInv calls owner home s log slot { h with token := some token } := by
  refine ⟨held.once, fun token' same => ?_, held.entry⟩
  cases Option.some.inj same
  exact fetched

theorem HeldInv.hold_entry {entry : Nat}
    (own : home entry = slot.registry ∧ s.entries[entry]?.map Entry.scheme = some slot.scheme) :
    HeldInv calls owner home s log slot { h with entry := some entry } := by
  refine ⟨held.once, held.token, fun entry' same => ?_⟩
  cases Option.some.inj same
  exact own

theorem HeldInv.hold_once {once : Nat} (own : owner once = slot.statusKey ∧ once < s.onces.length) :
    HeldInv calls owner home s log slot { h with once := some once } := by
  refine ⟨fun once' same => ?_, held.token, held.entry⟩
  cases Option.some.inj same
  exact own

theorem HeldInv.logged (more : log ⊆ log') :
    HeldInv calls owner home s log' slot h :=
  ⟨held.once, fun token holds => (held.token token holds).mono more, held.entry⟩

end

theorem Owned.step {op : CacheOp} {a : CacheAns op} (spaceless : ∀ call ∈ calls, ' ' ∉ call.registry.toList)
    (declared : ∀ call ∈ calls, call.Declared) (labels : ghosts.map Prod.fst = calls) (owned : Owned calls owner home s log ghosts)
    (found : ghosts[t]? = some (call, h)) (slotted : call.slot = some slot) (pre : slotPre call slot h op)
    (done : s.perform op a = some s') :
    ∃ owner' home', Owned calls owner' home' s' (log ++ [⟨t, op, a⟩]) (ghosts.set t (call, h.after slot op a)) := by
  have more : log ⊆ log ++ [⟨t, op, a⟩] := List.subset_append_left _ _
  have held : HeldInv calls owner home s log slot h := owned.held call h slot (List.mem_of_getElem? found) slotted
  have listed : calls[t]? = some call := by
    rw [← labels, List.getElem?_map, found]
    rfl
  -- What the goroutine holds afterwards is to be shown for its own slot only.
  have move {owner' home' : Nat → String} {s' : CacheState} {h' : Held} (owned' : Owned calls owner' home' s' log ghosts)
      (held' : HeldInv calls owner' home' s' (log ++ [⟨t, op, a⟩]) slot h') :
      ∃ owner' home', Owned calls owner' home' s' (log ++ [⟨t, op, a⟩]) (ghosts.set t (call, h')) := by
    refine ⟨owner', home', owned'.move more fun slot' slotted' => ?_⟩
    cases slotted.symm.trans slotted'
    exact held'
  have before := held.logged more
  cases op with
  | loadEntry registry =>
    obtain rfl : registry = slot.registry := pre
    obtain ⟨answer, rfl⟩ := of_ite_some done
    cases a with
    | none => exact move owned before
    | some entry =>
      by_cases scheme : entry.2 = slot.scheme
      · simp only [Held.after, if_pos scheme]
        exact move owned (before.hold_entry (owned.entryOf answer.symm scheme))
      · simp only [Held.after, if_neg scheme]
        exact move owned before
  | loadToken entry key =>
    obtain ⟨holds, rfl⟩ := pre
    obtain ⟨answer, rfl⟩ := of_ite_some done
    cases a with
    | none => exact move owned before
    | some token =>
      obtain ⟨e, atEntry, stored⟩ := Option.bind_eq_some_iff.mp answer.symm
      obtain ⟨own, scheme⟩ := held.entry entry holds
      rw [atEntry] at scheme
      have fetched := owned.tokens entry e slot.key token atEntry stored
      rw [own, Option.some.inj scheme] at fetched
      exact move owned (before.hold_token (fetched.mono more))
  | loadOrStoreOnce key =>
    obtain rfl : key = slot.statusKey := pre
    simp only [CacheState.perform] at done
    split at done
    · rename_i present stored
      obtain ⟨rfl, rfl⟩ := of_ite_some done
      exact move owned (before.hold_once (owned.status _ _ stored))
    · obtain ⟨rfl, rfl⟩ := of_ite_some done
      have owned' := owned.newOnce slot.statusKey
      have held' := owned'.held call h slot (List.mem_of_getElem? found) slotted
      refine move owned' ((held'.logged more).hold_once ⟨Function.update_self _ _ _, ?_⟩)
      change s.onces.length < (s.onces ++ [_]).length
      rw [List.length_append]
      exact Nat.lt_succ_self _
  | receive once =>
    obtain ⟨holds, isSet⟩ := pre
    cases a with
    | cancelled err =>
      obtain ⟨_, rfl⟩ := of_ite_some done
      exact move owned before
    | inProgress =>
      simp only [CacheState.perform, CacheState.received] at done
      split at done
      · cases done
        have owned' := owned.setOnce once .taken nofun
        exact move owned' ((owned'.held call h slot (List.mem_of_getElem? found) slotted).logged more)
      · cases done
    | finished result =>
      simp only [CacheState.perform, CacheState.received] at done
      split at done
      · rename_i result' closed
        obtain ⟨rfl, rfl⟩ := of_ite_some done
        cases result with
        | error err => exact move owned before
        | ok token =>
          obtain ⟨slot', own, fetched⟩ := owned.results once token closed
          have ⟨t', listed', _⟩ := fetched
          have same : slot' = slot := by
            have member := isSet ▸ List.mem_of_getElem? listed
            have member' := List.mem_of_getElem? listed'
            exact Slot.statusKey_injective (spaceless _ member') (spaceless _ member) (declared _ member')
              (declared _ member) (own.trans (held.once once holds).1)
          subst same
          exact move owned (before.hold_token (fetched.mono more))
      · cases done
  | fetch =>
    obtain rfl : call = .set slot.registry slot.scheme slot.key := pre
    cases done
    cases a with
    | panicked => exact move owned before
    | returned result =>
      cases result with
      | error err => exact move owned before
      | ok token =>
        exact move owned (before.hold_token ⟨t, listed, List.mem_append_right _ (List.mem_singleton.mpr rfl)⟩)
  | release once =>
    cases done
    have owned' := owned.setOnce once .ready nofun
    exact move owned' ((owned'.held call h slot (List.mem_of_getElem? found) slotted).logged more)
  | finish once result =>
    obtain ⟨holds, known⟩ := pre
    cases done
    have owned' := owned.setOnce once (.closed result) fun token same => by
      cases same
      exact ⟨slot, (held.once once holds).1.symm, held.token token (known token rfl)⟩
    exact move owned' ((owned'.held call h slot (List.mem_of_getElem? found) slotted).logged more)
  | deleteOnce key =>
    cases done
    have owned' := owned.deleteOnce key
    exact move owned' ((owned'.held call h slot (List.mem_of_getElem? found) slotted).logged more)
  | loadOrStoreEntry registry scheme =>
    obtain ⟨rfl, rfl⟩ := pre
    obtain ⟨answer, same⟩ := Option.ite_none_right_eq_some.mp done
    obtain ⟨id, present⟩ := a
    obtain ⟨rfl, looked⟩ := Prod.mk.inj answer
    rw [← looked] at same
    have owned' := owned.newEntry slot.registry slot.scheme
    have held' := (owned'.held call h slot (List.mem_of_getElem? found) slotted).logged more
    have new : Function.update home s.entries.length slot.registry s.entries.length = slot.registry ∧
        (s.entries ++ [({ scheme := slot.scheme } : Entry)])[s.entries.length]?.map Entry.scheme = some slot.scheme :=
      ⟨Function.update_self _ _ _, by rw [List.getElem?_concat_length]; rfl⟩
    cases present with
    | none =>
      cases same
      have holds := held'.hold_entry new
      exact move (owned'.storeEntry new.1 (by simp)) ⟨holds.once, holds.token, holds.entry⟩
    | some entry =>
      cases same
      by_cases scheme : entry.2 = slot.scheme
      · simp only [Held.after, if_pos scheme]
        have holds := held.hold_entry (owned.entryOf looked.symm scheme)
        exact move owned' ((holds.extend (extends_newEntry owner home s slot.registry slot.scheme)).logged more)
      · simp only [Held.after, if_neg scheme]
        exact move owned' (held'.hold_entry new)
  | storeEntry registry entry =>
    obtain ⟨rfl, holds⟩ := pre
    cases done
    obtain ⟨own, scheme⟩ := held.entry entry holds
    obtain ⟨e, atEntry, _⟩ := Option.map_eq_some_iff.mp scheme
    have owned' := owned.storeEntry own (List.getElem?_eq_some_iff.mp atEntry).1
    exact move owned' ((owned'.held call h slot (List.mem_of_getElem? found) slotted).logged more)
  | storeToken entry key token =>
    obtain ⟨holds, rfl, known⟩ := pre
    cases done
    obtain ⟨own, scheme⟩ := held.entry entry holds
    have owned' := owned.storeToken own scheme (held.token token known)
    exact move owned' ((owned'.held call h slot (List.mem_of_getElem? found) slotted).logged more)

/-- The calls are those of the start, and everything belongs to one of their slots. -/
def CacheInv (calls : List Call) (s : CacheState × Log) (ghosts : List (Call × Held)) : Prop :=
  ghosts.map Prod.fst = calls ∧ ∃ owner home, Owned calls owner home s.1 s.2 ghosts

theorem cache_sound (spaceless : ∀ call ∈ calls, ' ' ∉ call.registry.toList)
    (declared : ∀ call ∈ calls, call.Declared) :
    Sound cacheGhost cachePost cacheMachine.traced (CacheInv calls) := by
  intro s ghosts t call h op a s' spawned inv found pre performed
  obtain ⟨labels, owner, home, owned⟩ := inv
  obtain ⟨performed, logged⟩ := traced_perform.mp performed
  obtain ⟨s₁, done, same⟩ := Option.map_eq_some_iff.mp performed
  cases same
  have labels' (h' : Held) : (ghosts.set t (call, h')).map Prod.fst = calls := by
    rw [List.map_set, set_same, labels]
    rw [List.getElem?_map, found]
    rfl
  simp only [cacheGhost] at pre
  cases slotted : call.slot with
  | none =>
    rw [slotted] at pre
    obtain ⟨registry, rfl⟩ := pre
    obtain ⟨_, same⟩ := Option.ite_none_right_eq_some.mp done
    refine .move h (by simp only [cacheGhost, slotted]) ⟨labels' h, owner, home, ?_⟩
    rw [logged, ← Option.some.inj same]
    refine owned.move (List.subset_append_left _ _) fun slot impossible => ?_
    cases slotted.symm.trans impossible
  | some slot =>
    rw [slotted] at pre
    refine .move (h.after slot op a) (by simp only [cacheGhost, slotted]) ⟨labels' _, ?_⟩
    rw [logged]
    exact owned.step spaceless declared labels found slotted pre done

theorem cache_reach (spaceless : ∀ call ∈ calls, ' ' ∉ call.registry.toList) (declared : ∀ call ∈ calls, call.Declared)
    {σ : Pool CacheOp CacheAns (CacheState × Log) Call CacheResult}
    (reach : Reach cacheMachine.traced ((start calls).traced []) σ) :
    Outline cacheGhost cachePost (CacheInv calls) σ := by
  have initially : Outline cacheGhost cachePost (CacheInv calls) ((start calls).traced []) := by
    refine ⟨calls.map fun call => (call, {}), ?_, ?_, fun _ => "", fun _ => "", ?_, ?_, ?_, ?_, ?_⟩
    · rw [Pool.traced, start, List.forall₂_map_left_iff, List.forall₂_map_right_iff, List.forall₂_same]
      exact fun call _ => ⟨rfl, wp_code call⟩
    · rw [List.map_map]
      exact List.map_id calls
    · intro key once stored
      cases stored
    · intro once token closed
      cases closed
    · intro registry entry stored
      cases stored
    · intro entry e key token found
      cases found
    · intro call h slot member slotted
      obtain ⟨call', _, same⟩ := List.mem_map.mp member
      cases same
      exact ⟨nofun, nofun,
        nofun⟩
  exact initially.reach (cache_sound spaceless declared) (fun _ _ _ _ impossible => absurd impossible.1 id) reach

/-- With declared schemes, a token that a call returns was fetched by a `Set` call for the same slot. -/
theorem token_isolated (spaceless : ∀ call ∈ calls, ' ' ∉ call.registry.toList)
    (declared : ∀ call ∈ calls, call.Declared)
    {σ : Pool CacheOp CacheAns (CacheState × Log) Call CacheResult}
    (reach : Reach cacheMachine.traced ((start calls).traced []) σ) (listed : calls[t]? = some call)
    (slotted : call.slot = some slot) (returned : σ.Returned t (.token (.ok token))) :
    ∃ t', calls[t']? = some (.set slot.registry slot.scheme slot.key) ∧
      ⟨t', .fetch, .returned (.ok token)⟩ ∈ σ.shared.2 := by
  obtain ⟨ghosts, fits, labels, owner, home, owned⟩ := cache_reach spaceless declared reach
  obtain ⟨label, found⟩ := returned
  obtain ⟨h, atGhost, post⟩ := ghost_of_thread fits found
  have own : label = call := by
    rw [← labels, List.getElem?_map, atGhost] at listed
    exact Option.some.inj listed
  subst own
  exact (owned.held label h slot (List.mem_of_getElem? atGhost) slotted).token token (post token rfl)

end Step

namespace Shared

def answers (s : CacheState × Log) (_ : Nat) : (op : CacheOp) → CacheAns op
  | .loadEntry registry => s.1.entryOf registry
  | .loadToken entry key => s.1.entries[entry]?.bind (·.tokens.lookup key)
  | .loadOrStoreOnce statusKey => (s.1.status.lookup statusKey).getD s.1.onces.length
  | .receive once => match s.1.onces[once]? with
    | some (.closed result) => .finished result
    | _ => .inProgress
  | .fetch => .returned (.ok "secret")
  | .loadOrStoreEntry registry _ => (s.1.entries.length, s.1.entryOf registry)
  | .release _ | .finish _ _ | .deleteOnce _ | .storeEntry _ _ | .storeToken _ _ _ => ()

/-- The second call waits for the token of the first one; then others look for it. -/
def run (calls : List Call) : Pool CacheOp CacheAns (CacheState × Log) Call CacheResult :=
  ([0, 1] ++ List.replicate 6 0 ++ [1, 2, 2]).foldl (fun σ t => (σ.step? cacheMachine.traced answers t).getD σ)
    ((start calls).traced [])

theorem run_reach (calls : List Call) : Reach cacheMachine.traced ((start calls).traced []) (run calls) :=
  Pool.turns_reach _ _

def calls : List Call := [.set "ghcr.io" .bearer "repository:app:pull", .set "ghcr.io" .bearer "repository:app:pull",
  .getToken "ghcr.io" .bearer "repository:app:pull"]

theorem calls_run : (List.range 3).map (run calls).returned? = List.replicate 3 (some (.token (.ok "secret"))) ∧
    (∀ call ∈ calls, ' ' ∉ call.registry.toList) ∧ ∀ call ∈ calls, call.Declared := by
  decide +kernel

/-- Neither scheme is Basic or Bearer, and only the first one is declared. -/
def undeclared : List Call := [.set "ghcr.io" ⟨0⟩ "repository:app:pull", .set "ghcr.io" ⟨3⟩ "repository:app:pull"]

theorem undeclared_run : (run undeclared).returned? 1 = some (.token (.ok "secret")) ∧
    (∀ call ∈ undeclared, ' ' ∉ call.registry.toList) ∧
    (run undeclared).shared.2.all (fun e => match e.op with | .fetch => decide (e.thread = 0) | _ => true) := by
  decide +kernel

end Shared

/-- The third call has the token that one of the two others has fetched. -/
theorem token_isolated_shared : (Shared.run Shared.calls).Returned 2 (.token (.ok "secret")) ∧
    ∃ t', Shared.calls[t']? = some (.set "ghcr.io" .bearer "repository:app:pull") ∧
      ⟨t', .fetch, .returned (.ok "secret")⟩ ∈ (Shared.run Shared.calls).shared.2 := by
  obtain ⟨returned, spaceless, declared⟩ := Shared.calls_run
  have third : (Shared.run Shared.calls).Returned 2 (.token (.ok "secret")) :=
    Pool.returned?_eq_some.mp (congrArg (·.getD 2 none) returned)
  exact ⟨third, token_isolated (t := 2) spaceless declared (Shared.run_reach _) rfl rfl third⟩

/-- Two `Set` calls with other schemes of the same name share a flight: the second one returns
the token of the first, and no call with its scheme has fetched one. -/
theorem token_shared_undeclared : ∃ σ, Reach cacheMachine.traced ((start Shared.undeclared).traced []) σ ∧
    (∀ call ∈ Shared.undeclared, ' ' ∉ call.registry.toList) ∧
    Shared.undeclared[1]? = some (.set "ghcr.io" ⟨3⟩ "repository:app:pull") ∧ σ.Returned 1 (.token (.ok "secret")) ∧
    ¬ ∃ t', Shared.undeclared[t']? = some (.set "ghcr.io" ⟨3⟩ "repository:app:pull") ∧
      ⟨t', .fetch, .returned (.ok "secret")⟩ ∈ σ.shared.2 := by
  obtain ⟨returned, spaceless, byFirst⟩ := Shared.undeclared_run
  refine ⟨_, Shared.run_reach _, spaceless, rfl, Pool.returned?_eq_some.mp returned, ?_⟩
  rintro ⟨t', listed, fetched⟩
  obtain rfl : t' = 0 := of_decide_eq_true (List.all_eq_true.mp byFirst _ fetched)
  cases listed

end OrasGo.Auth
