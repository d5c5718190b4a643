import OrasGo.Base.Pool
import OrasGo.Oci.Calls

/-! Concurrent calls of `Push`, `Tag` and `Untag` on one store with `AutoSaveIndex`:
each changes the references in steps of its own and then saves the index under the
index lock. -/

namespace OrasGo.Oci.Concurrent
open Interleaving

abbrev RefMap := Finmap (fun _ : String => Descriptor)

/-- The steps of a call that other calls may come between. The steps of the storage
and of the graph touch neither the references nor the index. -/
inductive Op
  | store (expected : Descriptor) (content : Bytes)
  | index (node : Descriptor)
  | contains (desc : Descriptor)
  | resolve (reference : String)
  | tag (desc : Descriptor) (reference : String)
  | untag (reference : String)
  | lock
  | unlock
  | refMap
  | iterate
  | setManifests (manifests : List Descriptor)
  | writeIndexFile

@[reducible] def Ans : Op → Type
  | .store _ _ => Option Error
  | .index _ => Option Error
  | .contains _ => Except Error Bool
  | .resolve _ => Except Error Descriptor
  | .refMap => RefMap
  | .iterate => SaveOrders
  | .tag _ _ | .untag _ | .lock | .unlock | .setManifests _ | .writeIndexFile => Unit

abbrev Code := Prog Op Ans

def ask (op : Op) : Code (Ans op) := Prog.perform op

/-- `Store.saveIndex`, with the orders of its two iterations. -/
def saveIndex : Code Unit := do
  ask .lock
  let refMap ← ask .refMap
  let orders ← ask .iterate
  ask (.setManifests (indexManifests orders refMap))
  ask .writeIndexFile
  ask .unlock

/-- `Store.tag`. -/
def tagInternal (desc : Descriptor) (reference : String) : Code (Option Error) := do
  if reference = desc.digest then pure () else ask (.tag desc desc.digest)
  ask (.tag desc reference)
  saveIndex
  return none

/-- `Store.Push`. -/
def push (expected : Descriptor) (content : Bytes) : Code (Option Error) := do
  match ← ask (.store expected content) with
  | some err => return some err
  | none =>
    match ← ask (.index expected) with
    | some err => return some err
    | none => if isManifest expected then tagInternal expected expected.digest else return none

/-- `Store.Tag`. -/
def tag (desc : Descriptor) (reference : String) : Code (Option Error) :=
  match validateReference reference with
  | some err => return some err
  | none => do
    match ← ask (.contains desc) with
    | .error err => return some err
    | .ok false => return some (.wrap (Storage.describe desc) .notFound)
    | .ok true => tagInternal desc reference

/-- `Store.Untag`. -/
def untag (reference : String) : Code (Option Error) :=
  if reference = "" then return some .missingReference
  else do
    match ← ask (.resolve reference) with
    | .error err => return some (.wrap ("resolving reference \"" ++ reference ++ "\"") err)
    | .ok desc =>
      if reference = desc.digest then
        return some (.wrap ("reference \"" ++ reference ++ "\" is a digest and not a tag") .invalidReference)
      else do
        ask (.untag reference)
        saveIndex
        return none

inductive Call
  | push (expected : Descriptor) (content : Bytes)
  | tag (desc : Descriptor) (reference : String)
  | untag (reference : String)

def Call.code : Call → Code (Option Error)
  | .push expected content => Concurrent.push expected content
  | .tag desc reference => Concurrent.tag desc reference
  | .untag reference => Concurrent.untag reference

/-- The call saves the index if it returns nil. -/
def Call.saves : Call → Bool
  | .push expected _ => isManifest expected
  | .tag _ _ | .untag _ => true

/-- What the calls share: the references, the goroutine that holds the index lock,
the manifests of the index in memory and of `index.json`. -/
structure Shared where
  tagResolver : Resolver.Memory
  indexLock : Option Nat := none
  manifests : List Descriptor := []
  indexFile : List Descriptor

def perform (s : Shared) (t : Nat) : (op : Op) → Ans op → Option Shared
  | .store _ _, _ | .index _, _ | .contains _, _ | .iterate, _ => some s
  | .resolve reference, answer =>
    match s.tagResolver.resolve reference, answer with
    | .ok desc, .ok desc' => if desc = desc' then some s else none
    | .error err, .error err' => if err = err' then some s else none
    | _, _ => none
  | .tag desc reference, _ => some { s with tagResolver := s.tagResolver.tag desc reference }
  | .untag reference, _ => some { s with tagResolver := s.tagResolver.untag reference }
  | .lock, _ => if s.indexLock = none then some { s with indexLock := some t } else none
  | .unlock, _ => if s.indexLock = some t then some { s with indexLock := none } else none
  | .refMap, refMap => if refMap = s.tagResolver.index then some s else none
  | .setManifests manifests, _ => some { s with manifests }
  | .writeIndexFile, _ => some { s with indexFile := s.manifests }

def machine : Machine Op Ans Shared Call (Option Error) where
  perform s t _ op answer := (perform s t op answer).map fun s => (s, [])
  env _ _ := False

def start (s : Shared) (calls : List Call) : Pool Op Ans Shared Call (Option Error) :=
  ⟨s, calls.map fun call => ⟨call, call.code⟩⟩

/-- Where a call is in `saveIndex`. -/
inductive Stage
  | outside
  | locked
  | copied (refMap : RefMap)
  | listed (refMap : RefMap)
  | written

/-- What a call has to do yet: `owes` says that it changed the references and did not
copy them since, `updated` that it changed them at all. -/
structure Ledger where
  stage : Stage := .outside
  owes : Bool := false
  updated : Bool := false

def ledgerGhost : Ghost Op Ans Ledger where
  pre
    | .lock, l => l.stage = .outside
    | .refMap, l => l.stage = .locked
    | .setManifests manifests, l =>
      ∃ refMap orders, l.stage = .copied refMap ∧ manifests = indexManifests orders refMap
    | .writeIndexFile, l => ∃ refMap, l.stage = .listed refMap
    | .unlock, l => l.stage = .written
    | .tag _ _, l | .untag _, l => l.stage = .outside
    | _, _ => True
  next
    | .lock, _, l, l' => l' = { l with stage := .locked }
    | .refMap, refMap, l, l' => l' = { l with stage := .copied refMap, owes := false }
    | .setManifests _, _, l, l' => ∃ refMap, l.stage = .copied refMap ∧ l' = { l with stage := .listed refMap }
    | .writeIndexFile, _, l, l' => l' = { l with stage := .written }
    | .unlock, _, l, l' => l' = { l with stage := .outside }
    | .tag _ _, _, l, l' | .untag _, _, l, l' => l' = { l with owes := true, updated := true }
    | _, _, l, l' => l' = l

/-- A call that returns owes nothing, and one that should have saved the index did. -/
def ledgerPost (call : Call) (result : Option Error) (l : Ledger) : Prop :=
  l.stage = .outside ∧ l.owes = false ∧ (result = none → call.saves = true → l.updated = true)

theorem ledger_saveIndex {l : Ledger} (outside : l.stage = .outside) :
    wp ledgerGhost saveIndex (fun _ l' => l' = { l with owes := false }) l := by
  refine ⟨outside, ?_⟩
  rintro _ _ rfl
  refine ⟨rfl, ?_⟩
  rintro refMap _ rfl
  refine ⟨trivial, ?_⟩
  rintro orders _ rfl
  refine ⟨⟨refMap, orders, rfl, rfl⟩, ?_⟩
  rintro _ _ ⟨_, _, rfl⟩
  refine ⟨⟨_, rfl⟩, ?_⟩
  rintro _ _ rfl
  refine ⟨rfl, ?_⟩
  rintro _ _ rfl
  rw [← outside]
  rfl

theorem ledger_saved {call : Call} {l : Ledger} (outside : l.stage = .outside) (updated : l.updated = true) :
    wp ledgerGhost (do saveIndex; return none) (ledgerPost call) l := by
  refine wp_seq ledgerGhost (ledger_saveIndex outside) ?_
  rintro _ _ rfl
  exact ⟨outside, rfl, fun _ _ => updated⟩

theorem ledger_tagInternal {call : Call} (desc : Descriptor) (reference : String) :
    wp ledgerGhost (tagInternal desc reference) (ledgerPost call) {} := by
  have last (l : Ledger) (outside : l.stage = .outside) :
      wp ledgerGhost (do ask (.tag desc reference); saveIndex; return none) (ledgerPost call) l := by
    refine ⟨outside, ?_⟩
    rintro _ _ rfl
    exact ledger_saved outside rfl
  unfold tagInternal
  split
  · exact last {} rfl
  · refine ⟨rfl, ?_⟩
    rintro _ _ rfl
    exact last _ rfl

theorem ledger_failed {call : Call} (err : Error) : ledgerPost call (some err) {} :=
  ⟨rfl, rfl, fun impossible => by cases impossible⟩

theorem ledger_code (call : Call) : wp ledgerGhost call.code (ledgerPost call) {} := by
  cases call with
  | push expected content =>
    refine ⟨trivial, ?_⟩
    rintro (_ | err) _ rfl
    · refine ⟨trivial, ?_⟩
      rintro (_ | err) _ rfl
      · change wp _ (if isManifest expected then tagInternal expected expected.digest else .ret none) _ _
        split
        · exact ledger_tagInternal expected expected.digest
        · rename_i other
          exact ⟨rfl, rfl, fun _ saves => absurd saves other⟩
      · exact ledger_failed err
    · exact ledger_failed err
  | tag desc reference =>
    change wp _ (Concurrent.tag desc reference) _ _
    unfold Concurrent.tag
    split
    · exact ledger_failed _
    · refine ⟨trivial, ?_⟩
      rintro (err | _ | _) _ rfl
      · exact ledger_failed err
      · exact ledger_failed _
      · exact ledger_tagInternal desc reference
  | untag reference =>
    change wp _ (Concurrent.untag reference) _ _
    unfold Concurrent.untag
    split
    · exact ledger_failed _
    · refine ⟨trivial, ?_⟩
      rintro (err | desc) _ rfl
      · exact ledger_failed _
      · change wp _ (if reference = desc.digest then .ret (some _) else _) _ _
        split
        · exact ledger_failed _
        · refine ⟨rfl, ?_⟩
          rintro _ _ rfl
          exact ledger_saved rfl rfl

/-- Some call still has to copy the references. -/
def Owing (ghosts : List (Call × Ledger)) : Prop := ∃ g ∈ ghosts, g.2.owes = true

/-- The call has copied the references, and `index.json` is not written yet. -/
def Ledger.Copied (l : Ledger) (refMap : RefMap) : Prop := l.stage = .copied refMap ∨ l.stage = .listed refMap

/-- What holds between any two steps: the lock has one holder, a copy that is out of
date has somebody to replace it, and so has `index.json` unless a copy is on its way. -/
structure SaveInv (s₀ s : Shared) (ghosts : List (Call × Ledger)) : Prop where
  holder : ∀ (t : Nat) call (l : Ledger), ghosts[t]? = some (call, l) → l.stage ≠ .outside → s.indexLock = some t
  copied : ∀ (t : Nat) call (l : Ledger) refMap, ghosts[t]? = some (call, l) → l.Copied refMap →
    refMap = s.tagResolver.index ∨ Owing ghosts
  listed : ∀ (t : Nat) call (l : Ledger) refMap, ghosts[t]? = some (call, l) → l.stage = .listed refMap →
    ∃ orders, s.manifests = indexManifests orders refMap
  settled : (∃ t : Nat, ∃ call, ∃ l : Ledger, ∃ refMap, ghosts[t]? = some (call, l) ∧ l.Copied refMap) ∨
    (∃ orders, s.indexFile = indexManifests orders s.tagResolver.index) ∨ Owing ghosts ∨
    s.tagResolver = s₀.tagResolver ∧ s.indexFile = s₀.indexFile ∧ ∀ g ∈ ghosts, g.2.updated = false

section Keep
variable {s₀ s : Shared} {ghosts : List (Call × Ledger)} {t : Nat} {call : Call} {l : Ledger}

theorem Owing.set {l' : Ledger} (owing : Owing ghosts) (found : ghosts[t]? = some (call, l)) (same : l'.owes = l.owes) :
    Owing (ghosts.set t (call, l')) := by
  obtain ⟨g, member, owes⟩ := owing
  rcases mem_set_or_eq (y := (call, l')) found member with other | rfl
  · exact ⟨g, other, owes⟩
  · exact ⟨(call, l'), mem_set_self found, same.trans owes⟩

theorem SaveInv.others_outside (inv : SaveInv s₀ s ghosts) (lock : s.indexLock = none ∨ s.indexLock = some t)
    {t' : Nat} {call' : Call} {l' : Ledger} (found : ghosts[t']? = some (call', l')) (other : t' ≠ t) :
    l'.stage = .outside := by
  by_contra inside
  have held := inv.holder t' call' l' found inside
  rcases lock with free | own
  · cases free.symm.trans held
  · cases own.symm.trans held
    exact other rfl

theorem Ledger.Copied.inside {refMap : RefMap} (copied : l.Copied refMap) : l.stage ≠ .outside := by
  rcases copied with stage | stage <;> rw [stage] <;> intro impossible <;> cases impossible

section

variable (inv : SaveInv s₀ s ghosts) (found : ghosts[t]? = some (call, l))
include inv found

theorem SaveInv.change (outside : l.stage = .outside) (tagResolver : Resolver.Memory) :
    SaveInv s₀ { s with tagResolver } (ghosts.set t (call, { l with owes := true, updated := true })) := by
  have owing : Owing (ghosts.set t (call, { l with owes := true, updated := true })) :=
    ⟨_, mem_set_self found, rfl⟩
  refine ⟨fun t' call' l' atT' inside => ?_, fun t' call' l' refMap _ _ => .inr owing,
    fun t' call' l' refMap atT' stage => ?_, .inr (.inr (.inl owing))⟩
  · rcases getElem?_set_cases atT' with ⟨rfl, same⟩ | ⟨_, before⟩
    · cases same
      exact absurd outside inside
    · exact inv.holder t' call' l' before inside
  · rcases getElem?_set_cases atT' with ⟨rfl, same⟩ | ⟨_, before⟩
    · cases same
      cases outside.symm.trans stage
    · exact inv.listed t' call' l' refMap before stage

theorem SaveInv.move (lock : s.indexLock = none ∨ s.indexLock = some t) {indexLock : Option Nat}
    {indexFile : List Descriptor} {stage : Stage} (held : stage ≠ .outside → indexLock = some t)
    (free : ∀ refMap, ¬ Ledger.Copied { l with stage } refMap)
    (settled : (∃ orders, indexFile = indexManifests orders s.tagResolver.index) ∨ Owing ghosts ∨
      s.tagResolver = s₀.tagResolver ∧ indexFile = s₀.indexFile ∧ ∀ g ∈ ghosts, g.2.updated = false) :
    SaveInv s₀ { s with indexLock, indexFile } (ghosts.set t (call, { l with stage })) := by
  have none (t' : Nat) (call' : Call) (l' : Ledger) (refMap : RefMap)
      (atT' : (ghosts.set t (call, { l with stage }))[t']? = some (call', l')) : ¬ l'.Copied refMap := by
    rcases getElem?_set_cases atT' with ⟨rfl, same⟩ | ⟨other, before⟩
    · cases same
      exact free refMap
    · intro copied
      exact copied.inside (inv.others_outside lock before other)
  refine ⟨fun t' call' l' atT' inside => ?_, fun t' call' l' refMap atT' copied => absurd copied (none t' call' l' refMap atT'),
    fun t' call' l' refMap atT' listed => absurd (.inr listed) (none t' call' l' refMap atT'), .inr ?_⟩
  · rcases getElem?_set_cases atT' with ⟨rfl, same⟩ | ⟨other, before⟩
    · cases same
      exact held inside
    · exact absurd (inv.others_outside lock before other) inside
  · rcases settled with written | owing | ⟨resolver, file, fresh⟩
    · exact .inl written
    · exact .inr (.inl (owing.set found rfl))
    · refine .inr (.inr ⟨resolver, file, fun g member => ?_⟩)
      obtain ⟨t', atT'⟩ := List.mem_iff_getElem?.mp member
      rcases getElem?_set_cases atT' with ⟨_, rfl⟩ | ⟨_, before⟩
      · exact fresh (call, l) (List.mem_of_getElem? found)
      · exact fresh g (List.mem_of_getElem? before)

theorem SaveInv.hold (lock : s.indexLock = some t) {manifests : List Descriptor} {l' : Ledger} {refMap : RefMap}
    (copied : l'.Copied refMap) (current : refMap = s.tagResolver.index ∨ Owing (ghosts.set t (call, l')))
    (listed : l'.stage = .listed refMap → ∃ orders, manifests = indexManifests orders refMap) :
    SaveInv s₀ { s with manifests } (ghosts.set t (call, l')) := by
  have inside : t < ghosts.length := (List.getElem?_eq_some_iff.mp found).1
  have own {refMap' : RefMap} (again : l'.Copied refMap') : refMap' = refMap := by
    rcases copied with stage | stage <;> rcases again with stage' | stage' <;> cases stage.symm.trans stage' <;> rfl
  refine ⟨fun t' call' l'' atT' busy => ?_, fun t' call' l'' refMap' atT' again => ?_,
    fun t' call' l'' refMap' atT' stage => ?_, .inl ⟨t, call, l', refMap, List.getElem?_set_self inside, copied⟩⟩
  · rcases getElem?_set_cases atT' with ⟨rfl, _⟩ | ⟨other, before⟩
    · exact lock
    · exact absurd (inv.others_outside (.inr lock) before other) busy
  · rcases getElem?_set_cases atT' with ⟨rfl, same⟩ | ⟨other, before⟩
    · cases same
      rw [own again]
      exact current
    · exact absurd (inv.others_outside (.inr lock) before other) again.inside
  · rcases getElem?_set_cases atT' with ⟨rfl, same⟩ | ⟨other, before⟩
    · cases same
      have same := own (.inr stage)
      subst same
      exact listed stage
    · exact absurd (inv.others_outside (.inr lock) before other) (Ledger.Copied.inside (.inr stage))

end

end Keep

theorem save_sound (s₀ : Shared) : Sound (fun _ => ledgerGhost) ledgerPost machine (SaveInv s₀) := by
  intro s ghosts t call l op a s' spawned inv found pre performed
  obtain ⟨s₁, moved, same⟩ := Option.map_eq_some_iff.mp performed
  cases same
  suffices kept : ∃ l', ledgerGhost.next op a l l' ∧ SaveInv s₀ s' (ghosts.set t (call, l')) by
    obtain ⟨l', next, inv'⟩ := kept
    exact .move l' next inv'
  have still : SaveInv s₀ s (ghosts.set t (call, l)) := by rwa [set_same found]
  cases op with
  | store | index | contains | iterate =>
    cases moved
    exact ⟨l, rfl, still⟩
  | resolve reference =>
    have unchanged : s' = s := by
      simp only [perform] at moved
      split at moved
      · exact (Option.ite_none_right_eq_some.mp moved).2 |> Option.some.inj |> Eq.symm
      · exact (Option.ite_none_right_eq_some.mp moved).2 |> Option.some.inj |> Eq.symm
      · cases moved
    rw [unchanged]
    exact ⟨l, rfl, still⟩
  | tag | untag =>
    cases moved
    exact ⟨_, rfl, inv.change found pre _⟩
  | lock =>
    obtain ⟨free, rfl⟩ := of_ite_some moved
    have empty (refMap : RefMap) : ¬ Ledger.Copied { l with stage := .locked } refMap := by
      rintro (impossible | impossible) <;> cases impossible
    have idle : ¬ ∃ t : Nat, ∃ call, ∃ l : Ledger, ∃ refMap, ghosts[t]? = some (call, l) ∧ l.Copied refMap := by
      rintro ⟨t', call', l', refMap, atT', copied⟩
      cases free.symm.trans (inv.holder t' call' l' atT' copied.inside)
    exact ⟨_, rfl, inv.move found (.inl free) (fun _ => rfl) empty (inv.settled.resolve_left idle)⟩
  | unlock =>
    obtain ⟨own, rfl⟩ := of_ite_some moved
    have empty (refMap : RefMap) : ¬ Ledger.Copied { l with stage := .outside } refMap := by
      rintro (impossible | impossible) <;> cases impossible
    have idle : ¬ ∃ t : Nat, ∃ call, ∃ l : Ledger, ∃ refMap, ghosts[t]? = some (call, l) ∧ l.Copied refMap := by
      rintro ⟨t', call', l', refMap, atT', copied⟩
      by_cases mine : t' = t
      · subst mine
        cases atT'.symm.trans found
        rcases copied with stage | stage <;> cases stage.symm.trans pre
      · exact copied.inside (inv.others_outside (.inr own) atT' mine)
    exact ⟨_, rfl, inv.move found (.inr own) (absurd rfl) empty (inv.settled.resolve_left idle)⟩
  | refMap =>
    obtain ⟨current, rfl⟩ := of_ite_some moved
    have own := inv.holder t call l found (by rw [show l.stage = .locked from pre]; intro impossible; cases impossible)
    refine ⟨{ l with stage := .copied a, owes := false }, rfl, ?_⟩
    exact inv.hold found own (.inl rfl) (.inl current) fun impossible => by cases impossible
  | setManifests manifests =>
    cases moved
    obtain ⟨refMap, orders, stage, rfl⟩ := pre
    have copied : l.Copied refMap := .inl stage
    have own := inv.holder t call l found copied.inside
    have current := inv.copied t call l refMap found copied
    refine ⟨{ l with stage := .listed refMap }, ⟨refMap, stage, rfl⟩, ?_⟩
    exact inv.hold found own (.inr rfl) (current.imp_right fun owing => owing.set found rfl) fun _ => ⟨orders, rfl⟩
  | writeIndexFile =>
    cases moved
    obtain ⟨refMap, stage⟩ := pre
    have copied : l.Copied refMap := .inr stage
    have own := inv.holder t call l found copied.inside
    have empty (refMap : RefMap) : ¬ Ledger.Copied { l with stage := .written } refMap := by
      rintro (impossible | impossible) <;> cases impossible
    obtain ⟨orders, file⟩ := inv.listed t call l refMap found stage
    refine ⟨{ l with stage := .written }, rfl, inv.move found (.inr own) (fun _ => own) empty ?_⟩
    rcases inv.copied t call l refMap found copied with current | owing
    · exact .inl ⟨orders, by rw [file, current]⟩
    · exact .inr (.inl owing)

theorem save_reach {s₀ : Shared} {calls : List Call} {σ : Pool Op Ans Shared Call (Option Error)}
    (reach : Reach machine (start s₀ calls) σ) :
    Outline (fun _ => ledgerGhost) ledgerPost (SaveInv s₀) σ := by
  refine Outline.reach (save_sound s₀) (fun _ _ _ _ impossible => impossible.elim) ⟨calls.map fun call => (call, {}), ?_, ?_⟩
    reach
  · simp only [start, List.forall₂_map_left_iff, List.forall₂_map_right_iff, List.forall₂_same]
    exact fun call _ => ⟨rfl, ledger_code call⟩
  · have idle {t : Nat} {call : Call} {l : Ledger}
        (found : (calls.map fun call => (call, ({} : Ledger)))[t]? = some (call, l)) : l = {} := by
      obtain ⟨_, _, same⟩ := List.mem_map.mp (List.mem_of_getElem? found)
      cases same
      rfl
    refine ⟨fun t call l found inside => ?_, fun t call l refMap found copied => ?_,
      fun t call l refMap found stage => ?_, .inr (.inr (.inr ⟨rfl, rfl, fun g member => ?_⟩))⟩
    · exact absurd (by rw [idle found]) inside
    · exact absurd (by rw [idle found]) copied.inside
    · rw [idle found] at stage
      cases stage
    · obtain ⟨_, _, rfl⟩ := List.mem_map.mp member
      rfl

theorem labels_reach {s₀ : Shared} {calls : List Call} {σ : Pool Op Ans Shared Call (Option Error)}
    (reach : Reach machine (start s₀ calls) σ) : σ.threads.map Thread.label = calls := by
  have quiet (s : Shared) (t n : Nat) (op : Op) (a : Ans op) (s' : Shared) (spawned)
      (performed : machine.perform s t n op a = some (s', spawned)) : spawned = [] := by
    obtain ⟨_, _, same⟩ := Option.map_eq_some_iff.mp performed
    cases same
    rfl
  rw [Reach.labels quiet reach, start, List.map_map]
  exact List.map_id calls

/-- Once all calls have returned, `index.json` lists what the references resolve to,
if it did so before or if one of the calls saved it. -/
theorem index_file_current {s₀ : Shared} {calls : List Call} {σ : Pool Op Ans Shared Call (Option Error)}
    (reach : Reach machine (start s₀ calls) σ)
    (returned : ∀ t < calls.length, ∃ result, σ.Returned t result)
    (saved : (∃ orders, s₀.indexFile = indexManifests orders s₀.tagResolver.index) ∨
      ∃ t call, calls[t]? = some call ∧ call.saves = true ∧ σ.Returned t none) :
    ∃ orders, σ.shared.indexFile = indexManifests orders σ.shared.tagResolver.index := by
  obtain ⟨ghosts, fits, inv⟩ := save_reach reach
  have labels := labels_reach reach
  have length : ghosts.length = calls.length := by
    rw [← fits.length_eq, ← labels, List.length_map]
  have done {t : Nat} {g : Call × Ledger} (found : ghosts[t]? = some g) :
      ∃ result, σ.Returned t result ∧ ledgerPost g.1 result g.2 := by
    have inside : t < calls.length := length ▸ (List.getElem?_eq_some_iff.mp found).1
    obtain ⟨result, label, atT⟩ := returned t inside
    obtain ⟨l', atGhost, post⟩ := ghost_of_thread fits atT
    cases atGhost.symm.trans found
    exact ⟨result, ⟨label, atT⟩, post⟩
  have nobody : ¬ Owing ghosts := by
    rintro ⟨g, member, owes⟩
    obtain ⟨t, found⟩ := List.mem_iff_getElem?.mp member
    obtain ⟨_, _, _, paid, _⟩ := done found
    cases owes.symm.trans paid
  rcases inv.settled with ⟨t, call, l, refMap, found, copied⟩ | written | owing | ⟨resolver, file, fresh⟩
  · obtain ⟨_, _, outside, _⟩ := done found
    exact absurd outside copied.inside
  · exact written
  · exact absurd owing nobody
  · rcases saved with before | ⟨t, call, listed, saves, nil⟩
    · rw [resolver, file]
      exact before
    · obtain ⟨label, atT⟩ := nil
      obtain ⟨l, atGhost, _, _, updated⟩ := ghost_of_thread fits atT
      have own : label = call := by
        have atLabel : (σ.threads.map Thread.label)[t]? = some label := by rw [List.getElem?_map, atT]; rfl
        rw [labels, listed] at atLabel
        exact (Option.some.inj atLabel).symm
      rw [own] at updated
      cases (updated rfl saves).symm.trans (fresh _ (List.mem_of_getElem? atGhost))

set_option maxRecDepth 10000

namespace Both
open Sample

/-- The answers of a storage that has the image. -/
noncomputable def oracle (s : Shared) (_ : Nat) : (op : Op) → Ans op
  | .store _ _ => none
  | .index _ => none
  | .contains _ => .ok true
  | .resolve reference => s.tagResolver.resolve reference
  | .refMap => s.tagResolver.index
  | .iterate => orders
  | .tag _ _ | .untag _ | .lock | .unlock | .setManifests _ | .writeIndexFile => ()

def calls : List Call := [.push image imageBytes, .tag image "v1"]

noncomputable def run : Pool Op Ans Shared Call (Option Error) :=
  (start { tagResolver := {}, indexFile := [] } calls).rounds machine oracle 20

theorem run_returned : run.returned? 0 = some none ∧ run.returned? 1 = some none ∧
    run.shared.tagResolver.index.keys = {"v1", image.digest} := by
  decide +kernel

end Both

/-- A push and a tag that are both saved, whichever comes first. -/
theorem index_file_current_image : Reach machine (start { tagResolver := {}, indexFile := [] } Both.calls) Both.run ∧
    Both.run.shared.tagResolver.index.keys = {"v1", Sample.image.digest} ∧
    ∃ orders, Both.run.shared.indexFile = indexManifests orders Both.run.shared.tagResolver.index := by
  obtain ⟨first, second, keys⟩ := Both.run_returned
  have reach : Reach machine (start { tagResolver := {}, indexFile := [] } Both.calls) Both.run := Pool.rounds_reach 20 _
  have pushed : Both.run.Returned 0 none := Pool.returned?_eq_some.mp first
  have tagged : Both.run.Returned 1 none := Pool.returned?_eq_some.mp second
  refine ⟨reach, keys, index_file_current reach (fun t inside => ?_) (.inr ⟨1, _, rfl, rfl, tagged⟩)⟩
  rcases t with _ | _ | t
  · exact ⟨none, pushed⟩
  · exact ⟨none, tagged⟩
  · exact absurd inside (by simp [Both.calls])

end OrasGo.Oci.Concurrent
