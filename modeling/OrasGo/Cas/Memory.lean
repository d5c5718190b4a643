import Mathlib.Data.Finmap
import OrasGo.Base.Pool
import OrasGo.Content.Reader

/-! `cas.Memory` under any number of goroutines that push and fetch. -/

namespace OrasGo.Cas
open Interleaving

/-- The operations of `sync.Map` that `cas.Memory` uses. `loadOrStore` answers whether
there was a value already. -/
inductive MapOp
  | load (key : Key)
  | loadOrStore (key : Key) (value : Bytes)

@[reducible] def MapAns : MapOp → Type
  | .load _ => Option Bytes
  | .loadOrStore _ _ => Bool

abbrev Contents := Finmap (fun _ : Key => Bytes)

abbrev Code := Prog MapOp MapAns

def load (key : Key) : Code (Option Bytes) := Prog.perform (MapOp.load key)

def loadOrStore (key : Key) (value : Bytes) : Code Bool := Prog.perform (MapOp.loadOrStore key value)

def alreadyExists (key : Key) : Error := .wrap (key.digest ++ ": " ++ key.mediaType) .alreadyExists

def notFound (key : Key) : Error := .wrap (key.digest ++ ": " ++ key.mediaType) .notFound

section Methods
variable {Op : Type} {Ans : Op → Type} (load : Key → Prog Op Ans (Option Bytes))
  (loadOrStore : Key → Bytes → Prog Op Ans Bool)

/-- The end of `Memory.Push`, with what `ReadAll` has returned. -/
def store (key : Key) : Except Error Bytes → Prog Op Ans (Option Error)
  | .error err => return some err
  | .ok value => do
    if ← loadOrStore key value then return some (alreadyExists key) else return none

/-- `Memory.Push`, where `read` is `ReadAll` on the reader. -/
def push (expected : Descriptor) (read : Prog Op Ans (Except Error Bytes)) : Prog Op Ans (Option Error) := do
  match ← load (fromOCI expected) with
  | some _ => return some (alreadyExists (fromOCI expected))
  | none => read >>= store loadOrStore (fromOCI expected)

/-- `Memory.Fetch`. -/
def fetch (target : Descriptor) : Prog Op Ans (Except Error Bytes) := do
  match ← load (fromOCI target) with
  | some content => return .ok content
  | none => return .error (notFound (fromOCI target))

/-- `Memory.Exists`. -/
def contains (target : Descriptor) : Prog Op Ans Bool := do
  return (← load (fromOCI target)).isSome

end Methods

inductive Call
  | push (expected : Descriptor) (content : Stream)
  | fetch (target : Descriptor)
  | contains (target : Descriptor)

inductive Result
  | pushed (err : Option Error)
  | fetched (content : Except Error Bytes)
  | contained (found : Bool)
  deriving DecidableEq

/-- The goroutine that makes a call. -/
def Call.code (cd : Codec) : Call → Code Result
  | .push expected content => do
    -- The reader belongs to the goroutine, so that its reads are no steps of their own.
    return .pushed (← Cas.push load loadOrStore expected (return content.run (readAllFrom cd expected)))
  | .fetch target => do return .fetched (← Cas.fetch load target)
  | .contains target => do return .contained (← Cas.contains load target)

def perform (m : Contents) (_ _ : Nat) :
    (op : MapOp) → MapAns op → Option (Contents × List (Thread MapOp MapAns Call Result))
  | .load key, answer => if answer = m.lookup key then some (m, []) else none
  | .loadOrStore key value, loaded =>
    match m.lookup key with
    | some _ => if loaded = true then some (m, []) else none
    | none => if loaded = false then some (m.insert key value, []) else none

def machine : Machine MapOp MapAns Contents Call Result where
  perform := perform
  env _ _ := False

abbrev Run := Pool MapOp MapAns Contents Call Result

/-- The calls are about to be made on `NewMemory()`. -/
def start (cd : Codec) (calls : List Call) : Run := ⟨∅, calls.map fun call => ⟨call, call.code cd⟩⟩

section Perform
variable {m m' : Contents} {t n : Nat} {spawned : List (Thread MapOp MapAns Call Result)}

theorem perform_load {key : Key} {answer : Option Bytes} (done : perform m t n (.load key) answer = some (m', spawned)) :
    answer = m.lookup key ∧ m' = m ∧ spawned = [] := by
  simp only [perform, Option.ite_none_right_eq_some, Option.some.injEq, Prod.mk.injEq] at done
  exact ⟨done.1, done.2.1.symm, done.2.2.symm⟩

theorem perform_loadOrStore {key : Key} {value : Bytes} {loaded : Bool}
    (done : perform m t n (.loadOrStore key value) loaded = some (m', spawned)) : spawned = [] ∧
      ((loaded = true ∧ key ∈ m ∧ m' = m) ∨ (loaded = false ∧ key ∉ m ∧ m' = m.insert key value)) := by
  simp only [perform] at done
  split at done
  · rename_i present found
    simp only [Option.ite_none_right_eq_some, Option.some.injEq, Prod.mk.injEq] at done
    exact ⟨done.2.2.symm, .inl ⟨done.1, Finmap.mem_iff.mpr ⟨present, found⟩, done.2.1.symm⟩⟩
  · rename_i absent
    simp only [Option.ite_none_right_eq_some, Option.some.injEq, Prod.mk.injEq] at done
    exact ⟨done.2.2.symm, .inr ⟨done.1, Finmap.lookup_eq_none.mp absent, done.2.1.symm⟩⟩

theorem perform_kept {op : MapOp} {a : MapAns op} (done : perform m t n op a = some (m', spawned)) {key : Key}
    {value : Bytes} (stored : m.lookup key = some value) : m'.lookup key = some value := by
  cases op with
  | load key' =>
    obtain ⟨_, rfl, _⟩ := perform_load done
    exact stored
  | loadOrStore key' value' =>
    obtain ⟨_, ⟨_, _, rfl⟩ | ⟨_, absent, rfl⟩⟩ := perform_loadOrStore done
    · exact stored
    · have other : key ≠ key' := by
        rintro rfl
        exact absent (Finmap.mem_iff.mpr ⟨value, stored⟩)
      rw [Finmap.lookup_insert_of_ne _ other]
      exact stored

end Perform

theorem stored_kept {σ σ' : Run} (reach : Reach machine σ σ') {key : Key} {value : Bytes}
    (stored : σ.shared.lookup key = some value) : σ'.shared.lookup key = some value := by
  refine Reach.invariant (P := fun σ => σ.shared.lookup key = some value) ?_ reach stored
  intro σ₁ σ₂ held step
  cases step with
  | env impossible => exact absurd impossible id
  | thread t moved =>
    cases moved with
    | answer found performed => exact perform_kept (t := t) (n := σ₁.threads.length) performed held

/-- What a goroutine knows: that it has found or put something under its key. -/
inductive Verdict
  | unknown
  | present
  | stored
  deriving DecidableEq

/-- The outline of a goroutine. Only a push whose reader delivers the content stores, and
only that content. -/
def casGhost (cd : Codec) (call : Call) : Ghost MapOp MapAns Verdict where
  pre op l := l = .unknown ∧ match op with
    | .load key => match call with
      | .push expected _ => key = fromOCI expected
      | _ => True
    | .loadOrStore key value => ∃ expected content, call = .push expected content ∧ key = fromOCI expected ∧
        content.run (readAllFrom cd expected) = .ok value
  next op answer _ l' := match op, answer with
    | .load _, some _ => l' = .present
    | .load _, none => l' = .unknown
    | .loadOrStore _ _, true => l' = .present
    | .loadOrStore _ _, false => l' = .stored

/-- What the result of a push says. -/
def casPost (cd : Codec) (call : Call) (result : Result) (l : Verdict) : Prop :=
  ∀ expected content, call = .push expected content → ∃ err, result = .pushed err ∧
    match l with
    | .stored => err = none
    | .present => err = some (alreadyExists (fromOCI expected))
    | .unknown => ∃ failure, err = some failure ∧ content.run (readAllFrom cd expected) = .error failure

theorem wp_code (cd : Codec) (call : Call) : wp (casGhost cd call) (call.code cd) (casPost cd call) .unknown := by
  cases call with
  | fetch target =>
    refine ⟨⟨rfl, trivial⟩, fun answer l _ => ?_⟩
    cases answer <;> exact nofun
  | contains target =>
    refine ⟨⟨rfl, trivial⟩, fun answer l _ => ?_⟩
    exact nofun
  | push expected content =>
    refine ⟨⟨rfl, rfl⟩, fun answer l moved => ?_⟩
    cases answer with
    | some value =>
      cases moved
      rintro _ _ ⟨⟩
      exact ⟨_, rfl, rfl⟩
    | none =>
      cases moved
      cases read : content.run (readAllFrom cd expected) with
      | error err =>
        rintro _ _ ⟨⟩
        exact ⟨some err, rfl, err, rfl, read⟩
      | ok value =>
        refine ⟨⟨rfl, expected, content, rfl, rfl, read⟩, fun loaded l moved => ?_⟩
        cases loaded with
        | true | false =>
          cases moved
          rintro _ _ ⟨⟩
          exact ⟨_, rfl, rfl⟩

/-- A stored value belongs to exactly one push, which has read it. -/
structure CasInv (cd : Codec) (m : Contents) (ghosts : List (Call × Verdict)) : Prop where
  sound : ∀ key value, m.lookup key = some value →
    ∃ expected, fromOCI expected = key ∧ Matches cd expected value
  stored : ∀ key, key ∈ m ↔ ∃ expected content, fromOCI expected = key ∧ (.push expected content, .stored) ∈ ghosts
  once : ∀ (t t' : Nat) expected content expected' content', ghosts[t]? = some (.push expected content, .stored) →
    ghosts[t']? = some (.push expected' content', .stored) → fromOCI expected = fromOCI expected' → t = t'
  present : ∀ expected content, (.push expected content, .present) ∈ ghosts → fromOCI expected ∈ m

section Invariant
variable {cd : Codec} {m : Contents} {ghosts : List (Call × Verdict)} {t : Nat} {call : Call} {l : Verdict}

theorem CasInv.look {l' : Verdict} (inv : CasInv cd m ghosts) (found : ghosts[t]? = some (call, .unknown))
    (other : l' ≠ .stored)
    (present : ∀ expected content, call = .push expected content → l' = .present → fromOCI expected ∈ m) :
    CasInv cd m (ghosts.set t (call, l')) := by
  refine ⟨inv.sound, fun key => (inv.stored key).trans ?_, ?_, ?_⟩
  · refine exists_congr fun expected => exists_congr fun content => and_congr_right fun _ => ?_
    refine ⟨fun member => ?_, fun member => ?_⟩
    · exact (mem_set_or_eq found member).resolve_right fun same => by cases same
    · rcases List.mem_or_eq_of_mem_set member with old | new
      · exact old
      · cases new
        exact absurd rfl other
  · intro t₁ t₂ expected content expected' content' at₁ at₂ same
    rcases getElem?_set_cases at₁ with ⟨_, new⟩ | ⟨_, old₁⟩
    · cases new
      exact absurd rfl other
    rcases getElem?_set_cases at₂ with ⟨_, new⟩ | ⟨_, old₂⟩
    · cases new
      exact absurd rfl other
    exact inv.once t₁ t₂ expected content expected' content' old₁ old₂ same
  · intro expected content member
    rcases List.mem_or_eq_of_mem_set member with old | new
    · exact inv.present expected content old
    · cases new
      exact present expected content rfl rfl

theorem CasInv.store {expected : Descriptor} {content : Stream} {value : Bytes} (inv : CasInv cd m ghosts)
    (found : ghosts[t]? = some (.push expected content, .unknown)) (absent : fromOCI expected ∉ m)
    (matching : Matches cd expected value) :
    CasInv cd (m.insert (fromOCI expected) value) (ghosts.set t (.push expected content, .stored)) := by
  refine ⟨fun key value' stored => ?_, fun key => ?_, ?_, fun expected' content' member => ?_⟩
  · obtain ⟨rfl, rfl⟩ | ⟨_, stored⟩ := lookup_insert_cases stored
    · exact ⟨expected, rfl, matching⟩
    · exact inv.sound key value' stored
  · rw [Finmap.mem_insert, inv.stored]
    constructor
    · rintro (rfl | ⟨expected', content', same, member⟩)
      · exact ⟨expected, content, rfl, mem_set_self found⟩
      · exact ⟨expected', content', same, (mem_set_or_eq found member).resolve_right fun same => by cases same⟩
    · rintro ⟨expected', content', same, member⟩
      rcases List.mem_or_eq_of_mem_set member with old | new
      · exact .inr ⟨expected', content', same, old⟩
      · cases new
        exact .inl same.symm
  · intro t₁ t₂ expected₁ content₁ expected₂ content₂ at₁ at₂ same
    have fresh {t' : Nat} {expected' : Descriptor} {content' : Stream}
        (atT : ghosts[t']? = some (.push expected' content', .stored)) : fromOCI expected' ≠ fromOCI expected := by
      intro equal
      exact absent ((inv.stored _).mpr ⟨expected', content', equal, List.mem_of_getElem? atT⟩)
    rcases getElem?_set_cases at₁ with ⟨rfl, new₁⟩ | ⟨_, old₁⟩ <;>
      rcases getElem?_set_cases at₂ with ⟨rfl, new₂⟩ | ⟨_, old₂⟩
    · rfl
    · cases new₁
      exact absurd same.symm (fresh old₂)
    · cases new₂
      exact absurd same (fresh old₁)
    · exact inv.once t₁ t₂ expected₁ content₁ expected₂ content₂ old₁ old₂ same
  · rw [Finmap.mem_insert]
    rcases List.mem_or_eq_of_mem_set member with old | new
    · exact .inr (inv.present expected' content' old)
    · cases new

theorem cas_sound : Sound (casGhost cd) (casPost cd) machine (CasInv cd) := by
  intro m ghosts t call l op a m' spawned inv found pre performed
  obtain ⟨rfl, pre⟩ := pre
  cases op with
  | load key =>
    obtain ⟨answer, rfl, rfl⟩ := perform_load (t := t) (n := ghosts.length) performed
    cases a with
    | none =>
      exact .move .unknown rfl (inv.look found nofun nofun)
    | some value =>
      refine .move .present rfl (inv.look found nofun fun expected content push _ => ?_)
      subst push
      change key = fromOCI expected at pre
      rw [← pre]
      exact Finmap.mem_iff.mpr ⟨value, answer.symm⟩
  | loadOrStore key value =>
    obtain ⟨expected, content, rfl, rfl, read⟩ := pre
    obtain ⟨rfl, ⟨rfl, present, rfl⟩ | ⟨rfl, absent, rfl⟩⟩ :=
      perform_loadOrStore (t := t) (n := ghosts.length) performed
    · refine .move .present rfl (inv.look found nofun fun expected' content' push _ => ?_)
      cases push
      exact present
    · obtain ⟨delivers, rfl⟩ := (content.run_readAllFrom cd expected).2 _ read
      exact .move .stored rfl (inv.store found absent delivers.content)

theorem cas_reach {calls : List Call} {σ : Run} (reach : Reach machine (start cd calls) σ) :
    Outline (casGhost cd) (casPost cd) (CasInv cd) σ := by
  have initially : Outline (casGhost cd) (casPost cd) (CasInv cd) (start cd calls) := by
    refine ⟨calls.map fun call => (call, .unknown), ?_, ?_, ?_, ?_, ?_⟩
    · rw [start, List.forall₂_map_left_iff, List.forall₂_map_right_iff, List.forall₂_same]
      exact fun call _ => ⟨rfl, wp_code cd call⟩
    · intro key value stored
      simp [start] at stored
    · intro key
      refine iff_of_false Finmap.notMem_empty ?_
      rintro ⟨expected, content, _, member⟩
      obtain ⟨call, _, impossible⟩ := List.mem_map.mp member
      cases impossible
    · intro t t' expected content expected' content' atT
      obtain ⟨call, _, impossible⟩ := List.mem_map.mp (List.mem_of_getElem? atT)
      cases impossible
    · intro expected content member
      obtain ⟨call, _, impossible⟩ := List.mem_map.mp member
      cases impossible
  exact initially.reach cas_sound (fun _ _ _ _ impossible => absurd impossible id) reach

end Invariant

/-- Call `t` pushes `content` under `key`. -/
def Pushes (calls : List Call) (key : Key) (t : Nat) (expected : Descriptor) (content : Stream) : Prop :=
  calls[t]? = some (.push expected content) ∧ fromOCI expected = key

section Theorem
variable {cd : Codec} {calls : List Call} {σ : Run}

theorem perform_quiet (m : Contents) (t n : Nat) (op : MapOp) (a : MapAns op) (m' : Contents)
    (spawned : List (Thread MapOp MapAns Call Result)) (done : machine.perform m t n op a = some (m', spawned)) :
    spawned = [] := by
  cases op with
  | load key => exact (perform_load (t := t) (n := n) done).2.2
  | loadOrStore key value => exact (perform_loadOrStore (t := t) (n := n) done).1

theorem labels_start (reach : Reach machine (start cd calls) σ) : σ.threads.map Thread.label = calls := by
  rw [Reach.labels perform_quiet reach, start, List.map_map]
  exact List.map_id calls

section

variable {ghosts : List (Call × Verdict)} (reach : Reach machine (start cd calls) σ)
  (fits : List.Forall₂ (Fits (casGhost cd) (casPost cd)) σ.threads ghosts)
include reach fits

theorem ghost_of_call {t : Nat} {call : Call} (listed : calls[t]? = some call) : ∃ l, ghosts[t]? = some (call, l) ∧
      ∀ result, σ.Returned t result → casPost cd call result l := by
  have labels := labels_start reach
  have atLabel : (σ.threads.map Thread.label)[t]? = some call := labels ▸ listed
  rw [List.getElem?_map] at atLabel
  obtain ⟨⟨label, prog⟩, found, rfl⟩ := Option.map_eq_some_iff.mp atLabel
  obtain ⟨l, atGhost, outline⟩ := ghost_of_thread fits found
  refine ⟨l, atGhost, ?_⟩
  rintro result ⟨label, returned⟩
  cases returned.symm.trans found
  exact outline

theorem call_of_ghost {t : Nat} {call : Call} {l : Verdict} (found : ghosts[t]? = some (call, l)) :
    calls[t]? = some call := by
  obtain ⟨prog, atT, _⟩ := thread_of_ghost fits found
  rw [← labels_start reach, List.getElem?_map, atT]
  rfl

theorem push_outcome {t : Nat} {expected : Descriptor} {content : Stream} {err : Option Error}
    (listed : calls[t]? = some (.push expected content)) (returned : σ.Returned t (.pushed err)) :
    ∃ l, ghosts[t]? = some (.push expected content, l) ∧
      (l = .stored ∧ err = none ∨ l = .present ∧ err = some (alreadyExists (fromOCI expected)) ∨
        l = .unknown ∧ err ≠ none ∧ ¬ content.Delivers cd expected) := by
  obtain ⟨l, atGhost, post⟩ := ghost_of_call reach fits listed
  obtain ⟨_, ⟨⟩, outcome⟩ := post _ returned expected content rfl
  refine ⟨l, atGhost, ?_⟩
  cases l with
  | stored => exact .inl ⟨rfl, outcome⟩
  | present => exact .inr (.inl ⟨rfl, outcome⟩)
  | unknown =>
    obtain ⟨failure, rfl, read⟩ := outcome
    refine .inr (.inr ⟨rfl, Option.some_ne_none failure, fun delivers => ?_⟩)
    cases read.symm.trans ((content.run_readAllFrom cd expected).1 delivers)

end

theorem refused_stores_nothing (reach : Reach machine (start cd calls) σ) {t : Nat} {expected : Descriptor}
    {content : Stream} {σ' : Run} (listed : calls[t]? = some (.push expected content))
    (refused : ¬ content.Delivers cd expected) (step : StepBy machine t σ σ') : σ'.shared = σ.shared := by
  obtain ⟨ghosts, fits, inv⟩ := cas_reach reach
  obtain ⟨l, atGhost, _⟩ := ghost_of_call reach fits listed
  cases step with
  | @answer label op next a m' spawned found performed =>
    obtain ⟨_, atGhost', pre, _⟩ := ghost_of_thread fits found
    cases atGhost.symm.trans atGhost'
    cases op with
    | load key => exact (perform_load (t := t) (n := σ.threads.length) performed).2.1
    | loadOrStore key value =>
      obtain ⟨_, _, _, push, _, read⟩ := pre
      cases push
      exact absurd ((content.run_readAllFrom cd expected).2 _ read).1 refused

/-- The contents of the store are sound and stay; pushes that deliver nothing of use store
nothing; and of the pushes of one key that have all returned, one has stored it if any
delivered it, and the others say that it exists. -/
theorem never_poisoned (reach : Reach machine (start cd calls) σ) :
    (∀ key value, σ.shared.lookup key = some value →
      (value.length : Int) = key.size ∧ cd.verified key.digest value = true) ∧
    (∀ σ' key value, Reach machine σ σ' → σ.shared.lookup key = some value → σ'.shared.lookup key = some value) ∧
    (∀ t expected content σ', calls[t]? = some (.push expected content) → ¬ content.Delivers cd expected →
      StepBy machine t σ σ' → σ'.shared = σ.shared) ∧
    ∀ key, (∀ t expected content, Pushes calls key t expected content → ∃ err, σ.Returned t (.pushed err)) →
      (key ∈ σ.shared ↔
        ∃! t, (∃ expected content, Pushes calls key t expected content) ∧ σ.Returned t (.pushed none)) ∧
      ((∃ t expected content, Pushes calls key t expected content ∧ content.Delivers cd expected) →
        key ∈ σ.shared) ∧
      ∀ t expected content err, Pushes calls key t expected content → content.Delivers cd expected →
        σ.Returned t (.pushed (some err)) → Error.is .alreadyExists err = true := by
  obtain ⟨ghosts, fits, inv⟩ := cas_reach reach
  refine ⟨fun key value stored => ?_, fun σ' key value later stored => stored_kept later stored,
    fun t expected content σ' listed refused step => refused_stores_nothing reach listed refused step, ?_⟩
  · obtain ⟨expected, rfl, matching⟩ := inv.sound key value stored
    exact ⟨matching.size, matching.verified⟩
  intro key returned
  have nil {t : Nat} {expected : Descriptor} {content : Stream} (pushes : Pushes calls key t expected content)
      (isNil : σ.Returned t (.pushed none)) : ghosts[t]? = some (.push expected content, .stored) := by
    obtain ⟨l, atGhost, ⟨rfl, _⟩ | ⟨_, impossible⟩ | ⟨_, impossible, _⟩⟩ := push_outcome reach fits pushes.1 isNil
    · exact atGhost
    · cases impossible
    · exact absurd rfl impossible
  refine ⟨⟨fun stored => ?_, fun stored => ?_⟩, ?_, ?_⟩
  · obtain ⟨expected, content, same, member⟩ := (inv.stored key).mp stored
    obtain ⟨t, atGhost⟩ := List.mem_iff_getElem?.mp member
    have pushes : Pushes calls key t expected content := ⟨call_of_ghost reach fits atGhost, same⟩
    obtain ⟨err, ended⟩ := returned t expected content pushes
    refine ⟨t, ⟨⟨expected, content, pushes⟩, ?_⟩, ?_⟩
    · obtain ⟨l, atGhost', ⟨_, rfl⟩ | ⟨rfl, _⟩ | ⟨rfl, _⟩⟩ := push_outcome reach fits pushes.1 ended
      · exact ended
      · cases atGhost.symm.trans atGhost'
      · cases atGhost.symm.trans atGhost'
    · rintro t' ⟨⟨expected', content', pushes'⟩, isNil⟩
      exact inv.once _ _ _ _ _ _ (nil pushes' isNil) atGhost (pushes'.2.trans same.symm)
  · obtain ⟨t, ⟨⟨expected, content, pushes⟩, isNil⟩, _⟩ := stored
    exact (inv.stored key).mpr ⟨expected, content, pushes.2, List.mem_of_getElem? (nil pushes isNil)⟩
  · rintro ⟨t, expected, content, pushes, delivers⟩
    obtain ⟨err, ended⟩ := returned t expected content pushes
    obtain ⟨l, atGhost, ⟨rfl, _⟩ | ⟨rfl, _⟩ | ⟨_, _, refused⟩⟩ := push_outcome reach fits pushes.1 ended
    · exact (inv.stored key).mpr ⟨expected, content, pushes.2, List.mem_of_getElem? atGhost⟩
    · exact pushes.2 ▸ inv.present expected content (List.mem_of_getElem? atGhost)
    · exact absurd delivers refused
  · intro t expected content err pushes delivers ended
    obtain ⟨l, _, ⟨_, impossible⟩ | ⟨_, same⟩ | ⟨_, _, refused⟩⟩ := push_outcome reach fits pushes.1 ended
    · cases impossible
    · cases same
      rfl
    · exact absurd delivers refused

end Theorem

namespace Raced

def greeting : Stream := { chunks := [Sample.helloBytes.take 2, Sample.helloBytes.drop 2] }

/-- Two pushes of one content, and one of something else under its name. -/
def calls : List Call := [.push Sample.hello greeting, .push Sample.hello { greeting with together := true },
  .push Sample.hello { chunks := [Sample.configBytes], ending := .failed .notFound }]

def answers (m : Contents) (_ : Nat) : (op : MapOp) → MapAns op
  | .load key => m.lookup key
  | .loadOrStore key _ => (m.lookup key).isSome

/-- All three find nothing; then the second is the first to store. -/
def run : Run :=
  [0, 1, 2, 1, 0].foldl (fun σ t => (σ.step? machine answers t).getD σ) (start Sample.codec calls)

theorem run_returned : run.returned? 0 = some (.pushed (some (alreadyExists (fromOCI Sample.hello)))) ∧
    run.returned? 1 = some (.pushed none) ∧ run.returned? 2 = some (.pushed (some (.wrap "read failed" .notFound))) ∧
    greeting.run (readAllFrom Sample.codec Sample.hello) = .ok Sample.helloBytes := by
  decide +kernel

end Raced

/-- The content is stored once, by the push that got there first. -/
theorem never_poisoned_greeting : Reach machine (start Sample.codec Raced.calls) Raced.run ∧
    fromOCI Sample.hello ∈ Raced.run.shared ∧
    ∃! t, (∃ expected content, Pushes Raced.calls (fromOCI Sample.hello) t expected content) ∧
      Raced.run.Returned t (.pushed none) := by
  obtain ⟨first, second, third, read⟩ := Raced.run_returned
  have reach : Reach machine (start Sample.codec Raced.calls) Raced.run := Pool.turns_reach _ _
  have returned (t : Nat) (expected : Descriptor) (content : Stream)
      (pushes : Pushes Raced.calls (fromOCI Sample.hello) t expected content) :
      ∃ err, Raced.run.Returned t (.pushed err) := by
    rcases t with _ | _ | _ | t
    · exact ⟨_, Pool.returned?_eq_some.mp first⟩
    · exact ⟨_, Pool.returned?_eq_some.mp second⟩
    · exact ⟨_, Pool.returned?_eq_some.mp third⟩
    · cases pushes.1
  obtain ⟨stored, delivered, _⟩ := (never_poisoned reach).2.2.2 (fromOCI Sample.hello) returned
  have present : fromOCI Sample.hello ∈ Raced.run.shared :=
    delivered ⟨0, Sample.hello, Raced.greeting, ⟨rfl, rfl⟩, ((Stream.run_readAllFrom _ _ _).2 _ read).1⟩
  exact ⟨reach, present, stored.mp present⟩

end OrasGo.Cas
