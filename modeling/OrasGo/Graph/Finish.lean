import Mathlib.Algebra.Order.BigOperators.Group.Finset
import OrasGo.Graph.Traversal
import OrasGo.Syncutil.Credits

/-! `IndexAll` ends in every interleaving, also on a graph with cycles, since the
tracker lets each node be traversed once. -/

namespace OrasGo.Graph
open Interleaving Syncutil
variable {cd : Codec} {fetch : Fetcher} {graph : Memory} {node : Descriptor} {σ : IndexRun}

/-- A finite set of nodes that contains the successors of its nodes. -/
def Bounded (cd : Codec) (fetch : Fetcher) (nodes : Finset Key) : Prop :=
  ∀ k ∈ nodes, ∀ child, Edge cd fetch k child → child ∈ nodes

/-- What the traversal of a node costs its owner, goroutines included. -/
def traversalCost (cd : Codec) (fetch : Fetcher) (k : Key) : Nat :=
  match successors cd fetch k.plain with
  | .ok nodes => nodes.length * 5 + 4
  | .error _ => 1

/-- The first to commit a node is paid for traversing it. -/
def gain (cd : Codec) (fetch : Fetcher) : (op : IndexOp) → IndexAns op → Nat
  | .tryCommit desc, true => traversalCost cd fetch (fromOCI desc)
  | _, _ => 0

def Allowed (nodes : Finset Key) : IndexOp → Prop
  | .tryCommit desc => fromOCI desc ∈ nodes
  | .index _ => True

theorem credit_fn (byKey : fetch.ByKey) {nodes : Finset Key} (bounded : Bounded cd fetch nodes)
    (desc : Descriptor) (inside : fromOCI desc ∈ nodes) :
    wp (creditGhost 4 (fun child => fromOCI child ∈ nodes) (Allowed nodes) (TrueSuccessors cd fetch) (gain cd fetch))
      (fn desc) (fun _ l => 3 ≤ l) 4 := by
  refine ⟨⟨by omega, inside⟩, fun committed l ⟨_, moved⟩ => ?_⟩
  cases committed with
  | false => exact show 3 ≤ l by simp only [gain] at moved; omega
  | true =>
    change l + 1 = 4 + traversalCost cd fetch (fromOCI desc) at moved
    refine ⟨⟨by omega, trivial⟩, fun result l' ⟨found, moved'⟩ => ?_⟩
    change result = successors cd fetch desc at found
    change l' + 1 = l at moved'
    simp only [traversalCost, successors_plain byKey, ← found] at moved
    cases result with
    | error err =>
      change wp _ (if Error.is .notFound err then .ret none else .ret (some err)) _ _
      simp only at moved
      split <;> exact show 3 ≤ l' by omega
    | ok children =>
      simp only at moved
      cases children with
      | nil => exact show 3 ≤ l' by omega
      | cons head rest =>
        exact credit_go (fun child member => bounded _ inside _ (edge_of_mem byKey found.symm member)) 3 l' (by omega)

theorem answer_paid {nodes : Finset Key} (st : IndexState) (t : Nat) (ended : Bool) (op : IndexOp) (a : IndexAns op)
    (st' : IndexState) (answered : answer cd fetch st t ended op a = some st') (allowed : Allowed nodes op) :
    TrueSuccessors cd fetch op a ∧ ∑ k ∈ nodes \ st'.tracker, traversalCost cd fetch k + gain cd fetch op a ≤
      ∑ k ∈ nodes \ st.tracker, traversalCost cd fetch k := by
  refine ⟨answer_trueSuccessors answered, ?_⟩
  cases op with
  | index desc =>
    obtain ⟨_, rfl⟩ := answer_index answered
    simp only [gain, Nat.add_zero, Nat.le_refl]
  | tryCommit desc =>
    obtain ⟨rfl, rfl⟩ := answer_tryCommit answered
    rw [Finset.sdiff_insert]
    by_cases taken : fromOCI desc ∈ st.tracker
    · simp only [taken, not_true_eq_false, decide_false, gain, Nat.add_zero]
      exact Finset.sum_le_sum_of_subset (Finset.erase_subset _ _)
    · simp only [taken, not_false_eq_true, decide_true, gain]
      rw [Finset.sum_erase_add _ _ (Finset.mem_sdiff.mpr ⟨allowed, taken⟩)]

theorem index_terminates (byKey : fetch.ByKey) {nodes : Finset Key} (bounded : Bounded cd fetch nodes)
    (inside : fromOCI node ∈ nodes) (graph : Memory) :
    Acc (fun σ' σ => Step (indexMachine cd fetch) σ σ') (indexAll graph node) :=
  credit_acc (credit_fn byKey bounded) answer_paid
    (fun child member => by cases List.mem_singleton.mp member; exact inside) _ _

theorem index_unlimited (reach : Reach (indexMachine cd fetch) (indexAll graph node) σ) :
    σ.shared.limiter = none := by
  refine Reach.invariant (P := fun σ => σ.shared.limiter = none) ?_ reach rfl
  intro σ σ' unlimited step
  cases step with
  | env moved =>
    obtain ⟨_, _, rfl⟩ := moved
    exact unlimited
  | thread t moved =>
    cases moved with
    | @answer label op next a s spawned found performed =>
      exact respond_unlimited unlimited (perform_eq_some.mp performed).2

theorem index_progress (byKey : fetch.ByKey) (reach : Reach (indexMachine cd fetch) (indexAll graph node) σ) :
    (σ.shared.crashed = true ∨ ∃ err, σ.Returned 0 err) ∨ ∃ σ', Step (indexMachine cd fetch) σ σ' := by
  by_cases crashed : σ.shared.crashed = true
  · exact .inl (.inl crashed)
  by_contra still
  simp only [not_or, not_exists] at still
  have stuck : Stuck fn (answer cd fetch) σ :=
    ⟨by simpa using crashed, fun t σ' moved => still.2 σ' (.thread t moved)⟩
  obtain ⟨creator, tree⟩ := index_tree byKey reach
  obtain ⟨⟨label, prog⟩, atMain⟩ := Reach.thread_exists reach (show (indexAll graph node).threads[0]? = some _ from rfl)
  cases prog with
  | ret value => exact still.1.2 value ⟨label, atMain⟩
  | call op next =>
    have permitted : σ.shared.limiter ≠ some 0 := by simp [index_unlimited reach]
    exact stuck.returned tree ⟨fun s t ended op _ => answer_exists s t ended op, fun s t op => answer_exists s t true op⟩
      permitted (fun _ => rfl) atMain

/-- `IndexAll` comes to an end, whatever the scheduler does. -/
theorem outcome_exists (byKey : fetch.ByKey) {nodes : Finset Key} (bounded : Bounded cd fetch nodes)
    (inside : fromOCI node ∈ nodes) (graph : Memory) : ∃ result, Outcome cd fetch graph node result := by
  obtain ⟨σ, reach, ended⟩ := exists_reach (index_terminates byKey bounded inside graph)
    fun σ' reach => index_progress byKey reach
  rcases ended with crashed | ⟨err, returned⟩
  · exact ⟨(some inconsistentlyTyped, _), σ, reach, rfl, .inr ⟨crashed, rfl⟩⟩
  · exact ⟨(err, _), σ, reach, rfl, .inl returned⟩

/-- Some finite set of nodes around each node contains the successors of its nodes. -/
def Finite (cd : Codec) (fetch : Fetcher) : Prop :=
  ∀ k, ∃ nodes : Finset Key, Bounded cd fetch nodes ∧ k ∈ nodes

/-- What the scheduler makes of the calls of `IndexAll`. -/
structure Scheduler (cd : Codec) (fetch : Fetcher) where
  indexAll : Memory → Descriptor → Option Error × Memory
  possible : ∀ graph node, Outcome cd fetch graph node (indexAll graph node)

/-- A call of `IndexAll` fails on what is broken, and adds all that is there otherwise. -/
theorem Scheduler.indexAll_cases (sched : Scheduler cd fetch) (byKey : fetch.ByKey) (graph : Memory)
    (desc : Descriptor) :
    (∃ err graph', sched.indexAll graph (plain desc) = (some err, graph') ∧ ¬ Readable cd fetch (fromOCI desc)) ∨
    ∃ graph', sched.indexAll graph (plain desc) = (none, graph') ∧ Readable cd fetch (fromOCI desc) ∧
      ∀ k, k ∈ graph'.nodes ↔ k ∈ graph.nodes ∨ Indexed cd fetch desc k := by
  have outcome := sched.possible graph (plain desc)
  have nil := outcome.nil_iff byKey
  rcases called : sched.indexAll graph (plain desc) with ⟨_ | err, graph'⟩ <;> rw [called] at outcome nil
  · exact .inr ⟨graph', rfl, nil.mp rfl, fun k => outcome.mem_nodes byKey⟩
  · refine .inl ⟨err, graph', rfl, fun readable => ?_⟩
    cases nil.mpr readable

theorem Scheduler.indexAll_invariant (sched : Scheduler cd fetch) (byKey : fetch.ByKey) {P : Memory → Prop}
    (step : ∀ m desc, P m → P (m.index cd fetch desc).2) {graph graph' : Memory} {node : Descriptor} (holds : P graph)
    (indexed : sched.indexAll graph node = (none, graph')) : P graph' := by
  have outcome := sched.possible graph node
  rw [indexed] at outcome
  obtain ⟨log, rfl, _⟩ := outcome.indexed byKey
  clear * - step holds
  induction log generalizing graph with
  | nil => exact holds
  | cons desc log ih => exact ih (step graph desc holds)

/-- The one answer each operation of a worker has. -/
def respondent (cd : Codec) (fetch : Fetcher) (st : IndexState) : (op : IndexOp) → IndexAns op
  | .tryCommit desc => decide (fromOCI desc ∉ st.tracker)
  | .index desc => successors cd fetch desc

/-- The run in which the goroutines take turns, for so many rounds. -/
def inTurns (cd : Codec) (fetch : Fetcher) (rounds : Nat) (graph : Memory) (node : Descriptor) : IndexRun :=
  (indexAll graph node).rounds (indexMachine cd fetch) (eager (respondent cd fetch)) rounds

/-- The scheduler that lets the goroutines take turns, if that many rounds are
enough for them. -/
noncomputable def Scheduler.roundRobin (rounds : Nat) (byKey : fetch.ByKey) (finite : Finite cd fetch) :
    Scheduler cd fetch where
  indexAll graph node := match (inTurns cd fetch rounds graph node).returned? 0 with
    | some err => (err, (inTurns cd fetch rounds graph node).shared.user.graph)
    | none => Classical.choose ((finite (fromOCI node)).elim fun _ found => outcome_exists byKey found.1 found.2 graph)
  possible graph node := by
    split
    · rename_i err returned
      exact ⟨_, Pool.rounds_reach rounds _, rfl, .inl (Pool.returned?_eq_some.mp returned)⟩
    · exact Classical.choose_spec ((finite (fromOCI node)).elim fun _ found =>
        outcome_exists byKey found.1 found.2 graph)

end OrasGo.Graph
