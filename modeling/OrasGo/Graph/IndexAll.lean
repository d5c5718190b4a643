import OrasGo.Graph.Memory
import OrasGo.Graph.Reachable
import OrasGo.Syncutil.Go

/-! `Memory.IndexAll`: goroutines that index a node and everything below it. -/

namespace OrasGo.Graph
open Interleaving Syncutil

/-- The operations of a worker of `IndexAll` on what the workers share. -/
inductive IndexOp
  | tryCommit (desc : Descriptor)
  | index (desc : Descriptor)

@[reducible] def IndexAns : IndexOp → Type
  | .tryCommit _ => Bool
  | .index _ => Except Error (List Descriptor)

abbrev Indexer := Code IndexOp Descriptor IndexAns

def ask (op : IndexOp) : Indexer (IndexAns op) := call (.user op)

/-- The callback of `IndexAll` once the node is indexed. -/
def traverse : Except Error (List Descriptor) → Indexer (Option Error)
  | .error err => if Error.is .notFound err then return none else return some err
  | .ok [] => return none
  | .ok (node :: rest) => go (node :: rest)

/-- The callback `fn` of `IndexAll`. -/
def fn (desc : Descriptor) : Indexer (Option Error) := do
  if ← ask (.tryCommit desc) then
    let successors ← ask (.index desc)
    traverse successors
  else return none

/-- The keys the tracker has seen, and the graph. -/
structure IndexState where
  tracker : Finset Key := ∅
  graph : Memory

section
variable (cd : Codec) (fetch : Fetcher)

/-- The storage does not change during `IndexAll`, so that reading the node and
updating the graph are one step. -/
def answer (st : IndexState) (_ : Nat) (_ : Bool) : (op : IndexOp) → IndexAns op → Option IndexState
  | .tryCommit desc, committed =>
    if committed = decide (fromOCI desc ∉ st.tracker) then
      some { st with tracker := insert (fromOCI desc) st.tracker }
    else none
  | .index desc, .ok nodes =>
    match st.graph.index cd fetch desc with
    | (.ok found, graph) => if nodes = found then some { st with graph } else none
    | (.error _, _) => none
  | .index desc, .error err =>
    match st.graph.index cd fetch desc with
    | (.ok _, _) => none
    | (.error e, graph) => if err = e then some { st with graph } else none

abbrev IndexRun := State IndexOp Descriptor IndexAns IndexState

def indexMachine :
    Machine (Op IndexOp Descriptor) (Ans IndexAns) (Shared IndexState) (Label Descriptor) (Option Error) :=
  machine fn (answer cd fetch)

/-- `IndexAll` is called for `node`; its `Go` has a nil limiter. -/
def indexAll (graph : Memory) (node : Descriptor) : IndexRun := initial none { graph } [node]

/-- The panic of `atomic.Value` on a second error of another concrete type. -/
def inconsistentlyTyped : Error :=
  .panicked "sync/atomic: compare and swap of inconsistently typed value into Value"

/-- What `IndexAll` may come to: an error or nil, and the graph it leaves. The panic of a
goroutine ends the process and no call returns; it stands here as an error of its own. -/
def Outcome (graph : Memory) (node : Descriptor) (result : Option Error × Memory) : Prop :=
  ∃ σ, Reach (indexMachine cd fetch) (indexAll graph node) σ ∧ σ.shared.user.graph = result.2 ∧
    (σ.Returned 0 result.1 ∨ σ.shared.crashed = true ∧ result.1 = some inconsistentlyTyped)

/-- A sequence of index steps. -/
def indexMany (graph : Memory) (log : List Descriptor) : Memory :=
  log.foldl (fun m desc => (m.index cd fetch desc).2) graph

end

variable {cd : Codec} {fetch : Fetcher} {st st' : IndexState} {t : Nat} {ended : Bool}

theorem answer_tryCommit {desc : Descriptor} {committed : Bool}
    (answered : answer cd fetch st t ended (.tryCommit desc) committed = some st') :
    committed = decide (fromOCI desc ∉ st.tracker) ∧
      st' = { st with tracker := insert (fromOCI desc) st.tracker } := by
  simp only [answer, Option.ite_none_right_eq_some, Option.some.injEq] at answered
  exact ⟨answered.1, answered.2.symm⟩

theorem answer_index {desc : Descriptor} {result : Except Error (List Descriptor)}
    (answered : answer cd fetch st t ended (.index desc) result = some st') :
    result = successors cd fetch desc ∧ st' = { st with graph := (st.graph.index cd fetch desc).2 } := by
  cases result with
  | ok nodes =>
    simp only [answer, Memory.index] at answered ⊢
    cases found : successors cd fetch desc with
    | error err => simp only [found] at answered; cases answered
    | ok nodes' =>
      simp only [found, Option.ite_none_right_eq_some, Option.some.injEq] at answered ⊢
      obtain ⟨rfl, rfl⟩ := answered
      exact ⟨rfl, rfl⟩
  | error err =>
    simp only [answer, Memory.index] at answered ⊢
    cases found : successors cd fetch desc with
    | ok nodes => simp only [found] at answered; cases answered
    | error err' =>
      simp only [found, Option.ite_none_right_eq_some, Option.some.injEq] at answered ⊢
      obtain ⟨rfl, rfl⟩ := answered
      exact ⟨rfl, rfl⟩

theorem answer_exists (st : IndexState) (t : Nat) (ended : Bool) (op : IndexOp) :
    ∃ result st', answer cd fetch st t ended op result = some st' := by
  cases op with
  | tryCommit desc => exact ⟨_, _, if_pos rfl⟩
  | index desc =>
    cases found : successors cd fetch desc with
    | ok nodes =>
      exact ⟨.ok nodes, { st with graph := st.graph.indexNode desc nodes }, by
        simp only [answer, Memory.index, found, if_true]⟩
    | error err =>
      exact ⟨.error err, st, by simp only [answer, Memory.index, found, if_true]⟩

theorem mem_indexMany_nodes {graph : Memory} {log : List Descriptor} {k : Key} :
    k ∈ (indexMany cd fetch graph log).nodes ↔ k ∈ graph.nodes ∨
      ∃ desc ∈ log, fromOCI desc = k ∧ ∃ nodes, successors cd fetch desc = .ok nodes := by
  induction log generalizing graph with
  | nil => simp [indexMany]
  | cons desc rest ih =>
    have step : k ∈ (graph.index cd fetch desc).2.nodes ↔ k ∈ graph.nodes ∨
        fromOCI desc = k ∧ ∃ nodes, successors cd fetch desc = .ok nodes := by
      cases found : successors cd fetch desc with
      | error err => simp [Memory.index, found]
      | ok nodes =>
        simp only [Memory.index, found, Memory.mem_indexNode_nodes, Except.ok.injEq, exists_eq', and_true]
        exact ⟨fun h => h.symm.imp id Eq.symm, fun h => h.symm.imp Eq.symm id⟩
    change k ∈ (indexMany cd fetch (graph.index cd fetch desc).2 rest).nodes ↔ _
    rw [ih, step]
    simp only [List.mem_cons, exists_eq_or_imp, or_assoc]

end OrasGo.Graph
