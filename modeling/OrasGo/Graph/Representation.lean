import OrasGo.Graph.Memory
import OrasGo.Syncutil.Callback

/-! The three maps of `graph.Memory`, kept in step by goroutines that index and
remove nodes as they like. -/

namespace OrasGo.Graph
open Interleaving Iteration Syncutil

/-- `content.Successors` is a function of the key of the node. `contents` are
the versions in which the content may be found over time. -/
def SuccessorsByKey (cd : Codec) (contents : Nat → Fetcher) : Prop :=
  ∀ v w a b as bs, fromOCI a = fromOCI b → successors cd (contents v) a = .ok as →
    successors cd (contents w) b = .ok bs → as = bs

/-- The content of `node` lists the key as a successor. -/
def ListsSuccessor (cd : Codec) (contents : Nat → Fetcher) (node : Descriptor) (k : Key) : Prop :=
  ∃ v nodes, successors cd (contents v) node = .ok nodes ∧ k ∈ nodes.map fromOCI

namespace Memory

/-- What the comments on the fields of `Memory` promise. -/
structure Consistent (m : Memory) : Prop where
  keys : ∀ k, k ∈ m.nodes ↔ k ∈ m.successors
  edges : ∀ n s, n ∈ m.predecessorSet s ↔ s ∈ m.successorSet n
  nonempty : ∀ s, m.predecessors.lookup s ≠ some ∅

/-- Each node is stored under its key, with the successors its content lists. -/
structure Faithful (cd : Codec) (contents : Nat → Fetcher) (m : Memory) : Prop where
  stored : ∀ k d, m.nodes.lookup k = some d → fromOCI d = k
  listed : ∀ k d, m.nodes.lookup k = some d → ∃ v nodes,
    OrasGo.successors cd (contents v) d = .ok nodes ∧ m.successorSet k = (nodes.map fromOCI).toFinset

theorem Consistent.empty : Consistent {} where
  keys k := iff_of_false Finmap.notMem_empty Finmap.notMem_empty
  edges n s := by simp [predecessorSet, successorSet]
  nonempty s := by simp

theorem Faithful.empty (cd : Codec) (contents : Nat → Fetcher) : Faithful cd contents {} where
  stored k d found := by simp at found
  listed k d found := by simp at found

theorem Consistent.successorSet_of_not_mem {m : Memory} {k : Key} (consistent : m.Consistent)
    (absent : k ∉ m.nodes) : m.successorSet k = ∅ := by
  have none : m.successors.lookup k = none := by
    rwa [consistent.keys, ← Finmap.lookup_eq_none] at absent
  rw [successorSet, none, Option.getD_none]

section IndexNode
variable {cd : Codec} {contents : Nat → Fetcher} {m : Memory} {node : Descriptor} {nodes : List Descriptor} {v : Nat}

theorem Faithful.successorSet_eq (byKey : SuccessorsByKey cd contents) (faithful : m.Faithful cd contents)
    (found : OrasGo.successors cd (contents v) node = .ok nodes) (known : fromOCI node ∈ m.nodes) :
    m.successorSet (fromOCI node) = (nodes.map fromOCI).toFinset := by
  obtain ⟨d, atKey⟩ := Finmap.mem_iff.mp known
  obtain ⟨w, nodes', found', same⟩ := faithful.listed _ d atKey
  have key := faithful.stored _ d atKey
  rw [same, byKey w v d node nodes' nodes key found' found]

theorem addPredecessors_nonempty {nodeKey : Key} {predecessors : Finmap (fun _ : Key => Finset Key)}
    (nodes : List Descriptor) (nonempty : ∀ s, predecessors.lookup s ≠ some ∅) (s : Key) :
    (nodes.foldl (addPredecessor nodeKey) predecessors).lookup s ≠ some ∅ := by
  induction nodes generalizing predecessors with
  | nil => exact nonempty s
  | cons successor rest ih =>
    refine ih fun k => ?_
    by_cases same : k = fromOCI successor
    · subst same
      simp [addPredecessor]
    · rw [addPredecessor, Finmap.lookup_insert_of_ne _ same]
      exact nonempty k

theorem Consistent.indexNode (byKey : SuccessorsByKey cd contents) (consistent : m.Consistent)
    (faithful : m.Faithful cd contents) (found : OrasGo.successors cd (contents v) node = .ok nodes) :
    (m.indexNode node nodes).Consistent where
  keys k := by
    simp only [Memory.indexNode, Finmap.mem_insert, consistent.keys]
  edges n s := by
    rw [mem_indexNode_predecessorSet, indexNode_successorSet, consistent.edges]
    by_cases same : n = fromOCI node
    · subst same
      -- The old edges of the node are among the new ones.
      have old : s ∈ m.successorSet (fromOCI node) → s ∈ nodes.map fromOCI := by
        intro member
        by_cases known : fromOCI node ∈ m.nodes
        · rw [faithful.successorSet_eq byKey found known] at member
          exact List.mem_toFinset.mp member
        · rw [consistent.successorSet_of_not_mem known] at member
          exact absurd member (Finset.notMem_empty s)
      simp only [if_true, true_and, List.mem_toFinset]
      exact ⟨fun either => either.elim old id, .inr⟩
    · simp only [same, if_false, false_and, or_false]
  nonempty := addPredecessors_nonempty nodes consistent.nonempty

theorem Faithful.indexNode (faithful : m.Faithful cd contents)
    (found : OrasGo.successors cd (contents v) node = .ok nodes) : (m.indexNode node nodes).Faithful cd contents where
  stored k d atKey := by
    obtain ⟨rfl, rfl⟩ | ⟨_, atKey⟩ := lookup_insert_cases atKey
    · rfl
    · exact faithful.stored k d atKey
  listed k d atKey := by
    rw [indexNode_successorSet]
    obtain ⟨rfl, rfl⟩ | ⟨same, atKey⟩ := lookup_insert_cases atKey
    · rw [if_pos rfl]
      exact ⟨v, nodes, found, rfl⟩
    · rw [if_neg same]
      exact faithful.listed k d atKey

end IndexNode

section Remove
variable {m : Memory} (order : Enumeration Key) (node : Descriptor)

theorem foldl_removeFrom_nonempty {nodes : Finmap (fun _ : Key => Descriptor)} {nodeKey : Key} (keys : List Key)
    {acc : Finmap (fun _ : Key => Finset Key) × List Descriptor} (nonempty : ∀ s, acc.1.lookup s ≠ some ∅) (s : Key) :
    (keys.foldl (removeFrom nodes nodeKey) acc).1.lookup s ≠ some ∅ := by
  induction keys generalizing acc with
  | nil => exact nonempty s
  | cons successorKey rest ih =>
    refine ih fun k => ?_
    simp only [removeFrom]
    by_cases same : k = successorKey
    · subst same
      split
      · simp
      · rename_i others
        rw [Finmap.lookup_insert]
        exact fun empty => others (Option.some.inj empty)
    · split
      · rw [Finmap.lookup_erase_ne same]
        exact nonempty k
      · rw [Finmap.lookup_insert_of_ne _ same]
        exact nonempty k

theorem Consistent.remove (consistent : m.Consistent) : (m.remove order node).1.Consistent where
  keys k := by
    simp only [Memory.remove, Finmap.mem_erase, consistent.keys]
  edges n s := by
    rw [remove_predecessorSet, remove_successorSet]
    have edge := consistent.edges n s
    by_cases same : n = fromOCI node
    · subst same
      split <;> simp_all
    · split <;> simp_all
  nonempty := foldl_removeFrom_nonempty _ consistent.nonempty

theorem Faithful.remove {cd : Codec} {contents : Nat → Fetcher} (faithful : m.Faithful cd contents) :
    (m.remove order node).1.Faithful cd contents := by
  have kept : ∀ k d, (m.remove order node).1.nodes.lookup k = some d →
      k ≠ fromOCI node ∧ m.nodes.lookup k = some d := by
    intro k d found
    have other : k ≠ fromOCI node := by
      rintro rfl
      simp [Memory.remove] at found
    rw [Memory.remove, Finmap.lookup_erase_ne other] at found
    exact ⟨other, found⟩
  constructor
  · intro k d found
    exact faithful.stored k d (kept k d found).2
  · intro k d found
    obtain ⟨other, found⟩ := kept k d found
    rw [remove_successorSet, if_neg other]
    exact faithful.listed k d found

end Remove

section Predecessors
variable {cd : Codec} {contents : Nat → Fetcher} {m : Memory}

theorem Consistent.predecessor_indexed (consistent : m.Consistent) {n s : Key} (member : n ∈ m.predecessorSet s) :
    ∃ d, m.nodes.lookup n = some d := by
  by_contra absent
  have unknown : n ∉ m.nodes := fun known => absent (Finmap.mem_iff.mp known)
  rw [consistent.edges, consistent.successorSet_of_not_mem unknown] at member
  exact absurd member (Finset.notMem_empty s)

theorem mem_predecessorList (byKey : SuccessorsByKey cd contents) (consistent : m.Consistent)
    (faithful : m.Faithful cd contents) (order : Enumeration Key) (node d : Descriptor) :
    d ∈ m.predecessorList order node ↔
      (∃ k, m.nodes.lookup k = some d) ∧ ListsSuccessor cd contents d (fromOCI node) := by
  simp only [predecessorList, List.mem_map, order.mem]
  constructor
  · rintro ⟨n, member, value⟩
    obtain ⟨stored, atKey⟩ := consistent.predecessor_indexed member
    rw [atKey, Option.getD_some] at value
    subst value
    obtain ⟨v, nodes, found, same⟩ := faithful.listed n stored atKey
    rw [consistent.edges, same, List.mem_toFinset] at member
    exact ⟨⟨n, atKey⟩, v, nodes, found, member⟩
  · rintro ⟨⟨n, atKey⟩, v, nodes, found, member⟩
    have key := faithful.stored n d atKey
    subst key
    refine ⟨fromOCI d, ?_, by rw [atKey, Option.getD_some]⟩
    rw [consistent.edges, faithful.successorSet_eq byKey found (Finmap.mem_iff.mpr ⟨d, atKey⟩)]
    exact List.mem_toFinset.mpr member

theorem predecessorList_nodup (consistent : m.Consistent) (faithful : m.Faithful cd contents)
    (order : Enumeration Key) (node : Descriptor) : (m.predecessorList order node).Nodup := by
  refine List.Nodup.map_on ?_ (order.nodup _)
  intro a inA b inB same
  obtain ⟨d, atA⟩ := consistent.predecessor_indexed ((order.mem _ a).mp inA)
  obtain ⟨e, atB⟩ := consistent.predecessor_indexed ((order.mem _ b).mp inB)
  rw [atA, atB, Option.getD_some, Option.getD_some] at same
  rw [← faithful.stored a d atA, ← faithful.stored b e atB, same]

theorem not_listsSuccessor_zero (k : Key) : ¬ ListsSuccessor cd contents {} k := by
  rintro ⟨v, nodes, found, member⟩
  have leaf : OrasGo.successors cd (contents v) {} = .ok [] := successors_of_not_isManifest (by decide)
  cases found.symm.trans leaf
  exact absurd member List.not_mem_nil

end Predecessors

end Memory

namespace Concurrent

/-- The operations of a goroutine on the graph. `read` is where `content.Successors`
fetches the node, outside the lock; its answer is the version that is found. `update` is
the rest of `Memory.index`. The answer to `remove` is the order in which `range` visits
the successors. -/
inductive GraphOp
  | tryCommit (tracker : Nat) (desc : Descriptor)
  | read
  | update (node : Descriptor) (nodes : List Descriptor)
  | remove (node : Descriptor)

@[reducible] def GraphAns : GraphOp → Type
  | .tryCommit _ _ => Bool
  | .read => Nat
  | .update _ _ => Unit
  | .remove _ => Enumeration Key

/-- The items of `syncutil.Go` name the `IndexAll` they belong to, whose tracker they share. -/
abbrev Worker := Code GraphOp (Nat × Descriptor) GraphAns

def ask (op : GraphOp) : Worker (GraphAns op) := Syncutil.call (.user op)

section Programs
variable (cd : Codec) (contents : Nat → Fetcher)

/-- `Memory.index`. -/
def index (node : Descriptor) : Worker (Except Error (List Descriptor)) := do
  let v ← ask .read
  match successors cd (contents v) node with
  | .error err => return .error err
  | .ok nodes =>
    ask (.update node nodes)
    return .ok nodes

/-- The callback `fn` of `Memory.IndexAll`. -/
def fn (item : Nat × Descriptor) : Worker (Option Error) := do
  if ← ask (.tryCommit item.1 item.2) then
    match ← index cd contents item.2 with
    | .error err => if Error.is .notFound err then return none else return some err
    | .ok [] => return none
    | .ok (node :: rest) => go ((node :: rest).map (item.1, ·))
  else return none

inductive Call
  | index (node : Descriptor)
  | indexAll (node : Descriptor)
  | remove (node : Descriptor)

/-- The goroutine that makes the call; an `IndexAll` has a tracker of its own. -/
def Call.code (tracker : Nat) : Call → Worker (Option Error)
  | .index node => do
    match ← Concurrent.index cd contents node with
    | .error err => return some err
    | .ok _ => return none
  | .indexAll node => go [(tracker, node)]
  | .remove node => do
    let _ ← ask (.remove node)
    return none

structure GraphState where
  trackers : Finset (Nat × Key) := ∅
  graph : Memory := {}

def answer (st : GraphState) (_ : Nat) (_ : Bool) : (op : GraphOp) → GraphAns op → Option GraphState
  | .tryCommit tracker desc, committed =>
    if committed = decide ((tracker, fromOCI desc) ∉ st.trackers) then
      some { st with trackers := insert (tracker, fromOCI desc) st.trackers }
    else none
  | .read, _ => some st
  | .update node nodes, _ => some { st with graph := st.graph.indexNode node nodes }
  | .remove node, order => some { st with graph := (st.graph.remove order node).1 }

abbrev GraphRun := State GraphOp (Nat × Descriptor) GraphAns GraphState

def graphMachine : Machine (Op GraphOp (Nat × Descriptor)) (Ans GraphAns) (Shared GraphState)
    (Label (Nat × Descriptor)) (Option Error) :=
  machine (fn cd contents) answer

/-- The calls are about to be made on `NewMemory()`, each by its own goroutine. -/
def start (calls : List Call) : GraphRun :=
  ⟨{ limiter := none, user := {} }, calls.mapIdx fun t call => ⟨none, call.code cd contents t⟩⟩

end Programs

section Outline
variable {cd : Codec} {contents : Nat → Fetcher}

/-- A goroutine updates the graph with successors it has read. -/
def readGhost (cd : Codec) (contents : Nat → Fetcher) (_ : Label (Nat × Descriptor)) :
    Ghost GraphOp GraphAns Unit where
  pre op _ := match op with
    | .update node nodes => ∃ v, successors cd (contents v) node = .ok nodes
    | _ => True
  next _ _ _ _ := True

abbrev workerGhost (cd : Codec) (contents : Nat → Fetcher) :=
  callbackGhost (readGhost cd contents) (fun _ _ => True)

variable {label : Label (Nat × Descriptor)}

theorem wp_index (node : Descriptor) :
    wp (workerGhost cd contents label) (index cd contents node) (fun _ _ => True) () := by
  refine ⟨trivial, fun v _ _ => ?_⟩
  change wp _ (match successors cd (contents v) node with
    | .error err => _
    | .ok nodes => _) _ _
  cases found : successors cd (contents v) node with
  | error err => trivial
  | ok nodes => exact ⟨⟨v, found⟩, fun _ _ _ => trivial⟩

theorem wp_fn (item : Nat × Descriptor) :
    wp (workerGhost cd contents label) (fn cd contents item) (fun _ _ => True) () := by
  refine ⟨trivial, fun committed _ _ => ?_⟩
  cases committed with
  | false => trivial
  | true =>
    refine wp_seq (p := index cd contents item.2) _ (wp_index item.2) fun result _ _ => ?_
    match result with
    | .error err =>
      change wp _ (if Error.is .notFound err then .ret none else .ret (some err)) _ _
      split <;> trivial
    | .ok [] => trivial
    | .ok (node :: rest) => exact wp_mono _ (fun _ _ _ => trivial) (callback_go trivial _)

theorem wp_call (tracker : Nat) (call : Call) :
    wp (workerGhost cd contents label) (call.code cd contents tracker) (fun _ _ => True) () := by
  cases call with
  | index node =>
    refine wp_seq _ (wp_index node) fun result _ _ => ?_
    cases result <;> trivial
  | indexAll node => exact wp_mono _ (fun _ _ _ => trivial) (callback_go trivial _)
  | remove node => exact ⟨trivial, fun _ _ _ => trivial⟩

/-- The state of the graph between two operations. -/
def GraphInv (cd : Codec) (contents : Nat → Fetcher) (st : GraphState)
    (_ : List (Label (Nat × Descriptor) × Unit)) : Prop :=
  st.graph.Consistent ∧ st.graph.Faithful cd contents

theorem answer_inv (byKey : SuccessorsByKey cd contents) {st st' : GraphState} {t : Nat} {ended : Bool}
    {ghosts ghosts' : List (Label (Nat × Descriptor) × Unit)} {op : GraphOp} {a : GraphAns op}
    (inv : GraphInv cd contents st ghosts) (pre : (readGhost cd contents label).pre op ())
    (answered : answer st t ended op a = some st') : GraphInv cd contents st' ghosts' := by
  cases op with
  | tryCommit tracker desc =>
    obtain ⟨_, rfl⟩ := of_ite_some answered
    exact inv
  | read =>
    cases answered
    exact inv
  | update node nodes =>
    cases answered
    obtain ⟨v, found⟩ := pre
    exact ⟨inv.1.indexNode byKey inv.2 found, inv.2.indexNode found⟩
  | remove node =>
    cases answered
    exact ⟨inv.1.remove a node, inv.2.remove a node⟩

theorem graph_reach (byKey : SuccessorsByKey cd contents) {calls : List Call} {σ : GraphRun}
    (reach : Reach (graphMachine cd contents) (start cd contents calls) σ) :
    σ.shared.user.graph.Consistent ∧ σ.shared.user.graph.Faithful cd contents := by
  have initially : Outline (workerGhost cd contents) (fun _ _ _ => True)
      (fun s ghosts => GraphInv cd contents s.user ghosts) (start cd contents calls) := by
    refine ⟨calls.map fun _ => (none, ()), ?_, .empty, .empty cd contents⟩
    rw [List.forall₂_iff_get]
    refine ⟨by simp [start], fun t _ _ => ?_⟩
    simp only [start, List.get_eq_getElem, List.getElem_mapIdx, List.getElem_map]
    exact ⟨rfl, wp_call t _⟩
  obtain ⟨_, _, inv⟩ := callback_outline (fun g item => wp_fn item) ⟨fun s ghosts label inv => inv,
    fun s ghosts t label l ended op a s' inv _ pre answered => ⟨(), trivial, answer_inv byKey inv pre answered⟩⟩
    initially reach
  exact inv

end Outline

/-- However goroutines index and remove nodes, the maps agree, and `Predecessors`
returns the stored descriptor of each node whose content lists the given one. -/
theorem predecessors_exact {cd : Codec} {contents : Nat → Fetcher} (byKey : SuccessorsByKey cd contents)
    {calls : List Call} {σ : GraphRun} (reach : Reach (graphMachine cd contents) (start cd contents calls) σ) :
    (∀ k, k ∈ σ.shared.user.graph.nodes ↔ k ∈ σ.shared.user.graph.successors) ∧
    (∀ n s, n ∈ σ.shared.user.graph.predecessorSet s ↔ s ∈ σ.shared.user.graph.successorSet n) ∧
    (∀ s, σ.shared.user.graph.predecessors.lookup s ≠ some ∅) ∧
    ∀ (order : Enumeration Key) (node : Descriptor),
      (σ.shared.user.graph.predecessorList order node).Nodup ∧
      {} ∉ σ.shared.user.graph.predecessorList order node ∧
      ∀ d, d ∈ σ.shared.user.graph.predecessorList order node ↔
        (∃ k, σ.shared.user.graph.nodes.lookup k = some d) ∧ ListsSuccessor cd contents d (fromOCI node) := by
  obtain ⟨consistent, faithful⟩ := graph_reach byKey reach
  refine ⟨consistent.keys, consistent.edges, consistent.nonempty, fun order node => ?_⟩
  refine ⟨Memory.predecessorList_nodup consistent faithful order node, ?_,
    Memory.mem_predecessorList byKey consistent faithful order node⟩
  intro zero
  exact Memory.not_listsSuccessor_zero _ ((Memory.mem_predecessorList byKey consistent faithful order node {}).mp zero).2

namespace Reindexed

/-- The image and its configuration. -/
def content : Fetcher := fun d =>
  if fromOCI d = fromOCI Sample.image then .ok Sample.imageBytes
  else if fromOCI d = fromOCI Sample.config then .ok Sample.configBytes
  else .error .notFound

def calls : List Call := [.indexAll Sample.image, .remove Sample.image, .index Sample.image]

noncomputable def answers (st : GraphState) : (op : GraphOp) → GraphAns op
  | .tryCommit tracker desc => decide ((tracker, fromOCI desc) ∉ st.trackers)
  | .read => 0
  | .update _ _ => ()
  | .remove _ => Enumeration.preferring []

/-- The state after the three goroutines have taken turns. -/
noncomputable def after : GraphRun :=
  (start Sample.codec (fun _ => content) calls).rounds (graphMachine Sample.codec fun _ => content) (eager answers) 16

theorem after_indexed : after.shared.user.graph.nodes.lookup (fromOCI Sample.image) = some Sample.image ∧
    successors Sample.codec content Sample.image = .ok [Sample.config] ∧
    after.threads.length = 5 ∧ (List.range 5).map after.returned? = List.replicate 5 (some none) := by
  decide +kernel

theorem byKey : SuccessorsByKey Sample.codec fun _ => content := by
  intro v w a b as bs same foundA foundB
  have sameContent : content a = content b := by simp only [content, same]
  have agree : successors Sample.codec content a = successors Sample.codec content b :=
    successors_congr same sameContent
  exact Except.ok.inj (foundA.symm.trans (agree.trans foundB))

end Reindexed

/-- An image that is removed while it is indexed twice. -/
theorem predecessors_exact_image : ∃ σ,
    Reach (graphMachine Sample.codec fun _ => Reindexed.content)
      (start Sample.codec (fun _ => Reindexed.content) Reindexed.calls) σ ∧
    ∀ order, Sample.image ∈ σ.shared.user.graph.predecessorList order Sample.config := by
  obtain ⟨stored, listed, _⟩ := Reindexed.after_indexed
  have reach : Reach _ _ Reindexed.after := Pool.rounds_reach 16 _
  refine ⟨_, reach, fun order => ?_⟩
  have exact := ((predecessors_exact Reindexed.byKey reach).2.2.2 order Sample.config).2.2 Sample.image
  exact exact.mpr ⟨⟨_, stored⟩, 0, _, listed, List.mem_singleton.mpr rfl⟩

end Concurrent

end OrasGo.Graph
