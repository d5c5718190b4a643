import Mathlib.Data.Finset.Image
import OrasGo.Base.Enumeration
import OrasGo.Content

/-! `graph.Memory`, the nodes of a store with their edges in both directions. -/

namespace OrasGo.Graph
open Iteration

structure Memory where
  nodes : Finmap (fun _ : Key => Descriptor) := ∅
  predecessors : Finmap (fun _ : Key => Finset Key) := ∅
  successors : Finmap (fun _ : Key => Finset Key) := ∅

namespace Memory

def predecessorSet (m : Memory) (k : Key) : Finset Key := (m.predecessors.lookup k).getD ∅

def successorSet (m : Memory) (k : Key) : Finset Key := (m.successors.lookup k).getD ∅

/-- Put a node into the predecessors of one of its successors. -/
def addPredecessor (nodeKey : Key) (predecessors : Finmap (fun _ : Key => Finset Key))
    (successor : Descriptor) : Finmap (fun _ : Key => Finset Key) :=
  predecessors.insert (fromOCI successor)
    (insert nodeKey ((predecessors.lookup (fromOCI successor)).getD ∅))

/-- What `Memory.index` does under the lock. -/
def indexNode (m : Memory) (node : Descriptor) (nodes : List Descriptor) : Memory where
  nodes := m.nodes.insert (fromOCI node) node
  predecessors := nodes.foldl (addPredecessor (fromOCI node)) m.predecessors
  successors := m.successors.insert (fromOCI node) (nodes.map fromOCI).toFinset

/-- `Memory.index`. -/
def index (cd : Codec) (fetch : Fetcher) (m : Memory) (node : Descriptor) :
    Except Error (List Descriptor) × Memory :=
  match OrasGo.successors cd fetch node with
  | .error err => (.error err, m)
  | .ok nodes => (.ok nodes, m.indexNode node nodes)

/-- `Memory.Predecessors`, where a predecessor that is no node is the zero descriptor. -/
def predecessorList (m : Memory) (order : Enumeration Key) (node : Descriptor) : List Descriptor :=
  (order.list (m.predecessorSet (fromOCI node))).map fun k => (m.nodes.lookup k).getD {}

/-- The body of the loop of `Memory.Remove`. -/
def removeFrom (nodes : Finmap (fun _ : Key => Descriptor)) (nodeKey : Key)
    (acc : Finmap (fun _ : Key => Finset Key) × List Descriptor) (successorKey : Key) :
    Finmap (fun _ : Key => Finset Key) × List Descriptor :=
  let predecessorEntry := ((acc.1.lookup successorKey).getD ∅).erase nodeKey
  if predecessorEntry = ∅ then
    (acc.1.erase successorKey, acc.2 ++ (nodes.lookup successorKey).toList)
  else
    (acc.1.insert successorKey predecessorEntry, acc.2)

/-- `Memory.Remove`, with the dangling nodes it returns. -/
def remove (m : Memory) (order : Enumeration Key) (node : Descriptor) : Memory × List Descriptor :=
  let nodeKey := fromOCI node
  let removed := (order.list (m.successorSet nodeKey)).foldl (removeFrom m.nodes nodeKey) (m.predecessors, [])
  ({ nodes := m.nodes.erase nodeKey
     predecessors := removed.1
     successors := m.successors.erase nodeKey }, removed.2)

/-- `Memory.DigestSet`. -/
def digestSet (m : Memory) : Finset Digest := m.nodes.keys.image Key.digest

/-- `Memory.Exists`. -/
def contains (m : Memory) (node : Descriptor) : Bool := (m.nodes.lookup (fromOCI node)).isSome

theorem mem_digestSet {m : Memory} {d : Digest} : d ∈ m.digestSet ↔ ∃ k ∈ m.nodes, k.digest = d := by
  simp only [digestSet, Finset.mem_image, Finmap.mem_keys]

theorem contains_iff {m : Memory} {node : Descriptor} : m.contains node = true ↔ fromOCI node ∈ m.nodes := by
  simp only [contains, Finmap.lookup_isSome]

section IndexNode
variable (m : Memory) (node : Descriptor) (nodes : List Descriptor)

theorem mem_indexNode_nodes {k : Key} :
    k ∈ (m.indexNode node nodes).nodes ↔ k = fromOCI node ∨ k ∈ m.nodes := by
  simp only [indexNode, Finmap.mem_insert]

theorem indexNode_successorSet (k : Key) :
    (m.indexNode node nodes).successorSet k =
      if k = fromOCI node then (nodes.map fromOCI).toFinset else m.successorSet k := by
  by_cases same : k = fromOCI node
  · subst same
    simp only [successorSet, indexNode, Finmap.lookup_insert, Option.getD_some, if_true]
  · simp only [successorSet, indexNode, Finmap.lookup_insert_of_ne _ same, if_neg same]

theorem mem_addPredecessors {nodeKey k n : Key} {predecessors : Finmap (fun _ : Key => Finset Key)} :
    n ∈ ((nodes.foldl (addPredecessor nodeKey) predecessors).lookup k).getD ∅ ↔
      n ∈ (predecessors.lookup k).getD ∅ ∨ n = nodeKey ∧ k ∈ nodes.map fromOCI := by
  induction nodes generalizing predecessors with
  | nil => simp only [List.foldl_nil, List.map_nil, List.not_mem_nil, and_false, or_false]
  | cons successor rest ih =>
    rw [List.foldl_cons, ih, List.map_cons, List.mem_cons]
    by_cases same : k = fromOCI successor
    · subst same
      simp only [addPredecessor, Finmap.lookup_insert, Option.getD_some, Finset.mem_insert, true_or, and_true]
      tauto
    · simp only [addPredecessor, Finmap.lookup_insert_of_ne _ same, same, false_or]

theorem mem_indexNode_predecessorSet {k n : Key} :
    n ∈ (m.indexNode node nodes).predecessorSet k ↔
      n ∈ m.predecessorSet k ∨ n = fromOCI node ∧ k ∈ nodes.map fromOCI :=
  mem_addPredecessors nodes

end IndexNode

section Remove
variable {nodes : Finmap (fun _ : Key => Descriptor)} {nodeKey : Key}

theorem removeFrom_predecessors (acc : Finmap (fun _ : Key => Finset Key) × List Descriptor) (s k : Key) :
    ((removeFrom nodes nodeKey acc s).1.lookup k).getD ∅ =
      if k = s then ((acc.1.lookup k).getD ∅).erase nodeKey else (acc.1.lookup k).getD ∅ := by
  simp only [removeFrom]
  by_cases same : k = s
  · subst same
    rw [if_pos rfl]
    split
    · rename_i empty
      rw [Finmap.lookup_erase, empty, Option.getD_none]
    · rw [Finmap.lookup_insert, Option.getD_some]
  · rw [if_neg same]
    split
    · rw [Finmap.lookup_erase_ne same]
    · rw [Finmap.lookup_insert_of_ne _ same]

variable (nodes nodeKey) in
theorem foldl_removeFrom (keys : List Key) (acc : Finmap (fun _ : Key => Finset Key) × List Descriptor)
    (distinct : keys.Nodup) :
    (∀ k, ((keys.foldl (removeFrom nodes nodeKey) acc).1.lookup k).getD ∅ =
      if k ∈ keys then ((acc.1.lookup k).getD ∅).erase nodeKey else (acc.1.lookup k).getD ∅) ∧
    (keys.foldl (removeFrom nodes nodeKey) acc).2 = acc.2 ++ keys.flatMap fun k =>
      if ((acc.1.lookup k).getD ∅).erase nodeKey = ∅ then (nodes.lookup k).toList else [] := by
  induction keys generalizing acc with
  | nil => exact ⟨fun k => by simp only [List.foldl_nil, List.not_mem_nil, if_false], by simp⟩
  | cons s rest ih =>
    obtain ⟨fresh, distinct⟩ := List.nodup_cons.mp distinct
    obtain ⟨entries, danglings⟩ := ih (removeFrom nodes nodeKey acc s) distinct
    refine ⟨fun k => ?_, ?_⟩
    · rw [List.foldl_cons, entries k, removeFrom_predecessors]
      by_cases same : k = s
      · subst same
        simp only [if_neg fresh, if_true, List.mem_cons_self]
      · simp only [same, if_false, List.mem_cons, false_or]
    · have kept : ∀ k ∈ rest, ((removeFrom nodes nodeKey acc s).1.lookup k).getD ∅ =
          (acc.1.lookup k).getD ∅ := by
        intro k member
        rw [removeFrom_predecessors, if_neg (ne_of_mem_of_not_mem member fresh)]
      rw [List.foldl_cons, danglings, List.flatMap_cons, ← List.append_assoc]
      congr 1
      · simp only [removeFrom]
        split <;> simp
      · exact List.flatMap_congr fun k member => by rw [kept k member]

end Remove

section
variable (m : Memory) (order : Enumeration Key) (node : Descriptor)

theorem mem_remove_nodes {k : Key} :
    k ∈ (m.remove order node).1.nodes ↔ k ≠ fromOCI node ∧ k ∈ m.nodes := by
  simp only [remove, Finmap.mem_erase]

theorem remove_successorSet (k : Key) :
    (m.remove order node).1.successorSet k = if k = fromOCI node then ∅ else m.successorSet k := by
  by_cases same : k = fromOCI node
  · subst same
    simp only [successorSet, remove, Finmap.lookup_erase, Option.getD_none, if_true]
  · simp only [successorSet, remove, Finmap.lookup_erase_ne same, if_neg same]

theorem remove_predecessorSet (k : Key) :
    (m.remove order node).1.predecessorSet k =
      if k ∈ m.successorSet (fromOCI node) then (m.predecessorSet k).erase (fromOCI node)
      else m.predecessorSet k := by
  have entries := (foldl_removeFrom m.nodes (fromOCI node) _ (m.predecessors, [])
    (order.nodup (m.successorSet (fromOCI node)))).1 k
  simp only [order.mem] at entries
  exact entries

/-- `Remove` returns the indexed successors of the node that have no other predecessor. -/
theorem mem_remove_danglings {d : Descriptor} :
    d ∈ (m.remove order node).2 ↔ ∃ k ∈ m.successorSet (fromOCI node),
      (m.predecessorSet k).erase (fromOCI node) = ∅ ∧ m.nodes.lookup k = some d := by
  have danglings := (foldl_removeFrom m.nodes (fromOCI node) _ (m.predecessors, [])
    (order.nodup (m.successorSet (fromOCI node)))).2
  rw [show (m.remove order node).2 = _ from danglings, List.nil_append, List.mem_flatMap]
  constructor
  · rintro ⟨k, member, dangling⟩
    split at dangling
    · rename_i empty
      exact ⟨k, (order.mem _ k).mp member, empty, Option.mem_toList.mp dangling⟩
    · cases dangling
  · rintro ⟨k, member, empty, found⟩
    refine ⟨k, (order.mem _ k).mpr member, ?_⟩
    rw [if_pos (show ((m.predecessors.lookup k).getD ∅).erase (fromOCI node) = ∅ from empty)]
    exact Option.mem_toList.mpr found

end

end Memory

end OrasGo.Graph
