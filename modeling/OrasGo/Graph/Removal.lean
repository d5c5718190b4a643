import OrasGo.Graph.Representation

/-! `Memory.Remove` takes out one node and nothing else, and undoes `Memory.Index`. -/

namespace OrasGo.Graph
open Iteration

namespace Memory
variable {m : Memory} {node : Descriptor}

/-- An indexed successor of the node that has no other predecessor. -/
structure Dangling (m : Memory) (nodeKey k : Key) : Prop where
  successor : k ∈ m.successorSet nodeKey
  indexed : k ∈ m.nodes
  alone : ∀ n ∈ m.predecessorSet k, n = nodeKey

/-- The node is gone, and so it is from the predecessors of its successors. -/
structure WithoutNode (m m' : Memory) (nodeKey : Key) : Prop where
  nodes : m'.nodes = m.nodes.erase nodeKey
  successors : m'.successors = m.successors.erase nodeKey
  others : ∀ s, s ∉ m.successorSet nodeKey → m'.predecessors.lookup s = m.predecessors.lookup s
  alone : ∀ s ∈ m.successorSet nodeKey, (m.predecessorSet s).erase nodeKey = ∅ → m'.predecessors.lookup s = none
  shared : ∀ s ∈ m.successorSet nodeKey, (m.predecessorSet s).erase nodeKey ≠ ∅ →
    m'.predecessors.lookup s = some ((m.predecessorSet s).erase nodeKey)

theorem Consistent.lookup_predecessors (consistent : m.Consistent) (s : Key) :
    m.predecessors.lookup s = if m.predecessorSet s = ∅ then none else some (m.predecessorSet s) := by
  unfold predecessorSet
  cases found : m.predecessors.lookup s with
  | none => rw [Option.getD_none, if_pos rfl]
  | some entry =>
    have nonempty : entry ≠ ∅ := by
      rintro rfl
      exact consistent.nonempty s found
    rw [Option.getD_some, if_neg nonempty]

theorem Consistent.withoutNode (consistent : m.Consistent) (order : Enumeration Key) (node : Descriptor) :
    WithoutNode m (m.remove order node).1 (fromOCI node) := by
  have after := (consistent.remove order node).lookup_predecessors
  refine ⟨rfl, rfl, fun s other => ?_, fun s member empty => ?_, fun s member others => ?_⟩
  · rw [after, remove_predecessorSet, if_neg other, consistent.lookup_predecessors]
  · rw [after, remove_predecessorSet, if_pos member, if_pos empty]
  · rw [after, remove_predecessorSet, if_pos member, if_neg others]

theorem remove_danglings_keys (order : Enumeration Key) (node : Descriptor) :
    ∃ keys : List Key, keys.Nodup ∧ (∀ k, k ∈ keys ↔ m.Dangling (fromOCI node) k) ∧
      (m.remove order node).2.map some = keys.map m.nodes.lookup := by
  have danglings := (foldl_removeFrom m.nodes (fromOCI node) _ (m.predecessors, [])
    (order.nodup (m.successorSet (fromOCI node)))).2
  rw [List.nil_append] at danglings
  refine ⟨(order.list (m.successorSet (fromOCI node))).filter
    fun k => (m.predecessorSet k).erase (fromOCI node) = ∅ ∧ (m.nodes.lookup k).isSome, ?_, fun k => ?_, ?_⟩
  · exact (order.nodup _).filter _
  · simp only [List.mem_filter, order.mem, decide_eq_true_eq, Finmap.lookup_isSome]
    have alone : (m.predecessorSet k).erase (fromOCI node) = ∅ ↔ ∀ n ∈ m.predecessorSet k, n = fromOCI node := by
      rw [Finset.erase_eq_empty_iff, ← Finset.subset_singleton_iff, Finset.subset_singleton_iff']
    exact ⟨fun ⟨successor, empty, indexed⟩ => ⟨successor, indexed, alone.mp empty⟩,
      fun dangling => ⟨dangling.successor, alone.mpr dangling.alone, dangling.indexed⟩⟩
  · rw [show (m.remove order node).2 = _ from danglings]
    induction order.list (m.successorSet (fromOCI node)) with
    | nil => rfl
    | cons k rest ih =>
      rw [List.flatMap_cons, List.map_append, ih]
      change List.map some (if (m.predecessorSet k).erase (fromOCI node) = ∅ then _ else _) ++ _ = _
      by_cases empty : (m.predecessorSet k).erase (fromOCI node) = ∅
      · cases found : m.nodes.lookup k <;> simp [empty, found]
      · simp [empty]

theorem Consistent.remove_indexNode (consistent : m.Consistent) (order : Enumeration Key) (nodes : List Descriptor)
    (absent : fromOCI node ∉ m.nodes) : ((m.indexNode node nodes).remove order node).1 = m := by
  have unknown : fromOCI node ∉ m.successors := fun known => absent ((consistent.keys _).mpr known)
  have outside (s : Key) : fromOCI node ∉ m.predecessorSet s := by
    rw [consistent.edges, consistent.successorSet_of_not_mem absent]
    exact Finset.notMem_empty s
  have listed : (m.indexNode node nodes).successorSet (fromOCI node) = (nodes.map fromOCI).toFinset := by
    rw [indexNode_successorSet, if_pos rfl]
  have sets (s : Key) : ((m.indexNode node nodes).remove order node).1.predecessorSet s = m.predecessorSet s := by
    rw [remove_predecessorSet, listed]
    ext n
    have edge := @mem_indexNode_predecessorSet m node nodes s n
    by_cases member : s ∈ nodes.map fromOCI
    · rw [if_pos (List.mem_toFinset.mpr member), Finset.mem_erase, edge]
      constructor
      · rintro ⟨other, old | ⟨same, _⟩⟩
        · exact old
        · exact absurd same other
      · intro old
        exact ⟨fun same => outside s (same ▸ old), .inl old⟩
    · rw [if_neg fun listed => member (List.mem_toFinset.mp listed), edge]
      exact or_iff_left fun new => member new.2
  -- No entry is empty before or after, so that the sets say which entries there are.
  have nonempty := @foldl_removeFrom_nonempty (m.indexNode node nodes).nodes (fromOCI node)
    (order.list ((m.indexNode node nodes).successorSet (fromOCI node))) ((m.indexNode node nodes).predecessors, [])
    (addPredecessors_nonempty nodes consistent.nonempty)
  have entries (s : Key) : ((m.indexNode node nodes).remove order node).1.predecessors.lookup s =
      m.predecessors.lookup s := by
    have same := sets s
    rw [consistent.lookup_predecessors, ← same, predecessorSet]
    cases found : ((m.indexNode node nodes).remove order node).1.predecessors.lookup s with
    | none => rw [Option.getD_none, if_pos rfl]
    | some entry =>
      have some : entry ≠ ∅ := by
        rintro rfl
        exact nonempty s found
      rw [Option.getD_some, if_neg some]
  have erased (k : Key) : (((m.nodes.insert (fromOCI node) node).erase (fromOCI node)).lookup k) = m.nodes.lookup k := by
    by_cases same : k = fromOCI node
    · rw [same, Finmap.lookup_erase, Finmap.lookup_eq_none.mpr absent]
    · rw [Finmap.lookup_erase_ne same, Finmap.lookup_insert_of_ne _ same]
  have erased' (k : Key) : (((m.successors.insert (fromOCI node) (nodes.map fromOCI).toFinset).erase
      (fromOCI node)).lookup k) = m.successors.lookup k := by
    by_cases same : k = fromOCI node
    · rw [same, Finmap.lookup_erase, Finmap.lookup_eq_none.mpr unknown]
    · rw [Finmap.lookup_erase_ne same, Finmap.lookup_insert_of_ne _ same]
  obtain ⟨nodeMap, predecessorMap, successorMap⟩ := m
  exact Memory.mk.injEq .. ▸ ⟨Finmap.ext_lookup erased, Finmap.ext_lookup entries, Finmap.ext_lookup erased'⟩

end Memory

/-- What `Memory.Remove` returns and leaves, and that it undoes `Memory.index`. -/
theorem remove_exact (m : Memory) (consistent : m.Consistent) (order : Enumeration Key) (node : Descriptor) :
    (∃ keys : List Key, keys.Nodup ∧ (∀ k, k ∈ keys ↔ m.Dangling (fromOCI node) k) ∧
      (m.remove order node).2.map some = keys.map m.nodes.lookup) ∧
    m.WithoutNode (m.remove order node).1 (fromOCI node) ∧
    (m.remove order node).1.Consistent ∧
    ∀ cd fetch nodes m', fromOCI node ∉ m.nodes → m.index cd fetch node = (.ok nodes, m') →
      (m'.remove order node).1 = m := by
  refine ⟨Memory.remove_danglings_keys order node, consistent.withoutNode order node, consistent.remove order node, ?_⟩
  intro cd fetch nodes m' absent indexed
  rw [Memory.index] at indexed
  cases read : successors cd fetch node with
  | error err =>
    rw [read] at indexed
    cases congrArg Prod.fst indexed
  | ok listed =>
    rw [read] at indexed
    obtain rfl : m.indexNode node listed = m' := congrArg Prod.snd indexed
    exact consistent.remove_indexNode order listed absent

open Concurrent in
/-- An image is indexed over its configuration and removed again, which leaves the configuration without a predecessor. -/
theorem remove_exact_image : ∃ m m' : Memory, m.Consistent ∧ m'.Consistent ∧
    m.index Sample.codec Reindexed.content Sample.image = (.ok [Sample.config], m') ∧
    ∀ order, (m'.remove order Sample.image).1 = m ∧ Sample.config ∈ (m'.remove order Sample.image).2 := by
  have config : successors Sample.codec Reindexed.content Sample.config = .ok [] := by decide +kernel
  have image := Reindexed.after_indexed.2.1
  have distinct : fromOCI Sample.image ≠ fromOCI Sample.config := by decide
  have consistent := Memory.Consistent.empty.indexNode (v := 0) Reindexed.byKey
    (Memory.Faithful.empty Sample.codec fun _ => Reindexed.content) config
  have faithful := (Memory.Faithful.empty Sample.codec fun _ => Reindexed.content).indexNode (v := 0) config
  have consistent' := consistent.indexNode (v := 0) Reindexed.byKey faithful image
  have absent : fromOCI Sample.image ∉ (Memory.indexNode {} Sample.config []).nodes := by
    rw [Memory.mem_indexNode_nodes]
    exact not_or.mpr ⟨distinct, Finmap.notMem_empty⟩
  have indexed : (Memory.indexNode {} Sample.config []).index Sample.codec Reindexed.content Sample.image =
      (.ok [Sample.config], (Memory.indexNode {} Sample.config []).indexNode Sample.image [Sample.config]) := by
    rw [Memory.index, image]
  refine ⟨_, _, consistent, consistent', indexed, fun order => ⟨?_, ?_⟩⟩
  · exact (remove_exact _ consistent order Sample.image).2.2.2 _ _ _ _ absent indexed
  · obtain ⟨keys, -, listed, danglings⟩ := (remove_exact _ consistent' order Sample.image).1
    have dangling : fromOCI Sample.config ∈ keys := by
      refine (listed _).mpr ⟨?_, ?_, fun n => ?_⟩
      · rw [Memory.indexNode_successorSet, if_pos rfl]
        exact List.mem_toFinset.mpr (List.mem_singleton.mpr rfl)
      · simp only [Memory.mem_indexNode_nodes, true_or, or_true]
      · rw [Memory.mem_indexNode_predecessorSet, Memory.mem_indexNode_predecessorSet]
        simp [Memory.predecessorSet]
    have stored : ((Memory.indexNode {} Sample.config []).indexNode Sample.image [Sample.config]).nodes.lookup
        (fromOCI Sample.config) = some Sample.config := by
      simp only [Memory.indexNode, Finmap.lookup_insert_of_ne _ distinct.symm, Finmap.lookup_insert]
    rw [← List.mem_map_of_injective (Option.some_injective _), danglings, ← stored]
    exact List.mem_map_of_mem dangling

end OrasGo.Graph
