import OrasGo.Graph.Finish

/-! What `IndexAll` leaves: the graph before it and everything below the node that
can be read, in whatever order the workers get there. -/

namespace OrasGo.Graph
open Interleaving Syncutil
variable {cd : Codec} {fetch : Fetcher} {graph : Memory} {node : Descriptor} {log : List Descriptor}

/-- The graph with everything that `IndexAll` adds. The descriptor under a key
may be that of any node that lists it, hence `stored`. -/
structure Grown (cd : Codec) (fetch : Fetcher) (node : Descriptor) (graph graph' : Memory) : Prop where
  nodes : ∀ k, k ∈ graph'.nodes ↔ k ∈ graph.nodes ∨ Indexed cd fetch node k
  leaves : ∀ k, Reachable cd fetch (fromOCI node) k → isManifest k.plain = false → k ∈ graph'.nodes
  stored : ∀ k d, Indexed cd fetch node k → graph'.nodes.lookup k = some d → fromOCI d = k
  successors : ∀ k nodes, Reachable cd fetch (fromOCI node) k → OrasGo.successors cd fetch k.plain = .ok nodes →
    graph'.successors.lookup k = some (nodes.map fromOCI).toFinset
  others : ∀ k, ¬ Indexed cd fetch node k → graph'.nodes.lookup k = graph.nodes.lookup k ∧
    graph'.successors.lookup k = graph.successors.lookup k
  predecessors : ∀ s n, n ∈ graph'.predecessorSet s ↔
    n ∈ graph.predecessorSet s ∨ Indexed cd fetch node n ∧ Edge cd fetch n s
  entries : ∀ s, s ∈ graph'.predecessors ↔ s ∈ graph.predecessors ∨ ∃ n, Indexed cd fetch node n ∧ Edge cd fetch n s

section Log

/-- The node is listed and there. -/
def Logged (cd : Codec) (fetch : Fetcher) (log : List Descriptor) (k : Key) : Prop :=
  (∃ desc ∈ log, fromOCI desc = k) ∧ ∃ nodes, OrasGo.successors cd fetch k.plain = .ok nodes

theorem logged_cons (desc : Descriptor) (rest : List Descriptor) (k : Key) :
    Logged cd fetch (desc :: rest) k ↔ Logged cd fetch [desc] k ∨ Logged cd fetch rest k := by
  rw [Logged, Logged, Logged, ← or_and_right]
  refine and_congr_left fun _ => ?_
  simp only [List.mem_cons, exists_eq_or_imp, List.not_mem_nil, or_false, exists_eq_left]

theorem not_logged_nil (k : Key) : ¬ Logged cd fetch [] k := by
  rintro ⟨⟨_, listed, _⟩, _⟩
  cases listed

theorem index_cases (byKey : fetch.ByKey) (graph : Memory) (desc : Descriptor) :
    (∃ nodes, successors cd fetch (fromOCI desc).plain = .ok nodes ∧
      (graph.index cd fetch desc).2 = graph.indexNode desc nodes) ∨
    ((∀ k, ¬ Logged cd fetch [desc] k) ∧ (graph.index cd fetch desc).2 = graph) := by
  rw [successors_plain byKey, Memory.index]
  cases found : successors cd fetch desc with
  | ok nodes => exact .inl ⟨nodes, rfl, rfl⟩
  | error err =>
    refine .inr ⟨?_, rfl⟩
    rintro k ⟨⟨d, listed, rfl⟩, nodes, read⟩
    rw [List.mem_singleton.mp listed, successors_plain byKey, found] at read
    cases read

theorem logged_single {desc : Descriptor} {nodes : List Descriptor}
    (found : successors cd fetch (fromOCI desc).plain = .ok nodes) (k : Key) :
    Logged cd fetch [desc] k ↔ k = fromOCI desc := by
  constructor
  · rintro ⟨⟨d, listed, rfl⟩, _⟩
    rw [List.mem_singleton.mp listed]
  · rintro rfl
    exact ⟨⟨desc, List.mem_singleton.mpr rfl, rfl⟩, nodes, found⟩

theorem edge_iff {desc : Descriptor} {nodes : List Descriptor} (found : successors cd fetch (fromOCI desc).plain = .ok nodes)
    (s : Key) : Edge cd fetch (fromOCI desc) s ↔ s ∈ nodes.map fromOCI := by
  constructor
  · rintro ⟨listed, read, child, member, rfl⟩
    rw [found] at read
    cases read
    exact List.mem_map_of_mem member
  · intro member
    exact ⟨nodes, found, List.mem_map.mp member⟩

theorem indexMany_others (byKey : fetch.ByKey) (graph : Memory) {k : Key} (absent : ¬ Logged cd fetch log k) :
    (indexMany cd fetch graph log).nodes.lookup k = graph.nodes.lookup k ∧
      (indexMany cd fetch graph log).successors.lookup k = graph.successors.lookup k := by
  induction log generalizing graph with
  | nil => exact ⟨rfl, rfl⟩
  | cons desc rest ih =>
    rw [logged_cons, not_or] at absent
    obtain ⟨sameNode, sameEdges⟩ := ih (graph.index cd fetch desc).2 absent.2
    refine ⟨sameNode.trans ?_, sameEdges.trans ?_⟩ <;>
      rcases index_cases byKey graph desc with ⟨nodes, found, after⟩ | ⟨_, after⟩ <;> rw [after]
    all_goals
      have other : k ≠ fromOCI desc := fun same => absent.1 ((logged_single found k).mpr same)
      exact Finmap.lookup_insert_of_ne _ other

theorem indexMany_logged (byKey : fetch.ByKey) (graph : Memory) {k : Key} (logged : Logged cd fetch log k) :
    (∃ d, (indexMany cd fetch graph log).nodes.lookup k = some d ∧ fromOCI d = k) ∧
      ∀ nodes, successors cd fetch k.plain = .ok nodes →
        (indexMany cd fetch graph log).successors.lookup k = some (nodes.map fromOCI).toFinset := by
  induction log generalizing graph with
  | nil => exact absurd logged (not_logged_nil k)
  | cons desc rest ih =>
    by_cases later : Logged cd fetch rest k
    · exact ih (graph.index cd fetch desc).2 later
    -- The entry is that of the head, which the rest of the log does not touch.
    have first := ((logged_cons desc rest k).mp logged).resolve_right later
    obtain ⟨sameNode, sameEdges⟩ := indexMany_others byKey (graph.index cd fetch desc).2 later
    rcases index_cases byKey graph desc with ⟨nodes, found, after⟩ | ⟨none, _⟩
    · obtain rfl := (logged_single found k).mp first
      refine ⟨⟨desc, sameNode.trans ?_, rfl⟩, fun nodes' found' => sameEdges.trans ?_⟩ <;> rw [after]
      · exact Finmap.lookup_insert _
      · cases found.symm.trans found'
        exact Finmap.lookup_insert _
    · exact absurd first (none k)

theorem mem_addPredecessors_entries {nodeKey k : Key} {predecessors : Finmap (fun _ : Key => Finset Key)}
    (nodes : List Descriptor) :
    k ∈ nodes.foldl (Memory.addPredecessor nodeKey) predecessors ↔ k ∈ predecessors ∨ k ∈ nodes.map fromOCI := by
  induction nodes generalizing predecessors with
  | nil => simp only [List.foldl_nil, List.map_nil, List.not_mem_nil, or_false]
  | cons successor rest ih =>
    rw [List.foldl_cons, ih, Memory.addPredecessor, Finmap.mem_insert, List.map_cons, List.mem_cons]
    tauto

theorem indexMany_predecessors (byKey : fetch.ByKey) (graph : Memory) (s n : Key) :
    n ∈ (indexMany cd fetch graph log).predecessorSet s ↔
      n ∈ graph.predecessorSet s ∨ Logged cd fetch log n ∧ Edge cd fetch n s := by
  induction log generalizing graph with
  | nil => exact (or_iff_left fun new => not_logged_nil n new.1).symm
  | cons desc rest ih =>
    have step : n ∈ (graph.index cd fetch desc).2.predecessorSet s ↔
        n ∈ graph.predecessorSet s ∨ Logged cd fetch [desc] n ∧ Edge cd fetch n s := by
      rcases index_cases byKey graph desc with ⟨nodes, found, after⟩ | ⟨none, after⟩ <;> rw [after]
      · rw [Memory.mem_indexNode_predecessorSet, logged_single found, ← edge_iff found]
        exact or_congr_right (and_congr_right fun same => by rw [same])
      · exact (or_iff_left fun new => none n new.1).symm
    refine (ih (graph.index cd fetch desc).2).trans ?_
    rw [step, logged_cons desc rest, or_and_right, or_assoc]

theorem indexMany_entries (byKey : fetch.ByKey) (graph : Memory) (s : Key) :
    s ∈ (indexMany cd fetch graph log).predecessors ↔
      s ∈ graph.predecessors ∨ ∃ n, Logged cd fetch log n ∧ Edge cd fetch n s := by
  induction log generalizing graph with
  | nil => exact (or_iff_left fun ⟨n, new, _⟩ => not_logged_nil n new).symm
  | cons desc rest ih =>
    have step : s ∈ (graph.index cd fetch desc).2.predecessors ↔
        s ∈ graph.predecessors ∨ ∃ n, Logged cd fetch [desc] n ∧ Edge cd fetch n s := by
      rcases index_cases byKey graph desc with ⟨nodes, found, after⟩ | ⟨none, after⟩ <;> rw [after]
      · refine (mem_addPredecessors_entries nodes).trans (or_congr_right ?_)
        simp only [logged_single found, exists_eq_left, edge_iff found]
      · exact (or_iff_left fun ⟨n, new, _⟩ => none n new).symm
    refine (ih (graph.index cd fetch desc).2).trans ?_
    simp only [step, logged_cons desc rest, or_and_right, exists_or, or_assoc]

end Log

theorem Outcome.grown {graph' : Memory} (byKey : fetch.ByKey) (outcome : Outcome cd fetch graph node (none, graph')) :
    Grown cd fetch node graph graph' := by
  obtain ⟨log, rfl, listed⟩ := outcome.indexed byKey
  have logged (k : Key) : Logged cd fetch log k ↔ Indexed cd fetch node k := and_congr_left fun _ => listed k
  refine ⟨fun k => outcome.mem_nodes byKey, fun k below leaf => ?_, fun k d indexed found => ?_,
    fun k nodes below read => ?_, fun k other => ?_, fun s n => ?_, fun s => ?_⟩
  · exact (outcome.mem_nodes byKey).mpr (.inr ⟨below, [], successors_of_not_isManifest leaf⟩)
  · obtain ⟨d', found', key⟩ := (indexMany_logged byKey graph ((logged k).mpr indexed)).1
    cases found.symm.trans found'
    exact key
  · exact (indexMany_logged byKey graph ((logged k).mpr ⟨below, nodes, read⟩)).2 nodes read
  · exact indexMany_others byKey graph fun mine => other ((logged k).mp mine)
  · rw [indexMany_predecessors byKey, logged]
  · simp only [indexMany_entries byKey, logged]

theorem Grown.unique {one two : Memory} (first : Grown cd fetch node graph one) (second : Grown cd fetch node graph two) :
    one.nodes.keys = two.nodes.keys ∧ one.successors = two.successors ∧ one.predecessors = two.predecessors := by
  refine ⟨?_, Finmap.ext_lookup fun k => ?_, Finmap.ext_lookup fun s => ?_⟩
  · ext k
    rw [Finmap.mem_keys, Finmap.mem_keys, first.nodes, second.nodes]
  · by_cases indexed : Indexed cd fetch node k
    · obtain ⟨below, nodes, read⟩ := indexed
      rw [first.successors k nodes below read, second.successors k nodes below read]
    · rw [(first.others k indexed).2, (second.others k indexed).2]
  · have sets : one.predecessorSet s = two.predecessorSet s := by
      ext n
      rw [first.predecessors, second.predecessors]
    by_cases entry : s ∈ one.predecessors
    · obtain ⟨a, foundOne⟩ := Finmap.mem_iff.mp entry
      obtain ⟨b, foundTwo⟩ := Finmap.mem_iff.mp ((second.entries s).mpr ((first.entries s).mp entry))
      rw [Memory.predecessorSet, Memory.predecessorSet, foundOne, foundTwo] at sets
      rw [foundOne, foundTwo]
      exact congrArg some sets
    · have entry' : s ∉ two.predecessors := fun other => entry ((first.entries s).mpr ((second.entries s).mp other))
      rw [Finmap.lookup_eq_none.mpr entry, Finmap.lookup_eq_none.mpr entry']

/-- `IndexAll` ends without an error in every interleaving, when all that is there
can be read, and leaves the same keys and edges in all of them. -/
theorem indexAll_exact (byKey : fetch.ByKey) {nodes : Finset Key} (bounded : Bounded cd fetch nodes)
    (inside : fromOCI node ∈ nodes) (readable : Readable cd fetch (fromOCI node)) (graph : Memory) :
    Acc (fun σ' σ => Step (indexMachine cd fetch) σ σ') (indexAll graph node) ∧
    (∀ σ, Reach (indexMachine cd fetch) (indexAll graph node) σ →
      σ.shared.crashed = false ∧
      ((∃ err, σ.Returned 0 err) ∨ ∃ σ', Step (indexMachine cd fetch) σ σ') ∧
      ∀ err, σ.Returned 0 err → err = none ∧ Grown cd fetch node graph σ.shared.user.graph) ∧
    ∀ σ τ, Reach (indexMachine cd fetch) (indexAll graph node) σ → Reach (indexMachine cd fetch) (indexAll graph node) τ →
      ∀ err err', σ.Returned 0 err → τ.Returned 0 err' →
      σ.shared.user.graph.nodes.keys = τ.shared.user.graph.nodes.keys ∧
      σ.shared.user.graph.successors = τ.shared.user.graph.successors ∧
      σ.shared.user.graph.predecessors = τ.shared.user.graph.predecessors := by
  have nil {result} (outcome : Outcome cd fetch graph node result) : result.1 = none :=
    (outcome.nil_iff byKey).mpr readable
  have grown {σ} (reach : Reach (indexMachine cd fetch) (indexAll graph node) σ) (err) (returned : σ.Returned 0 err) :
      err = none ∧ Grown cd fetch node graph σ.shared.user.graph := by
    have outcome : Outcome cd fetch graph node (err, σ.shared.user.graph) := ⟨σ, reach, rfl, .inl returned⟩
    obtain rfl : err = none := nil outcome
    exact ⟨rfl, outcome.grown byKey⟩
  have alive {σ} (reach : Reach (indexMachine cd fetch) (indexAll graph node) σ) : σ.shared.crashed = false := by
    by_contra crashed
    have outcome : Outcome cd fetch graph node (some inconsistentlyTyped, σ.shared.user.graph) :=
      ⟨σ, reach, rfl, .inr ⟨by simpa using crashed, rfl⟩⟩
    cases nil outcome
  refine ⟨index_terminates byKey bounded inside graph, fun σ reach => ⟨alive reach, ?_, grown reach⟩, ?_⟩
  · refine (index_progress byKey reach).imp_left (Or.resolve_left · ?_)
    rw [alive reach]
    exact Bool.false_ne_true
  · intro σ τ one two err err' first second
    exact (grown one err first).2.unique (grown two err' second).2

namespace Orphan
open Sample

/-- A storage that holds the referrer and not the image it refers to. -/
def content : Fetcher := fun d => if fromOCI d = fromOCI referrer then .ok referrerBytes else .error .notFound

theorem byKey : content.ByKey := by
  intro a b same
  simp only [content, same]

theorem successors_content : successors codec content (fromOCI referrer).plain = .ok [image, emptyConfig] ∧
    successors codec content (fromOCI image).plain = .error .notFound ∧
    successors codec content (fromOCI emptyConfig).plain = .ok [] ∧ isManifest (fromOCI emptyConfig).plain = false := by
  decide +kernel

theorem bounded : Bounded codec content {fromOCI referrer, fromOCI image, fromOCI emptyConfig} := by
  obtain ⟨one, two, three, _⟩ := successors_content
  intro k member child edge
  simp only [Finset.mem_insert, Finset.mem_singleton] at member
  obtain ⟨nodes, found, d, listed, rfl⟩ := edge
  rcases member with rfl | rfl | rfl
  · cases one.symm.trans found
    rcases List.mem_pair.mp listed with rfl | rfl <;> simp
  · cases two.symm.trans found
  · cases three.symm.trans found
    cases listed

theorem readable : Readable codec content (fromOCI referrer) := by
  obtain ⟨one, two, three, _⟩ := successors_content
  intro k below
  have inside : k ∈ ({fromOCI referrer, fromOCI image, fromOCI emptyConfig} : Finset Key) := by
    induction below with
    | refl => simp
    | tail _ edge ih => exact bounded _ ih _ edge
  simp only [Finset.mem_insert, Finset.mem_singleton] at inside
  rintro ⟨err, found, other⟩
  rcases inside with rfl | rfl | rfl
  · cases one.symm.trans found
  · cases two.symm.trans found
    cases other
  · cases three.symm.trans found

end Orphan

/-- The referrer and its configuration are indexed, the image is left out. -/
theorem indexAll_exact_orphan : ∃ σ,
    Reach (indexMachine Sample.codec Orphan.content) (indexAll {} Sample.referrer) σ ∧ σ.Returned 0 none ∧
    fromOCI Sample.referrer ∈ σ.shared.user.graph.nodes ∧ fromOCI Sample.emptyConfig ∈ σ.shared.user.graph.nodes ∧
    fromOCI Sample.image ∉ σ.shared.user.graph.nodes := by
  obtain ⟨one, two, _, leaf⟩ := Orphan.successors_content
  have exact := indexAll_exact Orphan.byKey Orphan.bounded (Finset.mem_insert_self _ _) Orphan.readable {}
  obtain ⟨σ, reach, err, returned⟩ := exists_reach exact.1 fun σ reach => (exact.2.1 σ reach).2.1
  obtain ⟨rfl, grown⟩ := (exact.2.1 σ reach).2.2 err returned
  have edge : Edge Sample.codec Orphan.content (fromOCI Sample.referrer) (fromOCI Sample.emptyConfig) :=
    ⟨_, one, Sample.emptyConfig, List.mem_pair.mpr (.inr rfl), rfl⟩
  refine ⟨σ, reach, returned, (grown.nodes _).mpr (.inr ⟨.refl, _, one⟩), grown.leaves _ (.single edge) leaf, ?_⟩
  rw [grown.nodes]
  rintro (impossible | ⟨_, nodes, found⟩)
  · exact Finmap.notMem_empty impossible
  · cases two.symm.trans found

end OrasGo.Graph
