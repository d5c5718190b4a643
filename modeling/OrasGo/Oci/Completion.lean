import OrasGo.Graph.Representation
import OrasGo.Oci.Reopen
import OrasGo.Oci.Walk
import OrasGo.Registry.Listing

/-! When `Delete` runs to its end: it does not queue a node twice, and all that it queues is stored. -/

namespace OrasGo.Registry

theorem Refers.unique {cd : Codec} {fetch : Fetcher} {node a b : Descriptor} (first : Refers cd fetch node a)
    (second : Refers cd fetch node b) : fromOCI a = fromOCI b := by
  obtain ⟨found, read, same⟩ := first
  obtain ⟨found', read', same'⟩ := second
  cases read.symm.trans read'
  exact (contentEqual_iff.mp same).symm.trans (contentEqual_iff.mp same')

end OrasGo.Registry

namespace OrasGo.Graph.Memory

theorem remove_danglings_sublist (m : Memory) (order : Iteration.Enumeration Key) (node : Descriptor)
    (keyed : ∀ k d, m.nodes.lookup k = some d → fromOCI d = k) :
    List.Sublist ((m.remove order node).2.map fromOCI) (order.list (m.successorSet (fromOCI node))) := by
  have danglings := (foldl_removeFrom m.nodes (fromOCI node) _ (m.predecessors, [])
    (order.nodup (m.successorSet (fromOCI node)))).2
  rw [show (m.remove order node).2 = _ from danglings, List.nil_append]
  generalize order.list (m.successorSet (fromOCI node)) = keys
  induction keys with
  | nil => exact .slnil
  | cons k keys ih =>
    rw [List.flatMap_cons, List.map_append]
    split
    · cases found : m.nodes.lookup k with
      | none => exact ih.cons k
      | some d =>
        rw [Option.toList_some, List.map_singleton, List.singleton_append, keyed k d found]
        exact ih.cons_cons k
    · exact ih.cons k

end OrasGo.Graph.Memory

namespace OrasGo.Oci
open Graph Iteration
variable {cd : Codec} {s s' s₀ : Store}

namespace Store

/-- Every node of the graph is stored. -/
def Filled (s : Store) : Prop := ∀ k ∈ s.graph.nodes, k.digest ∈ s.blobs

/-- No two nodes of the graph are one blob. -/
def Separate (s : Store) : Prop := ∀ k ∈ s.graph.nodes, ∀ k' ∈ s.graph.nodes, k.digest = k'.digest → k = k'

/-- If the graph has a node for the blob, the descriptor has the media type and size of it. -/
def Known (s : Store) (desc : Descriptor) : Prop := ∀ k ∈ s.graph.nodes, k.digest = desc.digest → k = fromOCI desc

/-- The graph tells the truth about the blobs. -/
structure Sound (cd : Codec) (s : Store) : Prop where
  consistent : s.graph.Consistent
  faithful : s.graph.Faithful cd fun _ => Storage.fetch s.blobs
  filled : s.Filled
  separate : s.Separate
  valid : ∀ d ∈ s.blobs, Digest.validate d = true

end Store

theorem successorsByKey (cd : Codec) (blobs : Blobs) : SuccessorsByKey cd fun _ => Storage.fetch blobs := by
  intro _ _ a b as bs same found found'
  have equal : successors cd (Storage.fetch blobs) a = successors cd (Storage.fetch blobs) b :=
    successors_congr same (Storage.fetch_byKey blobs a b same)
  rw [equal, found'] at found
  exact (Except.ok.inj found).symm

theorem faithful_of_lookup {graph : Memory} {blobs blobs' : Blobs}
    (faithful : graph.Faithful cd fun _ => Storage.fetch blobs)
    (same : ∀ k ∈ graph.nodes, blobs'.lookup k.digest = blobs.lookup k.digest) :
    graph.Faithful cd fun _ => Storage.fetch blobs' := by
  refine ⟨faithful.stored, fun k d found => ?_⟩
  obtain ⟨v, nodes, read, set⟩ := faithful.listed k d found
  have kept := same k (Finmap.mem_of_lookup_eq_some found)
  rw [← faithful.stored k d found] at kept
  exact ⟨v, nodes, (successors_of_lookup kept).trans read, set⟩

namespace Store

theorem Sound.of_eq (sound : s.Sound cd) (blobs : s'.blobs = s.blobs) (graph : s'.graph = s.graph) : s'.Sound cd := by
  obtain ⟨consistent, faithful, filled, separate, valid⟩ := sound
  refine ⟨graph ▸ consistent, ?_, ?_, ?_, blobs ▸ valid⟩
  · rw [graph, blobs]
    exact faithful
  · rw [Filled, graph, blobs]
    exact filled
  · rw [Separate, graph]
    exact separate

theorem sound_empty : Sound cd {} where
  consistent := .empty
  faithful := .empty cd _
  filled _ impossible := absurd impossible Finmap.notMem_empty
  separate _ impossible := absurd impossible Finmap.notMem_empty
  valid _ impossible := absurd impossible Finmap.notMem_empty

section

variable (sound : s.Sound cd)
include sound

theorem Sound.push {orders : SaveOrders} {expected : Descriptor} {content : Bytes}
    (pushed : s.push cd orders expected content = (none, s')) : s'.Sound cd := by
  obtain ⟨valid, fresh, _, nodes, found, stored, rfl, rfl⟩ := Store.push_ok pushed
  -- The graph has no node for a blob that is not stored.
  have other {k : Key} (node : k ∈ s.graph.nodes) : k.digest ≠ expected.digest :=
    fun same => fresh (same ▸ sound.filled k node)
  have whole : Sound cd { s with
      blobs := s.blobs.insert expected.digest content, graph := s.graph.indexNode expected nodes } := by
    have kept : s.graph.Faithful cd fun _ => Storage.fetch (s.blobs.insert expected.digest content) :=
      faithful_of_lookup sound.faithful fun k node => Finmap.lookup_insert_of_ne _ (other node)
    refine ⟨sound.consistent.indexNode (successorsByKey cd _) kept (v := 0) found, kept.indexNode (v := 0) found, ?_, ?_, ?_⟩
    · intro k node
      rcases (s.graph.mem_indexNode_nodes expected nodes).mp node with rfl | old
      · exact Finmap.mem_insert.mpr (.inl rfl)
      · exact Finmap.mem_insert.mpr (.inr (sound.filled k old))
    · intro k node k' node' same
      rcases (s.graph.mem_indexNode_nodes expected nodes).mp node with rfl | old
      · rcases (s.graph.mem_indexNode_nodes expected nodes).mp node' with rfl | old'
        · rfl
        · exact absurd same.symm (other old')
      · rcases (s.graph.mem_indexNode_nodes expected nodes).mp node' with rfl | old'
        · exact absurd same (other old)
        · exact sound.separate k old k' old' same
    · intro d member
      rcases Finmap.mem_insert.mp member with rfl | old
      · exact valid
      · exact sound.valid d old
  split
  · obtain ⟨blobs, graph⟩ := Store.tagInternal_frame (s := { s with
      blobs := s.blobs.insert expected.digest content, graph := s.graph.indexNode expected nodes })
      orders expected expected.digest
    exact whole.of_eq blobs graph
  · exact whole

theorem Sound.deleteNode {orders : DeleteOrders} {target : Descriptor} {danglings : List Descriptor}
    (known : s.Known target) (deleted : s.deleteNode orders target = (.ok danglings, s')) : s'.Sound cd := by
  obtain ⟨_, _, _, rfl⟩ := Store.deleteNode_ok deleted
  rw [Store.forget_eq]
  have other {k : Key} (node : k ∈ (s.graph.remove orders.successors target).1.nodes) :
      k ∈ s.graph.nodes ∧ k.digest ≠ target.digest := by
    obtain ⟨differs, node⟩ := (s.graph.mem_remove_nodes _ _).mp node
    exact ⟨node, fun same => differs (known k node same)⟩
  refine ⟨sound.consistent.remove _ _, ?_, ?_, ?_, ?_⟩
  · exact faithful_of_lookup (sound.faithful.remove _ _) fun k node => Finmap.lookup_erase_ne (other node).2
  · intro k node
    exact Finmap.mem_erase.mpr ⟨(other node).2, sound.filled k (other node).1⟩
  · intro k node k' node' same
    exact sound.separate k (other node).1 k' (other node').1 same
  · intro d member
    exact sound.valid d (Finmap.mem_erase.mp member).2

theorem Sound.opened {sched : Nat → Scheduler cd (Storage.fetch s.layout.blobs)}
    (opened : newWithContext s.layout sched = .ok s') (filled : s'.Filled) (separate : s'.Separate) : s'.Sound cd := by
  simp only [newWithContext, Store.layout] at opened
  split at opened
  · cases opened
  · rename_i resolver graph loaded
    cases opened
    have step (m : Memory) (desc : Descriptor)
        (holds : m.Consistent ∧ m.Faithful cd fun _ => Storage.fetch s.blobs) :
        (m.index cd (Storage.fetch s.blobs) desc).2.Consistent ∧
          (m.index cd (Storage.fetch s.blobs) desc).2.Faithful cd fun _ => Storage.fetch s.blobs := by
      cases read : successors cd (Storage.fetch s.blobs) desc with
      | error err =>
        simp only [Memory.index, read]
        exact holds
      | ok nodes =>
        simp only [Memory.index, read]
        exact ⟨holds.1.indexNode (successorsByKey cd s.blobs) holds.2 (v := 0) read, holds.2.indexNode (v := 0) read⟩
    obtain ⟨consistent, faithful⟩ := loadIndex_invariant step ⟨.empty, .empty cd _⟩ loaded
    exact ⟨consistent, faithful, filled, separate, sound.valid⟩

theorem Sound.predecessor {n k : Key} (edge : n ∈ s.graph.predecessorSet k) :
    n ∈ s.graph.nodes ∧ k ∈ s.graph.successorSet n ∧ ∃ d, s.graph.nodes.lookup n = some d ∧ fromOCI d = n := by
  obtain ⟨d, found⟩ := sound.consistent.predecessor_indexed edge
  exact ⟨Finmap.mem_of_lookup_eq_some found, (sound.consistent.edges n k).mp edge, d, found, sound.faithful.stored n d found⟩

theorem Sound.referrersOf (order : Enumeration Key) (head : Descriptor) :
    ∃ referrers, s.referrersOf cd order head = .ok referrers ∧ (referrers.map fromOCI).Nodup ∧
      ∀ r ∈ referrers, fromOCI r ∈ s.graph.predecessorSet (fromOCI head) ∧
        Registry.Refers cd (Storage.fetch s.blobs) (fromOCI r).plain head := by
  unfold Store.referrersOf
  split
  · rename_i recursive
    have keys : (s.graph.predecessorList order head).map fromOCI = order.list (s.graph.predecessorSet (fromOCI head)) := by
      rw [Memory.predecessorList, List.map_map]
      refine (List.map_congr_left fun k member => ?_).trans (List.map_id _)
      obtain ⟨_, _, d, found, same⟩ := sound.predecessor ((order.mem _ k).mp member)
      rw [Function.comp_apply, found, Option.getD_some, same, id]
    have readable (node : Descriptor) (member : node ∈ s.graph.predecessorList order head) :
        ∃ header, Registry.readHeader cd (Storage.fetch s.blobs) node = .ok header := by
      obtain ⟨k, edge, rfl⟩ := List.mem_map.mp member
      obtain ⟨_, _, d, found, _⟩ := sound.predecessor ((order.mem _ k).mp edge)
      obtain ⟨_, nodes, read, _⟩ := sound.faithful.listed k d found
      rw [found, Option.getD_some]
      exact Registry.readHeader_of_successors read
    obtain ⟨referrers, listed, sub, _⟩ := @Registry.filterReferrers_exact cd (Storage.fetch s.blobs) head "" _ readable
    refine ⟨referrers, ?_, ?_, fun r member => ?_⟩
    · rw [Registry.referrers, if_pos (Bool.and_eq_true_iff.mp recursive).2, listed]
    · rw [keys] at sub
      exact sub.nodup (order.nodup _)
    · have edge := sub.subset (List.mem_map_of_mem member)
      rw [keys, order.mem] at edge
      obtain ⟨node, _, same, refers⟩ := Registry.mem_filterReferrers listed member
      exact ⟨edge, refers.congr same.symm rfl (Storage.fetch_byKey _ _ _ same.symm)⟩
  · exact ⟨[], rfl, List.nodup_nil, fun r impossible => (by cases impossible)⟩

theorem Sound.deleteNode_ok (orders : DeleteOrders) {head : Descriptor} (stored : head.digest ∈ s.blobs) :
    ∃ danglings s', s.deleteNode orders head = (.ok danglings, s') := by
  have removed : Storage.delete s.blobs head = (none, s.blobs.erase head.digest) := by
    rw [Storage.delete, if_neg (by rw [sound.valid _ stored]; decide), if_pos (Finmap.lookup_isSome.mpr stored)]
  rw [Store.deleteNode, removed]
  exact ⟨_, _, rfl⟩

end

end Store

/-- A direct or transitive referrer of the target. -/
def ProperReferrer (cd : Codec) (s : Store) (target : Descriptor) : Key → Prop :=
  Relation.TransGen (fun k r => Registry.Refers cd (Storage.fetch s.blobs) r.plain k.plain) (fromOCI target)

/-- No node lists itself, and the referrers of the target are listed as subjects only, and not by the target. -/
structure Store.Plain (cd : Codec) (s : Store) (target : Descriptor) : Prop where
  loopless : ∀ k ∈ s.graph.nodes, k ∉ s.graph.successorSet k
  referrers : ∀ r, ProperReferrer cd s target r → ∀ p ∈ s.graph.predecessorSet r, p ≠ fromOCI target ∧
    Registry.Refers cd (Storage.fetch s.blobs) p.plain r.plain

/-- A `Delete` that began in `s₀` and has come to `s`: what is still to do is stored, each of it once. -/
structure Course (cd : Codec) (s₀ : Store) (target : Descriptor) (past queue : List Queued) (s : Store) : Prop where
  sound : s.Sound cd
  blobs : ∀ d content, s.blobs.lookup d = some content → s₀.blobs.lookup d = some content
  edges : ∀ n k, k ∈ s.graph.successorSet n → k ∈ s₀.graph.successorSet n
  nodes : ∀ k ∈ s.graph.nodes, k ∈ s₀.graph.nodes
  gone : ∀ q ∈ past, q.2.digest ∉ s.blobs
  stored : ∀ q ∈ queue, q.2.digest ∈ s.blobs
  known : ∀ q ∈ queue, s.Known q.2
  distinct : (queue.map fun q => q.2.digest).Nodup
  first : ∀ q ∈ queue.tail, q.1 ≠ .target
  targets : ∀ q ∈ queue, q.1 = .target → q.2 = target
  referrers : ∀ q ∈ queue, q.1 = .referrer → fromOCI q.2 ∈ s.graph.nodes ∧ ProperReferrer cd s₀ target (fromOCI q.2) ∧
    ∃ p ∈ past, Registry.Refers cd (Storage.fetch s₀.blobs) (fromOCI q.2).plain p.2
  danglings : ∀ q ∈ queue, q.1 = .dangling → fromOCI q.2 ∈ s.graph.nodes ∧ ¬ ProperReferrer cd s₀ target (fromOCI q.2) ∧
    s.graph.predecessorSet (fromOCI q.2) = ∅

section Course
variable {target : Descriptor} {past queue : List Queued} {head : Queued} {referrers danglings : List Descriptor}
  {orders : DeleteOrders}

theorem Course.start (sound : s.Sound cd) (stored : target.digest ∈ s.blobs) (known : s.Known target) :
    Course cd s target [] [(.target, target)] s := by
  have only {q : Queued} (member : q ∈ [(Reason.target, target)]) : q = (.target, target) := List.mem_singleton.mp member
  refine ⟨sound, fun _ _ found => found, fun _ _ edge => edge, fun _ node => node, fun q impossible => ?_,
    fun q member => ?_, fun q member => ?_, List.nodup_singleton _, fun q impossible => ?_, fun q member _ => ?_,
    fun q member why => ?_, fun q member why => ?_⟩
  · cases impossible
  · rw [only member]
    exact stored
  · rw [only member]
    exact known
  · cases impossible
  · rw [only member]
  · rw [only member] at why
    cases why
  · rw [only member] at why
    cases why

theorem Course.refers (course : Course cd s₀ target past queue s) {r : Key} {desc : Descriptor}
    (refers : Registry.Refers cd (Storage.fetch s.blobs) r.plain desc) :
    Registry.Refers cd (Storage.fetch s₀.blobs) r.plain desc := by
  obtain ⟨content, fetched⟩ := refers.fetched
  obtain ⟨_, found⟩ := Storage.fetch_ok fetched
  refine refers.congr rfl rfl ?_
  exact (Storage.fetch_congr ((course.blobs _ _ found).trans found.symm)).symm

section

variable (course : Course cd s₀ target past (head :: queue) s)
include course

theorem Course.waiting_node {q : Queued} (waiting : q ∈ queue) :
    fromOCI q.2 ∈ s.graph.nodes := by
  cases why : q.1 with
  | target => exact absurd why (course.first q waiting)
  | referrer => exact (course.referrers q (List.mem_cons_of_mem _ waiting) why).1
  | dangling => exact (course.danglings q (List.mem_cons_of_mem _ waiting) why).1

/-- What refers to the head of the queue is a referrer of the target, not yet queued. -/
theorem Course.new_referrer (plain : s₀.Plain cd target) {r : Key}
    (edge : r ∈ s.graph.predecessorSet (fromOCI head.2))
    (refers : Registry.Refers cd (Storage.fetch s.blobs) r.plain head.2) :
    r ∈ s.graph.nodes ∧ r ≠ fromOCI head.2 ∧ ProperReferrer cd s₀ target r ∧ ∀ q ∈ queue, fromOCI q.2 ≠ r := by
  obtain ⟨node, lists, _⟩ := course.sound.predecessor edge
  have before := course.refers refers
  have proper : ProperReferrer cd s₀ target r := by
    cases why : head.1 with
    | target =>
      refine .single ?_
      rw [← course.targets head List.mem_cons_self why]
      exact before.congr rfl rfl rfl
    | referrer =>
      obtain ⟨_, proper, _⟩ := course.referrers head List.mem_cons_self why
      exact proper.tail (before.congr rfl rfl rfl)
    | dangling =>
      rw [(course.danglings head List.mem_cons_self why).2.2] at edge
      exact absurd edge (Finset.notMem_empty r)
  refine ⟨node, fun same => ?_, proper, fun q waiting same => ?_⟩
  · subst same
    exact plain.loopless _ (course.nodes _ node) (course.edges _ _ lists)
  · cases why : q.1 with
    | target => exact course.first q waiting why
    | referrer =>
      -- It refers to a node that is gone, and to the head, which is stored.
      obtain ⟨_, _, p, removed, subject⟩ := course.referrers q (List.mem_cons_of_mem _ waiting) why
      rw [same] at subject
      have digest : p.2.digest = head.2.digest := congrArg Key.digest (subject.unique before)
      exact course.gone p removed (digest ▸ course.stored head List.mem_cons_self)
    | dangling => exact (course.danglings q (List.mem_cons_of_mem _ waiting) why).2.1 (same ▸ proper)

/-- What the removal of the head leaves dangling is not a referrer of the target, and not yet queued. -/
theorem Course.new_dangling (consistent : s₀.graph.Consistent) (plain : s₀.Plain cd target) {d : Descriptor}
    (dangling : d ∈ (s.graph.remove orders.successors head.2).2) :
    fromOCI d ∈ s.graph.nodes ∧ fromOCI d ≠ fromOCI head.2 ∧ ¬ ProperReferrer cd s₀ target (fromOCI d) ∧
      (s.graph.remove orders.successors head.2).1.predecessorSet (fromOCI d) = ∅ ∧ ∀ q ∈ queue, fromOCI q.2 ≠ fromOCI d := by
  obtain ⟨k, edge, alone, found⟩ := (s.graph.mem_remove_danglings _ head.2).mp dangling
  cases course.sound.faithful.stored k d found
  have node : fromOCI d ∈ s.graph.nodes := Finmap.mem_of_lookup_eq_some found
  have points := (course.sound.consistent.edges _ _).mpr edge
  have before : fromOCI head.2 ∈ s.graph.nodes := (course.sound.predecessor points).1
  have improper : ¬ ProperReferrer cd s₀ target (fromOCI d) := by
    intro proper
    obtain ⟨other, refers⟩ := plain.referrers _ proper _ ((consistent.edges _ _).mpr (course.edges _ _ edge))
    cases why : head.1 with
    | target => exact other (congrArg fromOCI (course.targets head List.mem_cons_self why))
    | referrer =>
      -- Its subject is gone, but this node is stored.
      obtain ⟨_, _, p, removed, subject⟩ := course.referrers head List.mem_cons_self why
      have digest : p.2.digest = d.digest := congrArg Key.digest (subject.unique refers)
      exact course.gone p removed (digest ▸ course.sound.filled _ node)
    | dangling => exact (course.danglings head List.mem_cons_self why).2.1 (proper.tail refers)
  refine ⟨node, fun same => ?_, improper, ?_, fun q waiting same => ?_⟩
  · rw [same] at edge
    exact plain.loopless _ (course.nodes _ before) (course.edges _ _ edge)
  · rw [Memory.remove_predecessorSet, if_pos edge, alone]
  · cases why : q.1 with
    | target => exact course.first q waiting why
    | referrer => exact improper (same ▸ (course.referrers q (List.mem_cons_of_mem _ waiting) why).2.1)
    | dangling =>
      rw [← same, (course.danglings q (List.mem_cons_of_mem _ waiting) why).2.2] at points
      exact absurd points (Finset.notMem_empty _)

end

theorem digests_nodup (separate : s.Separate) {queue : List Queued} (nodup : (queue.map fun q => fromOCI q.2).Nodup)
    (nodes : ∀ q ∈ queue, fromOCI q.2 ∈ s.graph.nodes) : (queue.map fun q => q.2.digest).Nodup := by
  induction queue with
  | nil => exact List.nodup_nil
  | cons q queue ih =>
    obtain ⟨fresh, rest⟩ := List.nodup_cons.mp nodup
    refine List.nodup_cons.mpr ⟨fun member => fresh ?_, ih rest fun p member => nodes p (List.mem_cons_of_mem _ member)⟩
    obtain ⟨p, member, same⟩ := List.mem_map.mp member
    have key := separate _ (nodes p (List.mem_cons_of_mem _ member)) _ (nodes q List.mem_cons_self) same
    exact List.mem_map.mpr ⟨p, member, key⟩

theorem Store.Sound.node_known (sound : s.Sound cd) {desc : Descriptor} (node : fromOCI desc ∈ s.graph.nodes) :
    desc.digest ∈ s.blobs ∧ s.Known desc :=
  ⟨sound.filled _ node, fun k member same => sound.separate k member _ node same⟩

theorem Course.keys_nodup (course : Course cd s₀ target past (head :: queue) s) (consistent : s₀.graph.Consistent)
    (plain : s₀.Plain cd target) (nodup : (referrers.map fromOCI).Nodup)
    (refer : ∀ r ∈ referrers, fromOCI r ∈ s.graph.predecessorSet (fromOCI head.2) ∧
      Registry.Refers cd (Storage.fetch s.blobs) (fromOCI r).plain head.2) :
    ((s'.nextQueue queue referrers (s.graph.remove orders.successors head.2).2).map fun q => fromOCI q.2).Nodup := by
  have waiting : (queue.map fun q => fromOCI q.2).Nodup := by
    have digests := (List.nodup_cons.mp course.distinct).2
    refine List.Nodup.of_map Key.digest ?_
    rw [List.map_map]
    exact digests
  have dangling : ((s.graph.remove orders.successors head.2).2.map fromOCI).Nodup :=
    (s.graph.remove_danglings_sublist _ _ course.sound.faithful.stored).nodup (orders.successors.nodup _)
  have untagged : ((if s'.autoGC then (s.graph.remove orders.successors head.2).2.filter fun d => !s'.isTagged d
      else []).map fromOCI).Nodup := by
    split
    · exact (List.filter_sublist.map fromOCI).nodup dangling
    · exact List.nodup_nil
  have found {k : Key} (member : k ∈ (if s'.autoGC then
      (s.graph.remove orders.successors head.2).2.filter fun d => !s'.isTagged d else []).map fromOCI) :
      ∃ d ∈ (s.graph.remove orders.successors head.2).2, fromOCI d = k := by
    obtain ⟨d, member, same⟩ := List.mem_map.mp member
    split at member
    · exact ⟨d, (List.mem_filter.mp member).1, same⟩
    · cases member
  simp only [Store.nextQueue, List.map_append, List.map_map, Function.comp_def]
  refine List.nodup_append.mpr ⟨List.nodup_append.mpr ⟨waiting, nodup, ?_⟩, untagged, ?_⟩
  · rintro a inQueue b isReferrer rfl
    obtain ⟨q, member, same⟩ := List.mem_map.mp inQueue
    obtain ⟨r, listed, same'⟩ := List.mem_map.mp isReferrer
    obtain ⟨_, _, _, unqueued⟩ := course.new_referrer plain (refer r listed).1 (refer r listed).2
    exact unqueued q member (same.trans same'.symm)
  · rintro a before b isDangling rfl
    obtain ⟨d, listed, same⟩ := found isDangling
    obtain ⟨_, _, improper, _, unqueued⟩ := course.new_dangling consistent plain listed
    rcases List.mem_append.mp before with inQueue | isReferrer
    · obtain ⟨q, member, same'⟩ := List.mem_map.mp inQueue
      exact unqueued q member (same'.trans same.symm)
    · obtain ⟨r, listed', same'⟩ := List.mem_map.mp isReferrer
      obtain ⟨_, _, proper, _⟩ := course.new_referrer plain (refer r listed').1 (refer r listed').2
      exact improper (same.trans same'.symm ▸ proper)

theorem Course.round (course : Course cd s₀ target past (head :: queue) s) (consistent : s₀.graph.Consistent)
    (plain : s₀.Plain cd target) (listed : s.referrersOf cd orders.predecessors head.2 = .ok referrers)
    (deleted : s.deleteNode orders head.2 = (.ok danglings, s')) :
    Course cd s₀ target (past ++ [head]) (s'.nextQueue queue referrers danglings) s' := by
  obtain ⟨referrers', listed', nodup, refer⟩ := course.sound.referrersOf orders.predecessors head.2
  cases Except.ok.inj (listed.symm.trans listed')
  have sound := course.sound.deleteNode (course.known head List.mem_cons_self) deleted
  obtain ⟨_, _, rfl, same⟩ := Store.deleteNode_ok deleted
  have graph : s'.graph = (s.graph.remove orders.successors head.2).1 := by rw [same, Store.forget_eq]
  have blobs : s'.blobs = s.blobs.erase head.2.digest := by rw [same]
  have stays {k : Key} (node : k ∈ s.graph.nodes) (other : k ≠ fromOCI head.2) : k ∈ s'.graph.nodes := by
    rw [graph]
    exact (s.graph.mem_remove_nodes _ _).mpr ⟨other, node⟩
  have waits {q : Queued} (waiting : q ∈ queue) : fromOCI q.2 ∈ s'.graph.nodes := by
    refine stays (course.waiting_node waiting) fun equal => ?_
    refine (List.nodup_cons.mp course.distinct).1 (List.mem_map.mpr ⟨q, waiting, ?_⟩)
    exact congrArg Key.digest equal
  have nodes {q : Queued} (member : q ∈ s'.nextQueue queue referrers (s.graph.remove orders.successors head.2).2) :
      fromOCI q.2 ∈ s'.graph.nodes := by
    rcases mem_nextQueue member with waiting | ⟨_, referrer⟩ | ⟨_, dangling, _⟩
    · exact waits waiting
    · obtain ⟨node, other, _⟩ := course.new_referrer plain (refer _ referrer).1 (refer _ referrer).2
      exact stays node other
    · obtain ⟨node, other, _⟩ := course.new_dangling consistent plain dangling
      exact stays node other
  have untargeted {q : Queued} (member : q ∈ s'.nextQueue queue referrers (s.graph.remove orders.successors head.2).2) :
      q.1 ≠ .target := by
    intro why
    rcases mem_nextQueue member with waiting | ⟨other, _⟩ | ⟨other, _⟩
    · exact course.first q waiting why
    · cases why.symm.trans other
    · cases why.symm.trans other
  have digests : ((s'.nextQueue queue referrers (s.graph.remove orders.successors head.2).2).map
      fun q => q.2.digest).Nodup :=
    digests_nodup sound.separate (course.keys_nodup consistent plain nodup refer) fun q member => nodes member
  refine ⟨sound, fun d content found => ?_, fun n k edge => ?_, fun k node => ?_, fun q member => ?_,
    fun q member => (sound.node_known (nodes member)).1, fun q member => (sound.node_known (nodes member)).2, digests,
    fun q member => untargeted (List.mem_of_mem_tail member), fun q member why => absurd why (untargeted member),
    fun q member why => ?_, fun q member why => ?_⟩
  · rw [blobs] at found
    by_cases gone : d = head.2.digest
    · subst gone
      rw [Finmap.lookup_erase] at found
      cases found
    · rw [Finmap.lookup_erase_ne gone] at found
      exact course.blobs d content found
  · rw [graph, Memory.remove_successorSet] at edge
    split at edge
    · exact absurd edge (Finset.notMem_empty k)
    · exact course.edges n k edge
  · rw [graph, Memory.mem_remove_nodes] at node
    exact course.nodes k node.2
  · rw [blobs]
    rcases List.mem_append.mp member with old | new
    · exact fun stored => course.gone q old (Finmap.mem_erase.mp stored).2
    · rw [List.mem_singleton.mp new]
      exact fun stored => (Finmap.mem_erase.mp stored).1 rfl
  · refine ⟨nodes member, ?_⟩
    rcases mem_nextQueue member with waiting | ⟨_, referrer⟩ | ⟨other, _⟩
    · obtain ⟨_, proper, p, removed, refers⟩ := course.referrers q (List.mem_cons_of_mem _ waiting) why
      exact ⟨proper, p, List.mem_append_left _ removed, refers⟩
    · obtain ⟨_, _, proper, _⟩ := course.new_referrer plain (refer _ referrer).1 (refer _ referrer).2
      exact ⟨proper, head, List.mem_append_right _ (List.mem_singleton_self head), course.refers (refer _ referrer).2⟩
    · cases why.symm.trans other
  · refine ⟨nodes member, ?_⟩
    rcases mem_nextQueue member with waiting | ⟨other, _⟩ | ⟨_, dangling, _⟩
    · obtain ⟨_, improper, unreferenced⟩ := course.danglings q (List.mem_cons_of_mem _ waiting) why
      refine ⟨improper, ?_⟩
      rw [graph, Memory.remove_predecessorSet, unreferenced, Finset.erase_empty, ite_self]
    · cases why.symm.trans other
    · obtain ⟨_, _, improper, unreferenced, _⟩ := course.new_dangling consistent plain dangling
      rw [graph]
      exact ⟨improper, unreferenced⟩

/-- No round of such a `Delete` comes to an error. -/
theorem Course.walk {err : Option Error} (course : Course cd s₀ target past queue s)
    (consistent : s₀.graph.Consistent) (plain : s₀.Plain cd target) (walk : Walk cd queue s err s') :
    err = none := by
  induction walk generalizing past with
  | done s => rfl
  | unlisted orders failed =>
    obtain ⟨referrers, listed, _⟩ := course.sound.referrersOf orders.predecessors _
    cases failed.symm.trans listed
  | kept orders _ failed =>
    obtain ⟨danglings, s', deleted⟩ := course.sound.deleteNode_ok orders (course.stored _ List.mem_cons_self)
    cases congrArg Prod.fst (failed.symm.trans deleted)
  | round orders listed deleted _ ih => exact ih (course.round consistent plain listed deleted)

end Course

/-- The rounds of a `Delete` that returns nil keep a state sound, if its target is known by its descriptor. -/
theorem Store.Sound.deletes {queue : List Descriptor} (sound : s.Sound cd) (known : ∀ desc ∈ queue, s.Known desc)
    (deleted : Deletes cd queue s s') : s'.Sound cd := by
  induction deleted with
  | done s => exact sound
  | @round head queue referrers danglings s s₁ s' orders listed removed _ ih =>
    refine ih (sound.deleteNode (known head List.mem_cons_self) removed) fun desc member => ?_
    obtain ⟨referrers', listed', _, refer⟩ := sound.referrersOf orders.predecessors head
    cases Except.ok.inj (listed.symm.trans listed')
    obtain ⟨_, _, rfl, same⟩ := Store.deleteNode_ok removed
    have before : s.Known desc := by
      rcases List.mem_append.mp member with old | new
      · rcases List.mem_append.mp old with waiting | referrer
        · exact known desc (List.mem_cons_of_mem _ waiting)
        · exact (sound.node_known (sound.predecessor (refer desc referrer).1).1).2
      · split at new
        · obtain ⟨k, _, _, found⟩ := (s.graph.mem_remove_danglings _ head).mp (List.mem_filter.mp new).1
          cases sound.faithful.stored k desc found
          exact (sound.node_known (Finmap.mem_of_lookup_eq_some found)).2
        · cases new
    intro k node digest
    rw [same, Store.forget_eq] at node
    exact before k ((s.graph.mem_remove_nodes _ _).mp node).2 digest

/-- The states reached from an empty directory by calls that all return nil and by opening the
directory again, each call allowed where it is made and each opened state admitted. -/
inductive History (cd : Codec) (allowed : Operation → Store → Prop) (admitted : Store → Prop) : Store → Prop
  | start : History cd allowed admitted {}
  | call {op : Operation} {s s' : Store} : History cd allowed admitted s → allowed op s → Does cd op s s' →
      History cd allowed admitted s'
  | reopen {s s' : Store} {sched : Nat → Scheduler cd (Storage.fetch s.layout.blobs)} : History cd allowed admitted s →
      newWithContext s.layout sched = .ok s' → admitted s' → History cd allowed admitted s'

theorem History.push {allowed : Operation → Store → Prop} {admitted : Store → Prop} {expected : Descriptor}
    {content : Bytes} {orders : SaveOrders} (history : History cd allowed admitted s)
    (ok : allowed (.push expected content) s) (nil : (s.push cd orders expected content).1 = none) :
    History cd allowed admitted (s.push cd orders expected content).2 :=
  history.call ok (.push orders (Prod.ext nil rfl))

/-- A `Delete` gives the descriptor under which the graph knows its target, and there is no `GC`. -/
def Operation.KeepsSound (op : Operation) (s : Store) : Prop := op.WithoutGC ∧ ∀ target, op = .delete target → s.Known target

theorem History.sound (history : History cd Operation.KeepsSound (fun s => s.Filled ∧ s.Separate) s) : s.Sound cd := by
  induction history with
  | start => exact Store.sound_empty
  | call _ ok does ih =>
    cases does with
    | push orders pushed => exact ih.push pushed
    | tag orders tagged =>
      obtain ⟨_, _, _, rfl⟩ := Store.tag_ok tagged
      obtain ⟨blobs, graph⟩ := Store.tagInternal_frame orders _ _
      exact ih.of_eq blobs graph
    | untag orders untagged =>
      obtain ⟨resolver, _, rfl⟩ := Store.untag_ok untagged
      exact ih.of_eq rfl rfl
    | @delete s s' target orders deleted =>
      refine ih.deletes (fun desc member => ?_) (delete_ok deleted)
      cases List.mem_singleton.mp member
      exact ok.2 _ rfl
    | gc => exact absurd rfl ok.1
    | configure s autoSaveIndex autoGC => exact ih.of_eq rfl rfl
  | reopen _ opened admitted ih => exact ih.opened opened admitted.1 admitted.2

/-- `Delete` returns nil, whatever the orders of its iterations, in every state reached by calls that keep
it sound, if the graph knows the target by its descriptor and the referrers of it are nothing else. -/
theorem delete_completes (history : History cd Operation.KeepsSound (fun s => s.Filled ∧ s.Separate) s)
    {target : Descriptor} (stored : target.digest ∈ s.blobs) (known : s.Known target) (plain : s.Plain cd target)
    (orders : Nat → DeleteOrders) : ∃ s', s.delete cd orders target = some (none, s') := by
  obtain ⟨⟨err, s'⟩, deleted⟩ := Option.isSome_iff_exists.mp (@delete_isSome cd s orders target)
  have sound := history.sound
  cases (Course.start sound stored known).walk sound.consistent plain (delete_walk deleted)
  exact ⟨s', deleted⟩

end OrasGo.Oci

namespace OrasGo.Sample
open Oci Graph

noncomputable def sched (s : Store) (_ : Nat) : Scheduler codec (Storage.fetch s.layout.blobs) :=
  .roundRobin 30 (Storage.fetch_byKey _) (Storage.fetch_finite _ _)

/-- The store that is opened again on the directory of this one. -/
noncomputable def reopened (s : Store) : Store :=
  match newWithContext s.layout (sched s) with
  | .ok s' => s'
  | .error _ => s

theorem reopened_ok {s : Store} (opens : (newWithContext s.layout (sched s)).isOk = true) :
    newWithContext s.layout (sched s) = .ok (reopened s) := by
  unfold reopened
  split
  · assumption
  · rename_i failed
    rw [failed] at opens
    cases opens

end OrasGo.Sample

namespace OrasGo.Oci
open Graph

set_option maxRecDepth 10000

namespace Whole
open Sample

noncomputable def configured : Store := (({} : Store).push codec orders emptyConfig configBytes).2

noncomputable def pushed : Store := (configured.push codec orders artifact artifactBytes).2

/-- An artifact and its configuration, opened again. -/
noncomputable def store : Store := reopened pushed

theorem store_complete : (({} : Store).push codec orders emptyConfig configBytes).1 = none ∧
    (configured.push codec orders artifact artifactBytes).1 = none ∧
    (newWithContext pushed.layout (sched pushed)).isOk = true ∧
    store.graph.nodes.keys = {fromOCI artifact, fromOCI emptyConfig} ∧
    store.blobs.keys = {artifact.digest, emptyConfig.digest} ∧
    (∀ d ∈ store.blobs.keys, store.blobs.lookup d ≠ some referrerBytes) ∧
    store.graph.successorSet (fromOCI artifact) = {fromOCI emptyConfig} ∧
    store.graph.successorSet (fromOCI emptyConfig) = ∅ := by
  decide +kernel

end Whole

namespace Hollow
open Sample

/-- An image whose configuration was never pushed. -/
noncomputable def pushed : Store := (({} : Store).push codec orders image imageBytes).2

noncomputable def store : Store := reopened pushed

theorem delete_fails : (({} : Store).push codec orders image imageBytes).1 = none ∧
    (newWithContext pushed.layout (sched pushed)).isOk = true ∧ store.autoGC = true ∧
    image.digest ∈ store.blobs ∧ config.digest ∉ store.blobs ∧
    (store.delete codec deleteOrders image).map Prod.fst = some (some (.wrap (Storage.describe config) .notFound)) := by
  decide +kernel

end Hollow

theorem delete_completes_artifact :
    History Sample.codec Operation.KeepsSound (fun s => s.Filled ∧ s.Separate) Whole.store ∧
    Sample.artifact.digest ∈ Whole.store.blobs ∧ Whole.store.Known Sample.artifact ∧
    ∃ s', Whole.store.delete Sample.codec Sample.deleteOrders Sample.artifact = some (none, s') := by
  obtain ⟨first, second, opens, nodes, blobs, others, edges, leaf⟩ := Whole.store_complete
  have history (fine : Whole.store.Filled ∧ Whole.store.Separate) :
      History Sample.codec Operation.KeepsSound (fun s => s.Filled ∧ s.Separate) Whole.store :=
    .reopen ((History.start.push ⟨nofun, nofun⟩ first).push ⟨nofun, nofun⟩ second) (Sample.reopened_ok opens) fine
  -- From here on only these facts about the store count.
  clear first second opens
  generalize Whole.store = store at *
  have node {k : Key} (member : k ∈ store.graph.nodes) : k = fromOCI Sample.artifact ∨ k = fromOCI Sample.emptyConfig := by
    rw [← Finmap.mem_keys, nodes] at member
    exact (Finset.mem_insert.mp member).imp id Finset.mem_singleton.mp
  have stored {d : Digest} (listed : d ∈ ({Sample.artifact.digest, Sample.emptyConfig.digest} : Finset Digest)) :
      d ∈ store.blobs := by
    rwa [← Finmap.mem_keys, blobs]
  have filled : store.Filled := by
    intro k member
    rcases node member with rfl | rfl
    · exact stored (by decide)
    · exact stored (by decide)
  have separate : store.Separate := by
    intro k member k' member' same
    rcases node member with rfl | rfl <;> rcases node member' with rfl | rfl
    · rfl
    · exact absurd same (by decide)
    · exact absurd same (by decide)
    · rfl
  have inside : Sample.artifact.digest ∈ store.blobs := stored (by decide)
  have known : store.Known Sample.artifact := by
    intro k member same
    rcases node member with rfl | rfl
    · rfl
    · exact absurd same (by decide)
  have plain : store.Plain Sample.codec Sample.artifact := by
    refine ⟨fun k member => ?_, fun r proper => ?_⟩
    · rcases node member with rfl | rfl
      · rw [edges]
        decide
      · rw [leaf]
        exact Finset.notMem_empty _
    · -- Nothing that is stored has a subject.
      obtain ⟨_, _, refers⟩ := Relation.TransGen.tail'_iff.mp proper
      obtain ⟨_, found⟩ := Storage.fetch_ok (Shared.referrer_fetched refers)
      exact absurd found (others _ (Finmap.mem_keys.mpr (Finmap.mem_of_lookup_eq_some found)))
  have history := history ⟨filled, separate⟩
  exact ⟨history, inside, known, delete_completes history inside known plain Sample.deleteOrders⟩

/-- After reopening, the graph has a node for a configuration that was never stored, and `Delete` of its
image tries to remove it. -/
theorem delete_stops :
    History Sample.codec (fun op _ => op.WithoutGC) (fun _ => True) Hollow.store ∧ Hollow.store.autoGC = true ∧
    Sample.image.digest ∈ Hollow.store.blobs ∧ Sample.config.digest ∉ Hollow.store.blobs ∧
    (Hollow.store.delete Sample.codec Sample.deleteOrders Sample.image).map Prod.fst =
      some (some (.wrap (Storage.describe Sample.config) .notFound)) := by
  obtain ⟨first, opens, collects, stored, missing, stops⟩ := Hollow.delete_fails
  exact ⟨.reopen (History.start.push nofun first) (Sample.reopened_ok opens) trivial, collects, stored, missing, stops⟩

end OrasGo.Oci
