import OrasGo.Oci.Calls

/-! What `Delete` removes beside its target: the referrers, and the successors
that nothing in the graph points to any more. -/

namespace OrasGo.Oci
open Graph Iteration
variable {cd : Codec} {s s' s₀ : Store}

set_option maxRecDepth 10000

/-- The graph of a store agrees with itself and with the blobs: each stored blob
was indexed under some key, with the successors that its content has. -/
structure Store.Consistent (cd : Codec) (s : Store) : Prop where
  keyed : ∀ k desc, s.graph.nodes.lookup k = some desc → fromOCI desc = k
  linked : ∀ n k, k ∈ s.graph.successorSet n → n ∈ s.graph.predecessorSet k
  indexed : ∀ d ∈ s.blobs, ∃ k ∈ s.graph.nodes, k.digest = d ∧
    ∃ nodes, successors cd (Storage.fetch s.blobs) k.plain = .ok nodes ∧
      s.graph.successorSet k = (nodes.map fromOCI).toFinset

theorem successors_of_lookup {blobs blobs' : Blobs} {desc : Descriptor}
    (same : blobs'.lookup desc.digest = blobs.lookup desc.digest) :
    successors cd (Storage.fetch blobs') desc = successors cd (Storage.fetch blobs) desc :=
  successors_congr rfl (Storage.fetch_congr same)

theorem Store.Consistent.of_eq (consistent : s.Consistent cd) (blobs : s'.blobs = s.blobs)
    (graph : s'.graph = s.graph) : s'.Consistent cd := by
  obtain ⟨keyed, linked, indexed⟩ := consistent
  refine ⟨?_, ?_, ?_⟩
  · rw [graph]
    exact keyed
  · rw [graph]
    exact linked
  · rw [graph, blobs]
    exact indexed

theorem Store.tagInternal_frame (orders : SaveOrders) (desc : Descriptor) (reference : String) :
    (s.tagInternal orders desc reference).blobs = s.blobs ∧
      (s.tagInternal orders desc reference).graph = s.graph := by
  obtain ⟨resolver, _, same⟩ := s.tagInternal_eq orders desc reference
  rw [same]
  exact ⟨rfl, rfl⟩

theorem Store.Consistent.push {orders : SaveOrders} {expected : Descriptor} {content : Bytes}
    (consistent : s.Consistent cd) (pushed : s.push cd orders expected content = (none, s')) :
    s'.Consistent cd := by
  obtain ⟨_, fresh, _, nodes, found, stored, rfl, rfl⟩ := Store.push_ok pushed
  have whole : Store.Consistent cd { s with
      blobs := s.blobs.insert expected.digest content, graph := s.graph.indexNode expected nodes } := by
    refine ⟨fun k desc atK => ?_, fun n k member => ?_, fun d member => ?_⟩
    · obtain ⟨rfl, rfl⟩ | ⟨_, atK⟩ := Interleaving.lookup_insert_cases atK
      · rfl
      · exact consistent.keyed k desc atK
    · rw [Memory.mem_indexNode_predecessorSet]
      rw [Memory.indexNode_successorSet] at member
      split at member
      · exact .inr ⟨‹_›, List.mem_toFinset.mp member⟩
      · exact .inl (consistent.linked n k member)
    · by_cases same : d = expected.digest
      · subst same
        refine ⟨fromOCI expected, (s.graph.mem_indexNode_nodes expected nodes).mpr (.inl rfl), rfl, nodes, ?_, ?_⟩
        · rw [successors_plain (Storage.fetch_byKey _)]
          exact found
        · rw [Memory.indexNode_successorSet, if_pos rfl]
      · obtain ⟨k, node, rfl, nodes', read, set⟩ :=
          consistent.indexed d ((Finmap.mem_insert.mp member).resolve_left same)
        have other : k ≠ fromOCI expected := fun impossible => same (congrArg Key.digest impossible)
        refine ⟨k, (s.graph.mem_indexNode_nodes expected nodes).mpr (.inr node), rfl, nodes', ?_, ?_⟩
        · rw [← read]
          exact successors_of_lookup (Finmap.lookup_insert_of_ne _ same)
        · rw [Memory.indexNode_successorSet, if_neg other, set]
  split
  · obtain ⟨blobs, graph⟩ := Store.tagInternal_frame (s := { s with
      blobs := s.blobs.insert expected.digest content, graph := s.graph.indexNode expected nodes })
      orders expected expected.digest
    exact whole.of_eq blobs graph
  · exact whole

theorem Store.Consistent.deleteNode {orders : DeleteOrders} {target : Descriptor} {danglings : List Descriptor}
    (consistent : s.Consistent cd) (deleted : s.deleteNode orders target = (.ok danglings, s')) :
    s'.Consistent cd := by
  obtain ⟨_, _, _, rfl⟩ := Store.deleteNode_ok deleted
  rw [Store.forget_eq]
  refine ⟨fun k desc atK => ?_, fun n k member => ?_, fun d member => ?_⟩
  · simp only [Memory.remove] at atK
    by_cases same : k = fromOCI target
    · subst same
      rw [Finmap.lookup_erase] at atK
      cases atK
    · rw [Finmap.lookup_erase_ne same] at atK
      exact consistent.keyed k desc atK
  · simp only [Memory.remove_successorSet, Memory.remove_predecessorSet] at member ⊢
    split at member
    · cases member
    · have before := consistent.linked n k member
      split
      · exact Finset.mem_erase.mpr ⟨‹_›, before⟩
      · exact before
  · obtain ⟨other, stored⟩ := Finmap.mem_erase.mp member
    obtain ⟨k, node, rfl, nodes, read, set⟩ := consistent.indexed d stored
    have differs : k ≠ fromOCI target := fun impossible => other (congrArg Key.digest impossible)
    refine ⟨k, (s.graph.mem_remove_nodes _ target).mpr ⟨differs, node⟩, rfl, nodes, ?_, ?_⟩
    · rw [← read]
      exact successors_of_lookup (Finmap.lookup_erase_ne other)
    · rw [Memory.remove_successorSet, if_neg differs, set]

theorem Store.Consistent.deletes {queue : List Descriptor} (consistent : s.Consistent cd)
    (deleted : Deletes cd queue s s') : s'.Consistent cd := by
  induction deleted with
  | done s => exact consistent
  | round orders _ removed _ ih => exact ih (consistent.deleteNode removed)

/-- Pushing, tagging, untagging and deleting. -/
def Operation.WithoutGC (op : Operation) : Prop := op ≠ .gc

theorem Run.consistent {allowed : Operation → Store → Prop} (without : ∀ op s, allowed op s → op.WithoutGC)
    (run : Run cd allowed s) : s.Consistent cd := by
  induction run with
  | start =>
    refine ⟨fun k desc impossible => ?_, fun n k impossible => ?_, fun d impossible => ?_⟩
    · cases impossible
    · cases impossible
    · exact absurd impossible Finmap.notMem_empty
  | call _ ok does ih =>
    cases does with
    | push orders pushed => exact ih.push pushed
    | tag orders tagged =>
      obtain ⟨_, _, _, rfl⟩ := Store.tag_ok tagged
      obtain ⟨blobs, graph⟩ := Store.tagInternal_frame orders _ _
      exact ih.of_eq blobs graph
    | untag orders untagged =>
      obtain ⟨resolver, _, rfl⟩ := Store.untag_ok untagged
      exact ih.of_eq rfl rfl
    | delete orders deleted => exact ih.deletes (delete_ok deleted)
    | gc => exact absurd rfl (without _ _ ok)
    | configure s autoSaveIndex autoGC => exact ih.of_eq rfl rfl

/-- The target of a `Delete` and its referrers, direct or transitive. -/
def ReferrerClosure (cd : Codec) (s : Store) (target : Descriptor) : Key → Prop :=
  Relation.ReflTransGen (fun k r => Registry.Refers cd (Storage.fetch s.blobs) r.plain k.plain) (fromOCI target)

/-- Why `Delete` removes a node: it is the target or one of its referrers, or a
node that nothing points to any more. -/
def Cause (cd : Codec) (s₀ : Store) (target : Descriptor) (s : Store) (k : Key) : Prop :=
  ReferrerClosure cd s₀ target k ∨ k ∈ s₀.graph.nodes ∧ s.graph.predecessorSet k = ∅

/-- A `Delete` that began in `s₀` and has come to `s`, with a queue still to do. -/
structure Deleting (cd : Codec) (s₀ : Store) (target : Descriptor) (queue : List Descriptor) (s : Store) : Prop where
  consistent : s.Consistent cd
  blobs : ∀ d content, s.blobs.lookup d = some content → s₀.blobs.lookup d = some content
  nodes : ∀ k ∈ s.graph.nodes, k ∈ s₀.graph.nodes
  successors : ∀ k, k.digest ∈ s.blobs → s.graph.successorSet k = s₀.graph.successorSet k
  queued : ∀ desc ∈ queue, Cause cd s₀ target s (fromOCI desc)
  removed : ∀ d ∈ s₀.blobs, d ∉ s.blobs → ∃ k, k.digest = d ∧ Cause cd s₀ target s k

section Round
variable {target head : Descriptor} {queue referrers danglings : List Descriptor} {orders : DeleteOrders}

theorem Cause.round {k : Key} (cause : Cause cd s₀ target s k)
    (graph : s'.graph = (s.graph.remove orders.successors head).1) : Cause cd s₀ target s' k := by
  refine cause.imp id fun unreferenced => ⟨unreferenced.1, ?_⟩
  rw [graph, Memory.remove_predecessorSet, unreferenced.2, Finset.erase_empty, ite_self]

section

variable (deleting : Deleting cd s₀ target (head :: queue) s)
include deleting

theorem Deleting.referrer_closure (listed : s.referrersOf cd orders.predecessors head = .ok referrers)
    {r : Descriptor} (member : r ∈ referrers) :
    ReferrerClosure cd s₀ target (fromOCI r) := by
  obtain ⟨_, _, k, node, predecessor, _, same, refers⟩ := Store.referrersOf_node listed member
  rcases deleting.queued head List.mem_cons_self with closure | ⟨_, unreferenced⟩
  · refine closure.tail ?_
    obtain ⟨content, fetched⟩ := refers.fetched
    obtain ⟨_, stored⟩ := Storage.fetch_ok fetched
    have kept := deleting.blobs _ _ stored
    refine refers.congr same.symm rfl ?_
    rw [← Storage.fetch_congr (kept.trans stored.symm)]
    exact Storage.fetch_byKey _ _ _ same.symm
  · rw [unreferenced] at predecessor
    exact absurd predecessor (Finset.notMem_empty k)

theorem Deleting.dangling_cause (graph : s'.graph = (s.graph.remove orders.successors head).1) {d : Descriptor}
    (member : d ∈ (s.graph.remove orders.successors head).2) :
    Cause cd s₀ target s' (fromOCI d) := by
  obtain ⟨k, successor, alone, found⟩ := (s.graph.mem_remove_danglings _ head).mp member
  cases deleting.consistent.keyed k d found
  refine .inr ⟨deleting.nodes _ (Finmap.mem_of_lookup_eq_some found), ?_⟩
  rw [graph, Memory.remove_predecessorSet, if_pos successor, alone]

theorem Deleting.round (listed : s.referrersOf cd orders.predecessors head = .ok referrers)
    (deleted : s.deleteNode orders head = (.ok danglings, s')) :
    Deleting cd s₀ target (queue ++ referrers ++
      if s'.autoGC then danglings.filter fun d => !s'.isTagged d else []) s' := by
  have consistent := deleting.consistent.deleteNode deleted
  obtain ⟨_, _, rfl, same⟩ := Store.deleteNode_ok deleted
  have graph : s'.graph = (s.graph.remove orders.successors head).1 := by rw [same, Store.forget_eq]
  have blobs : s'.blobs = s.blobs.erase head.digest := by rw [same]
  refine ⟨consistent, ?_, ?_, ?_, ?_, ?_⟩
  · intro d content found
    rw [blobs] at found
    by_cases gone : d = head.digest
    · subst gone
      rw [Finmap.lookup_erase] at found
      cases found
    · rw [Finmap.lookup_erase_ne gone] at found
      exact deleting.blobs d content found
  · intro k member
    rw [graph, Memory.mem_remove_nodes] at member
    exact deleting.nodes k member.2
  · intro k stored
    rw [blobs, Finmap.mem_erase] at stored
    have other : k ≠ fromOCI head := fun impossible => stored.1 (congrArg Key.digest impossible)
    rw [graph, Memory.remove_successorSet, if_neg other]
    exact deleting.successors k stored.2
  · intro desc member
    rcases List.mem_append.mp member with old | new
    · rcases List.mem_append.mp old with waiting | referrer
      · exact (deleting.queued desc (List.mem_cons_of_mem _ waiting)).round graph
      · exact .inl (deleting.referrer_closure listed referrer)
    · split at new
      · exact deleting.dangling_cause graph (List.mem_filter.mp new).1
      · cases new
  · intro d before gone
    by_cases here : d ∈ s.blobs
    · refine ⟨fromOCI head, ?_, (deleting.queued head List.mem_cons_self).round graph⟩
      by_contra other
      rw [blobs, Finmap.mem_erase] at gone
      exact gone ⟨fun impossible => other impossible.symm, here⟩
    · obtain ⟨k, digest, cause⟩ := deleting.removed d before here
      exact ⟨k, digest, cause.round graph⟩

end

theorem Deleting.run (deleting : Deleting cd s₀ target queue s) (deleted : Deletes cd queue s s') :
    Deleting cd s₀ target [] s' := by
  induction deleted with
  | done s => exact deleting
  | round orders listed removed _ ih => exact ih (deleting.round listed removed)

theorem Deleting.start (consistent : s.Consistent cd) (target : Descriptor) : Deleting cd s target [target] s where
  consistent := consistent
  blobs _ _ found := found
  nodes _ member := member
  successors _ _ := rfl
  queued desc member := by
    cases List.mem_singleton.mp member
    exact .inl .refl
  removed d before gone := absurd before gone

end Round

/-- The keys under which the store knows its content: the nodes, the successors of
nodes, and what the references resolve to. -/
def Store.knownKeys (s : Store) : Finset Key :=
  s.graph.nodes.keys ∪ s.graph.nodes.keys.biUnion s.graph.successorSet ∪
    s.tagResolver.index.keys.biUnion fun ref => ((s.tagResolver.index.lookup ref).map fromOCI).toFinset

/-- No stored blob is known under two keys. -/
def Store.AliasFree (s : Store) : Prop :=
  ∀ k ∈ s.knownKeys, ∀ k' ∈ s.knownKeys, k.digest = k'.digest → k.digest ∈ s.blobs → k = k'

instance (s : Store) : Decidable s.AliasFree :=
  inferInstanceAs (Decidable (∀ k ∈ s.knownKeys, ∀ k' ∈ s.knownKeys, k.digest = k'.digest → k.digest ∈ s.blobs → k = k'))

theorem Store.node_known {k : Key} (node : k ∈ s.graph.nodes) : k ∈ s.knownKeys :=
  Finset.mem_union_left _ (Finset.mem_union_left _ (Finmap.mem_keys.mpr node))

theorem Store.successor_known {n k : Key} (node : n ∈ s.graph.nodes) (edge : k ∈ s.graph.successorSet n) :
    k ∈ s.knownKeys :=
  Finset.mem_union_left _ (Finset.mem_union_right _ (Finset.mem_biUnion.mpr ⟨n, Finmap.mem_keys.mpr node, edge⟩))

/-- In a state reached by successful calls in which no stored blob is known under
two keys, a `Delete` that returns nil keeps what the surviving manifests point to,
apart from its target and the referrers of it. -/
theorem delete_keeps_successors (run : Run cd (fun op _ => op.WithoutGC) s) (aliasFree : s.AliasFree)
    {orders : Nat → DeleteOrders} {target : Descriptor} (deleted : s.delete cd orders target = some (none, s'))
    {manifest child : Descriptor} {nodes : List Descriptor} (known : fromOCI manifest ∈ s.knownKeys)
    (survives : manifest.digest ∈ s'.blobs) (read : successors cd (Storage.fetch s'.blobs) manifest = .ok nodes)
    (member : child ∈ nodes) (stored : child.digest ∈ s.blobs) :
    child.digest ∈ s'.blobs ∨ ∃ k, ReferrerClosure cd s target k ∧ k.digest = child.digest := by
  have consistent := run.consistent fun _ _ without => without
  have deleting := (Deleting.start consistent target).run (delete_ok deleted)
  obtain ⟨content, atManifest⟩ := Finmap.mem_iff.mp survives
  have before := deleting.blobs _ _ atManifest
  have beforeMember := Finmap.mem_of_lookup_eq_some before
  obtain ⟨k, node, digest, nodes', read', set⟩ := consistent.indexed _ beforeMember
  have same : k = fromOCI manifest := aliasFree _ (Store.node_known node) _ known digest (digest ▸ beforeMember)
  subst same
  rw [successors_plain (Storage.fetch_byKey _), ← successors_of_lookup (atManifest.trans before.symm), read] at read'
  cases read'
  have edge : fromOCI child ∈ s.graph.successorSet (fromOCI manifest) := by
    rw [set]
    exact List.mem_toFinset.mpr (List.mem_map_of_mem member)
  by_contra lost
  simp only [not_or, not_exists, not_and] at lost
  obtain ⟨k, digest', cause⟩ := deleting.removed _ stored lost.1
  rcases cause with closure | ⟨node', unreferenced⟩
  · exact lost.2 k closure digest'
  · have alias' : k = fromOCI child := aliasFree _ (Store.node_known node') _ (Store.successor_known node edge) digest'
      (digest' ▸ stored)
    subst alias'
    rw [← deleting.successors (fromOCI manifest) survives] at edge
    have points := deleting.consistent.linked _ _ edge
    rw [unreferenced] at points
    exact absurd points (Finset.notMem_empty _)

namespace Kept
open Sample

/-- Two artifacts with one configuration, one of which refers to an image that is
not stored. -/
noncomputable def configured : Store := (({} : Store).push codec orders emptyConfig configBytes).2

noncomputable def first : Store := (configured.push codec orders artifact artifactBytes).2

noncomputable def store : Store := (first.push codec orders referrer referrerBytes).2

noncomputable def deleted : Store := ((store.delete codec deleteOrders artifact).getD (none, store)).2

theorem deleted_keeps : ((({} : Store).push codec orders emptyConfig configBytes).1 = none ∧
      (configured.push codec orders artifact artifactBytes).1 = none ∧
      (first.push codec orders referrer referrerBytes).1 = none) ∧ store.AliasFree ∧
    (store.delete codec deleteOrders artifact).map Prod.fst = some none ∧
    fromOCI referrer ∈ store.knownKeys ∧ referrer.digest ∈ deleted.blobs ∧
    successors codec (Storage.fetch deleted.blobs) referrer = .ok [image, emptyConfig] ∧
    emptyConfig.digest ∈ store.blobs := by
  decide +kernel

end Kept

theorem delete_keeps_successors_artifact :
    Kept.store.AliasFree ∧ Kept.store.delete Sample.codec Sample.deleteOrders Sample.artifact = some (none, Kept.deleted) ∧
    (Sample.emptyConfig.digest ∈ Kept.deleted.blobs ∨
      ∃ k, ReferrerClosure Sample.codec Kept.store Sample.artifact k ∧ k.digest = Sample.emptyConfig.digest) := by
  obtain ⟨⟨first, second, third⟩, aliasFree, nil, known, survives, read, stored⟩ := Kept.deleted_keeps
  have ended : Kept.store.delete Sample.codec Sample.deleteOrders Sample.artifact = some (none, Kept.deleted) :=
    Sample.returned_nil nil _
  exact ⟨aliasFree, ended, delete_keeps_successors (((Run.start.push nofun first).push nofun second).push nofun third)
    aliasFree ended known survives read (List.mem_cons_of_mem _ List.mem_cons_self) stored⟩

namespace Shared
open Sample

/-- The empty object was pushed as the configuration of the image. -/
noncomputable def stored : Store := (({} : Store).push codec orders config configBytes).2

noncomputable def imaged : Store := (stored.push codec orders image imageBytes).2

/-- The artifact has the same bytes as its configuration, under its own media type. -/
noncomputable def store : Store := (imaged.push codec orders artifact artifactBytes).2

noncomputable def deleted : Store := ((store.delete codec deleteOrders image).getD (none, store)).2

theorem deleted_loses : ((({} : Store).push codec orders config configBytes).1 = none ∧
      (stored.push codec orders image imageBytes).1 = none ∧
      (imaged.push codec orders artifact artifactBytes).1 = none) ∧
    (store.delete codec deleteOrders image).map Prod.fst = some none ∧
    store.blobs.keys = {config.digest, image.digest, artifact.digest} ∧
    (∀ d ∈ store.blobs.keys, store.blobs.lookup d ≠ some referrerBytes) ∧
    fromOCI artifact ∈ deleted.knownKeys ∧ artifact.digest ∈ deleted.blobs ∧
    successors codec (Storage.fetch deleted.blobs) artifact = .ok [emptyConfig] ∧
    emptyConfig.digest ∈ store.blobs ∧ emptyConfig.digest ∉ deleted.blobs := by
  decide +kernel

theorem referrer_fetched {fetch : Fetcher} {node desc : Descriptor}
    (refers : Registry.Refers codec fetch node desc) : fetch node = .ok referrerBytes := by
  obtain ⟨found, read, _⟩ := refers
  have decoded {α : Type} {unmarshal : Bytes → Except Error α} {subject : α → Option Descriptor}
      (only : ∀ content a, unmarshal content = .ok a → (subject a).isSome → content = referrerBytes)
      (mapped : (fetchAndUnmarshal codec unmarshal fetch node).map subject = .ok (some found)) :
      fetch node = .ok referrerBytes := by
    unfold fetchAndUnmarshal fetchAll at mapped
    cases fetched : fetch node with
    | error err =>
      rw [fetched] at mapped
      cases mapped
    | ok stream =>
      rw [fetched] at mapped
      simp only at mapped
      cases whole : readAll codec stream node with
      | error err =>
        rw [whole] at mapped
        cases mapped
      | ok content =>
        obtain ⟨rfl, _⟩ := readAll_ok whole
        rw [whole] at mapped
        simp only at mapped
        cases value : unmarshal content with
        | error err =>
          rw [value] at mapped
          cases mapped
        | ok a =>
          rw [value] at mapped
          rw [only content a value (Option.isSome_iff_exists.mpr ⟨found, Except.ok.inj mapped⟩)]
  unfold Registry.readSubject at read
  split at read
  · refine decoded (fun content manifest value some => ?_) read
    have listed := ofTable_manifest value
    simp only [List.mem_cons, Prod.mk.injEq, List.not_mem_nil, or_false] at listed
    rcases listed with ⟨_, rfl⟩ | ⟨_, rfl⟩ | ⟨same, _⟩
    · cases some
    · cases some
    · exact same
  split at read
  · exact decoded (fun content index value _ => absurd (ofTable_index value) List.not_mem_nil) read
  split at read
  · refine decoded (fun content artifact value _ => ?_) read
    change Except.error _ = Except.ok artifact at value
    cases value
  · cases read

end Shared

/-- The blob of a surviving manifest's configuration is removed because the graph
knows it under the key of the deleted manifest's configuration. -/
theorem delete_loses_shared_config :
    Run Sample.codec (fun op _ => op.WithoutGC) Shared.store ∧ Shared.store.autoGC = true ∧
    Shared.store.delete Sample.codec Sample.deleteOrders Sample.image = some (none, Shared.deleted) ∧
    fromOCI Sample.artifact ∈ Shared.deleted.knownKeys ∧ Sample.artifact.digest ∈ Shared.deleted.blobs ∧
    successors Sample.codec (Storage.fetch Shared.deleted.blobs) Sample.artifact = .ok [Sample.emptyConfig] ∧
    Sample.emptyConfig.digest ∈ Shared.store.blobs ∧ Sample.emptyConfig.digest ∉ Shared.deleted.blobs ∧
    ∀ k, ReferrerClosure Sample.codec Shared.store Sample.image k → k.digest ≠ Sample.emptyConfig.digest := by
  obtain ⟨⟨first, second, third⟩, nil, _, others, known, survives, read, before, after⟩ := Shared.deleted_loses
  have run : Run Sample.codec (fun op _ => op.WithoutGC) Shared.store :=
    ((Run.start.push nofun first).push nofun second).push nofun third
  have ended : Shared.store.delete Sample.codec Sample.deleteOrders Sample.image = some (none, Shared.deleted) :=
    Sample.returned_nil nil _
  refine ⟨run, rfl, ended, known, survives, read, before, after, fun k closure => ?_⟩
  induction closure with
  | refl => decide
  | tail _ refers _ =>
    obtain ⟨_, stored⟩ := Storage.fetch_ok (Shared.referrer_fetched refers)
    exact absurd stored (others _ (Finmap.mem_keys.mpr (Finmap.mem_of_lookup_eq_some stored)))

end OrasGo.Oci
