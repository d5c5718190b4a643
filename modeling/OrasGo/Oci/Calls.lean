import OrasGo.Oci.Collect

/-! What the calls of a store do when they return nil, and the states they reach. -/

namespace OrasGo.Oci
open Graph Iteration
variable {cd : Codec} {s s' : Store}

@[simp] theorem fromOCI_deleteAnnotationRefName (desc : Descriptor) :
    fromOCI (deleteAnnotationRefName desc) = fromOCI desc := rfl

@[simp] theorem fromOCI_setAnnotationRefName (desc : Descriptor) (reference : String) :
    fromOCI (setAnnotationRefName desc reference) = fromOCI desc := rfl

variable {refMap : Finmap (fun _ : String => Descriptor)} {n : Nat} {queue : List Descriptor}

theorem mem_indexManifests {orders : SaveOrders} {m : Descriptor} :
    m ∈ indexManifests orders refMap ↔
      (∃ ref desc, refMap.lookup ref = some desc ∧ ref ≠ desc.digest ∧ m = setAnnotationRefName desc ref) ∨
      ∃ desc, refMap.lookup desc.digest = some desc ∧ m = deleteAnnotationRefName desc ∧
        ∀ ref desc', refMap.lookup ref = some desc' → desc'.digest = desc.digest → ref = desc'.digest := by
  simp only [indexManifests, List.mem_append, List.mem_map, List.mem_filter, Prod.exists, Enumeration.mem_entries,
    decide_eq_true_eq, Bool.and_eq_true, Bool.not_eq_true', List.contains_eq_mem, decide_eq_false_iff_not, not_exists,
    not_and]
  refine or_congr ?_ ?_
  · constructor
    · rintro ⟨ref, desc, ⟨found, other⟩, rfl⟩
      exact ⟨ref, desc, found, other, rfl⟩
    · rintro ⟨ref, desc, found, other, rfl⟩
      exact ⟨ref, desc, ⟨found, other⟩, rfl⟩
  · constructor
    · rintro ⟨_, desc, ⟨found, rfl, untagged⟩, rfl⟩
      refine ⟨desc, found, rfl, fun ref desc' found' same => ?_⟩
      by_contra other
      exact untagged ref desc' ⟨found', other⟩ same
    · rintro ⟨desc, found, rfl, untagged⟩
      exact ⟨desc.digest, desc, ⟨found, rfl, fun ref desc' ⟨found', other⟩ same => other (untagged ref desc' found' same)⟩,
        rfl⟩

theorem indexManifests_key {orders : SaveOrders} {m : Descriptor} (member : m ∈ indexManifests orders refMap) :
    ∃ ref desc, refMap.lookup ref = some desc ∧ fromOCI m = fromOCI desc := by
  rcases mem_indexManifests.mp member with ⟨ref, desc, found, _, rfl⟩ | ⟨desc, found, rfl, _⟩
  · exact ⟨ref, desc, found, rfl⟩
  · exact ⟨desc.digest, desc, found, rfl⟩

theorem indexManifests_digest {orders : SaveOrders} {ref : String} {desc : Descriptor}
    (found : refMap.lookup ref = some desc) :
    ∃ m ∈ indexManifests orders refMap, m.digest = desc.digest := by
  by_cases tagged : ∃ ref desc', refMap.lookup ref = some desc' ∧ desc'.digest = desc.digest ∧ ref ≠ desc'.digest
  · obtain ⟨ref', desc', found', same, other⟩ := tagged
    exact ⟨_, mem_indexManifests.mpr (.inl ⟨ref', desc', found', other, rfl⟩), same⟩
  · have own : ref = desc.digest := by
      by_contra other
      exact tagged ⟨ref, desc, found, rfl, other⟩
    subst own
    refine ⟨_, mem_indexManifests.mpr (.inr ⟨desc, found, rfl, fun ref' desc' found' same => ?_⟩), rfl⟩
    by_contra other
    exact tagged ⟨ref', desc', found', same, other⟩

namespace Store

@[simp] theorem saveIndex_blobs (orders : SaveOrders) : (s.saveIndex orders).blobs = s.blobs := rfl
@[simp] theorem saveIndex_graph (orders : SaveOrders) : (s.saveIndex orders).graph = s.graph := rfl
@[simp] theorem saveIndex_tagResolver (orders : SaveOrders) :
    (s.saveIndex orders).tagResolver = s.tagResolver := rfl

section TagInternal
variable (s) (orders : SaveOrders) (desc : Descriptor) (reference : String)

theorem tagInternal_eq : ∃ resolver, (∀ r, resolver.index.lookup r =
      if r = reference ∨ r = desc.digest then some desc else s.tagResolver.index.lookup r) ∧
    s.tagInternal orders desc reference = { s with
      tagResolver := resolver
      indexFile := if s.autoSaveIndex then indexManifests orders resolver.index else s.indexFile } := by
  refine ⟨(if reference = desc.digest then s.tagResolver else s.tagResolver.tag desc desc.digest).tag desc reference,
    fun r => ?_, ?_⟩
  · rw [Resolver.Memory.tag_lookup]
    by_cases same : r = reference
    · simp only [same, true_or, if_true]
    · by_cases digest : reference = desc.digest
      · rw [if_neg same, if_pos digest, if_neg]
        rintro (impossible | impossible)
        · exact same impossible
        · exact same (impossible.trans digest.symm)
      · simp only [same, if_false, if_neg digest, Resolver.Memory.tag_lookup, false_or]
  · simp only [tagInternal, saveIndex]
    split <;> rfl

end TagInternal

theorem push_ok {orders : SaveOrders} {expected : Descriptor} {content : Bytes}
    (pushed : s.push cd orders expected content = (none, s')) :
    Digest.validate expected.digest = true ∧ expected.digest ∉ s.blobs ∧
      cd.verified expected.digest content = true ∧
      ∃ nodes, successors cd (Storage.fetch (s.blobs.insert expected.digest content)) expected = .ok nodes ∧
        ∃ stored : Store, stored = { s with
          blobs := s.blobs.insert expected.digest content, graph := s.graph.indexNode expected nodes } ∧
        s' = if isManifest expected then stored.tagInternal orders expected expected.digest else stored := by
  unfold push at pushed
  split at pushed
  · cases pushed
  rename_i blobs ingested
  obtain ⟨valid, fresh, _, verified, rfl⟩ := Storage.push_ok ingested
  unfold Memory.index at pushed
  cases found : successors cd (Storage.fetch (s.blobs.insert expected.digest content)) expected with
  | error err =>
    simp only [found] at pushed
    cases pushed
  | ok nodes =>
    simp only [found] at pushed
    refine ⟨valid, fresh, verified, nodes, rfl, _, rfl, ?_⟩
    split at pushed <;> cases pushed <;> simp_all

theorem tag_ok {orders : SaveOrders} {desc : Descriptor} {reference : String}
    (tagged : s.tag orders desc reference = (none, s')) :
    reference ≠ "" ∧ Digest.validate desc.digest = true ∧ desc.digest ∈ s.blobs ∧
      s' = s.tagInternal orders desc reference := by
  unfold tag validateReference at tagged
  by_cases empty : reference = ""
  · rw [if_pos empty] at tagged
    cases tagged
  · rw [if_neg empty] at tagged
    simp only at tagged
    split at tagged
    · cases tagged
    · cases tagged
    · rename_i found
      cases tagged
      obtain ⟨valid, stored⟩ := Storage.contains_ok found
      exact ⟨empty, valid, stored, rfl⟩

theorem untag_ok {orders : SaveOrders} {reference : String} (untagged : s.untag orders reference = (none, s')) :
    ∃ resolver, (∀ r, resolver.index.lookup r = if r = reference then none else s.tagResolver.index.lookup r) ∧
      s' = { s with
        tagResolver := resolver
        indexFile := if s.autoSaveIndex then indexManifests orders resolver.index else s.indexFile } := by
  unfold untag at untagged
  split at untagged
  · cases untagged
  split at untagged
  · cases untagged
  split at untagged
  · cases untagged
  · refine ⟨s.tagResolver.untag reference, s.tagResolver.untag_lookup reference, ?_⟩
    cases untagged
    simp only [saveIndex]
    split <;> rfl

theorem foldl_untag_lookup (refs : List String) (m : Resolver.Memory) (r : String) :
    (refs.foldl Resolver.Memory.untag m).index.lookup r = if r ∈ refs then none else m.index.lookup r := by
  induction refs generalizing m with
  | nil => simp only [List.foldl_nil, List.not_mem_nil, if_false]
  | cons ref rest ih =>
    rw [List.foldl_cons, ih, Resolver.Memory.untag_lookup]
    by_cases later : r ∈ rest
    · simp only [later, if_true, List.mem_cons, or_true]
    · simp only [later, if_false, List.mem_cons, or_false]

theorem mem_references {order : Enumeration String} {target : Descriptor} {ref : String} :
    ref ∈ s.references order target ↔
      ∃ desc, s.tagResolver.index.lookup ref = some desc ∧ fromOCI desc = fromOCI target := by
  simp only [references, List.mem_map, List.mem_filter, Prod.exists, Enumeration.mem_entries, contentEqual_iff]
  constructor
  · rintro ⟨_, desc, ⟨found, same⟩, rfl⟩
    exact ⟨desc, found, same⟩
  · rintro ⟨desc, found, same⟩
    exact ⟨ref, desc, ⟨found, same⟩, rfl⟩

/-- Of the references, `delete` removes those to its target. -/
theorem forget_lookup {orders : DeleteOrders} {target : Descriptor} {ref : String} {desc : Descriptor} :
    (s.forget orders target).tagResolver.index.lookup ref = some desc ↔
      s.tagResolver.index.lookup ref = some desc ∧ fromOCI desc ≠ fromOCI target := by
  have lookup : (s.forget orders target).tagResolver.index.lookup ref =
      if ref ∈ s.references orders.resolvers target then none else s.tagResolver.index.lookup ref := by
    rw [← foldl_untag_lookup]
    simp only [forget, saveIndex]
    split <;> rfl
  rw [lookup]
  by_cases gone : ref ∈ s.references orders.resolvers target
  · rw [if_pos gone]
    obtain ⟨desc', found, same⟩ := mem_references.mp gone
    refine ⟨fun impossible => (nomatch impossible), fun ⟨found', other⟩ => ?_⟩
    cases found.symm.trans found'
    exact absurd same other
  · rw [if_neg gone]
    exact ⟨fun found => ⟨found, fun same => gone (mem_references.mpr ⟨desc, found, same⟩)⟩, And.left⟩

theorem forget_eq (orders : DeleteOrders) (target : Descriptor) : s.forget orders target = { s with
    tagResolver := (s.forget orders target).tagResolver
    graph := (s.graph.remove orders.successors target).1
    indexFile := (s.forget orders target).indexFile } := by
  simp only [forget, saveIndex]
  split <;> rfl

/-- When the index is saved, it lists exactly what the references resolve to;
when it is not, no reference was removed. -/
theorem forget_indexFile (orders : DeleteOrders) (target : Descriptor) (saves : s.autoSaveIndex = true) :
    (s.forget orders target).indexFile = indexManifests orders.toSaveOrders (s.forget orders target).tagResolver.index ∨
      (s.forget orders target).indexFile = s.indexFile ∧ (s.forget orders target).tagResolver = s.tagResolver := by
  cases listed : s.references orders.resolvers target with
  | nil =>
    right
    simp only [forget, listed, List.isEmpty_nil, Bool.not_true, Bool.false_and, Bool.false_eq_true, if_false,
      List.foldl_nil, and_self]
  | cons ref refs =>
    left
    simp only [forget, listed, List.isEmpty_cons, saves, Bool.not_false, Bool.and_self, if_true, saveIndex]

theorem deleteNode_ok {orders : DeleteOrders} {target : Descriptor} {danglings : List Descriptor}
    (deleted : s.deleteNode orders target = (.ok danglings, s')) :
    Digest.validate target.digest = true ∧ target.digest ∈ s.blobs ∧
      danglings = (s.graph.remove orders.successors target).2 ∧
      s' = { s.forget orders target with blobs := s.blobs.erase target.digest } := by
  unfold deleteNode at deleted
  split at deleted
  · cases deleted
  · rename_i removed
    obtain ⟨valid, stored, rfl⟩ := Storage.delete_ok removed
    cases deleted
    exact ⟨valid, stored, rfl, rfl⟩

theorem referrersOf_node {order : Enumeration Key} {head r : Descriptor} {referrers : List Descriptor}
    (listed : s.referrersOf cd order head = .ok referrers) (member : r ∈ referrers) :
    s.autoGC = true ∧ isManifest head = true ∧ ∃ k node, k ∈ s.graph.predecessorSet (fromOCI head) ∧ s.graph.nodes.lookup k = some node ∧
      fromOCI r = fromOCI node ∧ Registry.Refers cd (Storage.fetch s.blobs) node head := by
  unfold referrersOf at listed
  split at listed
  · rename_i recursive
    obtain ⟨node, listed, same, refers⟩ := Registry.mem_referrers listed member
    obtain ⟨k, predecessor, found⟩ := List.mem_map.mp listed
    obtain ⟨collects, manifest⟩ := Bool.and_eq_true_iff.mp recursive
    refine ⟨collects, manifest, k, node, (order.mem _ k).mp predecessor, ?_, same, refers⟩
    cases atK : s.graph.nodes.lookup k with
    | some node' => rw [← found, atK, Option.getD_some]
    | none =>
      obtain ⟨content, fetched⟩ := refers.fetched
      rw [← found, atK] at fetched
      cases (Storage.fetch_ok fetched).1
  · cases listed
    cases member

end Store

/-- The rounds of a `Delete` that returns nil, from a queue and a state on. -/
inductive Deletes (cd : Codec) : List Descriptor → Store → Store → Prop
  | done (s : Store) : Deletes cd [] s s
  | round {head : Descriptor} {queue referrers danglings : List Descriptor} {s s₁ s' : Store} (orders : DeleteOrders) :
      s.referrersOf cd orders.predecessors head = .ok referrers →
      s.deleteNode orders head = (.ok danglings, s₁) →
      Deletes cd (queue ++ referrers ++
        if s₁.autoGC then danglings.filter fun d => !s₁.isTagged d else []) s₁ s' →
      Deletes cd (head :: queue) s s'

theorem deleteLoop_ok {orders : Nat → DeleteOrders} (deleted : Store.deleteLoop cd orders n queue s = some (none, s')) :
    Deletes cd queue s s' := by
  induction n generalizing queue s with
  | zero =>
    cases queue with
    | nil =>
      cases deleted
      exact .done _
    | cons head queue => cases deleted
  | succ n ih =>
    cases queue with
    | nil =>
      cases deleted
      exact .done _
    | cons head queue =>
      simp only [Store.deleteLoop] at deleted
      split at deleted
      · cases deleted
      · rename_i referrers listed
        split at deleted
        · cases deleted
        · rename_i danglings s₁ removed
          exact .round (orders n) listed removed (ih deleted)

theorem deleteLoop_keeps {P : Store → Prop} (step : ∀ s orders node, P s → P (s.deleteNode orders node).2)
    {orders : Nat → DeleteOrders} {err : Option Error} (holds : P s)
    (deleted : Store.deleteLoop cd orders n queue s = some (err, s')) : P s' := by
  induction n generalizing queue s with
  | zero =>
    cases queue with
    | nil =>
      cases deleted
      exact holds
    | cons head queue => cases deleted
  | succ n ih =>
    cases queue with
    | nil =>
      cases deleted
      exact holds
    | cons head queue =>
      have removed := step s (orders n) head holds
      simp only [Store.deleteLoop] at deleted
      split at deleted
      · cases deleted
        exact holds
      · split at deleted
        · rename_i failed
          cases deleted
          rwa [failed] at removed
        · rename_i round
          rw [round] at removed
          exact ih removed deleted

theorem delete_ok {orders : Nat → DeleteOrders} {target : Descriptor}
    (deleted : s.delete cd orders target = some (none, s')) : Deletes cd [target] s s' := deleteLoop_ok deleted

/-- `Delete` comes to an end: each of its rounds but the last removes a blob. -/
theorem deleteLoop_isSome {orders : Nat → DeleteOrders} (enough : s.blobs.keys.card < n) :
    (Store.deleteLoop cd orders n queue s).isSome := by
  induction n generalizing queue s with
  | zero => omega
  | succ n ih =>
    cases queue with
    | nil => rfl
    | cons head queue =>
      simp only [Store.deleteLoop]
      split
      · rfl
      · split
        · rfl
        · rename_i danglings s₁ removed
          obtain ⟨_, stored, _, rfl⟩ := Store.deleteNode_ok removed
          refine ih ?_
          have fewer : (s.blobs.erase head.digest).keys.card < s.blobs.keys.card := by
            rw [Finmap.keys_erase]
            exact Finset.card_erase_lt_of_mem (Finmap.mem_keys.mpr stored)
          change (s.blobs.erase head.digest).keys.card < n
          omega

theorem delete_isSome (orders : Nat → DeleteOrders) (target : Descriptor) : (s.delete cd orders target).isSome :=
  deleteLoop_isSome (by omega)

/-- A call that a user of a store makes. -/
inductive Operation
  | push (expected : Descriptor) (content : Bytes)
  | tag (desc : Descriptor) (reference : String)
  | untag (reference : String)
  | delete (target : Descriptor)
  | gc
  | configure (autoSaveIndex autoGC : Bool)

/-- The call returns nil and leaves `s'`, for some choices of the runtime. -/
inductive Does (cd : Codec) : Operation → Store → Store → Prop
  | push {s s' : Store} {expected : Descriptor} {content : Bytes} (orders : SaveOrders) :
      s.push cd orders expected content = (none, s') → Does cd (.push expected content) s s'
  | tag {s s' : Store} {desc : Descriptor} {reference : String} (orders : SaveOrders) :
      s.tag orders desc reference = (none, s') → Does cd (.tag desc reference) s s'
  | untag {s s' : Store} {reference : String} (orders : SaveOrders) :
      s.untag orders reference = (none, s') → Does cd (.untag reference) s s'
  | delete {s s' : Store} {target : Descriptor} (orders : Nat → DeleteOrders) :
      s.delete cd orders target = some (none, s') → Does cd (.delete target) s s'
  | gc {s s' : Store} (choices : GCChoices cd s.blobs) (fuel : Nat) :
      s.gc choices fuel = some (none, s') → Does cd .gc s s'
  | configure (s : Store) (autoSaveIndex autoGC : Bool) :
      Does cd (.configure autoSaveIndex autoGC) s { s with autoSaveIndex, autoGC }

/-- The states reached from an empty directory by calls that all return nil, each
allowed in the state it is made in. -/
inductive Run (cd : Codec) (allowed : Operation → Store → Prop) : Store → Prop
  | start : Run cd allowed {}
  | call {op : Operation} {s s' : Store} : Run cd allowed s → allowed op s → Does cd op s s' → Run cd allowed s'

section Run
variable {allowed : Operation → Store → Prop}

theorem Run.push {expected : Descriptor} {content : Bytes} {orders : SaveOrders} (run : Run cd allowed s)
    (ok : allowed (.push expected content) s) (nil : (s.push cd orders expected content).1 = none) :
    Run cd allowed (s.push cd orders expected content).2 :=
  run.call ok (.push orders (Prod.ext nil rfl))

theorem Run.tag {desc : Descriptor} {reference : String} {orders : SaveOrders} (run : Run cd allowed s)
    (ok : allowed (.tag desc reference) s) (nil : (s.tag orders desc reference).1 = none) :
    Run cd allowed (s.tag orders desc reference).2 :=
  run.call ok (.tag orders (Prod.ext nil rfl))

theorem Run.gc {choices : GCChoices cd s.blobs} {fuel : Nat} (run : Run cd allowed s) (ok : allowed .gc s)
    (nil : s.gc choices fuel = some (none, s')) : Run cd allowed s' :=
  run.call ok (.gc choices fuel nil)

end Run

end OrasGo.Oci

/-! The orders of the iterations in runs with the sample manifests. -/

namespace OrasGo.Sample
open Oci Iteration

noncomputable def refs : Enumeration String :=
  .preferring [[], [image.digest], [artifact.digest], [referrer.digest], [image.digest, artifact.digest],
    [image.digest, referrer.digest], [artifact.digest, referrer.digest],
    [image.digest, artifact.digest, referrer.digest],
    ["v1", image.digest], ["v1", hello.digest], ["v1", image.digest, artifact.digest, referrer.digest]]

noncomputable def orders : SaveOrders := ⟨refs, refs⟩

noncomputable def deleteOrders (_ : Nat) : DeleteOrders where
  toSaveOrders := orders
  resolvers := refs
  predecessors := .preferring [[]]
  successors := .preferring [[], [fromOCI config], [fromOCI emptyConfig]]

noncomputable def choices (s : Store) : GCChoices codec s.blobs where
  tagged := refs
  untagged := refs
  files := refs
  sched _ := .roundRobin 30 (Storage.fetch_byKey _) (Storage.fetch_finite _ _)
  ctx _ := none

theorem returned_nil {result : Option (Option Error × Store)} (nil : result.map Prod.fst = some none) (s : Store) :
    result = some (none, (result.getD (none, s)).2) := by
  obtain ⟨⟨err, s'⟩, rfl, rfl⟩ := Option.map_eq_some_iff.mp nil
  rfl

end OrasGo.Sample
