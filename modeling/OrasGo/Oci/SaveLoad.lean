import OrasGo.Oci.Reopen

/-! What is left of the references of a store after its index was saved and loaded. -/

namespace OrasGo.Oci
open Graph Iteration
variable {cd : Codec} {s s' : Store}

/-- The states of stores that one process after another works with on one
directory: calls that return nil or fail, saving the index and opening the
directory again. -/
inductive Session (cd : Codec) : Store → Prop
  | empty : Session cd {}
  | push {s : Store} (orders : SaveOrders) (expected : Descriptor) (content : Bytes) :
      Session cd s → Session cd (s.push cd orders expected content).2
  | tag {s : Store} (orders : SaveOrders) (desc : Descriptor) (reference : String) :
      Session cd s → Session cd (s.tag orders desc reference).2
  | untag {s : Store} (orders : SaveOrders) (reference : String) :
      Session cd s → Session cd (s.untag orders reference).2
  | delete {s s' : Store} {orders : Nat → DeleteOrders} {target : Descriptor} {err : Option Error} :
      Session cd s → s.delete cd orders target = some (err, s') → Session cd s'
  | gc {s s' : Store} {choices : GCChoices cd s.blobs} {fuel : Nat} {err : Option Error} :
      Session cd s → s.gc choices fuel = some (err, s') → Session cd s'
  | configure {s : Store} (autoSaveIndex autoGC : Bool) :
      Session cd s → Session cd { s with autoSaveIndex, autoGC }
  | save {s : Store} (orders : SaveOrders) : Session cd s → Session cd (s.saveIndex orders)
  | reopen {s s' : Store} {sched : Nat → Scheduler cd (Storage.fetch s.layout.blobs)} :
      Session cd s → newWithContext s.layout sched = .ok s' → Session cd s'

/-- No reference is empty, and all that is resolved to or listed has a valid digest. -/
structure Store.Named (s : Store) : Prop where
  reference : ∀ ref desc, s.tagResolver.index.lookup ref = some desc → ref ≠ ""
  resolved : ∀ ref desc, s.tagResolver.index.lookup ref = some desc → Digest.validate desc.digest = true
  listed : ∀ m ∈ s.indexFile, Digest.validate m.digest = true

theorem ne_empty_of_validate {d : Digest} (valid : Digest.validate d = true) : d ≠ "" := by
  intro empty
  subst empty
  cases valid

namespace Store

section

variable (named : s.Named)
include named

theorem Named.saveIndex (orders : SaveOrders) : (s.saveIndex orders).Named := by
  refine ⟨named.reference, named.resolved, fun m member => ?_⟩
  obtain ⟨ref, desc, found, same⟩ := indexManifests_key member
  have valid := named.resolved ref desc found
  rwa [show m.digest = desc.digest from congrArg Key.digest same]

theorem Named.tagInternal (orders : SaveOrders) {desc : Descriptor} {reference : String}
    (valid : Digest.validate desc.digest = true) (nonempty : reference ≠ "") :
    (s.tagInternal orders desc reference).Named := by
  obtain ⟨resolver, lookup, same⟩ := s.tagInternal_eq orders desc reference
  have tagged : Named { s with tagResolver := resolver } := by
    refine ⟨fun ref desc' found => ?_, fun ref desc' found => ?_, named.listed⟩
    · rw [lookup] at found
      split at found
      · rename_i new
        rcases new with rfl | rfl
        · exact nonempty
        · exact ne_empty_of_validate valid
      · exact named.reference ref desc' found
    · rw [lookup] at found
      split at found
      · cases found
        exact valid
      · exact named.resolved ref desc' found
  rw [same]
  split
  · exact tagged.saveIndex orders
  · exact tagged

theorem Named.push (orders : SaveOrders) (expected : Descriptor) (content : Bytes) :
    (s.push cd orders expected content).2.Named := by
  have other (blobs : Blobs) (graph : Memory) : Named { s with blobs, graph } :=
    ⟨named.reference, named.resolved, named.listed⟩
  unfold Store.push
  split
  · exact other _ _
  · rename_i blobs ingested
    have valid := (Storage.push_ok ingested).1
    split
    · exact other _ _
    · split
      · exact (other _ _).tagInternal orders valid (ne_empty_of_validate valid)
      · exact other _ _

theorem Named.tag (orders : SaveOrders) (desc : Descriptor) (reference : String) :
    (s.tag orders desc reference).2.Named := by
  rcases result : s.tag orders desc reference with ⟨_ | err, s'⟩
  · obtain ⟨nonempty, valid, _, rfl⟩ := tag_ok result
    exact named.tagInternal orders valid nonempty
  · have unchanged : s' = s := by
      unfold Store.tag at result
      split at result
      · cases result
        rfl
      · split at result <;> cases result <;> rfl
    rw [unchanged]
    exact named

theorem Named.of_subset {tagResolver : Resolver.Memory}
    (subset : ∀ ref desc, tagResolver.index.lookup ref = some desc → s.tagResolver.index.lookup ref = some desc) :
    Named { s with tagResolver } :=
  ⟨fun ref desc found => named.reference ref desc (subset ref desc found),
    fun ref desc found => named.resolved ref desc (subset ref desc found), named.listed⟩

theorem Named.untag (orders : SaveOrders) (reference : String) :
    (s.untag orders reference).2.Named := by
  have fewer : Named { s with tagResolver := s.tagResolver.untag reference } := by
    refine named.of_subset fun ref desc found => ?_
    rw [Resolver.Memory.untag_lookup] at found
    split at found
    · cases found
    · exact found
  unfold Store.untag
  split
  · exact named
  · split
    · exact named
    · split
      · exact named
      · dsimp only
        split
        · exact fewer.saveIndex orders
        · exact fewer

theorem Named.forget (orders : DeleteOrders) (target : Descriptor) :
    (s.forget orders target).Named := by
  have fewer : Named { s with
      tagResolver := (s.references orders.resolvers target).foldl Resolver.Memory.untag s.tagResolver
      graph := (s.graph.remove orders.successors target).1 } := by
    have subset : Named { s with
        tagResolver := (s.references orders.resolvers target).foldl Resolver.Memory.untag s.tagResolver } := by
      refine named.of_subset fun ref desc found => ?_
      rw [foldl_untag_lookup] at found
      split at found
      · cases found
      · exact found
    exact ⟨subset.reference, subset.resolved, subset.listed⟩
  unfold Store.forget
  dsimp only
  split
  · exact fewer.saveIndex orders.toSaveOrders
  · exact fewer

theorem Named.deleteNode (orders : DeleteOrders) (target : Descriptor) :
    (s.deleteNode orders target).2.Named := by
  have forgotten := named.forget orders target
  unfold Store.deleteNode
  split
  · exact forgotten
  · exact ⟨forgotten.reference, forgotten.resolved, forgotten.listed⟩

theorem Named.deleteLoop {orders : Nat → DeleteOrders} {n : Nat} {queue : List Descriptor} {err : Option Error}
    (deleted : Store.deleteLoop cd orders n queue s = some (err, s')) : s'.Named :=
  deleteLoop_keeps (fun _ orders node named => named.deleteNode orders node) named deleted

end

variable {choices : GCChoices cd s.blobs} {fuel : Nat}

theorem gcIndex_references (collected : s.gcIndex choices fuel = some (none, s')) {x : String}
    (member : x ∈ s'.tagResolver.index) :
    x ∈ s.tagResolver.index ∨ ∃ ref desc, s.tagResolver.index.lookup ref = some desc ∧ x = desc.digest := by
  unfold gcIndex at collected
  split at collected
  · cases collected
  rename_i r tagged
  split at collected
  · cases collected
  · cases collected
  rename_i r' referrers
  cases collected
  have named {ref : String} {desc : Descriptor} {order : Enumeration String}
      (listed : (ref, desc) ∈ order.entries s.tagResolver.index) (same : x = ref ∨ x = desc.digest) :
      x ∈ s.tagResolver.index ∨ ∃ ref desc, s.tagResolver.index.lookup ref = some desc ∧ x = desc.digest := by
    have found := Enumeration.mem_entries.mp listed
    rcases same with rfl | rfl
    · exact .inl (Finmap.mem_of_lookup_eq_some found)
    · exact .inr ⟨ref, desc, found, rfl⟩
  rcases ((indexReferrers_ok referrers).1.references x).mp member with old | ⟨ref, desc, listed, _, same⟩
  · rcases ((indexTagged_ok tagged).1.references x).mp old with impossible | ⟨ref, desc, listed, _, same⟩
    · exact absurd impossible Finmap.notMem_empty
    · exact named listed same
  · exact named listed same

theorem Named.gcIndex (named : s.Named) (collected : s.gcIndex choices fuel = some (none, s')) : s'.Named := by
  have rebuilt := gcIndex_ok collected
  refine ⟨fun ref desc found => ?_, fun ref desc found => ?_, ?_⟩
  · rcases gcIndex_references collected (Finmap.mem_of_lookup_eq_some found) with old | ⟨ref', desc', old, rfl⟩
    · obtain ⟨desc', before⟩ := Finmap.mem_iff.mp old
      exact named.reference ref desc' before
    · exact ne_empty_of_validate (named.resolved ref' desc' old)
  · obtain ⟨root, isRoot, same⟩ := rebuilt.descriptors ref desc found
    have valid : Digest.validate root.digest = true := by
      rcases isRoot with ⟨ref, resolved, _⟩ | ⟨⟨resolved, _⟩, _⟩
      · exact named.resolved ref root resolved
      · exact named.resolved _ root resolved
    rwa [show desc.digest = root.digest from congrArg Key.digest same]
  · rw [rebuilt.frame]
    exact named.listed

theorem Named.gc {err : Option Error} (named : s.Named) (collected : s.gc choices fuel = some (err, s')) :
    s'.Named := by
  unfold Store.gc at collected
  split at collected
  · cases collected
  · rename_i failed
    cases collected
    have unchanged : s' = s := by
      unfold Store.gcIndex at failed
      split at failed
      · cases failed
        rfl
      split at failed
      · cases failed
      · cases failed
        rfl
      · cases failed
    rwa [unchanged]
  · rename_i indexed
    have rebuilt := named.gcIndex indexed
    cases collected
    exact ⟨rebuilt.reference, rebuilt.resolved, rebuilt.listed⟩

end Store

section Load
variable {resolver : Resolver.Memory} {manifests : List Descriptor}

theorem loadReference_lookup (resolver : Resolver.Memory) (m : Descriptor) (x : String) :
    (loadReference resolver m).index.lookup x =
      if annotatedRef m ≠ "" ∧ x = annotatedRef m then some m
      else if x = m.digest then some (deleteAnnotationRefName m)
      else resolver.index.lookup x := by
  unfold loadReference
  dsimp only
  by_cases bare : annotatedRef m = ""
  · simp only [bare, if_true, Resolver.Memory.tag_lookup, ne_eq, not_true_eq_false, false_and, if_false]
  · simp only [bare, if_false, Resolver.Memory.tag_lookup, ne_eq, not_false_eq_true, true_and]

theorem loaded_origin {x : String} {d : Descriptor}
    (found : (manifests.foldl loadReference resolver).index.lookup x = some d) :
    resolver.index.lookup x = some d ∨ ∃ m ∈ manifests,
      (annotatedRef m ≠ "" ∧ x = annotatedRef m ∧ d = m) ∨ (x = m.digest ∧ d = deleteAnnotationRefName m) := by
  induction manifests generalizing resolver with
  | nil => exact .inl found
  | cons m manifests ih =>
    rcases ih found with step | ⟨m', member, origin⟩
    · rw [loadReference_lookup] at step
      split at step
      · rename_i own
        have same := Option.some.inj step
        exact .inr ⟨m, List.mem_cons_self, .inl ⟨own.1, own.2, same.symm⟩⟩
      split at step
      · rename_i own
        have same := Option.some.inj step
        exact .inr ⟨m, List.mem_cons_self, .inr ⟨own, same.symm⟩⟩
      · exact .inl step
    · exact .inr ⟨m', List.mem_cons_of_mem _ member, origin⟩

theorem mem_loadReference {m : Descriptor} {x : String} :
    x ∈ (loadReference resolver m).index ↔
      (annotatedRef m ≠ "" ∧ x = annotatedRef m) ∨ x = m.digest ∨ x ∈ resolver.index := by
  rw [← Finmap.lookup_isSome, loadReference_lookup, ← Finmap.lookup_isSome]
  split
  · rename_i own
    simp only [Option.isSome_some, own, ne_eq, not_false_eq_true, and_self, true_or]
  · rename_i other
    split
    · rename_i own
      simp only [Option.isSome_some, own, true_or, or_true]
    · rename_i digest
      simp only [other, digest, false_or]

theorem mem_loaded {x : String} : x ∈ (manifests.foldl loadReference resolver).index ↔
    x ∈ resolver.index ∨ ∃ m ∈ manifests, (annotatedRef m ≠ "" ∧ x = annotatedRef m) ∨ x = m.digest := by
  induction manifests generalizing resolver with
  | nil => simp
  | cons m manifests ih =>
    rw [List.foldl_cons, ih, mem_loadReference]
    rw [List.exists_mem_cons_iff]
    constructor
    · rintro ((own | own | old) | later)
      · exact .inr (.inl (.inl own))
      · exact .inr (.inl (.inr own))
      · exact .inl old
      · exact .inr (.inr later)
    · rintro (old | (own | own) | later)
      · exact .inl (.inr (.inr old))
      · exact .inl (.inl own)
      · exact .inl (.inr (.inl own))
      · exact .inr later

end Load

theorem Session.named (session : Session cd s) : s.Named := by
  induction session with
  | empty => exact ⟨fun _ _ found => (by cases found), fun _ _ found => (by cases found), fun _ member => (by cases member)⟩
  | push orders expected content _ named => exact named.push orders expected content
  | tag orders desc reference _ named => exact named.tag orders desc reference
  | untag orders reference _ named => exact named.untag orders reference
  | delete _ deleted named => exact named.deleteLoop deleted
  | gc _ collected named => exact named.gc collected
  | configure autoSaveIndex autoGC _ named => exact ⟨named.reference, named.resolved, named.listed⟩
  | save orders _ named => exact named.saveIndex orders
  | @reopen s s' sched _ opened named =>
    simp only [newWithContext, Store.layout] at opened
    split at opened
    · cases opened
    · rename_i resolver graph loaded
      have references := loadIndex_resolver loaded
      cases opened
      have origin {ref : String} {desc : Descriptor} (found : resolver.index.lookup ref = some desc) :
          ref ≠ "" ∧ Digest.validate desc.digest = true := by
        rw [references] at found
        rcases loaded_origin found with impossible | ⟨m, member, ⟨nonempty, rfl, rfl⟩ | ⟨rfl, rfl⟩⟩
        · cases impossible
        · exact ⟨nonempty, named.listed _ member⟩
        · exact ⟨ne_empty_of_validate (named.listed m member), named.listed m member⟩
      exact ⟨fun ref desc found => (origin found).1, fun ref desc found => (origin found).2, named.listed⟩

@[simp] theorem annotatedRef_setAnnotationRefName (desc : Descriptor) (ref : String) :
    annotatedRef (setAnnotationRefName desc ref) = ref := by
  simp only [annotatedRef, setAnnotationRefName, Finmap.lookup_insert, Option.getD_some]

@[simp] theorem annotatedRef_deleteAnnotationRefName (desc : Descriptor) :
    annotatedRef (deleteAnnotationRefName desc) = "" := by
  simp only [annotatedRef, deleteAnnotationRefName, Finmap.lookup_erase, Option.getD_none]

/-- Without the reference name, descriptors that differ at most in it are the same. -/
theorem deleteAnnotationRefName_congr {desc : Descriptor} {annotations : Annotations}
    (same : ∀ x ≠ Ocispec.annotationRefName, annotations.lookup x = desc.annotations.lookup x) :
    deleteAnnotationRefName { desc with annotations } = deleteAnnotationRefName desc := by
  have erased : annotations.erase Ocispec.annotationRefName = desc.annotations.erase Ocispec.annotationRefName := by
    refine Finmap.ext_lookup fun x => ?_
    by_cases own : x = Ocispec.annotationRefName
    · rw [own, Finmap.lookup_erase, Finmap.lookup_erase]
    · rw [Finmap.lookup_erase_ne own, Finmap.lookup_erase_ne own, same x own]
  simp only [deleteAnnotationRefName, erased]

@[simp] theorem deleteAnnotationRefName_idem (desc : Descriptor) :
    deleteAnnotationRefName (deleteAnnotationRefName desc) = deleteAnnotationRefName desc :=
  deleteAnnotationRefName_congr fun _ other => Finmap.lookup_erase_ne other

@[simp] theorem deleteAnnotationRefName_set (desc : Descriptor) (ref : String) :
    deleteAnnotationRefName (setAnnotationRefName desc ref) = deleteAnnotationRefName desc :=
  deleteAnnotationRefName_congr fun _ other => Finmap.lookup_insert_of_ne _ other

@[simp] theorem setAnnotationRefName_set (desc : Descriptor) (ref : String) :
    setAnnotationRefName (setAnnotationRefName desc ref) ref = setAnnotationRefName desc ref := by
  simp only [setAnnotationRefName, Finmap.insert_insert]

section RoundTrip
variable {orders orders' : SaveOrders} {refMap : Finmap (fun _ : String => Descriptor)}
  (nonempty : ∀ ref desc, refMap.lookup ref = some desc → ref ≠ "")
  (valid : ∀ ref desc, refMap.lookup ref = some desc → Digest.validate desc.digest = true)
  (digests : ∀ ref desc, refMap.lookup ref = some desc → Digest.validate ref = true → ref = desc.digest)

/-- The references of a store that loads what was saved for `refMap`. -/
def reloaded (orders : SaveOrders) (refMap : Finmap (fun _ : String => Descriptor)) : Resolver.Memory :=
  (indexManifests orders refMap).foldl loadReference {}

variable {m : Descriptor} {ref : String} {desc : Descriptor}

include valid in
theorem indexManifests_valid (member : m ∈ indexManifests orders refMap) :
    Digest.validate m.digest = true := by
  obtain ⟨ref, desc, found, same⟩ := indexManifests_key member
  have digest : m.digest = desc.digest := congrArg Key.digest same
  rw [digest]
  exact valid ref desc found

theorem annotatedRef_saved (member : m ∈ indexManifests orders refMap) (annotated : annotatedRef m ≠ "") :
    ∃ desc, refMap.lookup (annotatedRef m) = some desc ∧ annotatedRef m ≠ desc.digest ∧
      m = setAnnotationRefName desc (annotatedRef m) := by
  rcases mem_indexManifests.mp member with ⟨ref, desc, found, tag, rfl⟩ | ⟨desc, _, rfl, _⟩
  · rw [annotatedRef_setAnnotationRefName]
    exact ⟨desc, found, tag, rfl⟩
  · exact absurd (annotatedRef_deleteAnnotationRefName desc) annotated

include digests in
theorem tag_invalid (found : refMap.lookup ref = some desc) (tag : ref ≠ desc.digest) :
    Digest.validate ref = false := by
  by_contra other
  have isDigest := (Bool.not_eq_false _).mp other
  exact tag (digests ref desc found isDigest)

include nonempty valid in
theorem reloaded_tag (invalid : Digest.validate ref = false) :
    (reloaded orders refMap).index.lookup ref = (refMap.lookup ref).map fun desc => setAnnotationRefName desc ref := by
  have origin {d : Descriptor} (found : (reloaded orders refMap).index.lookup ref = some d) :
      ∃ desc, refMap.lookup ref = some desc ∧ d = setAnnotationRefName desc ref := by
    rcases loaded_origin found with impossible | ⟨m, member, ⟨annotated, rfl, rfl⟩ | ⟨rfl, _⟩⟩
    · cases impossible
    · obtain ⟨desc, before, _, same⟩ := annotatedRef_saved member annotated
      exact ⟨desc, before, same⟩
    · have isDigest := indexManifests_valid valid member
      cases invalid.symm.trans isDigest
  cases before : refMap.lookup ref with
  | none =>
    cases found : (reloaded orders refMap).index.lookup ref with
    | none => rfl
    | some d =>
      obtain ⟨desc, present, _⟩ := origin found
      cases before.symm.trans present
  | some desc =>
    have tag : ref ≠ desc.digest := by
      intro same
      have isDigest := valid ref desc before
      rw [← same] at isDigest
      cases invalid.symm.trans isDigest
    have listed : setAnnotationRefName desc ref ∈ indexManifests orders refMap :=
      mem_indexManifests.mpr (.inl ⟨ref, desc, before, tag, rfl⟩)
    have present : ref ∈ (reloaded orders refMap).index := by
      refine mem_loaded.mpr (.inr ⟨_, listed, .inl ?_⟩)
      rw [annotatedRef_setAnnotationRefName]
      exact ⟨nonempty ref desc before, rfl⟩
    obtain ⟨d, found⟩ := Finmap.mem_iff.mp present
    obtain ⟨desc', again, same⟩ := origin found
    cases before.symm.trans again
    rw [found, same, Option.map_some]

include digests in
theorem reloaded_digest {d : Descriptor} (isDigest : Digest.validate ref = true)
    (found : (reloaded orders refMap).index.lookup ref = some d) :
    ∃ m ∈ indexManifests orders refMap, m.digest = ref ∧ d = deleteAnnotationRefName m := by
  rcases loaded_origin found with impossible | ⟨m, member, ⟨annotated, rfl, _⟩ | ⟨rfl, rfl⟩⟩
  · cases impossible
  · obtain ⟨desc, before, tag, _⟩ := annotatedRef_saved member annotated
    have invalid := tag_invalid digests before tag
    cases invalid.symm.trans isDigest
  · exact ⟨m, member, rfl, rfl⟩

include nonempty valid digests in
theorem reloaded_tagged :
    (∃ ref desc, (reloaded orders refMap).index.lookup ref = some desc ∧ ref ≠ desc.digest ∧
        m = setAnnotationRefName desc ref) ↔
      ∃ ref desc, refMap.lookup ref = some desc ∧ ref ≠ desc.digest ∧ m = setAnnotationRefName desc ref := by
  constructor
  · rintro ⟨ref, desc', found, tag, rfl⟩
    cases isDigest : Digest.validate ref with
    | true =>
      obtain ⟨m, _, same, rfl⟩ := reloaded_digest digests isDigest found
      exact absurd same.symm tag
    | false =>
      rw [reloaded_tag nonempty valid isDigest] at found
      obtain ⟨desc, before, rfl⟩ := Option.map_eq_some_iff.mp found
      exact ⟨ref, desc, before, tag, setAnnotationRefName_set desc ref⟩
  · rintro ⟨ref, desc, before, tag, rfl⟩
    have invalid := tag_invalid digests before tag
    refine ⟨ref, setAnnotationRefName desc ref, ?_, tag, (setAnnotationRefName_set desc ref).symm⟩
    rw [reloaded_tag nonempty valid invalid, before, Option.map_some]

/-- The descriptor is resolved to by its digest, and nothing with its digest has a tag. -/
def Bare (refMap : Finmap (fun _ : String => Descriptor)) (desc : Descriptor) : Prop :=
  refMap.lookup desc.digest = some desc ∧
    ∀ ref desc', refMap.lookup ref = some desc' → desc'.digest = desc.digest → ref = desc'.digest

theorem Bare.entry (bare : Bare refMap desc) (member : m ∈ indexManifests orders refMap)
    (same : m.digest = desc.digest) : m = deleteAnnotationRefName desc := by
  rcases mem_indexManifests.mp member with ⟨ref, desc', found, tag, rfl⟩ | ⟨desc', found, rfl, _⟩
  · exact absurd (bare.2 ref desc' found same) tag
  · have digest : desc'.digest = desc.digest := same
    rw [digest, bare.1] at found
    rw [Option.some.inj found]

include valid digests in
theorem Bare.reloaded (bare : Bare refMap desc) :
    (reloaded orders refMap).index.lookup desc.digest = some (deleteAnnotationRefName desc) := by
  have isDigest := valid _ desc bare.1
  have listed : deleteAnnotationRefName desc ∈ indexManifests orders refMap :=
    mem_indexManifests.mpr (.inr ⟨desc, bare.1, rfl, bare.2⟩)
  have present : desc.digest ∈ (Oci.reloaded orders refMap).index := mem_loaded.mpr (.inr ⟨_, listed, .inr rfl⟩)
  obtain ⟨d, found⟩ := Finmap.mem_iff.mp present
  obtain ⟨m, member, same, rfl⟩ := reloaded_digest digests isDigest found
  rw [found, bare.entry member same, deleteAnnotationRefName_idem]

include nonempty valid digests in
theorem reloaded_untagged :
    (∃ desc, Bare (reloaded orders refMap).index desc ∧ m = deleteAnnotationRefName desc) ↔
      ∃ desc, Bare refMap desc ∧ m = deleteAnnotationRefName desc := by
  constructor
  · rintro ⟨desc', ⟨found, untagged⟩, rfl⟩
    have isDigest : Digest.validate desc'.digest = true := by
      rcases loaded_origin found with impossible | ⟨m, member, ⟨_, _, rfl⟩ | ⟨_, rfl⟩⟩
      · cases impossible
      · exact indexManifests_valid valid member
      · have listed := indexManifests_valid valid member
        exact listed
    obtain ⟨m, member, same, plain⟩ := reloaded_digest digests isDigest found
    rcases mem_indexManifests.mp member with ⟨ref, desc, before, tag, rfl⟩ | ⟨desc, before, rfl, alone⟩
    · have invalid := tag_invalid digests before tag
      have again : (reloaded orders refMap).index.lookup ref = some (setAnnotationRefName desc ref) := by
        rw [reloaded_tag nonempty valid invalid, before, Option.map_some]
      exact absurd (untagged ref _ again same) tag
    · refine ⟨desc, ⟨before, alone⟩, ?_⟩
      rw [plain, deleteAnnotationRefName_idem, deleteAnnotationRefName_idem]
  · rintro ⟨desc, bare, rfl⟩
    refine ⟨deleteAnnotationRefName desc, ⟨bare.reloaded valid digests, fun ref d found same => ?_⟩,
      (deleteAnnotationRefName_idem desc).symm⟩
    cases isDigest : Digest.validate ref with
    | true =>
      obtain ⟨m, _, digest, rfl⟩ := reloaded_digest digests isDigest found
      exact digest.symm
    | false =>
      rw [reloaded_tag nonempty valid isDigest] at found
      obtain ⟨desc', before, rfl⟩ := Option.map_eq_some_iff.mp found
      exact bare.2 ref desc' before same

include nonempty valid digests in
/-- Saving what was loaded lists the same entries again. -/
theorem mem_indexManifests_reloaded :
    m ∈ indexManifests orders' (reloaded orders refMap).index ↔ m ∈ indexManifests orders refMap := by
  have bare {refs : Finmap (fun _ : String => Descriptor)} :
      (∃ desc, refs.lookup desc.digest = some desc ∧ m = deleteAnnotationRefName desc ∧
        ∀ ref desc', refs.lookup ref = some desc' → desc'.digest = desc.digest → ref = desc'.digest) ↔
        ∃ desc, Bare refs desc ∧ m = deleteAnnotationRefName desc :=
    ⟨fun ⟨desc, found, same, alone⟩ => ⟨desc, ⟨found, alone⟩, same⟩,
      fun ⟨desc, ⟨found, alone⟩, same⟩ => ⟨desc, found, same, alone⟩⟩
  rw [mem_indexManifests, mem_indexManifests, bare, bare, reloaded_tagged nonempty valid digests,
    reloaded_untagged nonempty valid digests]

end RoundTrip

/-- Saving the index and loading it keeps the tags, up to the annotation with the
reference, keeps the digests, and can be repeated. -/
theorem saveIndex_loadIndex (session : Session cd s)
    (digests : ∀ ref desc, s.tagResolver.index.lookup ref = some desc → Digest.validate ref = true → ref = desc.digest)
    (orders orders' : SaveOrders) {blobs : Blobs} {sched : Nat → Scheduler cd (Storage.fetch blobs)}
    {resolver : Resolver.Memory} {graph : Memory}
    (loaded : loadIndex sched (s.saveIndex orders).indexFile {} {} = .ok (resolver, graph)) :
    (∀ ref, Digest.validate ref = false → (ref ∈ resolver.index ↔ ref ∈ s.tagResolver.index)) ∧
    (∀ ref desc, Digest.validate ref = false → s.tagResolver.index.lookup ref = some desc →
      ∃ desc', resolver.index.lookup ref = some desc' ∧
        deleteAnnotationRefName desc' = deleteAnnotationRefName desc) ∧
    (∀ ref, Digest.validate ref = true → ref ∈ s.tagResolver.index →
      ∃ desc', resolver.index.lookup ref = some desc' ∧ desc'.digest = ref) ∧
    ∀ m, m ∈ indexManifests orders' resolver.index ↔ m ∈ (s.saveIndex orders).indexFile := by
  have named := session.named
  have same : resolver = reloaded orders s.tagResolver.index := loadIndex_resolver loaded
  subst same
  have tag {ref : String} (invalid : Digest.validate ref = false) :
      (reloaded orders s.tagResolver.index).index.lookup ref =
        (s.tagResolver.index.lookup ref).map fun desc => setAnnotationRefName desc ref :=
    reloaded_tag named.reference named.resolved invalid
  refine ⟨fun ref invalid => ?_, fun ref desc invalid found => ?_, fun ref isDigest member => ?_, fun m => ?_⟩
  · rw [← Finmap.lookup_isSome, ← Finmap.lookup_isSome, tag invalid, Option.isSome_map]
  · refine ⟨setAnnotationRefName desc ref, ?_, deleteAnnotationRefName_set desc ref⟩
    rw [tag invalid, found, Option.map_some]
  · obtain ⟨desc, found⟩ := Finmap.mem_iff.mp member
    have own := digests ref desc found isDigest
    obtain ⟨m, listed, digest⟩ : ∃ m ∈ indexManifests orders s.tagResolver.index, m.digest = desc.digest :=
      indexManifests_digest found
    have present : ref ∈ (reloaded orders s.tagResolver.index).index :=
      mem_loaded.mpr (.inr ⟨m, listed, .inr (own.trans digest.symm)⟩)
    obtain ⟨d, again⟩ := Finmap.mem_iff.mp present
    obtain ⟨m', _, digest', rfl⟩ := reloaded_digest digests isDigest again
    exact ⟨_, again, digest'⟩
  · exact mem_indexManifests_reloaded named.reference named.resolved digests

set_option maxRecDepth 10000

namespace Reopened
open Sample

theorem references : store.tagResolver.index.keys = {"v1", image.digest} ∧
    store.tagResolver.index.lookup "v1" = some image ∧ store.tagResolver.index.lookup image.digest = some image ∧
    store.indexFile = (store.saveIndex orders).indexFile ∧ Digest.validate "v1" = false ∧
    successors codec (Storage.fetch store.blobs) image = .ok [config] := by
  decide +kernel

theorem digests {ref : String} {desc : Descriptor} (found : store.tagResolver.index.lookup ref = some desc)
    (isDigest : Digest.validate ref = true) : ref = desc.digest := by
  obtain ⟨keys, _, digest, _, invalid, _⟩ := references
  have member := Finmap.mem_keys.mpr (Finmap.mem_of_lookup_eq_some found)
  rw [keys, Finset.mem_insert, Finset.mem_singleton] at member
  rcases member with rfl | rfl
  · cases invalid.symm.trans isDigest
  · cases digest.symm.trans found
    rfl

end Reopened

/-- The tag of an image is there again after the index was loaded. -/
theorem saveIndex_loadIndex_image : Session Sample.codec Reopened.store ∧
    ∀ sched : Nat → Scheduler Sample.codec (Storage.fetch Reopened.store.blobs), ∃ resolver graph,
      loadIndex sched (Reopened.store.saveIndex Sample.orders).indexFile {} {} = .ok (resolver, graph) ∧
      ∃ desc, resolver.index.lookup "v1" = some desc ∧
        deleteAnnotationRefName desc = deleteAnnotationRefName Sample.image := by
  obtain ⟨_, tagged, _, saved, invalid, read⟩ := Reopened.references
  have session : Session Sample.codec Reopened.store := (Session.empty.push Sample.orders _ _).tag Sample.orders _ _
  refine ⟨session, fun sched => ?_⟩
  have readable : ∀ m ∈ (Reopened.store.saveIndex Sample.orders).indexFile,
      Readable Sample.codec (Storage.fetch Reopened.store.blobs) (fromOCI m) := by
    rw [← saved, Reopened.store_tagged.2.2.2]
    intro m member
    cases List.mem_singleton.mp member
    exact Reopened.image_readable read
  obtain ⟨⟨resolver, graph⟩, loaded⟩ : ∃ result,
      loadIndex sched (Reopened.store.saveIndex Sample.orders).indexFile {} {} = .ok result :=
    loadIndex_isOk_iff.mpr readable
  have kept := saveIndex_loadIndex session (fun _ _ => Reopened.digests) Sample.orders Sample.orders loaded
  exact ⟨resolver, graph, loaded, kept.2.1 "v1" Sample.image invalid tagged⟩

end OrasGo.Oci
