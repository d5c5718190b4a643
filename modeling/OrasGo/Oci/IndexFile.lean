import OrasGo.Oci.Garbage

/-! When `index.json` lists nothing but what is stored. -/

namespace OrasGo.Oci
open Graph Iteration
variable {cd : Codec} {s s' : Store}

namespace Store

/-- All that the references resolve to and all that `index.json` lists is stored. -/
structure Complete (s : Store) : Prop where
  saves : s.autoSaveIndex = true
  resolved : ∀ ref desc, s.tagResolver.index.lookup ref = some desc → desc.digest ∈ s.blobs
  listed : ∀ m ∈ s.indexFile, m.digest ∈ s.blobs

/-- `index.json` lists nothing that the references do not resolve to. -/
def Synced (s : Store) : Prop :=
  ∀ m ∈ s.indexFile, ∃ ref desc, s.tagResolver.index.lookup ref = some desc ∧ fromOCI m = fromOCI desc

/-- No reference resolves to the digest of the node under another key. -/
def Unshared (s : Store) (node : Descriptor) : Prop :=
  ∀ ref desc, s.tagResolver.index.lookup ref = some desc → desc.digest = node.digest → fromOCI desc = fromOCI node

theorem Complete.of_saved {orders : SaveOrders} (saves : s.autoSaveIndex = true)
    (resolved : ∀ ref desc, s.tagResolver.index.lookup ref = some desc → desc.digest ∈ s.blobs)
    (file : s.indexFile = indexManifests orders s.tagResolver.index) : s.Complete := by
  refine ⟨saves, resolved, fun m member => ?_⟩
  rw [file] at member
  obtain ⟨ref, desc, found, same⟩ := indexManifests_key member
  rw [show m.digest = desc.digest from congrArg Key.digest same]
  exact resolved ref desc found

theorem Complete.tagInternal (complete : s.Complete) (orders : SaveOrders) {desc : Descriptor}
    (stored : desc.digest ∈ s.blobs) (reference : String) : (s.tagInternal orders desc reference).Complete := by
  obtain ⟨resolver, lookup, same⟩ := s.tagInternal_eq orders desc reference
  rw [same]
  refine .of_saved complete.saves (fun ref desc' found => ?_) (if_pos complete.saves)
  rw [lookup] at found
  split at found
  · cases found
    exact stored
  · exact complete.resolved ref desc' found

theorem Complete.push (complete : s.Complete) {orders : SaveOrders} {expected : Descriptor} {content : Bytes}
    (pushed : s.push cd orders expected content = (none, s')) : s'.Complete := by
  obtain ⟨_, _, _, nodes, _, stored, rfl, rfl⟩ := push_ok pushed
  have more (d : Digest) (member : d ∈ s.blobs) : d ∈ s.blobs.insert expected.digest content :=
    Finmap.mem_insert.mpr (.inr member)
  have whole : Complete { s with
      blobs := s.blobs.insert expected.digest content, graph := s.graph.indexNode expected nodes } :=
    ⟨complete.saves, fun ref desc found => more _ (complete.resolved ref desc found),
      fun m member => more _ (complete.listed m member)⟩
  split
  · exact whole.tagInternal orders (Finmap.mem_insert.mpr (.inl rfl)) expected.digest
  · exact whole

theorem Complete.untag (complete : s.Complete) {orders : SaveOrders} {reference : String}
    (untagged : s.untag orders reference = (none, s')) : s'.Complete := by
  obtain ⟨resolver, lookup, rfl⟩ := untag_ok untagged
  refine .of_saved complete.saves (fun ref desc found => ?_) (if_pos complete.saves)
  rw [lookup] at found
  split at found
  · cases found
  · exact complete.resolved ref desc found

theorem Complete.gc (json : cd.JSONErrors) (complete : s.Complete) {choices : GCChoices cd s.blobs} {fuel : Nat}
    (collected : s.gc choices fuel = some (none, s'))
    (reached : ∀ m ∈ s.indexFile, ∃ root k, s.Root cd root ∧ Indexed cd (Storage.fetch s.blobs) root k ∧
      k.digest = m.digest) : s'.Complete := by
  obtain ⟨rebuilt, remains⟩ := gc_ok collected
  have frame := rebuilt.frame
  have keeps {k : Key} {root : Descriptor} (isRoot : s.Root cd root)
      (indexed : Indexed cd (Storage.fetch s.blobs) root k) (stored : k.digest ∈ s.blobs) : k.digest ∈ s'.blobs := by
    have known : k.digest ∈ s'.graph.digestSet :=
      Memory.mem_digestSet.mpr ⟨k, (rebuilt.nodes k).mpr ⟨root, isRoot, indexed⟩, rfl⟩
    rw [← Finmap.lookup_isSome, remains, if_neg fun gone => gone.2 known]
    exact Finmap.lookup_isSome.mpr stored
  refine ⟨?_, fun ref desc found => ?_, fun m member => ?_⟩
  · exact (Store.mk.inj frame).2.2.2.2.1.trans complete.saves
  · obtain ⟨root, isRoot, same⟩ := rebuilt.descriptors ref desc found
    have stored : root.digest ∈ s.blobs := by
      rcases isRoot with ⟨ref, found, _⟩ | ⟨⟨found, _⟩, _⟩
      · exact complete.resolved ref root found
      · exact complete.resolved _ root found
    have readable := rebuilt.readable root isRoot _ .refl
    rw [show desc.digest = root.digest from congrArg Key.digest same]
    exact keeps isRoot ⟨.refl, Storage.successors_of_stored json stored readable⟩ stored
  · have file : s'.indexFile = s.indexFile := (Store.mk.inj frame).2.1
    rw [file] at member
    obtain ⟨root, k, isRoot, indexed, same⟩ := reached m member
    rw [← same]
    exact keeps isRoot indexed (same ▸ complete.listed m member)

section Delete
variable {orders : DeleteOrders} {head : Descriptor} {queue referrers danglings : List Descriptor}

theorem Unshared.forget {node : Descriptor} (unshared : s.Unshared node) :
    (s.forget orders head).Unshared node :=
  fun ref desc found => unshared ref desc (forget_lookup.mp found).1

theorem Synced.forget (saves : s.autoSaveIndex = true) (synced : s.Synced) : (s.forget orders head).Synced := by
  intro m member
  rcases s.forget_indexFile orders head saves with file | ⟨file, resolver⟩
  · rw [file] at member
    exact indexManifests_key member
  · rw [file] at member
    rw [resolver]
    exact synced m member

/-- Removing a node and the references to it keeps the index complete, if the
index lists no other node with its digest. -/
theorem Complete.deleteNode (complete : s.Complete) (synced : s.Synced) (unshared : s.Unshared head)
    (deleted : s.deleteNode orders head = (.ok danglings, s')) : s'.Complete := by
  obtain ⟨_, _, _, rfl⟩ := deleteNode_ok deleted
  have saves : (s.forget orders head).autoSaveIndex = true := by
    rw [forget_eq]
    exact complete.saves
  have remaining {ref : String} {desc : Descriptor}
      (found : (s.forget orders head).tagResolver.index.lookup ref = some desc) :
      desc.digest ∈ s.blobs.erase head.digest := by
    obtain ⟨before, other⟩ := forget_lookup.mp found
    exact Finmap.mem_erase.mpr ⟨fun same => other (unshared ref desc before same), complete.resolved ref desc before⟩
  refine ⟨saves, fun ref desc found => remaining found, fun m member => ?_⟩
  obtain ⟨ref, desc, found, same⟩ := synced.forget complete.saves m member
  rw [show m.digest = desc.digest from congrArg Key.digest same]
  exact remaining found

/-- What `Delete` keeps true before each of its rounds. -/
structure Removing (queue : List Descriptor) (s : Store) : Prop where
  complete : s.Complete
  synced : s.Synced
  queued : ∀ node ∈ queue, s.Unshared node
  nodes : s.autoGC = true → ∀ k node, s.graph.nodes.lookup k = some node → s.Unshared node

theorem Removing.round (removing : Removing (head :: queue) s)
    (listed : s.referrersOf cd orders.predecessors head = .ok referrers)
    (deleted : s.deleteNode orders head = (.ok danglings, s')) :
    Removing (queue ++ referrers ++ if s'.autoGC then danglings.filter fun d => !s'.isTagged d else []) s' := by
  have complete := removing.complete.deleteNode removing.synced (removing.queued head List.mem_cons_self) deleted
  obtain ⟨_, _, rfl, rfl⟩ := deleteNode_ok deleted
  have autoGC : (s.forget orders head).autoGC = s.autoGC := by rw [forget_eq]
  have graph : (s.forget orders head).graph = (s.graph.remove orders.successors head).1 := by rw [forget_eq]
  refine ⟨complete, removing.synced.forget removing.complete.saves, fun node member => ?_, fun gc k node found => ?_⟩
  · refine Unshared.forget ?_
    rcases List.mem_append.mp member with old | new
    · rcases List.mem_append.mp old with waiting | referrer
      · exact removing.queued node (List.mem_cons_of_mem _ waiting)
      · obtain ⟨gc, _, k, node', _, found, same, _⟩ := referrersOf_node listed referrer
        intro ref desc resolved digest
        rw [same]
        exact removing.nodes gc k node' found ref desc resolved (digest.trans (congrArg Key.digest same))
    · split at new
      · rename_i gc
        obtain ⟨k, _, _, found⟩ := (s.graph.mem_remove_danglings _ head).mp (List.mem_filter.mp new).1
        exact removing.nodes (autoGC.symm.trans gc) k node found
      · cases new
  · refine Unshared.forget (removing.nodes (autoGC.symm.trans gc) k node ?_)
    change (s.forget orders head).graph.nodes.lookup k = some node at found
    rw [graph] at found
    by_cases same : k = fromOCI head
    · subst same
      simp only [Memory.remove, Finmap.lookup_erase] at found
      cases found
    · simpa only [Memory.remove, Finmap.lookup_erase_ne same] using found

theorem Removing.run (removing : Removing queue s) (deleted : Deletes cd queue s s') : s'.Complete := by
  induction deleted with
  | done s => exact removing.complete
  | round orders listed removed _ ih => exact ih (removing.round listed removed)

end Delete

end Store

/-- The calls after which `index.json` lists nothing but what is stored: a `Delete`
when the file lists nothing the references do not resolve to, and no digest that
it may remove under another key; a `GC` when the roots reach all the file lists. -/
def Operation.KeepsIndex (cd : Codec) : Operation → Store → Prop
  | .push _ _, _ | .tag _ _, _ | .untag _, _ => True
  | .delete target, s => s.Synced ∧ s.Unshared target ∧
      (s.autoGC = true → ∀ k node, s.graph.nodes.lookup k = some node → s.Unshared node)
  | .gc, s => ∀ m ∈ s.indexFile, ∃ root k, s.Root cd root ∧ Indexed cd (Storage.fetch s.blobs) root k ∧
      k.digest = m.digest
  | .configure autoSaveIndex _, _ => autoSaveIndex = true

theorem Run.complete (json : cd.JSONErrors) (run : Run cd (Operation.KeepsIndex cd) s) : s.Complete := by
  induction run with
  | start => exact ⟨rfl, fun _ _ found => (by cases found), fun _ member => (by cases member)⟩
  | call _ allowed does complete =>
    cases does with
    | push orders pushed => exact complete.push pushed
    | tag orders tagged =>
      obtain ⟨_, _, stored, rfl⟩ := Store.tag_ok tagged
      exact complete.tagInternal orders stored _
    | untag orders untagged => exact complete.untag untagged
    | delete orders deleted =>
      obtain ⟨synced, unshared, nodes⟩ := allowed
      refine Store.Removing.run ⟨complete, synced, fun node member => ?_, nodes⟩ (delete_ok deleted)
      cases List.mem_singleton.mp member
      exact unshared
    | gc choices fuel collected => exact complete.gc json collected allowed
    | configure _ autoSaveIndex autoGC => exact ⟨allowed, complete.resolved, complete.listed⟩

/-- In every run of such calls, every descriptor listed in `index.json` has its
blob in the storage. -/
theorem index_lists_stored (json : cd.JSONErrors) (run : Run cd (Operation.KeepsIndex cd) s) :
    ∀ m ∈ s.indexFile, m.digest ∈ s.blobs :=
  (run.complete json).listed

set_option maxRecDepth 10000

namespace Tagged
open Sample

noncomputable def imaged : Store := (({} : Store).push codec orders image imageBytes).2

noncomputable def store : Store := (imaged.tag orders image "v1").2

noncomputable def collected : Store := ((store.gc (choices store) 1).getD (none, store)).2

theorem collected_lists : ((({} : Store).push codec orders image imageBytes).1 = none ∧
      (imaged.tag orders image "v1").1 = none ∧ (store.gc (choices store) 1).map Prod.fst = some none) ∧
    store.tagResolver.index.lookup "v1" = some image ∧ store.indexFile = [setAnnotationRefName image "v1"] ∧
    successors codec (Storage.fetch store.blobs) image = .ok [config] ∧
    collected.indexFile = [setAnnotationRefName image "v1"] := by
  decide +kernel

end Tagged

/-- A collection of a tagged image keeps what the index lists. -/
theorem index_lists_stored_image : Run Sample.codec (Operation.KeepsIndex Sample.codec) Tagged.collected ∧
    Tagged.collected.indexFile = [setAnnotationRefName Sample.image "v1"] ∧
    ∀ m ∈ Tagged.collected.indexFile, m.digest ∈ Tagged.collected.blobs := by
  obtain ⟨⟨pushed, tagged, nil⟩, resolved, listed, read, after⟩ := Tagged.collected_lists
  have ended : Tagged.store.gc (Sample.choices Tagged.store) 1 = some (none, Tagged.collected) :=
    Sample.returned_nil nil _
  have first : Run Sample.codec (Operation.KeepsIndex Sample.codec) Tagged.store :=
    (Run.start.push trivial pushed).tag trivial tagged
  have run : Run Sample.codec (Operation.KeepsIndex Sample.codec) Tagged.collected := by
    refine first.gc (fun m member => ?_) ended
    rw [listed, List.mem_singleton] at member
    subst member
    exact ⟨Sample.image, fromOCI Sample.image, .inl ⟨"v1", resolved, by decide⟩, ⟨.refl, _, read⟩, rfl⟩
  exact ⟨run, after, index_lists_stored (ofTable_jsonErrors _ _ _) run⟩

namespace Stale
open Sample

/-- An image without tags. -/
noncomputable def store : Store := (({} : Store).push codec orders image imageBytes).2

noncomputable def collected : Store := ((store.gc (choices store) 1).getD (none, store)).2

theorem collected_stale : (({} : Store).push codec orders image imageBytes).1 = none ∧
    (store.gc (choices store) 1).map Prod.fst = some none ∧ collected.autoSaveIndex = true ∧
    image ∈ collected.indexFile ∧ image.digest ∉ collected.blobs := by
  decide +kernel

end Stale

/-- `GC` removes an image without tags and leaves it in `index.json`. -/
theorem gc_leaves_stale_index :
    Run Sample.codec (fun op _ => op = .gc ∨ ∃ expected content, op = .push expected content) Stale.collected ∧
    Stale.collected.autoSaveIndex = true ∧
    Sample.image ∈ Stale.collected.indexFile ∧ Sample.image.digest ∉ Stale.collected.blobs := by
  obtain ⟨pushed, nil, saves, listed, gone⟩ := Stale.collected_stale
  have ended : Stale.store.gc (Sample.choices Stale.store) 1 = some (none, Stale.collected) :=
    Sample.returned_nil nil _
  exact ⟨(Run.start.push (.inr ⟨_, _, rfl⟩) pushed).gc (.inl rfl) ended, saves, listed, gone⟩

end OrasGo.Oci
