import OrasGo.Oci.IndexFile

/-! When a store can be opened again on its directory. -/

namespace OrasGo.Oci
open Graph Iteration
variable {cd : Codec} {s s' : Store} {blobs blobs' : Blobs}

section Load
variable {sched : Nat → Scheduler cd (Storage.fetch blobs)} {manifests : List Descriptor}
  {resolver resolver' : Resolver.Memory} {graph graph' : Memory}

theorem loadIndex_isOk_iff : (∃ result, loadIndex sched manifests resolver graph = .ok result) ↔
    ∀ m ∈ manifests, Readable cd (Storage.fetch blobs) (fromOCI m) := by
  induction manifests generalizing resolver graph with
  | nil => exact ⟨fun _ _ member => (by cases member), fun _ => ⟨_, rfl⟩⟩
  | cons m manifests ih =>
    rw [List.forall_mem_cons, loadIndex]
    rcases (sched manifests.length).indexAll_cases (Storage.fetch_byKey blobs) graph m with
      ⟨err, graph', called, broken⟩ | ⟨graph', called, readable, _⟩
    · rw [called]
      exact ⟨fun ⟨_, failed⟩ => (by cases failed), fun fine => absurd fine.1 broken⟩
    · rw [called]
      exact ih.trans (and_iff_right readable).symm

theorem loadIndex_resolver (loaded : loadIndex sched manifests resolver graph = .ok (resolver', graph')) :
    resolver' = manifests.foldl loadReference resolver := by
  induction manifests generalizing resolver graph with
  | nil =>
    cases loaded
    rfl
  | cons m manifests ih =>
    rw [loadIndex] at loaded
    split at loaded
    · cases loaded
    · exact ih loaded

theorem loadIndex_invariant {P : Memory → Prop} (step : ∀ m desc, P m → P (m.index cd (Storage.fetch blobs) desc).2)
    (holds : P graph) (loaded : loadIndex sched manifests resolver graph = .ok (resolver', graph')) : P graph' := by
  induction manifests generalizing resolver graph with
  | nil =>
    cases loaded
    exact holds
  | cons m manifests ih =>
    rw [loadIndex] at loaded
    split at loaded
    · cases loaded
    · rename_i indexed
      exact ih ((sched manifests.length).indexAll_invariant (Storage.fetch_byKey blobs) step holds indexed) loaded

end Load

/-- A directory can be opened exactly if everything below its index is absent or can be read. -/
theorem newWithContext_isOk_iff {sched : Nat → Scheduler cd (Storage.fetch s.layout.blobs)} :
    (∃ s', newWithContext s.layout sched = .ok s') ↔
      ∀ m ∈ s.indexFile, Readable cd (Storage.fetch s.blobs) (fromOCI m) := by
  have loads : (∃ result, loadIndex sched s.indexFile {} {} = .ok result) ↔ _ := loadIndex_isOk_iff
  refine Iff.trans ⟨?_, ?_⟩ loads
  · rintro ⟨s', opened⟩
    simp only [newWithContext, Store.layout] at opened
    split at opened
    · cases opened
    · exact ⟨_, ‹_›⟩
  · rintro ⟨⟨resolver, graph⟩, loaded⟩
    simp only [newWithContext, Store.layout]
    split
    · rename_i failed
      cases loaded.symm.trans failed
    · exact ⟨_, rfl⟩

/-- Every blob of the one storage is in the other, with the same content. -/
def Within (blobs' blobs : Blobs) : Prop := ∀ d content, blobs'.lookup d = some content → blobs.lookup d = some content

theorem Within.fetch (within : Within blobs' blobs) (desc : Descriptor) :
    Storage.fetch blobs' desc = Storage.fetch blobs desc ∨
      Storage.fetch blobs' desc = .error (.wrap (Storage.describe desc) .notFound) := by
  cases found : blobs'.lookup desc.digest with
  | some content => exact .inl (Storage.fetch_congr (found.trans (within _ _ found).symm))
  | none =>
    unfold Storage.fetch
    split
    · exact .inl rfl
    · exact .inr (by rw [found])

theorem Within.successors (cd : Codec) (within : Within blobs' blobs) (desc : Descriptor) :
    successors cd (Storage.fetch blobs') desc = successors cd (Storage.fetch blobs) desc ∨
      ∃ err, successors cd (Storage.fetch blobs') desc = .error err ∧ Error.is .notFound err = true := by
  cases manifest : isManifest desc with
  | false => exact .inl ((successors_of_not_isManifest manifest).trans (successors_of_not_isManifest manifest).symm)
  | true =>
    rcases within.fetch desc with same | absent
    · exact .inl (successors_congr rfl same)
    · exact .inr ⟨_, successors_of_fetch_error manifest absent, rfl⟩

theorem Within.edge (within : Within blobs' blobs) {k child : Key} (edge : Edge cd (Storage.fetch blobs') k child) :
    Edge cd (Storage.fetch blobs) k child := by
  obtain ⟨nodes, found, rest⟩ := edge
  rcases within.successors cd k.plain with same | ⟨err, absent, _⟩
  · exact ⟨nodes, same.symm.trans found, rest⟩
  · cases absent.symm.trans found

theorem Within.reachable (within : Within blobs' blobs) {root k : Key}
    (below : Reachable cd (Storage.fetch blobs') root k) : Reachable cd (Storage.fetch blobs) root k :=
  below.lift id fun _ _ => within.edge

/-- Removing blobs breaks nothing: what is absent is passed over. -/
theorem Within.readable (within : Within blobs' blobs) {root : Key}
    (readable : Readable cd (Storage.fetch blobs) root) : Readable cd (Storage.fetch blobs') root := by
  intro k below broken
  obtain ⟨err, failed, other⟩ := broken
  rcases within.successors cd k.plain with same | ⟨err', absent, notFound⟩
  · exact readable k (within.reachable below) ⟨err, same.symm.trans failed, other⟩
  · cases absent.symm.trans failed
    cases notFound.symm.trans other

theorem within_erase (blobs : Blobs) (d : Digest) : Within (blobs.erase d) blobs := by
  intro d' content found
  by_cases same : d' = d
  · subst same
    rw [Finmap.lookup_erase] at found
    cases found
  · rwa [Finmap.lookup_erase_ne same] at found

section Insert
variable {d : Digest} {content : Bytes}

theorem successors_insert {k : Key} (other : k.digest ≠ d) :
    successors cd (Storage.fetch (blobs.insert d content)) k.plain = successors cd (Storage.fetch blobs) k.plain :=
  successors_congr rfl (Storage.fetch_congr (Finmap.lookup_insert_of_ne _ other))

theorem reachable_insert {root k : Key} (below : Reachable cd (Storage.fetch (blobs.insert d content)) root k) :
    Reachable cd (Storage.fetch blobs) root k ∨
      ∃ through, Reachable cd (Storage.fetch (blobs.insert d content)) root through ∧ through.digest = d ∧
        Reachable cd (Storage.fetch (blobs.insert d content)) through k := by
  induction below with
  | refl => exact .inl .refl
  | @tail parent child before edge ih =>
    rcases ih with old | ⟨through, first, digest, second⟩
    · by_cases new : parent.digest = d
      · exact .inr ⟨parent, before, new, .single edge⟩
      · obtain ⟨nodes, found, rest⟩ := edge
        exact .inl (old.tail ⟨nodes, (successors_insert new).symm.trans found, rest⟩)
    · exact .inr ⟨through, first, digest, second.tail edge⟩

/-- A new blob breaks nothing if it can be read under every key it is reached by. -/
theorem readable_insert {root : Key} (readable : Readable cd (Storage.fetch blobs) root)
    (new : ∀ k, Reachable cd (Storage.fetch (blobs.insert d content)) root k → k.digest = d →
      Readable cd (Storage.fetch (blobs.insert d content)) k) :
    Readable cd (Storage.fetch (blobs.insert d content)) root := by
  intro k below broken
  rcases reachable_insert below with old | ⟨through, first, digest, second⟩
  · by_cases same : k.digest = d
    · exact new k below same k .refl broken
    · obtain ⟨err, failed, other⟩ := broken
      exact readable k old ⟨err, (successors_insert same).symm.trans failed, other⟩
  · exact new through first digest k second broken

end Insert

namespace Store

/-- All that the references resolve to can be read, and `index.json` lists nothing else. -/
structure Legible (cd : Codec) (s : Store) : Prop where
  saves : s.autoSaveIndex = true
  resolved : ∀ ref desc, s.tagResolver.index.lookup ref = some desc →
    Readable cd (Storage.fetch s.blobs) (fromOCI desc)
  synced : s.Synced

theorem Legible.of_saved {orders : SaveOrders} (saves : s.autoSaveIndex = true)
    (resolved : ∀ ref desc, s.tagResolver.index.lookup ref = some desc →
      Readable cd (Storage.fetch s.blobs) (fromOCI desc))
    (file : s.indexFile = indexManifests orders s.tagResolver.index) : s.Legible cd := by
  refine ⟨saves, resolved, fun m member => ?_⟩
  rw [file] at member
  exact indexManifests_key member

theorem Legible.tagInternal (legible : s.Legible cd) (orders : SaveOrders) {desc : Descriptor}
    (readable : Readable cd (Storage.fetch s.blobs) (fromOCI desc)) (reference : String) :
    (s.tagInternal orders desc reference).Legible cd := by
  obtain ⟨resolver, lookup, same⟩ := s.tagInternal_eq orders desc reference
  rw [same]
  refine .of_saved legible.saves (fun ref desc' found => ?_) (if_pos legible.saves)
  rw [lookup] at found
  split at found
  · cases found
    exact readable
  · exact legible.resolved ref desc' found

/-- Under every key by which the references or the new manifest itself reach it,
the new blob and what is below it can be read. -/
def Fits (cd : Codec) (s : Store) (expected : Descriptor) (content : Bytes) : Prop :=
  ∀ root k, (isManifest expected = true ∧ root = expected ∨ ∃ ref, s.tagResolver.index.lookup ref = some root) →
    Reachable cd (Storage.fetch (s.blobs.insert expected.digest content)) (fromOCI root) k →
    k.digest = expected.digest → Readable cd (Storage.fetch (s.blobs.insert expected.digest content)) k

theorem Legible.push (legible : s.Legible cd) {orders : SaveOrders} {expected : Descriptor} {content : Bytes}
    (fits : s.Fits cd expected content) (pushed : s.push cd orders expected content = (none, s')) :
    s'.Legible cd := by
  obtain ⟨_, _, _, nodes, _, stored, rfl, rfl⟩ := push_ok pushed
  have whole : Legible cd { s with
      blobs := s.blobs.insert expected.digest content, graph := s.graph.indexNode expected nodes } :=
    ⟨legible.saves, fun ref desc found => readable_insert (legible.resolved ref desc found)
      fun k => fits desc k (.inr ⟨ref, found⟩), legible.synced⟩
  split
  · exact whole.tagInternal orders (fits expected _ (.inl ⟨‹_›, rfl⟩) .refl rfl) expected.digest
  · exact whole

theorem Legible.untag (legible : s.Legible cd) {orders : SaveOrders} {reference : String}
    (untagged : s.untag orders reference = (none, s')) : s'.Legible cd := by
  obtain ⟨resolver, lookup, rfl⟩ := untag_ok untagged
  refine .of_saved legible.saves (fun ref desc found => ?_) (if_pos legible.saves)
  rw [lookup] at found
  split at found
  · cases found
  · exact legible.resolved ref desc found

theorem Legible.deleteNode (legible : s.Legible cd) {orders : DeleteOrders} {head : Descriptor}
    {danglings : List Descriptor} (deleted : s.deleteNode orders head = (.ok danglings, s')) : s'.Legible cd := by
  obtain ⟨_, _, _, rfl⟩ := deleteNode_ok deleted
  refine ⟨?_, fun ref desc found => ?_, legible.synced.forget legible.saves⟩
  · rw [forget_eq]
    exact legible.saves
  · exact (within_erase s.blobs head.digest).readable (legible.resolved ref desc (forget_lookup.mp found).1)

theorem Legible.delete (legible : s.Legible cd) {queue : List Descriptor} (deleted : Deletes cd queue s s') :
    s'.Legible cd := by
  induction deleted with
  | done s => exact legible
  | round orders _ removed _ ih => exact ih (legible.deleteNode removed)

end Store

/-- The calls after which the directory can be opened again: a `Push` of a blob
that can be read however it is reached, and a `Tag` of a descriptor that can be
read. -/
def Operation.KeepsLegible (cd : Codec) : Operation → Store → Prop
  | .push expected content, s => s.Fits cd expected content
  | .tag desc _, s => Readable cd (Storage.fetch s.blobs) (fromOCI desc)
  | .untag _, _ | .delete _, _ => True
  | .gc, _ => False
  | .configure autoSaveIndex _, _ => autoSaveIndex = true

theorem Run.legible (run : Run cd (Operation.KeepsLegible cd) s) : s.Legible cd := by
  induction run with
  | start => exact ⟨rfl, fun _ _ found => (by cases found), fun _ member => (by cases member)⟩
  | call _ allowed does legible =>
    cases does with
    | push orders pushed => exact legible.push allowed pushed
    | tag orders tagged =>
      obtain ⟨_, _, _, rfl⟩ := Store.tag_ok tagged
      exact legible.tagInternal orders allowed _
    | untag orders untagged => exact legible.untag untagged
    | delete orders deleted => exact legible.delete (delete_ok deleted)
    | gc choices fuel collected => exact allowed.elim
    | configure _ autoSaveIndex autoGC => exact ⟨allowed, legible.resolved, legible.synced⟩

/-- After every run of such calls a new store can be opened on the directory,
whatever the scheduler does. -/
theorem newWithContext_reopens (run : Run cd (Operation.KeepsLegible cd) s)
    (sched : Nat → Scheduler cd (Storage.fetch s.layout.blobs)) : ∃ s', newWithContext s.layout sched = .ok s' := by
  refine newWithContext_isOk_iff.mpr fun m member => ?_
  obtain ⟨ref, desc, found, same⟩ := run.legible.synced m member
  rw [same]
  exact run.legible.resolved ref desc found

set_option maxRecDepth 10000

namespace Reopened
open Sample

noncomputable def imaged : Store := (({} : Store).push codec orders image imageBytes).2

noncomputable def store : Store := (imaged.tag orders image "v1").2

theorem store_tagged : ((({} : Store).push codec orders image imageBytes).1 = none ∧
      (imaged.tag orders image "v1").1 = none) ∧
    successors codec (Storage.fetch (({} : Store).blobs.insert image.digest imageBytes)) image = .ok [config] ∧
    successors codec (Storage.fetch imaged.blobs) image = .ok [config] ∧
    store.indexFile = [setAnnotationRefName image "v1"] := by
  decide +kernel

theorem below_image (read : successors codec (Storage.fetch blobs) image = .ok [config]) {k : Key}
    (below : Reachable codec (Storage.fetch blobs) (fromOCI image) k) : k = fromOCI image ∨ k = fromOCI config := by
  induction below with
  | refl => exact .inl rfl
  | tail _ edge ih =>
    obtain ⟨nodes, found, node, member, rfl⟩ := edge
    rcases ih with rfl | rfl
    · cases read.symm.trans found
      cases List.mem_singleton.mp member
      exact .inr rfl
    · cases found
      cases member

theorem image_readable (read : successors codec (Storage.fetch blobs) image = .ok [config]) :
    Readable codec (Storage.fetch blobs) (fromOCI image) := by
  intro k below broken
  obtain ⟨err, failed, _⟩ := broken
  rcases below_image read below with rfl | rfl
  · cases read.symm.trans failed
  · cases failed

end Reopened

/-- An image that was pushed and tagged is opened again. -/
theorem newWithContext_reopens_image :
    Reopened.store.indexFile = [setAnnotationRefName Sample.image "v1"] ∧
    ∀ sched : Nat → Scheduler Sample.codec (Storage.fetch Reopened.store.layout.blobs),
      ∃ s', newWithContext Reopened.store.layout sched = .ok s' := by
  obtain ⟨⟨pushed, tagged⟩, new, old, file⟩ := Reopened.store_tagged
  have fits : Store.Fits Sample.codec {} Sample.image Sample.imageBytes := by
    rintro root k (⟨_, rfl⟩ | ⟨ref, found⟩) below same
    · rcases Reopened.below_image new below with rfl | rfl
      · exact Reopened.image_readable new
      · exact absurd same (by decide)
    · cases found
  exact ⟨file, newWithContext_reopens ((Run.start.push fits pushed).tag (Reopened.image_readable old) tagged)⟩

namespace Unopened
open Sample

noncomputable def stored : Store := (({} : Store).push codec orders hello helloBytes).2

noncomputable def store : Store := (stored.tag orders helloManifest "v1").2

theorem manifest_invalid : ((({} : Store).push codec orders hello helloBytes).1 = none ∧
      (stored.tag orders helloManifest "v1").1 = none) ∧ store.autoSaveIndex = true ∧
    store.indexFile = [setAnnotationRefName helloManifest "v1"] ∧
    successors codec (Storage.fetch store.blobs) helloManifest = .error (.json "invalid manifest") := by
  decide +kernel

end Unopened

/-- A text that was pushed and then tagged as a manifest keeps the directory from
being opened. -/
theorem newWithContext_fails :
    Run Sample.codec (fun op _ => (∃ expected content, op = .push expected content) ∨ ∃ desc ref, op = .tag desc ref)
      Unopened.store ∧ Unopened.store.autoSaveIndex = true ∧
    ∀ sched : Nat → Scheduler Sample.codec (Storage.fetch Unopened.store.layout.blobs),
      ¬ ∃ s', newWithContext Unopened.store.layout sched = .ok s' := by
  obtain ⟨⟨pushed, tagged⟩, saves, file, failed⟩ := Unopened.manifest_invalid
  refine ⟨(Run.start.push (.inl ⟨_, _, rfl⟩) pushed).tag (.inr ⟨_, _, rfl⟩) tagged, saves, fun sched opened => ?_⟩
  refine newWithContext_isOk_iff.mp opened (setAnnotationRefName Sample.helloManifest "v1") ?_ _ .refl ⟨_, failed, rfl⟩
  rw [file]
  exact List.mem_singleton_self _

end OrasGo.Oci
