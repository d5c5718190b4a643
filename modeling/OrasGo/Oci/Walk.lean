import OrasGo.Oci.Delete
import OrasGo.Oci.Garbage
import OrasGo.Oci.TagSet
import OrasGo.Registry.Listing

/-! The walk of `Delete` over its queue, with the reason why each node is in it. Only what is
queued as a referrer can be tagged. -/

namespace OrasGo.Resolver.Memory

/-- Every reference is in the set of the digest that it resolves to. -/
def Covers (m : Memory) : Prop := ∀ r desc, m.index.lookup r = some desc → r ∈ (m.tags.lookup desc.digest).getD ∅

theorem covers_fresh : Covers {} := by
  intro r desc impossible
  cases impossible

theorem Covers.tag {m : Memory} (covers : m.Covers) (desc : Descriptor) (reference : String) :
    (m.tag desc reference).Covers := by
  intro r found resolved
  rw [tag_lookup] at resolved
  rw [tag_tags]
  by_cases same : r = reference
  · rw [if_pos same] at resolved
    cases resolved
    rw [if_pos rfl, same]
    exact Finset.mem_insert_self _ _
  · rw [if_neg same] at resolved
    split
    · exact Finset.mem_insert_of_mem (covers r found resolved)
    · exact covers r found resolved

theorem Covers.untag {m : Memory} (covers : m.Covers) (reference : String) : (m.untag reference).Covers := by
  intro r found resolved
  rw [untag_lookup] at resolved
  split at resolved
  · cases resolved
  · rename_i other
    cases atReference : m.index.lookup reference with
    | none =>
      simp only [Memory.untag, atReference]
      exact covers r found resolved
    | some desc =>
      rw [untag_tags atReference]
      split
      · exact Finset.mem_erase.mpr ⟨other, covers r found resolved⟩
      · exact covers r found resolved

theorem Covers.foldl_untag {m : Memory} (covers : m.Covers) (references : List String) :
    (references.foldl Memory.untag m).Covers := by
  induction references generalizing m with
  | nil => exact covers
  | cons reference rest ih => exact ih (covers.untag reference)

end OrasGo.Resolver.Memory

namespace OrasGo.Oci
open Graph Iteration

/-- Every reference is in the set of the digest it resolves to, and every node is under its key. -/
structure Coherent (tagResolver : Resolver.Memory) (graph : Memory) : Prop where
  covers : tagResolver.Covers
  keyed : ∀ k desc, graph.nodes.lookup k = some desc → fromOCI desc = k

section Coherent
variable {cd : Codec} {tagResolver tagResolver' : Resolver.Memory} {graph graph' : Memory}

theorem coherent_fresh : Coherent {} {} := ⟨Resolver.Memory.covers_fresh, fun _ _ impossible => (by cases impossible)⟩

theorem Coherent.tag (coherent : Coherent tagResolver graph) (desc : Descriptor) (reference : String) :
    Coherent (tagResolver.tag desc reference) graph := ⟨coherent.covers.tag desc reference, coherent.keyed⟩

theorem Coherent.untag (coherent : Coherent tagResolver graph) (reference : String) :
    Coherent (tagResolver.untag reference) graph := ⟨coherent.covers.untag reference, coherent.keyed⟩

theorem Coherent.index (cd : Codec) (coherent : Coherent tagResolver graph) (fetch : Fetcher) (node : Descriptor) :
    Coherent tagResolver (graph.index cd fetch node).2 := by
  refine ⟨coherent.covers, fun k desc found => ?_⟩
  cases read : successors cd fetch node with
  | error err =>
    simp only [Memory.index, read] at found
    exact coherent.keyed k desc found
  | ok nodes =>
    simp only [Memory.index, read, Memory.indexNode] at found
    obtain ⟨rfl, rfl⟩ | ⟨_, found⟩ := Interleaving.lookup_insert_cases found
    · rfl
    · exact coherent.keyed k desc found

theorem Coherent.indexAll {blobs : Blobs} (coherent : Coherent tagResolver graph)
    (sched : Scheduler cd (Storage.fetch blobs)) {node : Descriptor}
    (indexed : sched.indexAll graph node = (none, graph')) : Coherent tagResolver graph' := by
  have step (m : Memory) (desc : Descriptor) (holds : Coherent tagResolver m) :
      Coherent tagResolver (m.index cd (Storage.fetch blobs) desc).2 := holds.index cd (Storage.fetch blobs) desc
  exact sched.indexAll_invariant (Storage.fetch_byKey blobs) step coherent indexed

theorem Coherent.loadIndex {blobs : Blobs} {sched : Nat → Scheduler cd (Storage.fetch blobs)} {manifests : List Descriptor}
    (coherent : Coherent tagResolver graph)
    (loaded : loadIndex sched manifests tagResolver graph = .ok (tagResolver', graph')) :
    Coherent tagResolver' graph' := by
  induction manifests generalizing tagResolver graph with
  | nil =>
    cases loaded
    exact coherent
  | cons desc manifests ih =>
    unfold Oci.loadIndex at loaded
    split at loaded
    · cases loaded
    · rename_i indexed
      refine ih ?_ loaded
      have digest := (coherent.indexAll _ indexed).tag (deleteAnnotationRefName desc) desc.digest
      unfold loadReference
      split
      · exact digest
      · exact digest.tag desc (annotatedRef desc)

variable {blobs : Blobs} {sched : String → Scheduler cd (Storage.fetch blobs)} {entries : List (String × Descriptor)}
  {r r' : Rebuilt}

theorem Coherent.indexTagged (coherent : Coherent r.tagResolver r.graph)
    (done : indexTagged sched entries r = .ok r') : Coherent r'.tagResolver r'.graph := by
  induction entries generalizing r with
  | nil =>
    cases done
    exact coherent
  | cons entry entries ih =>
    unfold Oci.indexTagged at done
    split at done
    · exact ih coherent done
    · split at done
      · cases done
      · rename_i indexed
        refine ih ?_ done
        exact ((coherent.indexAll _ indexed).tag _ _).tag _ _

theorem Coherent.subjectLoop {sched : Scheduler cd (Storage.fetch blobs)} {desc : Descriptor} {n : Nat}
    (coherent : Coherent r.tagResolver r.graph) (done : subjectLoop sched desc r n = some (.ok r')) :
    Coherent r'.tagResolver r'.graph := by
  induction n with
  | zero => cases done
  | succ n ih =>
    unfold Oci.subjectLoop at done
    split at done
    · cases done
    · cases done
      exact coherent
    · split at done
      · split at done
        · cases done
        · rename_i indexed
          cases done
          exact (coherent.indexAll _ indexed).tag _ _
      · exact ih done

theorem Coherent.indexReferrers {fuel : Nat} (coherent : Coherent r.tagResolver r.graph)
    (done : indexReferrers sched fuel entries r = some (.ok r')) : Coherent r'.tagResolver r'.graph := by
  induction entries generalizing r with
  | nil =>
    cases done
    exact coherent
  | cons entry entries ih =>
    unfold Oci.indexReferrers at done
    split at done
    · exact ih coherent done
    · split at done
      · cases done
      · cases done
      · rename_i looped
        exact ih (coherent.subjectLoop looped) done

end Coherent

/-- The states of a store: it is opened on a directory, and then come calls that return nil or fail. -/
inductive Life (cd : Codec) : Store → Prop
  | opened {layout : Layout} {sched : Nat → Scheduler cd (Storage.fetch layout.blobs)} {s : Store} :
      newWithContext layout sched = .ok s → Life cd s
  | push {s : Store} (orders : SaveOrders) (expected : Descriptor) (content : Bytes) :
      Life cd s → Life cd (s.push cd orders expected content).2
  | tag {s : Store} (orders : SaveOrders) (desc : Descriptor) (reference : String) :
      Life cd s → Life cd (s.tag orders desc reference).2
  | untag {s : Store} (orders : SaveOrders) (reference : String) : Life cd s → Life cd (s.untag orders reference).2
  | delete {s s' : Store} {orders : Nat → DeleteOrders} {target : Descriptor} {err : Option Error} :
      Life cd s → s.delete cd orders target = some (err, s') → Life cd s'
  | gc {s s' : Store} {choices : GCChoices cd s.blobs} {fuel : Nat} {err : Option Error} :
      Life cd s → s.gc choices fuel = some (err, s') → Life cd s'
  | configure {s : Store} (autoSaveIndex autoGC : Bool) : Life cd s → Life cd { s with autoSaveIndex, autoGC }
  | save {s : Store} (orders : SaveOrders) : Life cd s → Life cd (s.saveIndex orders)

namespace Store
variable {cd : Codec} {s s' : Store}

def Coherent (s : Store) : Prop := Oci.Coherent s.tagResolver s.graph

section

variable (coherent : s.Coherent)
include coherent

theorem Coherent.tagInternal (orders : SaveOrders) (desc : Descriptor) (reference : String) :
    (s.tagInternal orders desc reference).Coherent := by
  have digest : Oci.Coherent (if reference = desc.digest then s.tagResolver else s.tagResolver.tag desc desc.digest)
      s.graph := by
    split
    · exact coherent
    · exact Oci.Coherent.tag coherent desc desc.digest
  have tagged := digest.tag desc reference
  unfold Store.tagInternal
  simp only
  split
  · exact tagged
  · exact tagged

theorem Coherent.forget (orders : DeleteOrders) (target : Descriptor) :
    (s.forget orders target).Coherent := by
  have untagged := coherent.covers.foldl_untag (s.references orders.resolvers target)
  have keyed (k : Key) (desc : Descriptor)
      (found : (s.graph.remove orders.successors target).1.nodes.lookup k = some desc) : fromOCI desc = k := by
    by_cases same : k = fromOCI target
    · subst same
      rw [Memory.remove, Finmap.lookup_erase] at found
      cases found
    · rw [Memory.remove, Finmap.lookup_erase_ne same] at found
      exact coherent.keyed k desc found
  simp only [Store.forget]
  split
  · exact ⟨untagged, keyed⟩
  · exact ⟨untagged, keyed⟩

theorem Coherent.deleteNode (orders : DeleteOrders) (target : Descriptor) :
    (s.deleteNode orders target).2.Coherent := by
  unfold Store.deleteNode
  split
  · exact coherent.forget orders target
  · exact coherent.forget orders target

theorem Coherent.gc {choices : GCChoices cd s.blobs} {fuel : Nat} {err : Option Error}
    (collected : s.gc choices fuel = some (err, s')) : s'.Coherent := by
  unfold Store.gc at collected
  unfold Store.gcIndex at collected
  cases tagged : indexTagged choices.sched (choices.tagged.entries s.tagResolver.index) {} with
  | error err' =>
    simp only [tagged] at collected
    cases collected
    exact coherent
  | ok r =>
    have fresh := coherent_fresh.indexTagged (r := {}) tagged
    simp only [tagged] at collected
    rcases referring : indexReferrers choices.sched fuel (choices.untagged.entries s.tagResolver.index) r with
      _ | ⟨err' | r'⟩
    · simp only [referring] at collected
      cases collected
    · simp only [referring] at collected
      cases collected
      exact coherent
    · simp only [referring] at collected
      cases collected
      exact fresh.indexReferrers referring

theorem Coherent.push (orders : SaveOrders) (expected : Descriptor) (content : Bytes) :
    (s.push cd orders expected content).2.Coherent := by
  unfold Store.push
  split
  · exact coherent
  · rename_i blobs _
    have indexed := Oci.Coherent.index cd coherent (Storage.fetch blobs) expected
    split
    · rename_i graph same
      rw [same] at indexed
      exact indexed
    · rename_i graph same
      rw [same] at indexed
      split
      · exact Coherent.tagInternal (s := { s with blobs, graph }) indexed orders expected expected.digest
      · exact indexed

theorem Coherent.tag (orders : SaveOrders) (desc : Descriptor) (reference : String) :
    (s.tag orders desc reference).2.Coherent := by
  unfold Store.tag
  split
  · exact coherent
  · split
    · exact coherent
    · exact coherent
    · exact coherent.tagInternal orders desc reference

theorem Coherent.untag (orders : SaveOrders) (reference : String) :
    (s.untag orders reference).2.Coherent := by
  have untagged := Oci.Coherent.untag coherent reference
  unfold Store.untag
  split
  · exact coherent
  · split
    · exact coherent
    · split
      · exact coherent
      · simp only
        split
        · exact untagged
        · exact untagged

theorem Coherent.deleteLoop {orders : Nat → DeleteOrders} {n : Nat} {queue : List Descriptor} {err : Option Error}
    (deleted : Store.deleteLoop cd orders n queue s = some (err, s')) : s'.Coherent :=
  deleteLoop_keeps (fun _ orders node coherent => coherent.deleteNode orders node) coherent deleted

end

end Store

theorem Life.coherent {cd : Codec} {s : Store} (life : Life cd s) : s.Coherent := by
  induction life with
  | @opened layout sched s opened =>
    unfold newWithContext at opened
    split at opened
    · cases opened
      exact coherent_fresh
    · split at opened
      · cases opened
      · rename_i loaded
        cases opened
        exact coherent_fresh.loadIndex loaded
  | push orders expected content _ coherent => exact coherent.push orders expected content
  | tag orders desc reference _ coherent => exact coherent.tag orders desc reference
  | untag orders reference _ coherent => exact coherent.untag orders reference
  | delete _ deleted coherent => exact coherent.deleteLoop deleted
  | gc _ collected coherent => exact coherent.gc collected
  | configure autoSaveIndex autoGC _ coherent => exact coherent
  | save orders _ coherent => exact coherent

/-- Why a node is in the queue of `Delete`. -/
inductive Reason
  | target
  | referrer
  | dangling
  deriving DecidableEq

abbrev Queued := Reason × Descriptor

namespace Store

/-- The queue after a round: what was waiting, the referrers of the head, and the nodes that its
removal has left dangling and that have no tag. -/
def nextQueue (s : Store) (queue : List Queued) (referrers danglings : List Descriptor) : List Queued :=
  queue ++ referrers.map (Prod.mk .referrer) ++
    (if s.autoGC then danglings.filter fun d => !s.isTagged d else []).map (Prod.mk .dangling)

end Store

/-- The rounds of a `Delete` from a queue and a state on, whether they come to an error or not. -/
inductive Walk (cd : Codec) : List Queued → Store → Option Error → Store → Prop
  | done (s : Store) : Walk cd [] s none s
  | unlisted {head : Queued} {queue : List Queued} {s : Store} {err : Error} (orders : DeleteOrders) :
      s.referrersOf cd orders.predecessors head.2 = .error err → Walk cd (head :: queue) s (some err) s
  | kept {head : Queued} {queue : List Queued} {referrers : List Descriptor} {s s' : Store} {err : Error}
      (orders : DeleteOrders) : s.referrersOf cd orders.predecessors head.2 = .ok referrers →
      s.deleteNode orders head.2 = (.error err, s') → Walk cd (head :: queue) s (some err) s'
  | round {head : Queued} {queue : List Queued} {referrers danglings : List Descriptor} {s s₁ s' : Store}
      {err : Option Error} (orders : DeleteOrders) : s.referrersOf cd orders.predecessors head.2 = .ok referrers →
      s.deleteNode orders head.2 = (.ok danglings, s₁) →
      Walk cd (s₁.nextQueue queue referrers danglings) s₁ err s' → Walk cd (head :: queue) s err s'

section Walk
variable {cd : Codec} {s s' s₀ : Store}

theorem map_nextQueue (queue : List Queued) (referrers danglings : List Descriptor) :
    (s.nextQueue queue referrers danglings).map Prod.snd = queue.map Prod.snd ++ referrers ++
      if s.autoGC then danglings.filter fun d => !s.isTagged d else [] := by
  simp only [Store.nextQueue, List.map_append, List.map_map, Function.comp_def, List.map_id']

theorem deleteLoop_walk {orders : Nat → DeleteOrders} {n : Nat} {queue : List Queued} {err : Option Error}
    (deleted : Store.deleteLoop cd orders n (queue.map Prod.snd) s = some (err, s')) :
    Walk cd queue s err s' := by
  induction n generalizing queue s with
  | zero =>
    cases queue with
    | nil =>
      cases deleted
      exact .done _
    | cons head queue => cases deleted
  | succ n ih =>
    cases queue with
    | nil =>
      cases deleted
      exact .done _
    | cons head queue =>
      rw [List.map_cons] at deleted
      simp only [Store.deleteLoop] at deleted
      cases listed : s.referrersOf cd (orders n).predecessors head.2 with
      | error err' =>
        simp only [listed] at deleted
        cases deleted
        exact .unlisted (orders n) listed
      | ok referrers =>
        simp only [listed] at deleted
        rcases removed : s.deleteNode (orders n) head.2 with ⟨err' | danglings, s₁⟩
        · simp only [removed] at deleted
          cases deleted
          exact .kept (orders n) listed removed
        · simp only [removed] at deleted
          rw [← map_nextQueue] at deleted
          exact .round (orders n) listed removed (ih deleted)

theorem delete_walk {orders : Nat → DeleteOrders} {target : Descriptor} {err : Option Error}
    (deleted : s.delete cd orders target = some (err, s')) :
    Walk cd [(.target, target)] s err s' := by
  have queue : [target] = [(Reason.target, target)].map Prod.snd := rfl
  rw [Store.delete, queue] at deleted
  exact deleteLoop_walk deleted

theorem deleteNode_error {orders : DeleteOrders} {target : Descriptor} {err : Error}
    (failed : s.deleteNode orders target = (.error err, s')) : s'.blobs = s.blobs := by
  unfold Store.deleteNode at failed
  split at failed
  · cases failed
    rw [Store.forget_eq]
  · cases failed

theorem mem_nextQueue {queue : List Queued} {referrers danglings : List Descriptor} {q : Queued}
    (member : q ∈ s.nextQueue queue referrers danglings) :
    q ∈ queue ∨ q.1 = .referrer ∧ q.2 ∈ referrers ∨
      q.1 = .dangling ∧ q.2 ∈ danglings ∧ s.autoGC = true ∧ s.isTagged q.2 = false := by
  simp only [Store.nextQueue, List.mem_append, List.mem_map] at member
  rcases member with (waiting | ⟨r, listed, rfl⟩) | ⟨d, dangling, rfl⟩
  · exact .inl waiting
  · exact .inr (.inl ⟨rfl, listed⟩)
  · split at dangling
    · rename_i collects
      obtain ⟨listed, untagged⟩ := List.mem_filter.mp dangling
      exact .inr (.inr ⟨rfl, listed, collects, by simpa using untagged⟩)
    · cases dangling

/-- The content with this digest has a tag. -/
def Store.TaggedDigest (s : Store) (d : Digest) : Prop := ∃ desc, s.Tagged desc ∧ desc.digest = d

/-- `Delete` comes from a manifest to a predecessor that refers to it. -/
def Follows (cd : Codec) (s : Store) (k r : Key) : Prop :=
  isManifest k.plain = true ∧ r ∈ s.graph.predecessorSet k ∧ r ∈ s.graph.nodes ∧
    Registry.Refers cd (Storage.fetch s.blobs) r.plain k.plain

/-- The target of a `Delete` and the referrers that it comes to, direct or transitive. -/
def Reached (cd : Codec) (s : Store) (target : Descriptor) : Key → Prop :=
  Relation.ReflTransGen (Follows cd s) (fromOCI target)

/-- A node with this digest is reached. -/
def ReachedDigest (cd : Codec) (s : Store) (target : Descriptor) (d : Digest) : Prop :=
  ∃ k, Reached cd s target k ∧ k.digest = d

/-- A `Delete` that began in `s₀`, with the nodes it has removed and what is still to do. Of what
was tagged, only what is reached comes into the queue; and of the removed nodes no referrer is
forgotten. -/
structure Sparing (cd : Codec) (s₀ : Store) (target : Descriptor) (past : List Key) (queue : List Queued) (s : Store) :
    Prop where
  coherent : s.Coherent
  collects : s.autoGC = s₀.autoGC
  blobs : ∀ d content, s.blobs.lookup d = some content → s₀.blobs.lookup d = some content
  nodes : ∀ k, k ∈ s.graph.nodes ↔ k ∈ s₀.graph.nodes ∧ k ∉ past
  edges : ∀ k, s.graph.predecessorSet k ⊆ s₀.graph.predecessorSet k
  kept : ∀ k, ∀ r ∈ s₀.graph.predecessorSet k, r ∉ past → r ∈ s.graph.predecessorSet k
  references : ∀ ref desc, s₀.tagResolver.index.lookup ref = some desc →
    s.tagResolver.index.lookup ref = some desc ∨ desc.digest ∈ s₀.blobs ∧ desc.digest ∉ s.blobs
  gone : ∀ k ∈ past, k.digest ∉ s.blobs
  lost : ∀ d ∈ s₀.blobs, d ∉ s.blobs → s₀.TaggedDigest d → ReachedDigest cd s₀ target d
  queued : ∀ q ∈ queue, Reached cd s₀ target (fromOCI q.2) ∨ s.graph.predecessorSet (fromOCI q.2) = ∅ ∧
    (s₀.TaggedDigest q.2.digest → ReachedDigest cd s₀ target q.2.digest)
  followed : s₀.autoGC = true → ∀ k ∈ past, ∀ r, Follows cd s₀ k r → r ∈ past ∨ ∃ q ∈ queue, fromOCI q.2 = r

section Round
variable {target : Descriptor} {past : List Key} {queue : List Queued} {head : Queued}
  {referrers danglings : List Descriptor} {orders : DeleteOrders}

theorem Sparing.start (coherent : s.Coherent) (target : Descriptor) :
    Sparing cd s target [] [(.target, target)] s where
  coherent := coherent
  collects := rfl
  blobs _ _ found := found
  nodes k := by simp
  edges _ := Finset.Subset.refl _
  kept _ _ edge _ := edge
  references _ _ found := .inl found
  gone _ impossible := by cases impossible
  lost _ before gone := absurd before gone
  queued q member := by
    cases List.mem_singleton.mp member
    exact .inl .refl
  followed _ _ impossible := by cases impossible

section

variable (sparing : Sparing cd s₀ target past (head :: queue) s)
include sparing

/-- The reason for which the head may be tagged holds for what follows it as a referrer. -/
theorem Sparing.referrer_reached (listed : s.referrersOf cd orders.predecessors head.2 = .ok referrers)
    {r : Descriptor} (member : r ∈ referrers) : Reached cd s₀ target (fromOCI r) := by
  obtain ⟨_, manifest, k, node, predecessor, found, same, refers⟩ := Store.referrersOf_node listed member
  obtain rfl := sparing.coherent.keyed k node found
  rcases sparing.queued head List.mem_cons_self with reached | ⟨unreferenced, -⟩
  · obtain ⟨content, fetched⟩ := refers.fetched
    obtain ⟨_, stored⟩ := Storage.fetch_ok fetched
    have before := (sparing.nodes _).mp (Finmap.mem_of_lookup_eq_some found)
    rw [same]
    refine reached.tail ⟨manifest, sparing.edges _ predecessor, before.1, refers.congr rfl rfl ?_⟩
    rw [← Storage.fetch_congr ((sparing.blobs _ _ stored).trans stored.symm)]
    exact Storage.fetch_byKey _ _ _ rfl
  · rw [unreferenced] at predecessor
    exact absurd predecessor (Finset.notMem_empty _)

/-- Every referrer of the head is gone already, or among those that are queued for it. -/
theorem Sparing.follows_listed (collects : s₀.autoGC = true)
    (listed : s.referrersOf cd orders.predecessors head.2 = .ok referrers) {r : Key}
    (follows : Follows cd s₀ (fromOCI head.2) r) : r ∈ past ∨ ∃ d ∈ referrers, fromOCI d = r := by
  obtain ⟨manifest, edge, known, refers⟩ := follows
  by_cases removed : r ∈ past
  · exact .inl removed
  obtain ⟨node, found⟩ := Finmap.mem_iff.mp ((sparing.nodes r).mpr ⟨known, removed⟩)
  obtain rfl := sparing.coherent.keyed r node found
  have head_manifest : isManifest head.2 = true := manifest
  rw [Store.referrersOf, sparing.collects, collects, head_manifest, Bool.and_self, if_pos rfl, Registry.referrers,
    if_pos head_manifest] at listed
  have member : node ∈ s.graph.predecessorList orders.predecessors head.2 := by
    refine List.mem_map.mpr ⟨fromOCI node, (orders.predecessors.mem _ _).mpr (sparing.kept _ _ edge removed), ?_⟩
    rw [found, Option.getD_some]
  refine .inr (Registry.refers_listed listed member (fun content fetched => ?_)
    (refers.congr rfl rfl (Storage.fetch_byKey _ _ _ rfl)))
  obtain ⟨_, stored⟩ := Storage.fetch_ok fetched
  rw [Storage.fetch_congr ((sparing.blobs _ _ stored).trans stored.symm)]
  exact fetched

theorem Sparing.round (listed : s.referrersOf cd orders.predecessors head.2 = .ok referrers)
    (deleted : s.deleteNode orders head.2 = (.ok danglings, s')) :
    Sparing cd s₀ target (fromOCI head.2 :: past) (s'.nextQueue queue referrers danglings) s' := by
  have coherent : s'.Coherent := by
    have after := sparing.coherent.deleteNode orders head.2
    rwa [deleted] at after
  obtain ⟨_, stored, rfl, same⟩ := Store.deleteNode_ok deleted
  have graph : s'.graph = (s.graph.remove orders.successors head.2).1 := by rw [same, Store.forget_eq]
  have blobs : s'.blobs = s.blobs.erase head.2.digest := by rw [same]
  have references (ref : String) (desc : Descriptor) (found : s₀.tagResolver.index.lookup ref = some desc) :
      s'.tagResolver.index.lookup ref = some desc ∨ desc.digest ∈ s₀.blobs ∧ desc.digest ∉ s'.blobs := by
    rcases sparing.references ref desc found with kept | ⟨before, after⟩
    · by_cases removed : fromOCI desc = fromOCI head.2
      · have digest : desc.digest = head.2.digest := congrArg Key.digest removed
        obtain ⟨content, found⟩ := Finmap.mem_iff.mp stored
        rw [digest, blobs]
        exact .inr ⟨Finmap.mem_of_lookup_eq_some (sparing.blobs _ _ found), fun member => (Finmap.mem_erase.mp member).1 rfl⟩
      · rw [same]
        exact .inl (Store.forget_lookup.mpr ⟨kept, removed⟩)
    · rw [blobs]
      exact .inr ⟨before, fun member => after (Finmap.mem_erase.mp member).2⟩
  have lost (d : Digest) (before : d ∈ s₀.blobs) (after : d ∉ s'.blobs) (tagged : s₀.TaggedDigest d) :
      ReachedDigest cd s₀ target d := by
    by_cases earlier : d ∈ s.blobs
    · obtain rfl : d = head.2.digest := by
        by_contra other
        rw [blobs] at after
        exact after (Finmap.mem_erase.mpr ⟨other, earlier⟩)
      rcases sparing.queued head List.mem_cons_self with reached | ⟨-, reached⟩
      · exact ⟨_, reached, rfl⟩
      · exact reached tagged
    · exact sparing.lost d before earlier tagged
  refine ⟨coherent, ?_, fun d content found => ?_, fun k => ?_, fun k => ?_, fun k r edge fresh => ?_, references,
    fun k removed member => ?_, lost, fun q member => ?_, fun collects k removed r follows => ?_⟩
  · rw [same, Store.forget_eq]
    exact sparing.collects
  · rw [blobs] at found
    by_cases gone : d = head.2.digest
    · rw [gone, Finmap.lookup_erase] at found
      cases found
    · rw [Finmap.lookup_erase_ne gone] at found
      exact sparing.blobs d content found
  · rw [graph, Memory.mem_remove_nodes, sparing.nodes, List.mem_cons, not_or]
    tauto
  · rw [graph, Memory.remove_predecessorSet]
    split
    · exact (Finset.erase_subset _ _).trans (sparing.edges k)
    · exact sparing.edges k
  · obtain ⟨other, fresh⟩ := List.ne_and_not_mem_of_not_mem_cons fresh
    have before := sparing.kept k r edge fresh
    rw [graph, Memory.remove_predecessorSet]
    split
    · exact Finset.mem_erase.mpr ⟨other, before⟩
    · exact before
  · rw [blobs, Finmap.mem_erase] at member
    rcases List.mem_cons.mp removed with rfl | earlier
    · exact member.1 rfl
    · exact sparing.gone k earlier member.2
  · rcases mem_nextQueue member with waiting | ⟨_, referrer⟩ | ⟨_, dangling, _, untagged⟩
    · refine (sparing.queued q (List.mem_cons_of_mem _ waiting)).imp_right fun ⟨unreferenced, reached⟩ => ⟨?_, reached⟩
      rw [graph, Memory.remove_predecessorSet, unreferenced, Finset.erase_empty, ite_self]
    · exact .inl (sparing.referrer_reached listed referrer)
    · obtain ⟨k, successor, alone, found⟩ := (s.graph.mem_remove_danglings _ head.2).mp dangling
      cases sparing.coherent.keyed k q.2 found
      refine .inr ⟨?_, fun tagged => ?_⟩
      · rw [graph, Memory.remove_predecessorSet, if_pos successor, alone]
      · -- Its references are gone, and so is a blob with its digest.
        have ⟨desc, ⟨ref, resolved, other⟩, digest⟩ := tagged
        rcases references ref desc resolved with kept | ⟨before, after⟩
        · have covered := coherent.covers ref desc kept
          rw [digest] at covered other
          cases untagged.symm.trans ((s'.isTagged_iff q.2).mpr ⟨ref, covered, other⟩)
        · rw [digest] at before after
          exact lost _ before after tagged
  · have queue (q : Queued) (member : q ∈ queue ∨ q.1 = .referrer ∧ q.2 ∈ referrers) :
        q ∈ s'.nextQueue queue referrers (s.graph.remove orders.successors head.2).2 := by
      refine List.mem_append_left _ (List.mem_append.mpr (member.imp_right fun ⟨why, listed⟩ => ?_))
      exact List.mem_map.mpr ⟨q.2, listed, by rw [← why]⟩
    rcases List.mem_cons.mp removed with rfl | earlier
    · rcases sparing.follows_listed collects listed follows with gone | ⟨d, referrer, key⟩
      · exact .inl (List.mem_cons_of_mem _ gone)
      · exact .inr ⟨(.referrer, d), queue _ (.inr ⟨rfl, referrer⟩), key⟩
    · rcases sparing.followed collects k earlier r follows with gone | ⟨q, member, key⟩
      · exact .inl (List.mem_cons_of_mem _ gone)
      · rcases List.mem_cons.mp member with rfl | waiting
        · exact .inl (key ▸ List.mem_cons_self)
        · exact .inr ⟨q, queue q (.inl waiting), key⟩

end

/-- What a `Delete` from a queue on does in the end. An error leaves the blobs as the last round has
left them, and without one the whole queue is done. -/
theorem Sparing.walk {err : Option Error} (sparing : Sparing cd s₀ target past queue s) (walk : Walk cd queue s err s') :
    ∃ past' rest s₁, s₁.blobs = s'.blobs ∧ Sparing cd s₀ target past' rest s₁ ∧
      (err = none → rest = [] ∧ past ⊆ past' ∧ ∀ q ∈ queue, fromOCI q.2 ∈ past') := by
  induction walk generalizing past with
  | done s => exact ⟨past, [], s, rfl, sparing, fun _ => ⟨rfl, List.Subset.refl _, fun q impossible => by cases impossible⟩⟩
  | unlisted orders _ => exact ⟨past, _, _, rfl, sparing, fun impossible => by cases impossible⟩
  | kept orders listed deleted =>
    exact ⟨past, _, _, (deleteNode_error deleted).symm, sparing, fun impossible => by cases impossible⟩
  | round orders listed deleted _ ih =>
    obtain ⟨past', rest, s₁, same, after, done⟩ := ih (sparing.round listed deleted)
    refine ⟨past', rest, s₁, same, after, fun nil => ?_⟩
    obtain ⟨empty, grown, queued⟩ := done nil
    refine ⟨empty, fun k member => grown (List.mem_cons_of_mem _ member), fun q member => ?_⟩
    rcases List.mem_cons.mp member with rfl | waiting
    · exact grown List.mem_cons_self
    · exact queued q (List.mem_append_left _ (List.mem_append_left _ waiting))

theorem Reached.stored {k : Key} (reached : Reached cd s target k) : k = fromOCI target ∨ k.digest ∈ s.blobs := by
  cases reached with
  | refl => exact .inl rfl
  | tail _ follows =>
    obtain ⟨content, fetched⟩ := follows.2.2.2.fetched
    exact .inr (Finmap.mem_of_lookup_eq_some (Storage.fetch_ok fetched).2)

/-- All that is reached was removed when the queue is done. -/
theorem Sparing.reached_removed (sparing : Sparing cd s₀ target past [] s) (collects : s₀.autoGC = true)
    (start : fromOCI target ∈ past) {k : Key} (reached : Reached cd s₀ target k) : k ∈ past := by
  induction reached with
  | refl => exact start
  | tail _ follows ih =>
    rcases sparing.followed collects _ ih _ follows with removed | ⟨q, impossible, _⟩
    · exact removed
    · cases impossible

end Round

end Walk

/-- `Delete` keeps all tagged content but its target if no other referrer that it reaches in the
state before has the digest of something tagged; and if it returns nil, only then. -/
theorem delete_spares_tagged_iff {cd : Codec} {s s' : Store} (life : Life cd s) {orders : Nat → DeleteOrders}
    {target : Descriptor} {err : Option Error} (deleted : s.delete cd orders target = some (err, s')) :
    ((∀ d, ReachedDigest cd s target d → d ≠ target.digest → ¬ s.TaggedDigest d) →
      ∀ desc, s.Tagged desc → desc.digest ≠ target.digest → desc.digest ∈ s.blobs → desc.digest ∈ s'.blobs) ∧
    (s.autoGC = true → err = none →
      (∀ desc, s.Tagged desc → desc.digest ≠ target.digest → desc.digest ∈ s.blobs → desc.digest ∈ s'.blobs) →
      ∀ d, ReachedDigest cd s target d → d ≠ target.digest → ¬ s.TaggedDigest d) := by
  obtain ⟨past, rest, s₁, same, sparing, done⟩ := (Sparing.start life.coherent target).walk (delete_walk deleted)
  rw [← same]
  constructor
  · intro untagged desc tagged other stored
    by_contra lost
    have reached := sparing.lost _ stored lost ⟨desc, tagged, rfl⟩
    exact untagged _ reached other ⟨desc, tagged, rfl⟩
  · rintro collects nil spared _ ⟨k, reached, rfl⟩ other ⟨desc, tagged, digest⟩
    obtain ⟨rfl, -, queued⟩ := done nil
    have stored : k.digest ∈ s.blobs := reached.stored.resolve_left fun same => other (congrArg Key.digest same)
    have removed := sparing.reached_removed collects (queued _ List.mem_cons_self) reached
    exact sparing.gone k removed (digest ▸ spared desc tagged (digest ▸ other) (digest ▸ stored))

set_option maxRecDepth 10000

namespace Spared
open Sample

noncomputable def refs : Enumeration String :=
  .preferring (List.sublists ["v1", image.digest, artifact.digest, referrer.digest])

noncomputable def orders : SaveOrders := ⟨refs, refs⟩

noncomputable def deleteOrders (_ : Nat) : DeleteOrders where
  toSaveOrders := orders
  resolvers := refs
  predecessors := .preferring [[], [fromOCI referrer]]
  successors := .preferring (List.sublists [fromOCI image, fromOCI config, fromOCI emptyConfig])

noncomputable def imaged : Store := (({} : Store).push codec orders image imageBytes).2

/-- An image and a referrer of it. -/
noncomputable def pushed : Store := (imaged.push codec orders referrer referrerBytes).2

noncomputable def second : Store := (pushed.push codec orders artifact artifactBytes).2

/-- The artifact, which does not refer to the image, is tagged. -/
noncomputable def store : Store := (second.tag orders artifact "v1").2

noncomputable def deleted : Store := ((store.delete codec deleteOrders image).getD (none, store)).2

theorem life : Life codec pushed :=
  .push _ _ _ (.push _ _ _ (@Life.opened codec {} (fun _ =>
    .roundRobin 30 (Storage.fetch_byKey _) (Storage.fetch_finite _ _)) {} rfl))

theorem delete_spares : (store.delete codec deleteOrders image).map Prod.fst = some none ∧ store.autoGC = true ∧
    store.tagResolver.index.lookup "v1" = some artifact ∧ artifact.digest ∈ store.blobs ∧
    (∀ ref ∈ store.tagResolver.index.keys, ref ≠ "v1" →
      ((store.tagResolver.index.lookup ref).map Descriptor.digest) = some ref) ∧
    (∀ k ∈ store.graph.predecessorSet (fromOCI image), k = fromOCI referrer) ∧
    store.graph.predecessorSet (fromOCI referrer) = ∅ := by
  decide +kernel

/-- Now it is the referrer that is tagged. -/
noncomputable def marked : Store := (pushed.tag orders referrer "v1").2

noncomputable def lost : Store := ((marked.delete codec deleteOrders image).getD (none, marked)).2

theorem lost_referrer : (pushed.tag orders referrer "v1").1 = none ∧
    (marked.delete codec deleteOrders image).map Prod.fst = some none ∧
    marked.tagResolver.index.lookup "v1" = some referrer ∧ marked.autoGC = true ∧
    referrer.digest ∈ marked.blobs ∧ referrer.digest ∉ lost.blobs := by
  decide +kernel

end Spared

theorem delete_spares_tagged_artifact : Life Sample.codec Spared.store ∧ Spared.store.autoGC = true ∧
    Spared.store.delete Sample.codec Spared.deleteOrders Sample.image = some (none, Spared.deleted) ∧
    Spared.store.Tagged Sample.artifact ∧ Sample.artifact.digest ∈ Spared.deleted.blobs := by
  obtain ⟨nil, collects, tagged, stored, digests, image, referrer⟩ := Spared.delete_spares
  have life : Life Sample.codec Spared.store := .tag _ _ _ (.push _ _ _ Spared.life)
  have ended : Spared.store.delete Sample.codec Spared.deleteOrders Sample.image = some (none, Spared.deleted) :=
    Sample.returned_nil nil _
  -- From here on only these facts about the two stores are used.
  clear nil
  generalize Spared.store = store, Spared.deleted = deleted at *
  have isTagged : store.Tagged Sample.artifact := ⟨"v1", tagged, by decide⟩
  refine ⟨life, collects, ended, isTagged, ?_⟩
  refine (delete_spares_tagged_iff life ended).1 ?_ _ isTagged (by decide) stored
  -- Only the referrer is reached, and its digest is its only reference.
  rintro _ ⟨k, reached, rfl⟩ other ⟨desc, ⟨ref, found, isTag⟩, digest⟩
  have only : k = fromOCI Sample.image ∨ k = fromOCI Sample.referrer := by
    clear other digest
    induction reached with
    | refl => exact .inl rfl
    | tail _ follows ih =>
      rcases ih with rfl | rfl
      · exact .inr (image _ follows.2.1)
      · have impossible := follows.2.1
        rw [referrer] at impossible
        cases impossible
  have same := only.resolve_left fun impossible => other (congrArg Key.digest impossible)
  by_cases v1 : ref = "v1"
  · rw [v1, tagged] at found
    cases found
    rw [same] at digest
    revert digest
    decide
  · have isDigest := digests ref (Finmap.mem_keys.mpr (Finmap.mem_of_lookup_eq_some found)) v1
    rw [found] at isDigest
    exact isTag (Option.some.inj isDigest).symm

/-- A tagged referrer of the deleted image is removed with it. -/
theorem delete_removes_tagged_referrer : Life Sample.codec Spared.marked ∧ Spared.marked.autoGC = true ∧
    Spared.marked.delete Sample.codec Spared.deleteOrders Sample.image = some (none, Spared.lost) ∧
    Spared.marked.Tagged Sample.referrer ∧ Sample.referrer.digest ≠ Sample.image.digest ∧
    Sample.referrer.digest ∈ Spared.marked.blobs ∧ Sample.referrer.digest ∉ Spared.lost.blobs := by
  obtain ⟨_, nil, tagged, collects, before, after⟩ := Spared.lost_referrer
  exact ⟨.tag _ _ _ Spared.life, collects, Sample.returned_nil nil _, ⟨"v1", tagged, by decide⟩, by decide, before, after⟩

end OrasGo.Oci
