import OrasGo.Copy.Workers
import OrasGo.Syncutil.Started

/-! What a copy leaves in the destination: at every instant the nodes there have
their successors there, and a copy that succeeds has handled each node once. -/

namespace OrasGo.Copy
open Interleaving Syncutil
variable {G : Content} {opts : Options} {limit : Nat} {stored : Finset Key} {σ : CopyRun}

set_option maxRecDepth 10000

/-- Surroundings that answer as soon as they can and never fail. -/
def obliging (G : Content) (s : Shared CopyState) (_ : Nat) : (op : Op CopyOp Item) → Ans CopyAns op
  | .regionStart => none
  | .regionEnd => ()
  | .withContext => s.groups.length
  | .spawn _ _ => none
  | .load g => (s.groups[g]?).bind Group.egErr
  | .wait g => (s.groups[g]?).bind Group.err
  | .compareAndSwap _ _ => ()
  | .report _ _ => ()
  | .user (.tryCommit node) => (s.user.tracker (fromOCI node)).isNone
  | .user (.closeDone _) => ()
  | .user (.selectDone _) => none
  | .user (.dstExists desc) => .ok (decide (fromOCI desc ∈ s.user.stored))
  | .user (.findSuccessors desc) => G.successors desc
  | .user (.cacheExists desc) => .ok (isManifest desc)
  | .user (.fetch _) => none
  | .user (.push _) => none
  | .user (.preCopy _) => (false, none)
  | .user (.callback _ _) => none
  | .user (.mountFrom _) => .ok []
  | .user (.mount _ _) => .mounted
  | .user (.mountPush _) => none

/-! An image manifest without layers, and its empty configuration. -/

namespace Image

def config : Descriptor := Sample.config

def manifest : Descriptor := Sample.image

def content : Content where
  codec := Sample.codec
  blobs := (Finmap.singleton (fromOCI config) Sample.configBytes).insert (fromOCI manifest) Sample.imageBytes

/-- A copy of the image into an empty destination, with one permit. -/
def copied : CopyRun :=
  (copyGraph 1 ∅ manifest).rounds (copyMachine content ⟨false, false⟩) (obliging content) 32

theorem copied_reach : Reach (copyMachine content ⟨false, false⟩) (copyGraph 1 ∅ manifest) copied :=
  Pool.rounds_reach 32 _

end Image

theorem closed_empty : G.Closed ∅ := fun k member => absurd member (Finset.notMem_empty k)

/-- Children before parents: in every reachable state the destination holds the
successors of all it holds, foreign layers apart. -/
theorem stored_closed {items : List Item} (closed : G.Closed stored)
    (reach : Reach (copyMachine G opts) (start limit stored items) σ) :
    G.Closed σ.shared.user.stored := by
  obtain ⟨ghosts, _, inv⟩ := copy_reach reach
  exact inv.closed closed

theorem stored_closed_image :
    fromOCI Image.manifest ∈ Image.copied.shared.user.stored ∧
      Image.content.Closed Image.copied.shared.user.stored :=
  ⟨by decide +kernel, stored_closed closed_empty Image.copied_reach⟩

/-- The nodes of the graph below `root`, foreign layers apart. -/
def Content.SubDAG (G : Content) (root : Key) : Key → Prop :=
  Relation.ReflTransGen (fun parent child => G.Child child parent) root

theorem Content.Closed.subDAG {root k : Key} (closed : G.Closed stored) (here : root ∈ stored)
    (below : G.SubDAG root k) : k ∈ stored := by
  induction below with
  | refl => exact here
  | tail _ edge ih =>
    obtain ⟨node, child, rfl⟩ := edge
    exact closed _ ih node child

/-- The entries of the log for one node. -/
def CopyState.logFor (st : CopyState) (k : Key) : List Event := st.log.filter (fun event => event.key = k)

section Success
variable {items : List Item} {ghosts : List (Label Item × Ledger)}

theorem worker_ended (nil : ∀ (t : Nat) th, σ.threads[t]? = some th → th.prog = .ret none)
    (fits : List.Forall₂ (Fits (outline G) workerPost) σ.threads ghosts) {t : Nat} {label : Label Item}
    {l : Ledger} (atT : ghosts[t]? = some (label, l)) : workerPost label none l := by
  obtain ⟨prog, found, holds⟩ := thread_of_ghost fits atT
  have returned := nil t _ found
  change prog = .ret none at returned
  subst returned
  exact holds

/-- A node that was committed in a copy that has succeeded is done, and it was
handled by the worker that committed it and by no other. -/
theorem committed_handled (nil : ∀ (t : Nat) th, σ.threads[t]? = some th → th.prog = .ret none)
    (fits : List.Forall₂ (Fits (outline G) workerPost) σ.threads ghosts)
    (inv : CopyInv G stored σ.shared.user ghosts) {k : Key} {entry : Entry}
    (committed : σ.shared.user.tracker k = some entry) :
    entry.closed = true ∧ (∀ event ∈ σ.shared.user.log, event.key = k ↔ event.worker = entry.owner) ∧
      Handled k (σ.shared.user.logOf entry.owner) := by
  obtain ⟨label, l, atOwner, mine, opened⟩ := inv.owned k entry committed
  obtain ⟨noneOpen, _, handled⟩ := worker_ended nil fits atOwner rfl
  have closed : entry.closed = true := by
    by_contra still
    rw [Bool.not_eq_true] at still
    have impossible := opened still
    rw [noneOpen] at impossible
    exact impossible
  rcases handled with ⟨nothing, _⟩ | ⟨g, desc, _, own, handled⟩
  · rw [nothing] at mine
    exact absurd mine id
  · rw [own] at mine
    cases Set.mem_singleton_iff.mp mine
    refine ⟨closed, fun event member => ?_, (inv.agrees _ _ _ atOwner).log ▸ handled⟩
    obtain ⟨label', l', atWorker, known⟩ := inv.logged event member
    constructor
    · intro same
      obtain ⟨closed', atK⟩ := (inv.agrees _ _ _ atWorker).mine _ known
      rw [same, committed] at atK
      cases atK
      rfl
    · intro same
      rw [same] at atWorker
      cases atOwner.symm.trans atWorker
      rw [own] at known
      exact Set.mem_singleton_iff.mp known

end Success

/-- If `copyGraph` returns nil, the whole graph below the root is stored, and each
node it has reached was committed, and handled in one of the four ways, by exactly
one worker. -/
theorem copyGraph_complete {root : Descriptor} (closed : G.Closed stored)
    (reach : Reach (copyMachine G opts) (copyGraph limit stored root) σ) (success : σ.Returned 0 none) :
    (∀ k, G.SubDAG (fromOCI root) k → k ∈ σ.shared.user.stored) ∧
    ∀ k, σ.shared.user.tracker k ≠ none → ∃ worker, σ.shared.user.tracker k = some ⟨worker, true⟩ ∧
      (∀ event ∈ σ.shared.user.logFor k, event.worker = worker) ∧
      Handled k ((σ.shared.user.logFor k).map Event.entry) := by
  obtain ⟨creator, tree⟩ := copy_tree reach
  obtain ⟨ghosts, fits, inv⟩ := copy_reach reach
  have nil : ∀ (t : Nat) th, σ.threads[t]? = some th → th.prog = .ret none :=
    fun t th found => tree.all_nil success t found
  constructor
  · obtain ⟨label, main⟩ := success
    cases tree.main_label main
    obtain ⟨t, g, prog, found⟩ := started_reach reach main (List.mem_singleton.mpr rfl)
    obtain ⟨l, atT, _⟩ := ghost_of_thread fits found
    have seen := (worker_ended nil fits atT rfl).2.1 g root rfl
    obtain ⟨entry, committed⟩ := Option.ne_none_iff_exists'.mp ((inv.agrees _ _ _ atT).seen _ seen)
    have here := inv.done _ entry committed (committed_handled nil fits inv committed).1
    exact fun k below => (inv.closed closed).subDAG here below
  · intro k reached
    obtain ⟨⟨worker, done⟩, committed⟩ := Option.ne_none_iff_exists'.mp reached
    obtain ⟨closed', same, shape⟩ := committed_handled nil fits inv committed
    cases closed'
    have log : σ.shared.user.logFor k = σ.shared.user.log.filter (fun event => event.worker = worker) :=
      List.filter_congr fun event member => by simp only [same event member]
    refine ⟨worker, committed, fun event member => ?_, ?_⟩
    · exact (same event (List.mem_of_mem_filter member)).mp (of_decide_eq_true (List.mem_filter.mp member).2)
    · rw [log]
      exact shape

theorem copyGraph_complete_image :
    Image.copied.Returned 0 none ∧ ∀ k, Image.content.SubDAG (fromOCI Image.manifest) k →
      k ∈ Image.copied.shared.user.stored := by
  have success : Image.copied.Returned 0 none := Pool.returned?_eq_some.mp (by decide +kernel)
  exact ⟨success, (copyGraph_complete closed_empty Image.copied_reach success).1⟩

end OrasGo.Copy
