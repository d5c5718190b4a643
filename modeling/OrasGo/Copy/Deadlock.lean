import OrasGo.Base.Termination
import OrasGo.Base.Trace
import OrasGo.Cas.Hang
import OrasGo.Copy.Complete

/-! When a copy of an acyclic graph never gets stuck and always ends. -/

namespace OrasGo.Copy
open Interleaving Syncutil
variable {G : Content} {opts : Options} {limit : Nat} {stored : Finset Key} {items : List Item}
  {σ : CopyRun}

set_option maxRecDepth 10000

/-- No node is below itself. -/
def Content.Acyclic (G : Content) : Prop := ∀ k, ¬ Relation.TransGen G.Child k k

theorem Content.Child.mem {child parent : Key} (edge : G.Child child parent) : parent ∈ G.blobs := by
  obtain ⟨node, member, _⟩ := edge
  by_contra missing
  have fetched : G.fetch { mediaType := parent.mediaType, digest := parent.digest, size := parent.size } =
      .error .notFound := by
    simp only [Content.fetch, fromOCI, Finmap.lookup_eq_none.mpr missing]
  unfold Content.children Content.successors at member
  by_cases manifest : isManifest { mediaType := parent.mediaType, digest := parent.digest, size := parent.size } = true
  · rw [successors_of_fetch_error manifest fetched] at member
    cases member
  · rw [successors_of_not_isManifest (by simpa using manifest)] at member
    cases member

open Classical in
/-- A node has fewer blobs below it, itself included, than its parents have. -/
theorem Content.Acyclic.wellFounded (acyclic : G.Acyclic) : WellFounded G.Child := by
  let below (k : Key) : Finset Key := G.blobs.keys.filter fun x => Relation.ReflTransGen G.Child x k
  refine Subrelation.wf ?_ (measure fun k => (below k).card).wf
  intro child parent edge
  refine Finset.card_lt_card ((Finset.ssubset_iff_of_subset fun x member => ?_).mpr ⟨parent, ?_, fun member => ?_⟩)
  · obtain ⟨known, path⟩ := Finset.mem_filter.mp member
    exact Finset.mem_filter.mpr ⟨known, path.tail edge⟩
  · exact Finset.mem_filter.mpr ⟨Finmap.mem_keys.mpr edge.mem, .refl⟩
  · exact acyclic parent (.tail' (Finset.mem_filter.mp member).2 edge)

/-- The caller is above the workers for roots, and these are above those for nodes. -/
def rank : Label Item → Nat × Key
  | none => (2, ⟨"", "", 0⟩)
  | some (_, .root _) => (1, ⟨"", "", 0⟩)
  | some (_, .node desc) => (0, fromOCI desc)

theorem below_wellFounded (acyclic : G.Acyclic) : WellFounded (Below G) := by
  refine Subrelation.wf ?_ (InvImage.wf rank (wellFounded_lt.prod_lex acyclic.wellFounded))
  intro lower upper below
  match lower, upper, below with
  | some (_, .node _), some (_, .node _), below => exact .right 0 below
  | some (_, .node _), some (_, .root _), _ => exact .left _ _ Nat.zero_lt_one
  | some (_, .node _), none, _ => exact .left _ _ Nat.zero_lt_two
  | some (_, .root _), none, _ => exact .left _ _ Nat.one_lt_two

variable {t : Nat} {node : Descriptor}

/-- The goroutine that has to close the channel another one is waiting on is
below that one, as long as it has not returned. -/
theorem owner_below {ghosts : List (Label Item × Ledger)} {o : Nat} {label : Label Item}
    {next : Option Error → Worker (Option Error)} {op : Op CopyOp Item} {labelO : Label Item}
    {nextO : Ans CopyAns op → Worker (Option Error)}
    (fits : List.Forall₂ (Fits (outline G) workerPost) σ.threads ghosts) (inv : CopyInv G stored σ.shared.user ghosts)
    (waits : σ.threads[t]? = some ⟨label, .call (.user (.selectDone node)) next⟩)
    (entry : σ.shared.user.tracker (fromOCI node) = some ⟨o, false⟩)
    (owner : σ.threads[o]? = some ⟨labelO, .call op nextO⟩) (blocks : op.blocking blocking = true) :
    Below G labelO label := by
  obtain ⟨l, _, ⟨_, _, g, desc, own, child⟩, _⟩ := ghost_of_thread fits waits
  obtain ⟨lO, atO, preO, _⟩ := ghost_of_thread fits owner
  obtain ⟨label'', l'', atO', _, opened⟩ := inv.owned _ _ entry
  cases atO.symm.trans atO'
  have quiet : calm labelO lO := by
    cases op with
    | regionStart | spawn | wait => exact preO
    | user u =>
      cases u with
      | selectDone node' => exact preO.2.1
      | _ => cases blocks
    | _ => cases blocks
  obtain ⟨gO, descO, ownO, key⟩ := quiet _ (opened rfl)
  change label = _ at own
  subst own ownO
  change G.Child (fromOCI descO) (fromOCI desc)
  rw [key]
  exact child

/-- Whoever waits for a node waits for one that has been committed; if its
channel is not closed, the worker that committed it has not returned nil. -/
theorem waiting_entry {ghosts : List (Label Item × Ledger)} {label : Label Item}
    {next : Option Error → Worker (Option Error)} (fits : List.Forall₂ (Fits (outline G) workerPost) σ.threads ghosts)
    (inv : CopyInv G stored σ.shared.user ghosts)
    (waits : σ.threads[t]? = some ⟨label, .call (.user (.selectDone node)) next⟩) :
    ∃ entry, σ.shared.user.tracker (fromOCI node) = some entry ∧
      (entry.closed = false → ¬ σ.Returned entry.owner none ∧ ∃ th, σ.threads[entry.owner]? = some th) := by
  obtain ⟨l, atT, ⟨seen, _⟩, _⟩ := ghost_of_thread fits waits
  obtain ⟨entry, committed⟩ := Option.ne_none_iff_exists'.mp ((inv.agrees _ _ _ atT).seen _ seen)
  refine ⟨entry, committed, fun open' => ?_⟩
  obtain ⟨labelO, lO, atO, _, opened⟩ := inv.owned _ _ committed
  obtain ⟨prog, found, holds⟩ := thread_of_ghost fits atO
  refine ⟨?_, _, found⟩
  rintro ⟨label'', returned⟩
  cases found.symm.trans returned
  have none := (holds rfl).1
  have impossible := opened open'
  rw [none] at impossible
  exact impossible

/-- In a copy of an acyclic graph some goroutine can take a step as long as one
has not returned. -/
theorem step_or_done (acyclic : G.Acyclic) (positive : 0 < limit)
    (reach : Reach (copyMachine G opts) (start limit stored items) σ)
    (running : σ.shared.crashed = false) (unfinished : ∃ t, σ.Unfinished t) :
    ∃ t σ', StepBy (copyMachine G opts) t σ σ' := by
  by_contra still
  have stuck : Stuck (work opts) (answer G) σ := ⟨running, fun t σ' moved => still ⟨t, σ', moved⟩⟩
  obtain ⟨creator, tree⟩ := copy_tree reach
  obtain ⟨ghosts, fits, inv⟩ := copy_reach reach
  have permits := copy_permits reach
  have responsive := answer_responsive G
  obtain ⟨label, ⟨t, op, next, found⟩, least⟩ := (below_wellFounded acyclic).has_min
    {label | ∃ (t : Nat) (op : Op CopyOp Item) (next : Ans CopyAns op → Worker (Option Error)),
      σ.threads[t]? = some ⟨label, .call op next⟩}
    (by obtain ⟨t, label, op, next, found⟩ := unfinished; exact ⟨label, t, op, next, found⟩)
  have permitted := stuck.permitted tree responsive permits positive
  rcases stuck.waits tree responsive permitted found with
    ⟨g, rfl, made, t', item, op', next', found'⟩ | ⟨u, rfl, blocks, silent⟩
  · obtain ⟨_, label', prog', atCreator, below⟩ := tree.parent t' g item _ found'
    rw [made] at atCreator
    cases found.symm.trans atCreator
    exact least _ ⟨t', op', next', found'⟩ below
  · cases u with
    | selectDone node =>
      obtain ⟨⟨o, closed⟩, entry, owner⟩ := waiting_entry fits inv found
      cases closed with
      | true =>
        have answered := silent none
        simp only [answer, entry] at answered
        cases answered
      | false =>
        obtain ⟨notNil, ⟨labelO, progO⟩, foundO⟩ := owner rfl
        cases progO with
        | ret value =>
          cases value with
          | none => exact notNil ⟨labelO, foundO⟩
          | some err =>
            obtain ⟨err', main⟩ := stuck.main_failed tree responsive permitted ⟨labelO, foundO⟩
            exact stuck.main_running tree responsive permitted found main
        | call opO nextO =>
          have blocksO := stuck.blocks tree responsive foundO
          exact least labelO ⟨o, opO, nextO, foundO⟩ (owner_below fits inv found entry foundO blocksO)
    | _ => cases blocks

/-- A copy of an acyclic graph has no infinite run. -/
theorem copy_terminates (acyclic : G.Acyclic)
    (reach : Reach (copyMachine G opts) (start limit stored items) σ) :
    Acc (fun σ' σ => Step (copyMachine G opts) σ σ') σ := by
  refine acc_step (below_wellFounded acyclic)
    (P := fun σ => Reach (copyMachine G opts) (start limit stored items) σ)
    (fun σ σ' reach step => reach.tail step) (fun s => if s.cancelled then 0 else 1) ?_ ?_ ?_ reach
  · rintro s s' ⟨before, _, rfl⟩
    simp [before]
  · intro s t n op a s' spawned performed
    simp only [(respond_frame (perform_eq_some.mp performed).2).1]
  · intro σ t label op next a s spawned reach found performed th member
    obtain ⟨_, rfl | ⟨g, item, rfl, rfl⟩, _⟩ := respond_frame (perform_eq_some.mp performed).2
    · cases member
    · obtain ⟨creator, tree⟩ := copy_tree reach
      cases List.mem_singleton.mp member
      exact (tree.spawning t label g item next found).1

theorem failed_entry_kept {σ' : CopyRun} {k : Key} {o : Nat} {err : Error}
    (reach : Reach (copyMachine G opts) (start limit stored items) σ)
    (open' : σ.shared.user.tracker k = some ⟨o, false⟩) (failed : σ.Returned o (some err))
    (step : Step (copyMachine G opts) σ σ') : σ'.shared.user.tracker k = some ⟨o, false⟩ := by
  cases step with
  | env moved =>
    obtain ⟨_, _, same⟩ := moved
    rw [same]
    exact open'
  | thread t moved =>
    cases moved with
    | @answer label op next a s spawned found performed =>
      have responded := (perform_eq_some.mp performed).2
      cases op with
      | user u =>
        obtain ⟨user', answered, rfl, rfl⟩ := respond_user responded
        obtain ⟨ghosts, fits, inv⟩ := copy_reach reach
        obtain ⟨l, atT, pre, _⟩ := ghost_of_thread fits found
        obtain ⟨labelO, lO, atO, _, opened⟩ := inv.owned _ _ open'
        obtain ⟨l', _, after⟩ := inv.answer atT pre answered
        have other : t ≠ o := by
          rintro rfl
          obtain ⟨label'', returned⟩ := failed
          cases found.symm.trans returned
        exact (after.agrees o labelO lO ((List.getElem?_set_ne other).trans atO)).opened k (opened rfl)
      | _ =>
        have same := respond_user_kept responded (by simp)
        rw [same]
        exact open'

/-- The node whose done channel a worker is waiting on. -/
def waitsOn (σ : CopyRun) (w : Nat) : Option Descriptor :=
  match σ.threads[w]? with
  | some ⟨_, .call (.user (.selectDone node)) _⟩ => some node
  | _ => none

theorem waitsOn_eq_some {w : Nat} (waits : waitsOn σ w = some node) :
    ∃ label next, σ.threads[w]? = some ⟨label, .call (.user (.selectDone node)) next⟩ := by
  unfold waitsOn at waits
  split at waits
  · rename_i label node' next found
    cases waits
    exact ⟨label, next, found⟩
  · cases waits

/-- `FindSuccessors` reads a manifest through the proxy. -/
def Content.fetchCall (G : Content) (desc : Descriptor) : Cas.FetchCall where
  target := desc
  base := (G.fetch desc).map fun content => { content := { chunks := [content] } }
  consumer := readAllFrom G.codec desc

/-- `FindSuccessors` of the node can block forever. -/
def Content.Hangs (G : Content) (proxy : Cas.Proxy) (desc : Descriptor) : Prop :=
  isManifest desc = true ∧ ∃ ρ, Reach (Cas.proxyReply proxy G.codec).machine
    (Cas.proxyStart proxy ∅ [G.fetchCall desc]) ρ ∧ ρ.Stuck (Cas.proxyReply proxy G.codec)

/-- No manifest of the source goes on after the bytes that its descriptor describes. -/
def Content.Honest (G : Content) (proxy : Cas.Proxy) : Prop :=
  ∀ desc, isManifest desc = true → ¬ Cas.Trap proxy G.codec ∅ (G.fetchCall desc)

open Classical in
/-- A copy whose `FindSuccessors` does not return where it can block. -/
noncomputable def proxiedMachine (G : Content) (opts : Options) (proxy : Cas.Proxy) :
    Machine (Op CopyOp Item) (Ans CopyAns) (Shared CopyState) (Label Item) (Option Error) :=
  (copyMachine G opts).restrict fun _ op _ => match op with
    | .user (.findSuccessors desc) => ¬ G.Hangs proxy desc
    | _ => true

variable {proxy : Cas.Proxy}

open Classical in
theorem proxiedMachine_eq (honest : G.Honest proxy) : proxiedMachine G opts proxy = copyMachine G opts := by
  refine restrict_eq fun s op a => ?_
  split
  · rename_i desc _
    rw [decide_eq_true_eq]
    rintro ⟨manifest, ρ, reach, stuck⟩
    obtain ⟨call, member, trap⟩ := Cas.trap_of_stuck reach stuck
    cases List.mem_singleton.mp member
    exact honest desc manifest trap
  · rfl

theorem crashed_still {σ' : CopyRun} (crashed : σ.shared.crashed = true) : ¬ StepBy (copyMachine G opts) t σ σ' := by
  rintro ⟨-, performed⟩
  have running := (perform_eq_some.mp performed).1
  cases crashed.symm.trans running

/-- A run of uniform steps does not panic. -/
theorem uniform_reach (reach : Reach ((copyMachine G opts).restrict uniform) (start limit stored items) σ) :
    σ.shared.crashed = false := by
  refine Reach.invariant (P := fun σ => σ.shared.crashed = false) ?_ reach rfl
  intro σ₁ σ₂ running step
  cases step with
  | env moved =>
    obtain ⟨_, _, same⟩ := moved
    rw [same]
    exact running
  | thread t moved =>
    cases moved with
    | answer found performed =>
      obtain ⟨allowed, performed⟩ := restrict_perform.mp performed
      exact (respond_running (perform_eq_some.mp performed).2 allowed).trans running

namespace Image

theorem child_eq {child parent : Key} (edge : content.Child child parent) :
    child = fromOCI config ∧ parent = fromOCI manifest := by
  have leaf : content.children (fromOCI config) = [] := by decide +kernel
  have root : content.children (fromOCI manifest) = [config] := by decide +kernel
  have known := edge.mem
  rw [content, Finmap.mem_insert, Finmap.mem_singleton] at known
  obtain ⟨node, member, rfl⟩ := edge
  rcases known with rfl | rfl
  · rw [root] at member
    cases List.mem_singleton.mp member
    exact ⟨rfl, rfl⟩
  · rw [leaf] at member
    cases member

theorem acyclic : content.Acyclic := by
  intro k cycle
  obtain ⟨next, first, _⟩ := Relation.TransGen.head'_iff.mp cycle
  obtain ⟨previous, _, last⟩ := Relation.TransGen.tail'_iff.mp cycle
  have differ : fromOCI config ≠ fromOCI manifest := by decide +kernel
  exact differ ((child_eq first).1.symm.trans (child_eq last).2)

theorem honest (proxy : Cas.Proxy) : content.Honest proxy := by
  rintro desc - ⟨_, _, _, blob, base, _, longer⟩
  have sizes : ∀ k ∈ content.blobs.keys, ((content.blobs.lookup k).getD []).length = k.size := by decide +kernel
  cases found : content.blobs.lookup (fromOCI desc) with
  | none =>
    simp only [Content.fetchCall, Content.fetch, found, Except.map] at base
    cases base
  | some bytes =>
    simp only [Content.fetchCall, Content.fetch, found, Except.map] at base
    cases base
    have size := sizes (fromOCI desc) (Finmap.mem_keys.mpr (Finmap.mem_iff.mpr ⟨bytes, found⟩))
    rw [found, Option.getD_some, fromOCI_size] at size
    simp only [Content.fetchCall, Stream.bytes, List.flatten_singleton] at longer
    omega

/-- A proxy with the default of `MaxMetadataBytes`. -/
def metadataProxy : Cas.Proxy where
  pushLimit := some 4194304

/-- A destination without space; who waits for a node gives up when its context is done. -/
def full (s : Shared CopyState) (t : Nat) : (op : Op CopyOp Item) → Ans CopyAns op
  | .user (.push _) => some (.text "no space left on device")
  | .user (.selectDone _) => some .contextCanceled
  | op => obliging content s t op

/-- The configuration and the image are two roots. Worker 3 has failed to push
the configuration, and worker 4, for the manifest, waits for it. -/
def orphaned : CopyRun :=
  (extendedCopyGraph 2 ∅ [config, manifest]).rounds ((copyMachine content ⟨false, false⟩).restrict uniform) full 17

/-- Both roots have failed, the first one with a `CopyError` and the second one with the error of its context. -/
def panicked : CopyRun :=
  (extendedCopyGraph 2 ∅ [config, manifest]).rounds (copyMachine content ⟨false, false⟩) full 40

end Image

end OrasGo.Copy
