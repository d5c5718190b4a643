import OrasGo.Copy.Hooks
import OrasGo.Copy.Outline

/-! Proof outlines of the workers of `Copy`: how far a worker comes with the root. -/

namespace OrasGo.Copy
open Interleaving Syncutil

/-- How far a worker has come with the root. The worker for the root has `seen` it when another one
has committed it. -/
inductive Stage
  | idle
  | seen
  | mine
  | stored
  | tagged
  | skipped
  deriving DecidableEq

/-- The worker has committed the root itself. -/
def Stage.busy : Stage → Bool
  | .idle | .seen => false
  | _ => true

theorem Stage.busy_of_stored {stage : Stage} (far : stage = .stored ∨ stage = .tagged ∨ stage = .skipped) :
    stage.busy = true := by
  rcases far with rfl | rfl | rfl <;> rfl

section Ghosts
variable (delivery : Delivery)

/-- The descriptor is that of the root. -/
def Delivery.IsRoot (desc : Descriptor) : Prop := fromOCI desc = fromOCI delivery.root

instance (desc : Descriptor) : Decidable (delivery.IsRoot desc) := inferInstanceAs (Decidable (_ = _))

/-- The stage of a worker for the node that has not begun to copy it, and of one that has. -/
def Delivery.stage (desc : Descriptor) (stage : Stage) : Stage := if delivery.IsRoot desc then stage else .idle

/-- A worker for the node that returns nil is done with it. -/
def Delivery.Done (desc : Descriptor) (l : Stage) : Prop :=
  l = delivery.stage desc .tagged ∨ l = delivery.stage desc .skipped

/-- The worker was started for the root. -/
def Delivery.owns : Label Item → Bool
  | some (_, .node desc) => delivery.IsRoot desc
  | _ => false

/-- What the tracker tells the worker about the node. -/
def Delivery.committed (label : Label Item) (node : Descriptor) (committed : Bool) (l l' : Stage) : Prop :=
  match committed with
  | true => if delivery.IsRoot node then l = .idle ∧ l' = .mine else l' = l
  | false => l' = if delivery.owns label = true ∧ delivery.IsRoot node ∧ l = .idle then .seen else l

/-- What the operations of `copyGraph` do to the stage, with the hooks. -/
def hookedGhost (label : Label Item) : Ghost CopyOp CopyAns Stage where
  pre op l := match op with
    | .dstExists desc | .push desc | .mount desc _ | .mountPush desc | .preCopy desc => l = delivery.stage desc .mine
    | .callback .preCopy _ => False
    | .callback _ desc => l = delivery.stage desc .stored
    | _ => True
  next op answer l l' := match op, answer with
    | .tryCommit node, committed => delivery.committed label node committed l l'
    | .dstExists desc, .ok true => l' = delivery.stage desc .stored
    | .fetch _, err => foreignError err ∧ l' = l
    | .push desc, none => l' = delivery.stage desc .stored
    | .push desc, some err => Error.is .alreadyExists err → l' = delivery.stage desc .stored
    | .preCopy desc, (_, none) => l' = l ∧ (delivery.IsRoot desc → delivery.refPusher = false)
    | .preCopy desc, (_, some err) => foreignError (some err) ∧ (err = .skipNode → delivery.Done desc l')
    | .callback .onMounted desc, _ => l' = delivery.stage desc .skipped
    | .callback .postCopy desc, err =>
      (delivery.IsRoot desc → delivery.refPusher = false) → err = none → l' = delivery.stage desc .tagged
    | .callback _ desc, err => err = none → l' = delivery.stage desc .tagged
    | .mount desc _, .mounted => l' = delivery.stage desc .stored
    | .mount _ _, .failed err => foreignError (some err) ∧ l' = l
    | .mountPush desc, none => l' = delivery.stage desc .stored
    | .mountPush _, some err => foreignError (some err)
    | _, _ => l' = l

/-- What the operations of the hooks do to the stage. -/
def targetGhost (label : Label Item) : Ghost TargetOp TargetAns Stage where
  pre op l := match op with
    | .copy (.dstExists desc) | .copy (.push desc) | .copy (.mount desc _) | .copy (.mountPush desc)
    | .copy (.preCopy desc) => l = delivery.stage desc .mine
    | .copy (.callback .onMounted desc) => l = delivery.stage desc .stored
    | .copy (.callback .preCopy _) => False
    | .pushReference desc reference => delivery.IsRoot desc ∧ reference = delivery.dstRef ∧ (l = .mine ∨ l = .stored)
    | .tag desc reference => delivery.IsRoot desc ∧ reference = delivery.dstRef ∧ l = .stored
    | _ => True
  next op answer l l' := match op, answer with
    | .copy (.tryCommit node), committed => delivery.committed label node committed l l'
    | .copy (.dstExists desc), .ok true => l' = delivery.stage desc .stored
    | .copy (.fetch _), err => foreignError err ∧ l' = l
    | .copy (.push desc), none => l' = delivery.stage desc .stored
    | .copy (.push desc), some err => l' = if Error.is .alreadyExists err then delivery.stage desc .stored else l
    | .copy (.preCopy desc), (_, err) => foreignError err ∧
      l' = if err = some .skipNode then delivery.stage desc .skipped else l
    | .copy (.callback .onMounted desc), _ => l' = delivery.stage desc .skipped
    | .copy (.callback _ _), err => foreignError err ∧ l' = l
    | .copy (.mount desc _), .mounted => l' = delivery.stage desc .stored
    | .copy (.mount _ _), .failed err => foreignError (some err) ∧ l' = l
    | .copy (.mountPush desc), none => l' = delivery.stage desc .stored
    | .copy (.mountPush _), some err => foreignError (some err) ∧ l' = l
    | .fetchCached _, err => foreignError err ∧ l' = l
    | .pushReference _ _, none => l' = .tagged
    | .pushReference _ _, some err => foreignError (some err) ∧ l' = if Error.is .alreadyExists err then .tagged else l
    | .tag _ _, none => l' = .tagged
    | .tag _ _, some err => foreignError (some err) ∧ l' = l
    | _, _ => l' = l

end Ghosts

/-- Nothing is kept of a worker while it waits. -/
def unconcerned (_ : Label Item) (_ : Stage) : Prop := True

section Program
variable {delivery : Delivery} {label : Label Item} {desc : Descriptor} {l : Stage}

abbrev hookedOutline (delivery : Delivery) (label : Label Item) := callbackGhost (hookedGhost delivery) unconcerned label

/-- If the worker returns nil, it is done with its node. -/
abbrev Finished (delivery : Delivery) (desc : Descriptor) (err : Option Error) (l : Stage) : Prop :=
  err = none → delivery.Done desc l

theorem finished_error {err : Error} {l : Stage} : Finished delivery desc (some err) l := fun failed => by cases failed

/-- A node that is copied is done: `PostCopy` has tagged it, `PreCopy` has tagged or skipped it, or it was mounted. -/
theorem finish_rules : CopyRules (hookedOutline delivery label) desc (Finished delivery desc)
    (fun l => l = delivery.stage desc .mine ∧ (delivery.IsRoot desc → delivery.refPusher = false))
    (fun l => l = delivery.stage desc .stored ∧ (delivery.IsRoot desc → delivery.refPusher = false))
    (delivery.stage desc .mine) where
  fails _ _ := finished_error
  preCopy := by
    refine ⟨rfl, ?_⟩
    rintro ⟨_, err⟩ l' moved
    cases err with
    | none => exact ⟨rfl, fun _ => moved, fun skip => by cases skip⟩
    | some err => exact ⟨moved.1, (fun failed => by cases failed), fun skip _ => moved.2 (Option.some.inj skip)⟩
  fetch := by
    rintro _ ⟨rfl, plain⟩
    exact ⟨trivial, fun err l' moved => ⟨moved.1, moved.2, plain⟩⟩
  push := by
    rintro _ ⟨rfl, plain⟩
    refine ⟨rfl, fun pushed l' moved present => ⟨?_, plain⟩⟩
    cases pushed with
    | none => exact moved
    | some err => exact moved present
  mountPush := by
    rintro _ ⟨rfl, plain⟩
    refine ⟨rfl, fun pushed l' moved => ?_⟩
    cases pushed with
    | none => exact ⟨rfl, fun _ => ⟨moved, plain⟩⟩
    | some err => exact ⟨moved, fun failed => by cases failed⟩
  postCopy := by
    rintro _ ⟨rfl, plain⟩
    exact ⟨rfl, fun err l' moved nil => .inl (moved plain nil)⟩
  mount repository := by
    refine ⟨rfl, fun result l' moved => ?_⟩
    cases result with
    | mounted =>
      cases moved
      exact ⟨rfl, fun err l' moved _ => .inr moved⟩
    | failed err => exact moved.1
    | getContent => exact moved
  mountFrom := ⟨trivial, fun _ _ same => same⟩

/-- A worker that has begun with the root is not set back by what others have committed. -/
theorem committed_false {g : Nat} {node : Descriptor} {l' : Stage}
    (moved : delivery.committed (some (g, .node desc)) node false (delivery.stage desc .mine) l') :
    l' = delivery.stage desc .mine := by
  refine Eq.trans moved (if_neg ?_)
  rintro ⟨own, _, idle⟩
  simp only [Delivery.owns, decide_eq_true_eq] at own
  rw [Delivery.stage, if_pos own] at idle
  cases idle

/-- A worker that waits for the successors of its node commits none of them, unless it fails. -/
theorem finish_awaitSuccessors {g : Nat} (nodes : List Descriptor) :
    wp (hookedOutline delivery (some (g, .node desc))) (awaitSuccessors desc nodes)
      (fun err l' => err = none → l' = delivery.stage desc .mine) (delivery.stage desc .mine) := by
  induction nodes with
  | nil => exact fun _ => rfl
  | cons node rest ih =>
    rw [awaitSuccessors, ask, call, Prog.perform_bind, wp_call]
    refine ⟨trivial, fun committed l' moved => ?_⟩
    cases committed with
    | true => exact fun failed => by cases failed
    | false =>
      cases committed_false moved
      refine ⟨trivial, ?_⟩
      rintro err _ rfl
      cases err with
      | some err => exact fun failed => by cases failed
      | none => exact ih

theorem finish_processSuccessors {g : Nat} (nodes : List Descriptor) :
    wp (hookedOutline delivery (some (g, .node desc))) (processSuccessors desc nodes)
      (fun err l' => err = none → l' = delivery.stage desc .mine) (delivery.stage desc .mine) := by
  unfold processSuccessors
  split
  · exact fun _ => rfl
  rw [regionEnd, call, Prog.perform_bind, wp_call]
  refine ⟨trivial, ?_⟩
  rintro _ _ rfl
  refine wp_seq _ (callback_go trivial _) ?_
  rintro err _ rfl
  cases err with
  | some err => exact fun failed => by cases failed
  | none =>
    refine wp_seq _ (finish_awaitSuccessors nodes) fun err l' same => ?_
    cases err with
    | some err => exact fun failed => by cases failed
    | none =>
      cases same rfl
      refine ⟨trivial, ?_⟩
      rintro err _ rfl _
      rfl

theorem finish_copyFound {g : Nat} (opts : Options) (nodes : List Descriptor) :
    wp (hookedOutline delivery (some (g, .node desc))) (copyFound opts desc nodes) (Finished delivery desc)
      (delivery.stage desc .mine) := by
  refine wp_seq _ (finish_processSuccessors (removeForeignLayers nodes)) fun err l' same => ?_
  cases err with
  | some err => exact finished_error
  | none =>
    cases same rfl
    refine ⟨trivial, ?_⟩
    rintro cached _ rfl
    cases cached with
    | error err => exact finished_error
    | ok cached =>
      cases cached with
      | true => exact finish_rules.copyNode
      | false => exact finish_rules.mountOrCopyNode opts

/-- A worker that has committed its node is done with it when it returns nil. -/
theorem finish_copyCommitted {g : Nat} (opts : Options) :
    wp (hookedOutline delivery (some (g, .node desc))) (copyCommitted opts desc) (Finished delivery desc)
      (delivery.stage desc .mine) := by
  rw [copyCommitted, ask, call, Prog.perform_bind, wp_call]
  refine ⟨rfl, fun found l' moved => ?_⟩
  cases found with
  | error err => exact finished_error
  | ok found =>
    cases found with
    | true =>
      cases moved
      exact ⟨rfl, fun err l' moved nil => .inl (moved nil)⟩
    | false =>
      cases moved
      refine ⟨trivial, ?_⟩
      rintro nodes _ rfl
      cases nodes with
      | error err => exact finished_error
      | ok nodes => exact finish_copyFound opts nodes

/-- A worker that has returned nil is done with the root, if it was started for it, and has nothing
to do with it otherwise. -/
def deliveryPost (delivery : Delivery) (label : Label Item) (err : Option Error) (l : Stage) : Prop :=
  err = none → if delivery.owns label then l = .seen ∨ l = .tagged ∨ l = .skipped else l = .idle

theorem finished_post {g : Nat} {err : Option Error} (done : Finished delivery desc err l) :
    deliveryPost delivery (some (g, .node desc)) err l := by
  intro nil
  have done := done nil
  unfold Delivery.Done Delivery.stage at done
  simp only [Delivery.owns, decide_eq_true_eq]
  split
  · rename_i root
    simp only [if_pos root] at done
    exact .inr done
  · rename_i other
    simp only [if_neg other, or_self] at done
    exact done

/-- The stage of every worker when it returns. -/
theorem finish_work (opts : Options) (g : Nat) (item : Item) :
    wp (hookedOutline delivery (some (g, item))) (work opts item) (deliveryPost delivery (some (g, item))) .idle := by
  cases item with
  | root desc =>
    rw [work, regionEnd, call, Prog.perform_bind, wp_call]
    refine ⟨trivial, ?_⟩
    rintro _ _ rfl
    refine wp_seq _ (callback_go trivial _) ?_
    rintro err _ rfl
    cases err with
    | some err => exact fun failed => by cases failed
    | none =>
      refine ⟨trivial, ?_⟩
      rintro err _ rfl _
      exact rfl
  | node desc =>
    rw [work, fn, ask, call, Prog.perform_bind, wp_call]
    refine ⟨trivial, fun committed l' moved => ?_⟩
    cases committed with
    | false =>
      intro _
      change l' = _ at moved
      simp only [Delivery.owns, decide_eq_true_eq, and_self, and_true] at moved ⊢
      split
      · rename_i root
        exact .inl (moved.trans (if_pos root))
      · rename_i other
        exact moved.trans (if_neg other)
    | true =>
      have begun : l' = delivery.stage desc .mine := by
        unfold Delivery.stage
        change (if delivery.IsRoot desc then _ else _) at moved
        split at moved
        · rw [if_pos ‹_›]
          exact moved.2
        · rw [if_neg ‹_›]
          exact moved
      subst begun
      refine wp_seq _ (finish_copyCommitted opts) fun err l' done => ?_
      cases err with
      | some err => exact fun failed => by cases failed
      | none =>
        refine ⟨trivial, ?_⟩
        rintro _ _ rfl
        exact finished_post done

end Program

/-! The hooks do to the stage what the operations they stand for may do. -/

section Carried
variable {delivery : Delivery} {label : Label Item} {l : Stage}

abbrev targetOutline (delivery : Delivery) (label : Label Item) := callbackGhost (targetGhost delivery) unconcerned label

theorem isRoot_iff {desc : Descriptor} : contentEqual desc delivery.root = true ↔ delivery.IsRoot desc := contentEqual_iff

theorem foreign_copyError {op : String} {origin : CopyErrorOrigin} {err : Error} (foreign : foreignError (some err) = true) :
    foreignError (some (Error.newCopyError op origin err)) = true := by
  simpa [foreignError, Error.newCopyError, Error.is] using foreign

/-- The stage after a hook that has tagged the root or failed. -/
def Tags (l : Stage) (err : Option Error) (l' : Stage) : Prop :=
  foreignError err ∧ err ≠ some .skipNode ∧ if err = none then l' = .tagged else l' = l

/-- Pushing the cached root with the reference tags it, also where it is stored already. -/
theorem carry_copyCached {desc : Descriptor} (root : delivery.IsRoot desc) (begun : l = .mine ∨ l = .stored) :
    wp (targetOutline delivery label) (delivery.copyCachedNodeWithReference desc) (Tags l) l := by
  simp only [Delivery.copyCachedNodeWithReference, Delivery.ask, call, Prog.perform_bind, wp_call]
  refine ⟨trivial, ?_⟩
  rintro fetched _ ⟨foreign, rfl⟩
  cases fetched with
  | some err => exact ⟨foreign_copyError foreign, by simp [Error.newCopyError], rfl⟩
  | none =>
    refine ⟨⟨root, rfl, begun⟩, fun pushed l' moved => ?_⟩
    cases pushed with
    | none => exact ⟨rfl, by simp, moved⟩
    | some err =>
      obtain ⟨foreign, moved⟩ := moved
      by_cases present : Error.is .alreadyExists err = true
      · simp only [present, if_true] at moved ⊢
        exact ⟨rfl, by simp, moved⟩
      · simp only [present] at moved ⊢
        exact ⟨foreign_copyError foreign, by simp [Error.newCopyError], moved⟩

theorem carry_tagRoot : wp (targetOutline delivery label) delivery.tagRoot (Tags .stored) .stored := by
  simp only [Delivery.tagRoot, Delivery.ask, call, Prog.perform_bind, wp_call]
  refine ⟨⟨rfl, rfl, rfl⟩, fun tagged l' moved => ?_⟩
  cases tagged with
  | none => exact ⟨rfl, by simp, moved⟩
  | some err => exact ⟨foreign_copyError moved.1, by simp [Error.newCopyError], moved.2⟩

/-- With a reference pusher, `PreCopy` pushes and tags the root itself and skips the copy. -/
theorem carry_preCopy (desc : Descriptor) : wp (targetOutline delivery label) (delivery.hooked (.preCopy desc))
    (fun answer l' => (hookedGhost delivery label).next (.preCopy desc) answer (delivery.stage desc .mine) l')
    (delivery.stage desc .mine) := by
  simp only [Delivery.hooked, Delivery.preCopy, Delivery.ask, call, Prog.perform_bind, Prog.call_bind, wp_call]
  refine ⟨rfl, ?_⟩
  rintro ⟨_, err⟩ l' ⟨foreign, moved⟩
  by_cases pushes : delivery.refPusher = true
  · simp only [pushes, if_true]
    cases err with
    | some err =>
      refine ⟨foreign, fun skip => .inr ?_⟩
      rw [skip, if_pos rfl] at moved
      exact moved
    | none =>
      obtain rfl : l' = delivery.stage desc .mine := moved
      by_cases root : contentEqual desc delivery.root = true
      · simp only [root, Bool.true_eq_false, if_false]
        have isRoot := isRoot_iff.mp root
        have tagged : delivery.stage desc .tagged = .tagged := if_pos isRoot
        rw [Prog.bind_assoc]
        refine wp_seq _ (carry_copyCached isRoot (.inl (if_pos isRoot))) fun err l' tags => ?_
        obtain ⟨foreign, other, moved⟩ := tags
        cases err with
        | some err => exact ⟨foreign, fun skip => absurd (congrArg some skip) other⟩
        | none =>
          rw [if_pos rfl] at moved
          subst moved
          refine ⟨trivial, ?_⟩
          rintro err _ ⟨foreign, rfl⟩
          cases err with
          | some err => exact ⟨foreign, fun _ => .inl tagged.symm⟩
          | none => exact ⟨rfl, fun _ => .inl tagged.symm⟩
      · simp only [root, if_true]
        exact ⟨rfl, fun isRoot => absurd (isRoot_iff.mpr isRoot) root⟩
  · simp only [pushes]
    cases err with
    | some err =>
      refine ⟨foreign, fun skip => .inr ?_⟩
      rw [skip, if_pos rfl] at moved
      exact moved
    | none => exact ⟨moved, fun _ => by simpa using pushes⟩

/-- Without one, `PostCopy` tags the root. -/
theorem carry_postCopy (desc : Descriptor) : wp (targetOutline delivery label) (delivery.postCopy desc)
    (fun err l' => (delivery.IsRoot desc → delivery.refPusher = false) → err = none → l' = delivery.stage desc .tagged)
    (delivery.stage desc .stored) := by
  unfold Delivery.postCopy
  split
  · rename_i plain
    have isRoot := isRoot_iff.mp plain.2
    have stored : delivery.stage desc .stored = .stored := if_pos isRoot
    rw [stored]
    refine wp_seq _ carry_tagRoot fun err l' ⟨_, _, moved⟩ => ?_
    cases err with
    | some err => exact fun _ failed => by cases failed
    | none =>
      rw [if_pos rfl] at moved
      refine ⟨trivial, ?_⟩
      rintro err _ ⟨_, rfl⟩ _ _
      exact moved.trans (if_pos isRoot).symm
  · rename_i other
    refine ⟨trivial, ?_⟩
    rintro err _ ⟨_, rfl⟩ plain _
    have notRoot : ¬ delivery.IsRoot desc := fun isRoot => other ⟨plain isRoot, isRoot_iff.mpr isRoot⟩
    exact (if_neg notRoot).trans (if_neg notRoot).symm

theorem carry_onCopySkipped (desc : Descriptor) : wp (targetOutline delivery label) (delivery.onCopySkipped desc)
    (fun err l' => err = none → l' = delivery.stage desc .tagged) (delivery.stage desc .stored) := by
  unfold Delivery.onCopySkipped
  split
  · rename_i other
    have notRoot : ¬ delivery.IsRoot desc := fun isRoot => by
      rw [isRoot_iff.mpr isRoot] at other
      cases other
    refine ⟨trivial, ?_⟩
    rintro err _ ⟨_, rfl⟩ _
    exact (if_neg notRoot).trans (if_neg notRoot).symm
  · rename_i root
    have isRoot := isRoot_iff.mp (by simpa using root)
    have stored : delivery.stage desc .stored = .stored := if_pos isRoot
    have tagged : delivery.stage desc .tagged = .tagged := if_pos isRoot
    rw [stored, tagged]
    split
    · refine wp_mono _ (fun err l' ⟨_, _, moved⟩ nil => ?_) (carry_copyCached isRoot (.inr rfl))
      rwa [if_pos nil] at moved
    · refine ⟨trivial, ?_⟩
      rintro err _ ⟨_, rfl⟩
      cases err with
      | some err => exact fun failed => by cases failed
      | none =>
        refine wp_mono _ (fun err l' ⟨_, _, moved⟩ nil => ?_) carry_tagRoot
        rwa [if_pos nil] at moved

/-- The hook in place of each operation of `copyGraph` does to the stage what `hookedGhost` says. -/
theorem carries (op : Op CopyOp Item) (l : Stage) (pre : (hookedOutline delivery label).pre op l) :
    wp (targetOutline delivery label) (delivery.handler op)
      (fun answer l' => (hookedOutline delivery label).next op answer l l') l := by
  cases op with
  | user op =>
    cases op with
    | preCopy desc =>
      obtain rfl : l = delivery.stage desc .mine := pre
      exact carry_preCopy desc
    | callback which desc =>
      cases which with
      | preCopy => exact absurd pre id
      | postCopy =>
        obtain rfl : l = delivery.stage desc .stored := pre
        exact carry_postCopy desc
      | onCopySkipped =>
        obtain rfl : l = delivery.stage desc .stored := pre
        exact carry_onCopySkipped desc
      | onMounted => exact ⟨pre, fun _ _ moved => moved⟩
    | tryCommit | closeDone | selectDone => exact ⟨trivial, fun _ _ moved => moved⟩
    | dstExists desc =>
      refine ⟨pre, fun found l' moved => ?_⟩
      cases found with
      | error err => exact moved
      | ok found => cases found <;> exact moved
    | findSuccessors | cacheExists | fetch => exact ⟨trivial, fun _ _ moved => moved⟩
    | push desc =>
      refine ⟨pre, fun pushed l' moved => ?_⟩
      cases pushed with
      | none => exact moved
      | some err => exact fun present => moved.trans (if_pos present)
    | mountFrom desc => exact ⟨trivial, fun _ _ moved => moved⟩
    | mount desc repository => exact ⟨pre, fun answer _ moved => by cases answer <;> exact moved⟩
    | mountPush desc =>
      refine ⟨pre, fun pushed l' moved => ?_⟩
      cases pushed with
      | none => exact moved
      | some err => exact moved.1
  | _ => exact ⟨trivial, fun _ _ moved => moved⟩

theorem deliver_work (opts : Options) (g : Nat) (item : Item) :
    wp (targetOutline delivery (some (g, item))) (delivery.work opts item) (deliveryPost delivery (some (g, item))) .idle :=
  wp_handle _ carries (finish_work opts g item)

end Carried

end OrasGo.Copy
