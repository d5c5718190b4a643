import OrasGo.Copy.Complete
import OrasGo.Copy.Stages

/-! What a `Copy` that returns nil has done with its root: it was tagged, or the caller's `PreCopy`
has skipped it, or it was mounted. -/

namespace OrasGo.Copy
open Interleaving Syncutil

/-- The caller has skipped the node, or it was mounted. -/
def Bypassed (k : Key) (log : List Event) : Prop :=
  ∃ event ∈ log, event.key = k ∧
    (event.callback = .preCopy ∧ event.result = some .skipNode ∨ event.callback = .onMounted)

/-- What the stages say about the shared state. `references` are those that the copy has found. -/
structure DeliveryInv (delivery : Delivery) (references : String → Option Key) (st : TargetState)
    (ghosts : List (Label Item × Stage)) : Prop where
  tracked : ∀ ghost ∈ ghosts, ghost.2 ≠ .idle → st.tracker (fromOCI delivery.root) ≠ none
  owned : st.tracker (fromOCI delivery.root) ≠ none → ∃ ghost ∈ ghosts, ghost.2.busy = true
  unique : ∀ (t t' : Nat) ghost ghost', ghosts[t]? = some ghost → ghosts[t']? = some ghost' →
    ghost.2.busy = true → ghost'.2.busy = true → t = t'
  stored : ∀ ghost ∈ ghosts, ghost.2 = .stored ∨ ghost.2 = .tagged ∨ ghost.2 = .skipped →
    fromOCI delivery.root ∈ st.stored
  tagged : ∀ ghost ∈ ghosts, ghost.2 = .tagged → st.references delivery.dstRef = some (fromOCI delivery.root)
  untagged : (∀ ghost ∈ ghosts, ghost.2 ≠ .tagged) → st.references delivery.dstRef = references delivery.dstRef
  bypassed : (∃ ghost ∈ ghosts, ghost.2 = .skipped) ↔ Bypassed (fromOCI delivery.root) st.log

section Invariant
variable {delivery : Delivery} {references : String → Option Key} {st st' : TargetState}
  {ghosts : List (Label Item × Stage)} {t : Nat} {label : Label Item} {l l' : Stage}

/-- The tracker, the reference and the events of the root are as before. -/
structure Unmoved (delivery : Delivery) (st st' : TargetState) : Prop where
  tracker : st'.tracker (fromOCI delivery.root) = none ↔ st.tracker (fromOCI delivery.root) = none
  stored : st.stored ⊆ st'.stored
  references : st'.references delivery.dstRef = st.references delivery.dstRef
  bypassed : Bypassed (fromOCI delivery.root) st'.log ↔ Bypassed (fromOCI delivery.root) st.log

section

variable (inv : DeliveryInv delivery references st ghosts)
include inv

theorem DeliveryInv.frame (unmoved : Unmoved delivery st st') :
    DeliveryInv delivery references st' ghosts where
  tracked ghost member begun none := inv.tracked ghost member begun (unmoved.tracker.mp none)
  owned committed := inv.owned fun none => committed (unmoved.tracker.mpr none)
  unique := inv.unique
  stored ghost member far := unmoved.stored (inv.stored ghost member far)
  tagged ghost member tagged := unmoved.references.trans (inv.tagged ghost member tagged)
  untagged none := unmoved.references.trans (inv.untagged none)
  bypassed := inv.bypassed.trans unmoved.bypassed.symm

/-- One worker goes ahead with the root while the others have nothing to do with it. -/
theorem DeliveryInv.lead (found : ghosts[t]? = some (label, l))
    (alone : ∀ (t' : Nat) ghost, ghosts[t']? = some ghost → t' ≠ t → ghost.2.busy = false)
    (before : l ≠ .tagged ∧ l ≠ .skipped) (after : l'.busy = true)
    (taken : st'.tracker (fromOCI delivery.root) ≠ none) (here : l' ≠ .mine → fromOCI delivery.root ∈ st'.stored)
    (points : st'.references delivery.dstRef =
      if l' = .tagged then some (fromOCI delivery.root) else st.references delivery.dstRef)
    (passed : Bypassed (fromOCI delivery.root) st'.log ↔ l' = .skipped ∨ Bypassed (fromOCI delivery.root) st.log) :
    DeliveryInv delivery references st' (ghosts.set t (label, l')) := by
  -- Nobody has tagged or skipped the root before.
  have early {ghost : Label Item × Stage} (member : ghost ∈ ghosts) : ghost.2 ≠ .tagged ∧ ghost.2 ≠ .skipped := by
    obtain ⟨t', atT⟩ := List.mem_iff_getElem?.mp member
    by_cases same : t' = t
    · subst same
      cases found.symm.trans atT
      exact before
    · have idle := alone t' ghost atT same
      constructor <;> (intro far; rw [far] at idle; cases idle)
  have cases {ghost : Label Item × Stage} (member : ghost ∈ ghosts.set t (label, l')) :
      ghost = (label, l') ∨ ghost.2.busy = false := by
    obtain ⟨t', atT⟩ := List.mem_iff_getElem?.mp member
    rcases getElem?_set_cases atT with ⟨_, new⟩ | ⟨other, old⟩
    · exact .inl new
    · exact .inr (alone t' ghost old other)
  refine ⟨fun _ _ _ => taken, fun _ => ⟨_, mem_set_self found, after⟩, ?_, ?_, ?_, ?_, ?_⟩
  · have only {t' : Nat} {ghost : Label Item × Stage} (atT : (ghosts.set t (label, l'))[t']? = some ghost)
        (busy : ghost.2.busy = true) : t' = t := by
      rcases getElem?_set_cases atT with ⟨same, _⟩ | ⟨other, old⟩
      · exact same
      · cases (alone t' ghost old other).symm.trans busy
    intro t₁ t₂ ghost₁ ghost₂ at₁ at₂ busy₁ busy₂
    exact (only at₁ busy₁).trans (only at₂ busy₂).symm
  · intro ghost member far
    rcases cases member with rfl | idle
    · refine here fun mine => ?_
      simp only [mine] at far
      rcases far with far | far | far <;> cases far
    · cases idle.symm.trans (Stage.busy_of_stored far)
  · intro ghost member tagged
    rcases cases member with rfl | idle
    · rw [points, if_pos tagged]
    · cases idle.symm.trans (Stage.busy_of_stored (.inr (.inl tagged)))
  · intro none
    rw [points, if_neg (none _ (mem_set_self found))]
    exact inv.untagged fun ghost member => (early member).1
  · rw [passed]
    have unpassed : ¬ Bypassed (fromOCI delivery.root) st.log := fun bypassed => by
      obtain ⟨ghost, member, skipped⟩ := inv.bypassed.mpr bypassed
      exact (early member).2 skipped
    constructor
    · rintro ⟨ghost, member, skipped⟩
      rcases cases member with rfl | idle
      · exact .inl skipped
      · cases idle.symm.trans (Stage.busy_of_stored (.inr (.inr skipped)))
    · rintro (skipped | bypassed)
      · exact ⟨_, mem_set_self found, skipped⟩
      · exact absurd bypassed unpassed

theorem DeliveryInv.advance (found : ghosts[t]? = some (label, l)) (begun : l = .mine ∨ l = .stored)
    (ahead : l' = .stored ∨ l' = .tagged ∨ l' = .skipped)
    (tracker : st'.tracker (fromOCI delivery.root) = none ↔ st.tracker (fromOCI delivery.root) = none)
    (here : fromOCI delivery.root ∈ st'.stored)
    (points : st'.references delivery.dstRef =
      if l' = .tagged then some (fromOCI delivery.root) else st.references delivery.dstRef)
    (passed : Bypassed (fromOCI delivery.root) st'.log ↔ l' = .skipped ∨ Bypassed (fromOCI delivery.root) st.log) :
    DeliveryInv delivery references st' (ghosts.set t (label, l')) := by
  have active : l.busy = true ∧ l ≠ .idle ∧ l ≠ .tagged ∧ l ≠ .skipped := by
    rcases begun with rfl | rfl <;> exact ⟨rfl, nofun, nofun, nofun⟩
  refine inv.lead found (fun t' ghost atT other => ?_) active.2.2 (Stage.busy_of_stored ahead) ?_ (fun _ => here) points passed
  · by_contra busy
    exact other (inv.unique t' t ghost _ atT found (by simpa using busy) active.1)
  · exact fun none => inv.tracked _ (List.mem_of_getElem? found) active.2.1 (tracker.mp none)

theorem DeliveryInv.commit (found : ghosts[t]? = some (label, .idle))
    (free : st.tracker (fromOCI delivery.root) = none) (taken : st'.tracker (fromOCI delivery.root) ≠ none)
    (points : st'.references delivery.dstRef = st.references delivery.dstRef)
    (passed : Bypassed (fromOCI delivery.root) st'.log ↔ Bypassed (fromOCI delivery.root) st.log) :
    DeliveryInv delivery references st' (ghosts.set t (label, .mine)) := by
  refine inv.lead found (fun t' ghost atT _ => ?_) ⟨nofun, nofun⟩ rfl taken (fun other => absurd rfl other) points ?_
  · by_contra busy
    refine inv.tracked ghost (List.mem_of_getElem? atT) (fun idle => busy ?_) free
    rw [idle]
    rfl
  · rw [passed]
    exact ⟨.inr, fun either => either.resolve_left nofun⟩

/-- Workers that have not committed the root play no part. -/
theorem DeliveryInv.bystanders {ghosts' : List (Label Item × Stage)}
    (same : ∀ (t : Nat) ghost, ghost.2.busy = true → (ghosts'[t]? = some ghost ↔ ghosts[t]? = some ghost))
    (tracked : ∀ ghost ∈ ghosts', ghost.2 ≠ .idle → st.tracker (fromOCI delivery.root) ≠ none) :
    DeliveryInv delivery references st ghosts' := by
  have mem {ghost : Label Item × Stage} (far : ghost.2 = .stored ∨ ghost.2 = .tagged ∨ ghost.2 = .skipped) :
      ghost ∈ ghosts' ↔ ghost ∈ ghosts := by
    simp only [List.mem_iff_getElem?, same _ ghost (Stage.busy_of_stored far)]
  refine ⟨tracked, fun taken => ?_, fun t₁ t₂ ghost₁ ghost₂ at₁ at₂ busy₁ busy₂ => ?_, fun ghost member far => ?_,
    fun ghost member tagged => ?_, fun none => ?_, ?_⟩
  · obtain ⟨ghost, member, busy⟩ := inv.owned taken
    obtain ⟨t, atT⟩ := List.mem_iff_getElem?.mp member
    exact ⟨ghost, List.mem_of_getElem? ((same t ghost busy).mpr atT), busy⟩
  · exact inv.unique t₁ t₂ ghost₁ ghost₂ ((same t₁ ghost₁ busy₁).mp at₁) ((same t₂ ghost₂ busy₂).mp at₂) busy₁ busy₂
  · exact inv.stored ghost ((mem far).mp member) far
  · exact inv.tagged ghost ((mem (.inr (.inl tagged))).mp member) tagged
  · exact inv.untagged fun ghost member tagged => none ghost ((mem (.inr (.inl tagged))).mpr member) tagged
  · rw [← inv.bypassed]
    exact exists_congr fun ghost => and_congr_left fun skipped => mem (.inr (.inr skipped))

theorem DeliveryInv.see (found : ghosts[t]? = some (label, .idle)) (taken : st.tracker (fromOCI delivery.root) ≠ none) :
    DeliveryInv delivery references st (ghosts.set t (label, .seen)) := by
  refine inv.bystanders (fun t' ghost busy => ?_) fun _ _ _ => taken
  by_cases here : t' = t
  · subst here
    rw [List.getElem?_set_self (List.getElem?_eq_some_iff.mp found).1, found]
    constructor <;> (rintro ⟨⟩; cases busy)
  · rw [List.getElem?_set_ne (Ne.symm here)]

theorem DeliveryInv.start (label : Label Item) :
    DeliveryInv delivery references st (ghosts ++ [(label, .idle)]) := by
  refine inv.bystanders (fun t ghost busy => ⟨fun atT => ?_, fun atT => ?_⟩) fun ghost member begun => ?_
  · rcases getElem?_concat_cases atT with old | ⟨_, rfl⟩
    · exact old
    · cases busy
  · exact (List.getElem?_append_left (List.getElem?_eq_some_iff.mp atT).1).trans atT
  · rcases List.mem_append.mp member with old | new
    · exact inv.tracked ghost old begun
    · rw [List.mem_singleton.mp new] at begun
      exact absurd rfl begun

end

theorem Unmoved.refl (delivery : Delivery) (st : TargetState) : Unmoved delivery st st := ⟨.rfl, subset_rfl, rfl, .rfl⟩

theorem bypassed_concat {k : Key} {log : List Event} {event : Event} : Bypassed k (log ++ [event]) ↔
    Bypassed k log ∨ event.key = k ∧
      (event.callback = .preCopy ∧ event.result = some .skipNode ∨ event.callback = .onMounted) := by
  simp only [Bypassed, List.mem_append, List.mem_singleton, or_and_right, exists_or, exists_eq_left]

/-- An entry of the tracker for another node, or a change of the one for the root, which stays there. -/
theorem unmoved_setEntry {k : Key} {entry : Entry} (other : k = fromOCI delivery.root → st.tracker k ≠ none) :
    Unmoved delivery st { st with toCopyState := st.setEntry k entry } := by
  refine ⟨?_, subset_rfl, rfl, .rfl⟩
  change Function.update st.tracker k (some entry) (fromOCI delivery.root) = none ↔ _
  by_cases same : k = fromOCI delivery.root
  · subst same
    rw [Function.update_self]
    exact iff_of_false nofun (other rfl)
  · rw [Function.update_of_ne fun impossible => same impossible.symm]

theorem unmoved_store (k : Key) : Unmoved delivery st { st with toCopyState := st.store k } :=
  ⟨.rfl, Finset.subset_insert _ _, rfl, .rfl⟩

theorem unmoved_record {k : Key} {which : Callback} {err : Option Error}
    (other : ¬ (k = fromOCI delivery.root ∧ (which = .preCopy ∧ err = some .skipNode ∨ which = .onMounted))) :
    Unmoved delivery st { st with toCopyState := st.record t k which err } := by
  refine ⟨.rfl, subset_rfl, rfl, ?_⟩
  change Bypassed _ (st.log ++ [_]) ↔ _
  rw [bypassed_concat]
  exact or_iff_left other

section

variable (inv : DeliveryInv delivery references st ghosts)
include inv

theorem DeliveryInv.stay (found : ghosts[t]? = some (label, l)) (unmoved : Unmoved delivery st st') :
    DeliveryInv delivery references st' (ghosts.set t (label, l)) := by
  rw [set_same found]
  exact inv.frame unmoved

theorem DeliveryInv.present {desc : Descriptor} (found : ghosts[t]? = some (label, delivery.stage desc .mine))
    (unmoved : Unmoved delivery st st') (here : fromOCI desc ∈ st'.stored) :
    DeliveryInv delivery references st' (ghosts.set t (label, delivery.stage desc .stored)) := by
  unfold Delivery.stage at found ⊢
  split
  · rename_i root
    rw [if_pos root] at found
    refine inv.advance found (.inl rfl) (.inl rfl) unmoved.tracker (root ▸ here) unmoved.references ?_
    rw [unmoved.bypassed]
    exact ⟨.inr, fun either => either.resolve_left nofun⟩
  · rename_i other
    rw [if_neg other] at found
    exact inv.stay found unmoved

theorem DeliveryInv.bypass {desc : Descriptor} {before : Stage}
    (found : ghosts[t]? = some (label, delivery.stage desc before)) (begun : before = .mine ∨ before = .stored)
    (tracker : st'.tracker = st.tracker) (stored : st.stored ⊆ st'.stored) (here : fromOCI desc ∈ st'.stored)
    (points : st'.references = st.references) {event : Event} (log : st'.log = st.log ++ [event])
    (own : event.key = fromOCI desc)
    (passes : event.callback = .preCopy ∧ event.result = some .skipNode ∨ event.callback = .onMounted) :
    DeliveryInv delivery references st' (ghosts.set t (label, delivery.stage desc .skipped)) := by
  unfold Delivery.stage at found ⊢
  split
  · rename_i root
    rw [if_pos root] at found
    refine inv.advance found begun (.inr (.inr rfl)) (by rw [tracker]) (root ▸ here) (by rw [points]; rfl) ?_
    rw [log, bypassed_concat]
    exact ⟨fun _ => .inl rfl, fun _ => .inr ⟨own.trans root, passes⟩⟩
  · rename_i other
    rw [if_neg other] at found
    refine inv.stay found ⟨by rw [tracker], stored, by rw [points], ?_⟩
    rw [log, bypassed_concat]
    exact or_iff_left fun ⟨same, _⟩ => other (own.symm.trans same)

end

section Answers
variable {G : Content} {ended : Bool} (inv : DeliveryInv delivery references st ghosts)
  (found : ghosts[t]? = some (label, l))
include inv found

theorem DeliveryInv.tryCommit {node : Descriptor} {committed : Bool}
    (answered : answerTarget G st t ended (.copy (.tryCommit node)) committed = some st') :
    ∃ l', delivery.committed label node committed l l' ∧ DeliveryInv delivery references st' (ghosts.set t (label, l')) := by
  simp only [answerTarget, Option.map_eq_some_iff] at answered
  obtain ⟨copy, answered, rfl⟩ := answered
  simp only [Copy.answer] at answered
  split at answered
  · rename_i free
    cases answered
    by_cases root : delivery.IsRoot node
    · have free : st.tracker (fromOCI delivery.root) = none := root ▸ free
      have idle : l = .idle := by
        by_contra begun
        exact inv.tracked _ (List.mem_of_getElem? found) begun free
      subst idle
      refine ⟨.mine, by rw [Delivery.committed, if_pos root]; exact ⟨rfl, rfl⟩, inv.commit found free ?_ rfl .rfl⟩
      change Function.update st.tracker (fromOCI node) _ (fromOCI delivery.root) ≠ none
      rw [show fromOCI node = fromOCI delivery.root from root, Function.update_self]
      exact Option.some_ne_none _
    · refine ⟨l, by rw [Delivery.committed, if_neg root], inv.stay found (unmoved_setEntry fun same => absurd same root)⟩
  · rename_i entry taken
    cases answered
    unfold Delivery.committed
    simp only [exists_eq_left]
    split
    · rename_i first
      obtain ⟨_, root, rfl⟩ := first
      refine inv.see found ?_
      rw [← show fromOCI node = fromOCI delivery.root from root, taken]
      exact Option.some_ne_none _
    · exact inv.stay found (.refl delivery st)
  · cases answered

theorem DeliveryInv.preCopy {desc : Descriptor} {a : Bool × Option Error} (pre : l = delivery.stage desc .mine)
    (answered : answerTarget G st t ended (.copy (.preCopy desc)) a = some st') :
    ∃ l', (targetGhost delivery label).next (.copy (.preCopy desc)) a l l' ∧
      DeliveryInv delivery references st' (ghosts.set t (label, l')) := by
  obtain ⟨stores, err⟩ := a
  simp only [answerTarget, Option.map_eq_some_iff] at answered
  obtain ⟨copy, answered, rfl⟩ := answered
  obtain ⟨⟨skips, foreign⟩, rfl⟩ := of_ite_some answered
  refine ⟨_, ⟨foreign, rfl⟩, ?_⟩
  have grown : st.stored ⊆ (if stores = true then st.store (fromOCI desc) else st.toCopyState).stored := by
    split
    · exact Finset.subset_insert _ _
    · exact subset_rfl
  have same : (if stores = true then st.store (fromOCI desc) else st.toCopyState).tracker = st.tracker ∧
      (if stores = true then st.store (fromOCI desc) else st.toCopyState).log = st.log := by
    split <;> exact ⟨rfl, rfl⟩
  generalize (if stores = true then st.store (fromOCI desc) else st.toCopyState) = base at grown same skips ⊢
  by_cases skip : err = some .skipNode
  · rw [if_pos skip]
    subst pre
    exact inv.bypass found (.inl rfl) same.1 grown (skips skip) rfl (congrArg (· ++ _) same.2) rfl (.inl ⟨rfl, skip⟩)
  · rw [if_neg skip]
    refine inv.stay found ⟨?_, grown, rfl, ?_⟩
    · change base.tracker _ = none ↔ _
      rw [same.1]
    · change Bypassed _ (base.log ++ [_]) ↔ _
      rw [same.2, bypassed_concat]
      refine or_iff_left ?_
      rintro ⟨_, ⟨_, skipped⟩ | impossible⟩
      · exact skip skipped
      · cases impossible

theorem DeliveryInv.callback {which : Callback} {desc : Descriptor} {err : Option Error}
    (pre : (targetGhost delivery label).pre (.copy (.callback which desc)) l)
    (answered : answerTarget G st t ended (.copy (.callback which desc)) err = some st') :
    ∃ l', (targetGhost delivery label).next (.copy (.callback which desc)) err l l' ∧
      DeliveryInv delivery references st' (ghosts.set t (label, l')) := by
  obtain ⟨foreign, rfl⟩ := of_ite_some answered
  cases which with
  | onMounted =>
    obtain rfl : l = delivery.stage desc .stored := pre
    refine ⟨_, rfl, ?_⟩
    by_cases root : delivery.IsRoot desc
    · have here : fromOCI desc ∈ st.stored := by
        rw [show fromOCI desc = fromOCI delivery.root from root]
        exact inv.stored _ (List.mem_of_getElem? found) (.inl (if_pos root))
      exact inv.bypass found (.inr rfl) rfl subset_rfl here rfl rfl rfl (.inr rfl)
    · rw [show delivery.stage desc .skipped = delivery.stage desc .stored from (if_neg root).trans (if_neg root).symm]
      exact inv.stay found (unmoved_record fun impossible => root impossible.1)
  | preCopy => exact absurd pre id
  | postCopy | onCopySkipped =>
    refine ⟨l, ⟨foreign, rfl⟩, inv.stay found (unmoved_record fun impossible => ?_)⟩
    rcases impossible.2 with ⟨impossible, _⟩ | impossible <;> cases impossible

theorem DeliveryInv.tag (begun : l = .mine ∨ l = .stored) (tracker : st'.tracker = st.tracker)
    (here : fromOCI delivery.root ∈ st'.stored) (log : st'.log = st.log)
    (points : st'.references delivery.dstRef = some (fromOCI delivery.root)) :
    DeliveryInv delivery references st' (ghosts.set t (label, .tagged)) := by
  refine inv.advance found begun (.inr (.inl rfl)) (by rw [tracker]) here (points.trans (if_pos rfl).symm) ?_
  rw [log]
  exact ⟨.inr, fun either => either.resolve_left nofun⟩

theorem DeliveryInv.answer {op : TargetOp} {a : TargetAns op} (pre : (targetGhost delivery label).pre op l)
    (answered : answerTarget G st t ended op a = some st') :
    ∃ l', (targetGhost delivery label).next op a l l' ∧ DeliveryInv delivery references st' (ghosts.set t (label, l')) := by
  have stay : DeliveryInv delivery references st (ghosts.set t (label, l)) := inv.stay found (.refl delivery st)
  cases op with
  | fetchCached desc =>
    obtain ⟨foreign, rfl⟩ := of_ite_some answered
    exact ⟨l, ⟨foreign, rfl⟩, stay⟩
  | pushReference desc reference =>
    obtain ⟨root, rfl, begun⟩ := pre
    cases a with
    | none =>
      cases answered
      refine ⟨.tagged, rfl, inv.tag found begun rfl ?_ rfl ?_⟩
      · rw [← show fromOCI desc = fromOCI delivery.root from root]
        exact Finset.mem_insert_self _ _
      · rw [← show fromOCI desc = fromOCI delivery.root from root]
        exact Function.update_self _ _ _
    | some err =>
      obtain ⟨⟨foreign, present⟩, rfl⟩ := of_ite_some answered
      refine ⟨_, ⟨foreign, rfl⟩, ?_⟩
      split
      · rename_i exists_
        obtain ⟨here, points⟩ := present exists_
        rw [show fromOCI desc = fromOCI delivery.root from root] at here points
        exact inv.tag found begun rfl here rfl points
      · exact stay
  | tag desc reference =>
    obtain ⟨root, rfl, rfl⟩ := pre
    cases a with
    | none =>
      cases answered
      refine ⟨.tagged, rfl, inv.tag found (.inr rfl) rfl (inv.stored _ (List.mem_of_getElem? found) (.inl rfl)) rfl ?_⟩
      rw [← show fromOCI desc = fromOCI delivery.root from root]
      exact Function.update_self _ _ _
    | some err =>
      obtain ⟨foreign, rfl⟩ := of_ite_some answered
      exact ⟨_, ⟨foreign, rfl⟩, stay⟩
  | copy op =>
    cases op with
    | tryCommit node => exact inv.tryCommit found answered
    | preCopy desc => exact inv.preCopy found pre answered
    | callback which desc => exact inv.callback found pre answered
    | findSuccessors desc =>
      cases answered
      exact ⟨l, rfl, stay⟩
    | closeDone node =>
      simp only [answerTarget, Option.map_eq_some_iff, Copy.answer] at answered
      obtain ⟨copy, answered, rfl⟩ := answered
      refine ⟨l, rfl, inv.stay found ?_⟩
      split at answered
      · rename_i entry taken
        cases answered
        exact unmoved_setEntry fun _ none => by cases taken.symm.trans none
      · cases answered
        exact .refl delivery st
    | selectDone node =>
      refine ⟨l, rfl, inv.stay found ?_⟩
      cases a with
      | none | some =>
        obtain ⟨copy, copied, rfl⟩ := Option.map_eq_some_iff.mp answered
        obtain ⟨_, rfl⟩ := of_ite_some copied
        exact .refl delivery st
    | dstExists desc =>
      cases a with
      | error err =>
        cases answered
        exact ⟨l, rfl, stay⟩
      | ok there =>
        obtain ⟨copy, copied, rfl⟩ := Option.map_eq_some_iff.mp answered
        obtain ⟨truth, rfl⟩ := of_ite_some copied
        cases there with
        | true =>
          obtain rfl : l = delivery.stage desc .mine := pre
          exact ⟨_, rfl, inv.present found (.refl delivery st) (decide_eq_true_eq.mp truth.symm)⟩
        | false => exact ⟨l, rfl, stay⟩
    | cacheExists desc =>
      cases answered
      exact ⟨l, rfl, stay⟩
    | fetch desc =>
      cases a with
      | none =>
        obtain ⟨copy, copied, rfl⟩ := Option.map_eq_some_iff.mp answered
        obtain ⟨_, rfl⟩ := of_ite_some copied
        exact ⟨l, ⟨rfl, rfl⟩, stay⟩
      | some err =>
        obtain ⟨copy, copied, rfl⟩ := Option.map_eq_some_iff.mp answered
        obtain ⟨foreign, rfl⟩ := of_ite_some copied
        exact ⟨l, ⟨foreign, rfl⟩, stay⟩
    | push desc =>
      obtain rfl : l = delivery.stage desc .mine := pre
      cases a with
      | none =>
        cases answered
        exact ⟨_, rfl, inv.present found (unmoved_store (fromOCI desc)) (Finset.mem_insert_self _ _)⟩
      | some err =>
        obtain ⟨copy, copied, rfl⟩ := Option.map_eq_some_iff.mp answered
        obtain ⟨present, rfl⟩ := of_ite_some copied
        refine ⟨_, rfl, ?_⟩
        split
        · rename_i exists_
          exact inv.present found (.refl delivery st) (present exists_)
        · exact stay
    | mountFrom desc =>
      cases answered
      exact ⟨l, rfl, stay⟩
    | mount desc repository =>
      obtain rfl : l = delivery.stage desc .mine := pre
      cases a with
      | mounted =>
        cases answered
        exact ⟨_, rfl, inv.present found (unmoved_store (fromOCI desc)) (Finset.mem_insert_self _ _)⟩
      | failed err =>
        obtain ⟨copy, copied, rfl⟩ := Option.map_eq_some_iff.mp answered
        obtain ⟨foreign, rfl⟩ := of_ite_some copied
        exact ⟨_, ⟨foreign, rfl⟩, stay⟩
      | getContent =>
        cases answered
        exact ⟨_, rfl, stay⟩
    | mountPush desc =>
      obtain rfl : l = delivery.stage desc .mine := pre
      cases a with
      | none =>
        cases answered
        exact ⟨_, rfl, inv.present found (unmoved_store (fromOCI desc)) (Finset.mem_insert_self _ _)⟩
      | some err =>
        obtain ⟨copy, copied, rfl⟩ := Option.map_eq_some_iff.mp answered
        obtain ⟨foreign, rfl⟩ := of_ite_some copied
        exact ⟨_, ⟨foreign, rfl⟩, stay⟩

end Answers

end Invariant

/-! The hooks start no goroutines. -/

section Hooks
variable {delivery : Delivery}

/-- A program that performs no operation of `Go`. -/
def OnlyAsks {α : Type} : Hook α → Prop
  | .ret _ => True
  | .call op next => (∃ u, op = .user u) ∧ ∀ a, OnlyAsks (next a)

theorem OnlyAsks.bind {α β : Type} {p : Hook α} {f : α → Hook β} (first : OnlyAsks p)
    (rest : ∀ value, OnlyAsks (f value)) : OnlyAsks (p >>= f) := by
  induction p with
  | ret value => exact rest value
  | call op next ih => exact ⟨first.1, fun a => ih a (first.2 a)⟩

theorem onlyAsks_ask (op : TargetOp) : OnlyAsks (Delivery.ask op) := ⟨⟨op, rfl⟩, fun _ => trivial⟩

theorem onlyAsks_copyCached (desc : Descriptor) : OnlyAsks (delivery.copyCachedNodeWithReference desc) := by
  refine (onlyAsks_ask _).bind fun fetched => ?_
  cases fetched with
  | some err => exact trivial
  | none =>
    refine (onlyAsks_ask _).bind fun pushed => ?_
    cases pushed with
    | none => exact trivial
    | some err =>
      simp only
      split <;> exact trivial

theorem onlyAsks_tagRoot : OnlyAsks delivery.tagRoot :=
  (onlyAsks_ask _).bind fun tagged => by cases tagged <;> exact trivial

theorem onlyAsks_preCopy (desc : Descriptor) : OnlyAsks (delivery.preCopy desc) := by
  refine (onlyAsks_ask _).bind fun ⟨_, err⟩ => ?_
  simp only
  split
  · cases err with
    | some err => exact trivial
    | none =>
      simp only
      split
      · exact trivial
      · refine (onlyAsks_copyCached desc).bind fun err => ?_
        cases err with
        | some err => exact trivial
        | none => exact (onlyAsks_ask _).bind fun err => by cases err <;> exact trivial
  · exact trivial

theorem onlyAsks_postCopy (desc : Descriptor) : OnlyAsks (delivery.postCopy desc) := by
  unfold Delivery.postCopy
  split
  · refine onlyAsks_tagRoot.bind fun err => ?_
    cases err with
    | some err => exact trivial
    | none => exact onlyAsks_ask _
  · exact onlyAsks_ask _

theorem onlyAsks_onCopySkipped (desc : Descriptor) : OnlyAsks (delivery.onCopySkipped desc) := by
  unfold Delivery.onCopySkipped
  split
  · exact onlyAsks_ask _
  split
  · exact onlyAsks_copyCached desc
  · refine (onlyAsks_ask _).bind fun err => ?_
    cases err with
    | some err => exact trivial
    | none => exact onlyAsks_tagRoot

theorem onlyAsks_hooked (op : CopyOp) : OnlyAsks (delivery.hooked op) := by
  cases op with
  | preCopy desc => exact (onlyAsks_preCopy desc).bind fun _ => trivial
  | callback which desc =>
    cases which with
    | postCopy => exact onlyAsks_postCopy desc
    | onCopySkipped => exact onlyAsks_onCopySkipped desc
    | _ => exact onlyAsks_ask _
  | _ => exact onlyAsks_ask _

end Hooks

section Tree
variable {delivery : Delivery} {label : Label Item} {place : Place}

/-- Any goroutine may start any other one. -/
def anyLabel (_ _ : Label Item) : Prop := True

def neverBlocks (_ : TargetOp) : Bool := false

def anyAnswer {O : Type} {Ans : O → Type} (op : O) (_ : Ans op) : Prop := True

abbrev copyTree (label : Label Item) := @treeGhost CopyOp Item CopyAns false anyLabel blocking anyAnswer label

abbrev targetTree (label : Label Item) := @treeGhost TargetOp Item TargetAns false anyLabel neverBlocks anyAnswer label

theorem OnlyAsks.tree {α : Type} {p : Hook α} (asks : OnlyAsks p) (silent : place.reported = none)
    (outside : place.inside = none) : wp (targetTree label) p (fun _ place' => place' = place) place := by
  induction p with
  | ret value => rfl
  | call op next ih =>
    obtain ⟨⟨u, rfl⟩, rest⟩ := asks
    refine ⟨⟨silent, (fun blocks => by cases blocks), outside⟩, ?_⟩
    rintro a _ ⟨_, rfl⟩
    exact ih a (rest a)

theorem tree_carries (op : Op CopyOp Item) (place : Place) (pre : (copyTree label).pre op place) :
    wp (targetTree label) (delivery.handler op)
      (fun answer place' => (copyTree label).next op answer place place') place := by
  cases op with
  | user op =>
    obtain ⟨silent, _, outside⟩ := pre
    refine wp_mono _ (fun answer place' same => ⟨trivial, same⟩) ((onlyAsks_hooked op).tree silent outside)
  | spawn g item => exact ⟨pre, fun answer place' moved => by cases answer <;> exact moved⟩
  | _ => exact ⟨pre, fun _ _ moved => moved⟩

theorem deliver_tree (opts : Options) : TreeBody false anyLabel neverBlocks anyAnswer (delivery.work opts) := fun g item =>
  wp_handle (copyTree _) tree_carries (tree_work ⟨fun _ _ _ _ _ _ _ => trivial, fun _ _ _ => trivial⟩ opts g item)

end Tree

section Reach
variable {G : Content} {opts : Options} {delivery : Delivery} {limiter : Option Nat} {stored : Finset Key}
  {references : String → Option Key} {items : List Item} {σ : TargetRun}

section

variable (reach : Reach (targetMachine G opts delivery) (initial limiter { stored, references } items) σ)
include reach

theorem deliver_reach :
    Outline (targetOutline delivery) (deliveryPost delivery) (fun s ghosts => DeliveryInv delivery references s.user ghosts) σ := by
  have empty : DeliveryInv delivery references { stored, references } [] := by
    refine ⟨?_, fun taken => absurd rfl taken, ?_, ?_, ?_, fun _ => rfl, iff_of_false ?_ ?_⟩
    · exact fun ghost member => by cases member
    · exact fun t t' ghost ghost' atT => by simp at atT
    · exact fun ghost member => by cases member
    · exact fun ghost member => by cases member
    · exact fun ⟨ghost, member, _⟩ => by cases member
    · exact fun ⟨event, member, _⟩ => by cases member
  exact callback_reach (deliver_work opts) ⟨trivial, fun _ _ => rfl⟩ ⟨fun _ _ label inv => inv.start label,
    fun _ _ _ _ _ _ _ _ _ inv found pre answered => inv.answer found pre answered⟩ (empty.start none) reach

theorem deliver_treeReach :
    ∃ creator, Tree anyLabel neverBlocks creator σ := by
  obtain ⟨ghosts, fits, creator, inv⟩ := tree_reach (deliver_tree opts) (fun _ _ _ _ _ _ _ => trivial)
    (fun _ _ _ => trivial) reach
  exact ⟨creator, inv.tree fits⟩

/-- When the copy has succeeded, one worker has tagged the root or has seen it bypassed. -/
theorem delivered (success : σ.Returned 0 none) (here : .node delivery.root ∈ items) :
    ∃ ghosts, DeliveryInv delivery references σ.shared.user ghosts ∧
      ∃ ghost ∈ ghosts, ghost.2 = .tagged ∨ ghost.2 = .skipped := by
  obtain ⟨creator, tree⟩ := deliver_treeReach reach
  obtain ⟨ghosts, fits, inv⟩ := deliver_reach reach
  have ended {t : Nat} {label : Label Item} {l : Stage} (atT : ghosts[t]? = some (label, l)) :
      deliveryPost delivery label none l := by
    obtain ⟨prog, found, holds⟩ := thread_of_ghost fits atT
    obtain rfl : prog = .ret none := tree.all_nil success t found
    exact holds
  refine ⟨ghosts, inv, ?_⟩
  -- The worker for the root has committed it or seen it committed, so that somebody has.
  obtain ⟨label, main⟩ := success
  cases tree.main_label main
  obtain ⟨t, g, prog, found⟩ := started_reach reach main here
  obtain ⟨l, atT, _⟩ := ghost_of_thread fits found
  have owns : delivery.owns (some (g, .node delivery.root)) = true := decide_eq_true rfl
  have begun : l ≠ .idle := by
    have post := ended atT rfl
    rw [if_pos owns] at post
    rintro rfl
    rcases post with impossible | impossible | impossible <;> cases impossible
  obtain ⟨ghost, member, busy⟩ := inv.owned (inv.tracked _ (List.mem_of_getElem? atT) begun)
  refine ⟨ghost, member, ?_⟩
  obtain ⟨t', atT'⟩ := List.mem_iff_getElem?.mp member
  have post := ended atT' rfl
  split at post
  · refine post.resolve_left fun seen => ?_
    rw [seen] at busy
    cases busy
  · rw [post] at busy
    cases busy

/-- A copy that has succeeded leaves the reference as it was if the root was bypassed, and lets it
point to the root otherwise. -/
theorem delivered_reference (success : σ.Returned 0 none) (here : .node delivery.root ∈ items) :
    fromOCI delivery.root ∈ σ.shared.user.stored ∧ ((Bypassed (fromOCI delivery.root) σ.shared.user.log ∧
        σ.shared.user.references delivery.dstRef = references delivery.dstRef) ∨
      (¬ Bypassed (fromOCI delivery.root) σ.shared.user.log ∧
        σ.shared.user.references delivery.dstRef = some (fromOCI delivery.root))) := by
  obtain ⟨ghosts, inv, ghost, member, done⟩ := delivered reach success here
  have stored := inv.stored ghost member (.inr done)
  -- Nobody else has tagged or skipped the root.
  have only {other : Label Item × Stage} (there : other ∈ ghosts) (far : other.2 = .tagged ∨ other.2 = .skipped) :
      other = ghost := by
    obtain ⟨t, atT⟩ := List.mem_iff_getElem?.mp member
    obtain ⟨t', atT'⟩ := List.mem_iff_getElem?.mp there
    obtain rfl := inv.unique t t' ghost other atT atT' (Stage.busy_of_stored (.inr done)) (Stage.busy_of_stored (.inr far))
    exact Option.some.inj (atT'.symm.trans atT)
  refine ⟨stored, ?_⟩
  rcases done with tagged | skipped
  · refine .inr ⟨fun bypassed => ?_, inv.tagged ghost member tagged⟩
    obtain ⟨other, there, skipped⟩ := inv.bypassed.mpr bypassed
    rw [only there (.inr skipped), tagged] at skipped
    cases skipped
  · refine .inl ⟨inv.bypassed.mp ⟨ghost, member, skipped⟩, inv.untagged fun other there tagged => ?_⟩
    rw [only there (.inl tagged), skipped] at tagged
    cases tagged

end

end Reach

variable {c : CopyCall} {root : Descriptor} {st : TargetState}

/-- A `Copy` that returns its root has stored it, and the destination resolves the reference to it,
unless the root was skipped by the caller's `PreCopy` or mounted: then the reference is as it was. -/
theorem copy_delivers_iff (returns : c.Returns (.ok root) st) : fromOCI root ∈ st.stored ∧
    (st.references c.reference = some (fromOCI root) ↔
      ¬ Bypassed (fromOCI root) st.log ∨ c.references c.reference = some (fromOCI root)) := by
  cases returns with
  | @copied _ σ _ reach success =>
    obtain ⟨stored, ⟨bypassed, same⟩ | ⟨delivered, points⟩⟩ :=
      delivered_reference reach success (List.mem_singleton.mpr rfl)
    · refine ⟨stored, ?_⟩
      rw [show σ.shared.user.references c.reference = c.references c.reference from same]
      exact ⟨.inr, fun either => either.resolve_left fun unpassed => unpassed bypassed⟩
    · exact ⟨stored, iff_of_true points (.inl delivered)⟩

/-! The image is copied to an empty destination, by callers whose `PreCopy` does nothing, or stores
the root itself. -/

set_option maxRecDepth 10000

namespace Latest

def call : CopyCall where
  content := Image.content
  src := { resolve := fun _ => .ok Image.manifest, fetchReference := none }
  srcRef := "latest"
  dstRef := ""
  refPusher := false
  opts := ⟨false, false⟩
  mapRoot := none
  concurrency := 1
  stored := ∅
  references := fun _ => none

/-- The caller's `PreCopy` stores the manifest and skips it if `skips`. -/
def answers (skips : Bool) (st : TargetState) : (op : TargetOp) → TargetAns op
  | .copy (.preCopy desc) =>
    if skips = true ∧ desc.mediaType = Ocispec.mediaTypeImageManifest then (true, some .skipNode) else (false, none)
  | .copy op => obliging Image.content { limiter := none, user := st.toCopyState } 0 (.user op)
  | .fetchCached _ => none
  | .pushReference _ _ => none
  | .tag _ _ => none

def copied (skips : Bool) : TargetRun :=
  (call.start Image.manifest).rounds (call.machine Image.manifest) (eager (answers skips)) 40

instance (k : Key) (log : List Event) : Decidable (Bypassed k log) := inferInstanceAs (Decidable (∃ event ∈ log, _))

theorem copied_stored : (copied false).returned? 0 = some none ∧ (copied true).returned? 0 = some none ∧
    ¬ Bypassed (fromOCI Image.manifest) (copied false).shared.user.log ∧
    fromOCI Image.manifest ∈ (copied true).shared.user.stored ∧
    (copied true).shared.user.references "latest" = none := by
  decide +kernel

theorem copied_returns {skips : Bool} (nil : (copied skips).returned? 0 = some none) :
    call.Returns (.ok Image.manifest) (copied skips).shared.user :=
  .copied rfl (Pool.rounds_reach 40 _) (Pool.returned?_eq_some.mp nil)

end Latest

theorem copy_delivers_latest : Latest.call.Returns (.ok Image.manifest) (Latest.copied false).shared.user ∧
    fromOCI Image.manifest ∈ (Latest.copied false).shared.user.stored ∧
    (Latest.copied false).shared.user.references "latest" = some (fromOCI Image.manifest) := by
  have returns := Latest.copied_returns Latest.copied_stored.1
  obtain ⟨stored, delivers⟩ := copy_delivers_iff returns
  exact ⟨returns, stored, delivers.mpr (.inl Latest.copied_stored.2.2.1)⟩

/-- The caller's `PreCopy` has stored the root and returned `SkipNode`: the copy succeeds, and the
destination does not know the reference. -/
theorem copy_leaves_reference : ∃ (c : CopyCall) (root : Descriptor) (st : TargetState),
    c.Returns (.ok root) st ∧ fromOCI root ∈ st.stored ∧ st.references c.reference = none :=
  ⟨Latest.call, Image.manifest, (Latest.copied true).shared.user, Latest.copied_returns Latest.copied_stored.2.1,
    Latest.copied_stored.2.2.2.1, Latest.copied_stored.2.2.2.2⟩

end OrasGo.Copy
