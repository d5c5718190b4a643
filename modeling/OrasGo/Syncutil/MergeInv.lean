import OrasGo.Base.Pool
import OrasGo.Syncutil.Merge

/-! What holds of a `Merge` object while any number of calls of `Do` use it. -/

namespace OrasGo.Syncutil
open Interleaving

/-- Where a call of `Do` is, with the number of the channel of its batch. The main call of
a batch goes from `preparing` to `finished`, the others from `waiting` to `finished`. -/
inductive Stage
  | outside
  | waiting (ch : Nat)
  | preparing (ch : Nat)
  | resolving (ch : Nat)
  | failing (ch : Nat) (err : Error) (left : Nat)
  | succeeded (ch : Nat)
  | finished (ch : Nat) (main : Bool) (err : Option Error)
  deriving DecidableEq

/-- What the main call of a batch has done to the channel of the batch: nothing yet, sent the
error to all but `left` of the others, or closed it. -/
inductive Notice
  | quiet
  | failed (err : Error) (left : Nat)
  | done
  deriving DecidableEq

namespace Stage

/-- The channel of the batch a call belongs to. -/
def chan : Stage → Option Nat
  | outside => none
  | waiting ch | preparing ch | resolving ch | failing ch _ _ | succeeded ch | finished ch _ _ => some ch

/-- The call is between receiving the main token and finishing `complete`. -/
def leads : Stage → Option Nat
  | preparing ch | resolving ch | failing ch _ _ | succeeded ch => some ch
  | _ => none

/-- The main call has closed the assignment window of its batch. -/
def committed : Stage → Bool
  | resolving _ | failing _ _ _ | succeeded _ => true
  | _ => false

/-- The main call of a batch that has no outcome yet. -/
def undecided : Stage → Option Nat
  | preparing ch | resolving ch => some ch
  | _ => none

/-- What the main call of a batch has done to its channel. -/
def mark : Stage → Option (Nat × Notice)
  | preparing ch | resolving ch => some (ch, .quiet)
  | failing ch err left => some (ch, .failed err left)
  | succeeded ch | finished ch true none => some (ch, .done)
  | finished ch true (some err) => some (ch, .failed err 0)
  | _ => none

/-- The main call has told the others of its batch the outcome. -/
def settled : Stage → Option (Nat × Option Error)
  | failing ch err 0 => some (ch, some err)
  | succeeded ch => some (ch, none)
  | _ => none

/-- The main call has the items of its batch. -/
def collected : Stage → Option Nat
  | resolving ch | failing ch _ _ | succeeded ch | finished ch true _ => some ch
  | _ => none

/-- The outcome of a batch as its main call knows it. -/
def verdict : Stage → Option (Nat × Option Error)
  | failing ch err _ => some (ch, some err)
  | succeeded ch => some (ch, none)
  | finished ch true err => some (ch, err)
  | _ => none

end Stage

/-- The state of the channel of a batch of which `waiting` calls still wait. -/
def Notice.Holds : Notice → StatusChan → Nat → Prop
  | quiet, c, _ => c = {}
  | failed err left, c, waiting =>
    c = {} ∧ waiting = left ∨ c = { buffer := some { err := some err } } ∧ waiting = left + 1
  | done, c, _ => c = { closed := true }

/-- The number of calls that wait at a channel. -/
def waiters (stages : List Stage) (ch : Nat) : Nat := stages.countP (· == .waiting ch)

/-- No call has received the main token of the channel. -/
def Unled (stages : List Stage) (ch : Nat) : Prop :=
  ∀ (t : Nat) (s : Stage) (p : Notice), stages[t]? = some s → s.mark ≠ some (ch, p)

/-- The main token of a batch is in its channel, and all its calls wait. -/
structure Open {T : Type} (m : Merge T) (stages : List Stage) (ch : Nat) : Prop where
  token : m.chans[ch]? = some { buffer := some { main := true } }
  uncommitted : m.committed = false
  waiting : waiters stages ch = m.items.length
  unled : Unled stages ch

/-- How the calls belong to the channels that there are. -/
structure CallsInv {T : Type} (m : Merge T) (stages : List Stage) : Prop where
  inside : ∀ (t : Nat) (s : Stage) (ch : Nat), stages[t]? = some s → s.chan = some ch → ch < m.chans.length
  single : ∀ (t t' : Nat) (s s' : Stage) (ch : Nat) (p p' : Notice), stages[t]? = some s → stages[t']? = some s' →
    s.mark = some (ch, p) → s'.mark = some (ch, p') → t = t'
  ended : ∀ (t : Nat) (ch : Nat) (err : Option Error), stages[t]? = some (.finished ch true err) →
    m.status ≠ some ch ∧ m.pendingStatus ≠ some ch
  followed : ∀ (t : Nat) (ch : Nat) (err : Option Error), stages[t]? = some (.finished ch false err) →
    ∃ (t' : Nat) (s : Stage), stages[t']? = some s ∧ s.verdict = some (ch, err)
  past : ∀ ch, ch < m.chans.length → m.status ≠ some ch → m.pendingStatus ≠ some ch →
    ∃ (t : Nat) (err : Option Error), stages[t]? = some (.finished ch true err)

structure MergeInv {T : Type} (m : Merge T) (stages : List Stage) : Prop extends CallsInv m stages where
  phase : ∀ (t : Nat) (s : Stage) (ch : Nat) (p : Notice), stages[t]? = some s → s.mark = some (ch, p) →
    ∃ c, m.chans[ch]? = some c ∧ p.Holds c (waiters stages ch)
  leading : ∀ (t : Nat) (s : Stage) (ch : Nat), stages[t]? = some s → s.leads = some ch →
    m.status = some ch ∧ m.committed = s.committed
  counted : ∀ (t : Nat) (s : Stage) (ch : Nat), stages[t]? = some s → s.undecided = some ch →
    waiters stages ch + 1 = m.items.length
  current : ∀ ch, m.status = some ch → ch < m.chans.length ∧
    (Open m stages ch ∨ ∃ (t : Nat) (s : Stage), stages[t]? = some s ∧ s.leads = some ch)
  pended : ∀ ch, m.pendingStatus = some ch → m.chans[ch]? = some {} ∧ m.committed = true ∧
    m.status ≠ some ch ∧ waiters stages ch = m.pending.length ∧ Unled stages ch
  idle : m.status = none → m.items = [] ∧ m.committed = false
  unpended : m.pendingStatus = none → m.pending = []

variable {stages : List Stage} {t : Nat} {s : Stage} {ch : Nat}

theorem MergeInv.initial {T : Type} (outside : ∀ (t : Nat) (s : Stage), stages[t]? = some s → s = .outside) :
    MergeInv ({} : Merge T) stages := by
  refine ⟨⟨?inside, ?single, ?ended, ?followed, ?past⟩, ?phase, ?leading, ?counted, ?current, ?pended, ?idle, ?unpended⟩
  case inside =>
    intro t s ch found chan
    obtain rfl := outside t s found
    cases chan
  case single =>
    intro t t' s s' ch p p' found _ mark
    obtain rfl := outside t s found
    cases mark
  case phase =>
    intro t s ch p found mark
    obtain rfl := outside t s found
    cases mark
  case leading =>
    intro t s ch found leads
    obtain rfl := outside t s found
    cases leads
  case counted =>
    intro t s ch found undecided
    obtain rfl := outside t s found
    cases undecided
  case ended => exact fun t ch err found => by cases outside t _ found
  case followed => exact fun t ch err found => by cases outside t _ found
  case current => exact fun ch impossible => by cases impossible
  case pended => exact fun ch impossible => by cases impossible
  case past => exact fun ch impossible => by cases impossible
  case idle => exact fun _ => ⟨rfl, rfl⟩
  case unpended => exact fun _ => rfl

namespace Stage

variable {s : Stage} {ch : Nat}

theorem chan_of_leads (leads : s.leads = some ch) : s.chan = some ch := by
  cases s <;> simp_all [Stage.leads, Stage.chan]

theorem chan_of_mark {p : Notice} (mark : s.mark = some (ch, p)) : s.chan = some ch := by
  unfold Stage.mark at mark
  split at mark <;> simp_all [Stage.chan]

theorem mark_of_leads (leads : s.leads = some ch) : ∃ p, s.mark = some (ch, p) := by
  cases s <;> simp_all [Stage.leads, Stage.mark]

theorem mark_of_verdict {err : Option Error} (verdict : s.verdict = some (ch, err)) :
    ∃ p, s.mark = some (ch, p) := by
  unfold Stage.verdict at verdict
  split at verdict
  · cases verdict; exact ⟨_, rfl⟩
  · cases verdict; exact ⟨_, rfl⟩
  · cases verdict
    cases err <;> exact ⟨_, rfl⟩
  · cases verdict

theorem leads_of_undecided (undecided : s.undecided = some ch) : s.leads = some ch := by
  cases s <;> simp_all [Stage.leads, Stage.undecided]

theorem chan_of_collected (collected : s.collected = some ch) : s.chan = some ch := by
  unfold Stage.collected at collected
  split at collected <;> simp_all [Stage.chan]

theorem collected_cases (collected : s.collected = some ch) :
    s.leads = some ch ∧ s.committed = true ∨ ∃ err, s = .finished ch true err := by
  unfold Stage.collected at collected
  split at collected <;> simp_all [Stage.leads, Stage.committed]

/-- A call that has the main token leads its batch until `complete` is done. -/
theorem leads_or_finished {p : Notice} (mark : s.mark = some (ch, p)) :
    s.leads = some ch ∨ ∃ err, s = .finished ch true err := by
  unfold Stage.mark at mark
  split at mark <;> simp_all [Stage.leads]

end Stage

theorem waiters_set (found : stages[t]? = some s) (s' : Stage) (ch : Nat) :
    waiters (stages.set t s') ch + (if s = .waiting ch then 1 else 0) =
      waiters stages ch + (if s' = .waiting ch then 1 else 0) := by
  simpa [waiters] using countP_set_add (· == Stage.waiting ch) found s'

theorem waiters_set_same {s' : Stage} (found : stages[t]? = some s) (other : s ≠ .waiting ch)
    (other' : s' ≠ .waiting ch) : waiters (stages.set t s') ch = waiters stages ch := by
  have counted := waiters_set found s' ch
  rw [if_neg other, if_neg other'] at counted
  simpa using counted

theorem waiters_left (s' : Stage) (found : stages[t]? = some (.waiting ch)) (gone : ∀ ch', s' ≠ .waiting ch') :
    waiters stages ch = waiters (stages.set t s') ch + 1 ∧
      ∀ ch' ≠ ch, waiters (stages.set t s') ch' = waiters stages ch' := by
  refine ⟨?_, fun ch' other => waiters_set_same found (by simpa using other.symm) (gone ch')⟩
  have counted := waiters_set found s' ch
  rw [if_pos rfl, if_neg (gone ch)] at counted
  exact counted.symm

theorem waiters_pos (found : stages[t]? = some (.waiting ch)) :
    0 < waiters stages ch :=
  List.countP_pos_iff.mpr ⟨_, List.mem_of_getElem? found, by simp⟩

theorem exists_waiting (positive : 0 < waiters stages ch) :
    ∃ t : Nat, stages[t]? = some (.waiting ch) := by
  obtain ⟨s, member, same⟩ := List.countP_pos_iff.mp positive
  obtain ⟨t, found⟩ := List.mem_iff_getElem?.mp member
  exact ⟨t, by simpa [beq_iff_eq.mp same] using found⟩

theorem Stage.eq_preparing (leads : s.leads = some ch) (uncommitted : s.committed = false) :
    s = .preparing ch := by
  cases s <;> simp_all [Stage.leads, Stage.committed]

theorem Stage.not_waiting_of_leads (leads : s.leads = some ch) (ch' : Nat) :
    s ≠ .waiting ch' := by
  rintro rfl
  cases leads

section Change
variable {T : Type} {m : Merge T} {stages : List Stage} {t : Nat} {s s' : Stage}

/-! What remains of the invariant when one call changes its stage from `s` to `s'`. -/

theorem getElem?_set_stays (found : stages[t]? = some s) {u : Nat} {x : Stage} (atU : stages[u]? = some x)
    (other : x ≠ s) : (stages.set t s')[u]? = some x := by
  refine (List.getElem?_set_ne ?_).trans atU
  rintro rfl
  exact other (Option.some.inj (atU.symm.trans found))

theorem Unled.set {ch : Nat} (unled : Unled stages ch) (own : ∀ p, s'.mark ≠ some (ch, p)) :
    Unled (stages.set t s') ch := by
  intro u x p atU
  rcases getElem?_set_cases atU with ⟨_, rfl⟩ | ⟨_, old⟩
  · exact own p
  · exact unled u x p old

section

variable (inv : CallsInv m stages)
include inv

theorem CallsInv.inside_set (own : ∀ ch, s'.chan = some ch → ch < m.chans.length) (u : Nat) (x : Stage) (ch : Nat)
    (atU : (stages.set t s')[u]? = some x) (chan : x.chan = some ch) : ch < m.chans.length := by
  rcases getElem?_set_cases atU with ⟨_, rfl⟩ | ⟨_, old⟩
  · exact own ch chan
  · exact inv.inside u x ch old chan

/-- A call may keep the mark it has, or get that of a channel without one. -/
theorem CallsInv.single_set (found : stages[t]? = some s)
    (own : ∀ ch p, s'.mark = some (ch, p) → (∃ q, s.mark = some (ch, q)) ∨ Unled stages ch) (u u' : Nat)
    (x x' : Stage) (ch : Nat) (p p' : Notice) (atU : (stages.set t s')[u]? = some x)
    (atU' : (stages.set t s')[u']? = some x') (mark : x.mark = some (ch, p)) (mark' : x'.mark = some (ch, p')) :
    u = u' := by
  have alone : ∀ (v : Nat) (y : Stage) (p q : Notice), stages[v]? = some y → y.mark = some (ch, q) →
      s'.mark = some (ch, p) → v = t := by
    intro v y p q atV markV changed
    rcases own ch p changed with ⟨r, before⟩ | unled
    · exact inv.single v t y s ch q r atV found markV before
    · exact absurd markV (unled v y q atV)
  rcases getElem?_set_cases atU with ⟨rfl, rfl⟩ | ⟨_, old⟩ <;>
    rcases getElem?_set_cases atU' with ⟨rfl, rfl⟩ | ⟨_, old'⟩
  · rfl
  · exact (alone u' x' p p' old' mark' mark).symm
  · exact alone u x p' p old mark mark'
  · exact inv.single u u' x x' ch p p' old old' mark mark'

theorem CallsInv.followed_set (found : stages[t]? = some s) (verdict : ∀ v, s.verdict = some v → s'.verdict = some v)
    (own : ∀ ch err, s' = .finished ch false err →
      ∃ (u : Nat) (x : Stage), stages[u]? = some x ∧ x.verdict = some (ch, err)) (u ch : Nat) (err : Option Error)
    (atU : (stages.set t s')[u]? = some (.finished ch false err)) :
    ∃ (u : Nat) (x : Stage), (stages.set t s')[u]? = some x ∧ x.verdict = some (ch, err) := by
  have known : ∃ (u : Nat) (x : Stage), stages[u]? = some x ∧ x.verdict = some (ch, err) := by
    rcases getElem?_set_cases atU with ⟨_, same⟩ | ⟨_, old⟩
    · exact own ch err same.symm
    · exact inv.followed u ch err old
  obtain ⟨v, x, atV, outcome⟩ := known
  by_cases same : v = t
  · subst same
    cases atV.symm.trans found
    exact ⟨v, s', List.getElem?_set_self (List.getElem?_eq_some_iff.mp found).1, verdict _ outcome⟩
  · exact ⟨v, x, (List.getElem?_set_ne (Ne.symm same)).trans atV, outcome⟩

theorem CallsInv.past_set (found : stages[t]? = some s) (own : ∀ ch err, s ≠ .finished ch true err) (ch : Nat)
    (bound : ch < m.chans.length) (notStatus : m.status ≠ some ch) (notPending : m.pendingStatus ≠ some ch) :
    ∃ (u : Nat) (err : Option Error), (stages.set t s')[u]? = some (.finished ch true err) := by
  obtain ⟨u, err, atU⟩ := inv.past ch bound notStatus notPending
  exact ⟨u, err, getElem?_set_stays found atU (own ch err).symm⟩

/-- A step of a call that has not ended, and that neither makes a channel nor moves one. -/
theorem CallsInv.set {m' : Merge T} (found : stages[t]? = some s) (length : m'.chans.length = m.chans.length)
    (status : m'.status = m.status) (pendingStatus : m'.pendingStatus = m.pendingStatus)
    (chan : ∀ ch, s'.chan = some ch → ch < m.chans.length)
    (mark : ∀ ch p, s'.mark = some (ch, p) → (∃ q, s.mark = some (ch, q)) ∨ Unled stages ch)
    (verdict : ∀ v, s.verdict = some v → s'.verdict = some v)
    (follows : ∀ ch err, s' = .finished ch false err →
      ∃ (u : Nat) (x : Stage), stages[u]? = some x ∧ x.verdict = some (ch, err))
    (before : ∀ ch err, s ≠ .finished ch true err) (after : ∀ ch err, s' ≠ .finished ch true err) :
    CallsInv m' (stages.set t s') where
  inside := length ▸ inv.inside_set chan
  single := inv.single_set found mark
  ended u ch err atU := by
    rcases getElem?_set_cases atU with ⟨_, same⟩ | ⟨_, old⟩
    · exact absurd same.symm (after ch err)
    · rw [status, pendingStatus]
      exact inv.ended u ch err old
  followed := inv.followed_set found verdict follows
  past := by
    rw [length, status, pendingStatus]
    exact inv.past_set found before

end

end Change

section Steps
variable {T : Type} {m : Merge T} {stages : List Stage} {t ch : Nat}

section

variable (inv : MergeInv m stages)
include inv

theorem MergeInv.leader_unique {t t' : Nat} {s s' : Stage} {ch ch' : Nat} (found : stages[t]? = some s)
    (found' : stages[t']? = some s') (leads : s.leads = some ch) (leads' : s'.leads = some ch') : t = t' := by
  have status := (inv.leading t s ch found leads).1
  have same : ch' = ch := Option.some.inj ((inv.leading t' s' ch' found' leads').1.symm.trans status)
  subst same
  obtain ⟨p, mark⟩ := Stage.mark_of_leads leads
  obtain ⟨p', mark'⟩ := Stage.mark_of_leads leads'
  exact inv.single t t' s s' ch' p p' found found' mark mark'

theorem MergeInv.leader_of_committed (committed : m.committed = true) :
    ∃ (t : Nat) (s : Stage) (ch : Nat), stages[t]? = some s ∧ s.leads = some ch := by
  cases status : m.status with
  | none =>
    have uncommitted := (inv.idle status).2
    rw [committed] at uncommitted
    cases uncommitted
  | some ch =>
    rcases (inv.current ch status).2 with opened | ⟨t, s, found, leads⟩
    · have uncommitted := opened.uncommitted
      rw [committed] at uncommitted
      cases uncommitted
    · exact ⟨t, s, ch, found, leads⟩

theorem MergeInv.advance {s : Stage} (s' : Stage) (c : StatusChan) (found : stages[t]? = some s)
    (leads : s.leads = some ch) (leads' : s'.leads = some ch) (committed : s.committed = true → s'.committed = true)
    (phase : ∀ p, s'.mark = some (ch, p) → p.Holds c (waiters stages ch))
    (counted : s'.undecided = some ch → waiters stages ch + 1 = m.items.length)
    (verdict : ∀ v, s.verdict = some v → s'.verdict = some v) :
    MergeInv { m with committed := s'.committed, chans := m.chans.set ch c } (stages.set t s') := by
  obtain ⟨q, mark⟩ := Stage.mark_of_leads leads
  obtain ⟨q', mark'⟩ := Stage.mark_of_leads leads'
  have bound : ch < m.chans.length := inv.inside t s ch found (Stage.chan_of_leads leads)
  have here : (stages.set t s')[t]? = some s' :=
    List.getElem?_set_self (List.getElem?_eq_some_iff.mp found).1
  have waiting : ∀ ch', waiters (stages.set t s') ch' = waiters stages ch' := fun ch' =>
    waiters_set_same found (Stage.not_waiting_of_leads leads ch') (Stage.not_waiting_of_leads leads' ch')
  obtain ⟨status, flag⟩ := inv.leading t s ch found leads
  -- a call other than the main one that has a mark has it on another channel
  have elsewhere : ∀ (u : Nat) (x : Stage) (ch' : Nat) (p : Notice), u ≠ t → stages[u]? = some x →
      x.mark = some (ch', p) → ch' ≠ ch := by
    rintro u x ch' p other atU markU rfl
    exact other (inv.single u t x s ch' p q atU found markU mark)
  constructor
  case toCallsInv =>
    refine inv.toCallsInv.set found List.length_set rfl rfl (fun c own => ?_) (fun ch' p changed => .inl ?_) verdict ?_ ?_ ?_
    · cases (Stage.chan_of_leads leads').symm.trans own
      exact bound
    · cases mark'.symm.trans changed
      exact ⟨q, mark⟩
    · rintro c err rfl
      cases leads'
    · rintro c err rfl
      cases leads
    · rintro c err rfl
      cases leads'
  case unpended => exact inv.unpended
  case phase =>
    intro u x ch' p atU markU
    rw [waiting]
    rcases getElem?_set_cases atU with ⟨rfl, rfl⟩ | ⟨other, old⟩
    · have same : ch = ch' := congrArg Prod.fst (Option.some.inj (mark'.symm.trans markU))
      subst same
      exact ⟨c, List.getElem?_set_self bound, phase p markU⟩
    · obtain ⟨c', atC, holds⟩ := inv.phase u x ch' p old markU
      exact ⟨c', (List.getElem?_set_ne (elsewhere u x ch' p other old markU).symm).trans atC, holds⟩
  case leading =>
    intro u x ch' atU leadsU
    rcases getElem?_set_cases atU with ⟨rfl, rfl⟩ | ⟨other, old⟩
    · cases leads'.symm.trans leadsU
      exact ⟨status, rfl⟩
    · exact absurd (inv.leader_unique old found leadsU leads) other
  case counted =>
    intro u x ch' atU undecided
    rw [waiting]
    rcases getElem?_set_cases atU with ⟨rfl, rfl⟩ | ⟨other, old⟩
    · cases leads'.symm.trans (Stage.leads_of_undecided undecided)
      exact counted undecided
    · exact inv.counted u x ch' old undecided
  case current =>
    intro ch' status'
    cases status.symm.trans status'
    exact ⟨by rwa [List.length_set], .inr ⟨t, s', here, leads'⟩⟩
  case pended =>
    intro ch' pending
    obtain ⟨empty, committed', other, count, noMain⟩ := inv.pended ch' pending
    have apart : ch' ≠ ch := by
      rintro rfl
      exact other status
    refine ⟨(List.getElem?_set_ne apart.symm).trans empty, committed (flag.symm.trans committed'), other, ?_,
      noMain.set fun p same => apart ?_⟩
    · rw [waiting]
      exact count
    · exact congrArg Prod.fst (Option.some.inj (same.symm.trans mark'))
  case idle =>
    intro none
    cases status.symm.trans none

theorem MergeInv.waiters_fresh : waiters stages m.chans.length = 0 := by
  by_contra positive
  obtain ⟨t, found⟩ := exists_waiting (Nat.pos_of_ne_zero positive)
  exact Nat.lt_irrefl _ (inv.inside t _ _ found rfl)

theorem MergeInv.unled_fresh : Unled stages m.chans.length := by
  intro t s p found mark
  exact Nat.lt_irrefl _ (inv.inside t s _ found (Stage.chan_of_mark mark))

end

theorem getElem?_concat_of_some {β : Type} {xs : List β} {n : Nat} {x y : β} (found : xs[n]? = some x) :
    (xs ++ [y])[n]? = some x :=
  (List.getElem?_append_left (List.getElem?_eq_some_iff.mp found).1).trans found

theorem MergeInv.phase_concat (inv : MergeInv m stages) {new : StatusChan} (u : Nat) (x : Stage) (ch : Nat) (p : Notice)
    (atU : stages[u]? = some x) (mark : x.mark = some (ch, p)) :
    ∃ c, (m.chans ++ [new])[ch]? = some c ∧ p.Holds c (waiters stages ch) := by
  obtain ⟨c, atC, holds⟩ := inv.phase u x ch p atU mark
  exact ⟨c, getElem?_concat_of_some atC, holds⟩

theorem Open.mono {m' : Merge T} (opened : Open m stages ch) {c : StatusChan} (chans : m'.chans = m.chans ++ [c])
    (items : m'.items = m.items) (committed : m'.committed = m.committed) : Open m' stages ch where
  token := by rw [chans]; exact getElem?_concat_of_some opened.token
  uncommitted := committed.trans opened.uncommitted
  waiting := by rw [items]; exact opened.waiting
  unled := opened.unled

theorem MergeInv.makePending (inv : MergeInv m stages) (committed : m.committed = true) (free : m.pendingStatus = none) :
    MergeInv { m with pendingStatus := some m.chans.length, chans := m.chans ++ [{}] } stages := by
  have longer : ∀ n, n < m.chans.length → n < (m.chans ++ [({} : StatusChan)]).length := by
    intro n bound
    rw [List.length_append]
    exact Nat.lt_add_right _ bound
  refine { inv with
    inside := fun u x ch' atU chan => longer ch' (inv.inside u x ch' atU chan), phase := inv.phase_concat
    ended := ?ended, current := ?current, pended := ?pended, past := ?past, unpended := fun none => absurd none (Option.some_ne_none _) }
  case ended =>
    intro u ch' err atU
    refine ⟨(inv.ended u ch' err atU).1, fun same => ?_⟩
    have bound := inv.inside u _ ch' atU rfl
    cases same
    exact Nat.lt_irrefl _ bound
  case current =>
    intro ch' status
    obtain ⟨bound, opened | led⟩ := inv.current ch' status
    · exact ⟨longer ch' bound, .inl (opened.mono rfl rfl rfl)⟩
    · exact ⟨longer ch' bound, .inr led⟩
  case pended =>
    rintro ch' ⟨⟩
    refine ⟨List.getElem?_concat_length, committed, fun status => Nat.lt_irrefl _ (inv.current _ status).1, ?_,
      inv.unled_fresh⟩
    rw [inv.waiters_fresh, inv.unpended free]
    rfl
  case past =>
    intro ch' bound notStatus notPending
    have other : ch' ≠ m.chans.length := fun same => notPending (congrArg some same.symm)
    rw [List.length_append, List.length_singleton] at bound
    refine inv.past ch' (by omega) notStatus ?_
    rw [free]
    exact (Option.some_ne_none ch').symm

theorem MergeInv.makeStatus (inv : MergeInv m stages) (free : m.status = none) :
    MergeInv { m with status := some m.chans.length, chans := m.chans ++ [{ buffer := some { main := true } }] }
      stages := by
  have longer : ∀ n, n < m.chans.length →
      n < (m.chans ++ [({ buffer := some { main := true } } : StatusChan)]).length := by
    intro n bound
    rw [List.length_append]
    exact Nat.lt_add_right _ bound
  obtain ⟨noItems, uncommitted⟩ := inv.idle free
  refine { inv with
    inside := fun u x ch' atU chan => longer ch' (inv.inside u x ch' atU chan), phase := inv.phase_concat
    ended := ?ended, leading := ?leading, current := ?current, pended := ?pended, past := ?past
    idle := fun none => absurd none (Option.some_ne_none _) }
  case leading =>
    intro u x ch' atU leads
    cases free.symm.trans (inv.leading u x ch' atU leads).1
  case ended =>
    intro u ch' err atU
    refine ⟨fun same => ?_, (inv.ended u ch' err atU).2⟩
    have bound := inv.inside u _ ch' atU rfl
    cases same
    exact Nat.lt_irrefl _ bound
  case current =>
    rintro ch' ⟨⟩
    refine ⟨by simp, .inl ⟨List.getElem?_concat_length, uncommitted, ?_, inv.unled_fresh⟩⟩
    rw [inv.waiters_fresh, noItems]
    rfl
  case pended =>
    intro ch' pending
    have committed := (inv.pended ch' pending).2.1
    rw [uncommitted] at committed
    cases committed
  case past =>
    intro ch' bound notStatus notPending
    have other : ch' ≠ m.chans.length := fun same => notStatus (congrArg some same.symm)
    rw [List.length_append, List.length_singleton] at bound
    refine inv.past ch' (by omega) ?_ notPending
    rw [free]
    exact (Option.some_ne_none ch').symm

/-- A call adds its item to the batch of a channel: to the current batch as long as it is not
committed, or to the pending one. -/
theorem MergeInv.join (inv : MergeInv m stages) {items pending : List T} (found : stages[t]? = some .outside)
    (joined : m.status = some ch ∧ m.committed = false ∧ items.length = m.items.length + 1 ∧ pending = m.pending ∨
      m.pendingStatus = some ch ∧ items = m.items ∧ pending.length = m.pending.length + 1) :
    MergeInv { m with items := items, pending := pending } (stages.set t (.waiting ch)) := by
  have bound : ch < m.chans.length := by
    rcases joined with ⟨status, _⟩ | ⟨pended, _⟩
    · exact (inv.current ch status).1
    · exact (List.getElem?_eq_some_iff.mp (inv.pended ch pended).1).1
  have more : waiters (stages.set t (.waiting ch)) ch = waiters stages ch + 1 := by
    have counted := waiters_set found (.waiting ch) ch
    rw [if_neg (by simp), if_pos rfl] at counted
    exact counted
  have others : ∀ ch', ch' ≠ ch → waiters (stages.set t (.waiting ch)) ch' = waiters stages ch' := by
    intro ch' other
    exact waiters_set_same found (by simp) (by simpa using other.symm)
  have apart : m.pendingStatus = some ch → m.status ≠ some ch := fun pended => (inv.pended ch pended).2.2.1
  constructor
  case toCallsInv =>
    refine inv.toCallsInv.set found rfl rfl rfl (fun c own => ?_) (fun c p marked => by cases marked)
      (fun v none => by cases none) (by simp) (by simp) (by simp)
    cases own
    exact bound
  case phase =>
    intro u x ch' p atU markU
    rcases getElem?_set_cases atU with ⟨_, rfl⟩ | ⟨_, old⟩
    · cases markU
    · obtain ⟨c, atC, holds⟩ := inv.phase u x ch' p old markU
      refine ⟨c, atC, ?_⟩
      by_cases same : ch' = ch
      · subst same
        -- the batch still takes items, so its channel is as it was made
        rcases joined with ⟨status, uncommitted, _⟩ | ⟨pended, _⟩
        · rcases Stage.leads_or_finished markU with leads | ⟨err, rfl⟩
          · have flag := (inv.leading u x ch' old leads).2
            obtain rfl := Stage.eq_preparing leads (flag.symm.trans uncommitted)
            cases markU
            exact holds
          · exact absurd status (inv.ended u ch' err old).1
        · exact absurd markU ((inv.pended ch' pended).2.2.2.2 u x p old)
      · rw [others ch' same]
        exact holds
  case leading =>
    intro u x ch' atU leads
    rcases getElem?_set_cases atU with ⟨_, rfl⟩ | ⟨_, old⟩
    · cases leads
    · exact inv.leading u x ch' old leads
  case counted =>
    intro u x ch' atU undecided
    rcases getElem?_set_cases atU with ⟨_, rfl⟩ | ⟨_, old⟩
    · cases undecided
    · have count := inv.counted u x ch' old undecided
      have status := (inv.leading u x ch' old (Stage.leads_of_undecided undecided)).1
      rcases joined with ⟨status', _, length, _⟩ | ⟨pended, same, _⟩
      · cases status.symm.trans status'
        change waiters (stages.set t (.waiting ch)) ch + 1 = items.length
        rw [more, length, count]
      · have other : ch' ≠ ch := by
          rintro rfl
          exact apart pended status
        change waiters (stages.set t (.waiting ch)) ch' + 1 = items.length
        rw [others ch' other, same, count]
  case current =>
    intro ch' status
    obtain ⟨bound', opened | ⟨u, x, atU, leads⟩⟩ := inv.current ch' status
    · refine ⟨bound', .inl ⟨opened.token, opened.uncommitted, ?_, opened.unled.set fun p marked => by cases marked⟩⟩
      change waiters (stages.set t (.waiting ch)) ch' = items.length
      rcases joined with ⟨status', _, length, _⟩ | ⟨pended, same, _⟩
      · cases status.symm.trans status'
        rw [more, length, opened.waiting]
      · have other : ch' ≠ ch := by
          rintro rfl
          exact apart pended status
        rw [others ch' other, same, opened.waiting]
    · refine ⟨bound', .inr ⟨u, x, getElem?_set_stays found atU ?_, leads⟩⟩
      rintro rfl
      cases leads
  case pended =>
    intro ch' pended
    obtain ⟨empty, committed, other, count, noMain⟩ := inv.pended ch' pended
    refine ⟨empty, committed, other, ?_, noMain.set fun p marked => by cases marked⟩
    change waiters (stages.set t (.waiting ch)) ch' = pending.length
    rcases joined with ⟨status, uncommitted, _⟩ | ⟨pended', _, length⟩
    · cases uncommitted.symm.trans committed
    · cases pended.symm.trans pended'
      rw [more, length, count]
  case idle =>
    intro none
    rcases joined with ⟨status, _⟩ | ⟨pended, same, _⟩
    · cases status.symm.trans none
    · change items = [] ∧ m.committed = false
      rw [same]
      exact inv.idle none
  case unpended =>
    intro none
    rcases joined with ⟨_, _, _, same⟩ | ⟨pended, _⟩
    · exact same.trans (inv.unpended none)
    · cases pended.symm.trans none

theorem MergeInv.assign (inv : MergeInv m stages) (found : stages[t]? = some .outside) (item : T) :
    MergeInv (m.assign item).2 (stages.set t (.waiting (m.assign item).1)) := by
  unfold Merge.assign
  split
  · rename_i committed
    split
    · rename_i free
      exact (inv.makePending committed free).join found (.inr ⟨rfl, rfl, by simp⟩)
    · rename_i ch pended
      exact inv.join found (.inr ⟨pended, rfl, by simp⟩)
  · rename_i uncommitted
    split
    · rename_i free
      exact (inv.makeStatus free).join found (.inl ⟨rfl, by simpa using uncommitted, by simp, rfl⟩)
    · rename_i ch status
      exact inv.join found (.inl ⟨status, by simpa using uncommitted, by simp, rfl⟩)

end Steps

end OrasGo.Syncutil
