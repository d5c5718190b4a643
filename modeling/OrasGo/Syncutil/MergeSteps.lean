import OrasGo.Syncutil.MergeInv

/-! The operations of the calls of `Do` on a `Merge` object keep its invariant. -/

namespace OrasGo.Syncutil
open Interleaving

section Steps
variable {T : Type} {m : Merge T} {stages : List Stage} {t ch : Nat}

theorem MergeInv.elect (inv : MergeInv m stages) (found : stages[t]? = some (.waiting ch))
    (status : m.status = some ch) (opened : Open m stages ch) :
    MergeInv { m with chans := m.chans.set ch {} } (stages.set t (.preparing ch)) := by
  have bound : ch < m.chans.length := (inv.current ch status).1
  have here : (stages.set t (.preparing ch))[t]? = some (.preparing ch) :=
    List.getElem?_set_self (List.getElem?_eq_some_iff.mp found).1
  obtain ⟨fewer, others⟩ := waiters_left (.preparing ch) found (by simp)
  -- nobody else leads: the token was still there
  have leaderless : ∀ (u : Nat) (x : Stage) (ch' : Nat), stages[u]? = some x → x.leads ≠ some ch' := by
    intro u x ch' atU leads
    cases status.symm.trans (inv.leading u x ch' atU leads).1
    obtain ⟨p, mark⟩ := Stage.mark_of_leads leads
    exact opened.unled u x p atU mark
  constructor
  case toCallsInv =>
    refine inv.toCallsInv.set found List.length_set rfl rfl (fun c own => ?_) (fun c p marked => .inr ?_)
      (fun v none => by cases none) (by simp) (by simp) (by simp)
    · cases own
      exact bound
    · cases marked
      exact opened.unled
  case idle => exact inv.idle
  case unpended => exact inv.unpended
  case phase =>
    intro u x ch' p atU markU
    rcases getElem?_set_cases atU with ⟨_, rfl⟩ | ⟨_, old⟩
    · cases markU
      exact ⟨{}, List.getElem?_set_self bound, rfl⟩
    · have other : ch' ≠ ch := by
        rintro rfl
        exact opened.unled u x p old markU
      obtain ⟨c, atC, holds⟩ := inv.phase u x ch' p old markU
      rw [others ch' other]
      exact ⟨c, (List.getElem?_set_ne other.symm).trans atC, holds⟩
  case leading =>
    intro u x ch' atU leads
    rcases getElem?_set_cases atU with ⟨_, rfl⟩ | ⟨_, old⟩
    · cases leads
      exact ⟨status, opened.uncommitted⟩
    · exact absurd leads (leaderless u x ch' old)
  case counted =>
    intro u x ch' atU undecided
    rcases getElem?_set_cases atU with ⟨_, rfl⟩ | ⟨_, old⟩
    · cases undecided
      exact fewer.symm.trans opened.waiting
    · exact absurd (Stage.leads_of_undecided undecided) (leaderless u x ch' old)
  case current =>
    intro ch' status'
    cases status.symm.trans status'
    exact ⟨by rwa [List.length_set], .inr ⟨t, _, here, rfl⟩⟩
  case pended =>
    intro ch' pended
    have committed := (inv.pended ch' pended).2.1
    rw [opened.uncommitted] at committed
    cases committed

theorem MergeInv.leave (inv : MergeInv m stages) {u : Nat} {x : Stage} {p : Notice} {c : StatusChan} {err : Option Error}
    (found : stages[t]? = some (.waiting ch)) (atMain : stages[u]? = some x) (mark : x.mark = some (ch, p))
    (verdict : x.verdict = some (ch, err))
    (holds : ∀ left, waiters stages ch = left + 1 → p.Holds c left) :
    MergeInv { m with chans := m.chans.set ch c } (stages.set t (.finished ch false err)) := by
  have bound : ch < m.chans.length := inv.inside t _ ch found rfl
  obtain ⟨fewer, others⟩ := waiters_left (.finished ch false err) found (by simp)
  have decided : x.undecided ≠ some ch := by
    cases x <;> simp_all [Stage.verdict, Stage.undecided]
  constructor
  case toCallsInv =>
    refine inv.toCallsInv.set found List.length_set rfl rfl (fun c own => ?_) (fun c q marked => by cases marked)
      (fun v none => by cases none) (fun c err' same => ?_) (by simp) (by simp)
    · cases own
      exact bound
    · cases same
      exact ⟨u, x, atMain, verdict⟩
  case idle => exact inv.idle
  case unpended => exact inv.unpended
  case phase =>
    intro v y ch' q atV markV
    rcases getElem?_set_cases atV with ⟨_, rfl⟩ | ⟨_, old⟩
    · cases markV
    · by_cases same : ch' = ch
      · subst same
        cases inv.single v u y x ch' q p old atMain markV mark
        cases old.symm.trans atMain
        cases markV.symm.trans mark
        exact ⟨c, List.getElem?_set_self bound, holds _ fewer⟩
      · obtain ⟨c', atC, holds'⟩ := inv.phase v y ch' q old markV
        rw [others ch' same]
        exact ⟨c', (List.getElem?_set_ne (Ne.symm same)).trans atC, holds'⟩
  case leading =>
    intro v y ch' atV leads
    rcases getElem?_set_cases atV with ⟨_, rfl⟩ | ⟨_, old⟩
    · cases leads
    · exact inv.leading v y ch' old leads
  case counted =>
    intro v y ch' atV undecided
    rcases getElem?_set_cases atV with ⟨_, rfl⟩ | ⟨_, old⟩
    · cases undecided
    · have other : ch' ≠ ch := by
        rintro rfl
        obtain ⟨q, markV⟩ := Stage.mark_of_leads (Stage.leads_of_undecided undecided)
        cases inv.single v u y x ch' q p old atMain markV mark
        cases old.symm.trans atMain
        exact decided undecided
      rw [others ch' other]
      exact inv.counted v y ch' old undecided
  case current =>
    intro ch' status
    rw [List.length_set]
    obtain ⟨bound', opened | ⟨v, y, atV, leads⟩⟩ := inv.current ch' status
    · have other : ch' ≠ ch := by
        rintro rfl
        exact opened.unled u x p atMain mark
      refine ⟨bound', .inl ⟨(List.getElem?_set_ne other.symm).trans opened.token, opened.uncommitted, ?_,
        opened.unled.set fun q marked => by cases marked⟩⟩
      rw [others ch' other]
      exact opened.waiting
    · refine ⟨bound', .inr ⟨v, y, getElem?_set_stays found atV ?_, leads⟩⟩
      rintro rfl
      cases leads
  case pended =>
    intro ch' pended
    obtain ⟨empty, committed, apart, count, noMain⟩ := inv.pended ch' pended
    have other : ch' ≠ ch := by
      rintro rfl
      exact noMain u x p atMain mark
    refine ⟨(List.getElem?_set_ne other.symm).trans empty, committed, apart, ?_, noMain.set fun q marked => by cases marked⟩
    rw [others ch' other]
    exact count

/-- The channel of a batch has the main token, or nothing has been sent to it, or the main
call has left its outcome in it. -/
theorem MergeInv.batch (inv : MergeInv m stages) (bound : ch < m.chans.length) :
    (m.status = some ch ∧ Open m stages ch) ∨
    (∃ (u : Nat) (x : Stage) (p : Notice), stages[u]? = some x ∧ x.mark = some (ch, p)) ∨
    m.pendingStatus = some ch := by
  by_cases status : m.status = some ch
  · rcases (inv.current ch status).2 with opened | ⟨u, x, atU, leads⟩
    · exact .inl ⟨status, opened⟩
    · obtain ⟨p, mark⟩ := Stage.mark_of_leads leads
      exact .inr (.inl ⟨u, x, p, atU, mark⟩)
  · by_cases pended : m.pendingStatus = some ch
    · exact .inr (.inr pended)
    · obtain ⟨u, err, atU⟩ := inv.past ch bound status pended
      cases err with
      | none | some => exact .inr (.inl ⟨u, _, _, atU, rfl⟩)

theorem Stage.verdict_of_mark {x : Stage} {p : Notice} (mark : x.mark = some (ch, p)) :
    p = .quiet ∧ x.undecided = some ch ∨ p = .done ∧ x.verdict = some (ch, none) ∨
      ∃ err left, p = .failed err left ∧ x.verdict = some (ch, some err) := by
  unfold Stage.mark at mark
  split at mark
  all_goals cases mark
  all_goals simp [Stage.undecided, Stage.verdict]

/-- What a waiting call receives: the main token of its batch, or the outcome of it. -/
theorem MergeInv.receive (inv : MergeInv m stages) {value : MergeStatus} {m' : Merge T}
    (found : stages[t]? = some (.waiting ch)) (received : m.receive ch = some (value, m')) :
    value = { main := true } ∧ m.status = some ch ∧ MergeInv m' (stages.set t (.preparing ch)) ∨
    value.main = false ∧ (∃ (u : Nat) (x : Stage), stages[u]? = some x ∧ x.verdict = some (ch, value.err)) ∧
      MergeInv m' (stages.set t (.finished ch false value.err)) := by
  have bound : ch < m.chans.length := inv.inside t _ ch found rfl
  obtain ⟨c, atC, taken⟩ := Option.bind_eq_some_iff.mp received
  rcases inv.batch bound with ⟨status, opened⟩ | ⟨u, x, p, atU, mark⟩ | pended
  · cases atC.symm.trans opened.token
    cases taken
    exact .inl ⟨rfl, status, inv.elect found status opened⟩
  · obtain ⟨c', atC', holds⟩ := inv.phase u x ch p atU mark
    cases atC.symm.trans atC'
    rcases Stage.verdict_of_mark mark with ⟨rfl, _⟩ | ⟨rfl, verdict⟩ | ⟨err, left, rfl, verdict⟩
    · cases holds
      cases taken
    · cases holds
      cases taken
      refine .inr ⟨rfl, ⟨u, x, atU, verdict⟩, ?_⟩
      have kept := inv.leave (c := { closed := true }) found atU mark verdict (fun _ _ => rfl)
      rwa [set_same atC] at kept
    · rcases holds with ⟨rfl, _⟩ | ⟨rfl, count⟩
      · cases taken
      · cases taken
        refine .inr ⟨rfl, ⟨u, x, atU, verdict⟩, inv.leave (c := {}) found atU mark verdict ?_⟩
        intro left' more
        exact .inl ⟨rfl, by omega⟩
  · cases atC.symm.trans (inv.pended ch pended).1
    cases taken

theorem Stage.settled_spec {s : Stage} {err : Option Error} (settled : s.settled = some (ch, err)) :
    s.leads = some ch ∧ s.mark = (Stage.finished ch true err).mark ∧ s.verdict = some (ch, err) := by
  unfold Stage.settled at settled
  split at settled
  all_goals cases settled
  all_goals exact ⟨rfl, rfl, rfl⟩

section

variable (inv : MergeInv m stages)
include inv

/-- The pending batch becomes the current one, with the main token in its channel. -/
theorem MergeInv.handOver {s : Stage} {err : Option Error} (chans : List StatusChan) (found : stages[t]? = some s)
    (settled : s.settled = some (ch, err)) (length : chans.length = m.chans.length)
    (token : ∀ d, m.pendingStatus = some d → chans[d]? = some { buffer := some { main := true } })
    (same : ∀ d : Nat, m.pendingStatus ≠ some d → chans[d]? = m.chans[d]?) :
    MergeInv { m with
      committed := false
      items := m.pending
      status := m.pendingStatus
      pending := []
      pendingStatus := none
      chans := chans } (stages.set t (.finished ch true err)) := by
  obtain ⟨leads, sameMark, verdict⟩ := Stage.settled_spec settled
  have status := (inv.leading t s ch found leads).1
  have here : (stages.set t (.finished ch true err))[t]? = some (.finished ch true err) :=
    List.getElem?_set_self (List.getElem?_eq_some_iff.mp found).1
  have waiting : ∀ ch', waiters (stages.set t (.finished ch true err)) ch' = waiters stages ch' := fun ch' =>
    waiters_set_same found (Stage.not_waiting_of_leads leads ch') (by simp)
  have notPending : m.pendingStatus ≠ some ch := fun pended => (inv.pended ch pended).2.2.1 status
  -- the main call keeps its mark
  have before : ∀ (u : Nat) (x : Stage) (ch' : Nat) (p : Notice), (stages.set t (.finished ch true err))[u]? = some x →
      x.mark = some (ch', p) → ∃ y, stages[u]? = some y ∧ y.mark = some (ch', p) := by
    intro u x ch' p atU mark
    rcases getElem?_set_cases atU with ⟨rfl, rfl⟩ | ⟨_, old⟩
    · exact ⟨s, found, sameMark.trans mark⟩
    · exact ⟨x, old, mark⟩
  have leaderless : ∀ (u : Nat) (x : Stage) (ch' : Nat), (stages.set t (.finished ch true err))[u]? = some x →
      x.leads ≠ some ch' := by
    intro u x ch' atU leadsU
    rcases getElem?_set_cases atU with ⟨_, rfl⟩ | ⟨other, old⟩
    · cases leadsU
    · exact other (inv.leader_unique old found leadsU leads)
  refine ⟨⟨?inside, ?single, ?ended, ?followed, ?past⟩, ?phase, ?leading, ?counted, ?current, ?pended, ?idle, ?unpended⟩
  case inside =>
    intro u x ch' atU chan
    change ch' < chans.length
    rw [length]
    refine inv.inside_set (fun c own => ?_) u x ch' atU chan
    cases own
    exact inv.inside t s ch found (Stage.chan_of_leads leads)
  case single => exact inv.single_set found fun c p marked => .inl ⟨p, sameMark.trans marked⟩
  case phase =>
    intro u x ch' p atU mark
    obtain ⟨y, atY, markY⟩ := before u x ch' p atU mark
    obtain ⟨c, atC, holds⟩ := inv.phase u y ch' p atY markY
    rw [waiting]
    refine ⟨c, (same ch' fun pended => ?_).trans atC, holds⟩
    exact (inv.pended ch' pended).2.2.2.2 u y p atY markY
  case leading => exact fun u x ch' atU leadsU => absurd leadsU (leaderless u x ch' atU)
  case counted =>
    exact fun u x ch' atU undecided => absurd (Stage.leads_of_undecided undecided) (leaderless u x ch' atU)
  case ended =>
    intro u ch' err' atU
    refine ⟨?_, (Option.some_ne_none ch').symm⟩
    rcases getElem?_set_cases atU with ⟨_, ended⟩ | ⟨_, old⟩
    · cases ended
      exact notPending
    · exact (inv.ended u ch' err' old).2
  case followed =>
    refine inv.followed_set found (fun v known => ?_) (by simp)
    exact verdict.symm.trans known
  case current =>
    intro d pended
    obtain ⟨empty, _, _, count, noMain⟩ := inv.pended d pended
    refine ⟨?_, .inl ⟨token d pended, rfl, (waiting d).trans count, ?_⟩⟩
    · change d < chans.length
      rw [length]
      exact (List.getElem?_eq_some_iff.mp empty).1
    · intro u x p atU mark
      obtain ⟨y, atY, markY⟩ := before u x d p atU mark
      exact noMain u y p atY markY
  case pended => exact fun d none => absurd none.symm (Option.some_ne_none d)
  case past =>
    intro ch' bound notStatus _
    by_cases old : m.status = some ch'
    · cases status.symm.trans old
      exact ⟨t, err, here⟩
    · refine inv.past_set found (fun c err' same => ?_) ch' (length ▸ bound) old notStatus
      subst same
      cases leads
  case idle => exact fun none => ⟨inv.unpended none, rfl⟩
  case unpended => exact fun _ => rfl

/-- The last part of `complete` never blocks. -/
theorem MergeInv.promote {s : Stage} {err : Option Error} (found : stages[t]? = some s)
    (settled : s.settled = some (ch, err)) :
    ∃ m', m.promote = some m' ∧ MergeInv m' (stages.set t (.finished ch true err)) := by
  cases pended : m.pendingStatus with
  | none =>
    have kept := inv.handOver m.chans found settled rfl (fun d impossible => by cases pended.symm.trans impossible)
      fun _ _ => rfl
    rw [pended] at kept
    refine ⟨_, ?_, kept⟩
    simp [Merge.promote, pended]
  | some d =>
    have empty := (inv.pended d pended).1
    have bound := (List.getElem?_eq_some_iff.mp empty).1
    have kept := inv.handOver (m.chans.set d { buffer := some { main := true } }) found settled
      List.length_set ?_ ?_
    · rw [pended] at kept
      refine ⟨_, ?_, kept⟩
      simp [Merge.promote, Merge.send, pended, empty]
    · rintro d' pended'
      cases pended.symm.trans pended'
      exact List.getElem?_set_self bound
    · intro d' other
      refine List.getElem?_set_ne ?_
      rintro rfl
      exact other pended

theorem MergeInv.commit (found : stages[t]? = some (.preparing ch)) :
    MergeInv m.commit.2 (stages.set t (.resolving ch)) := by
  obtain ⟨c, atC, holds⟩ := inv.phase t _ ch _ found rfl
  have kept := inv.advance (.resolving ch) c found rfl rfl (fun _ => rfl)
    (fun p mark => by cases mark; exact holds) (fun _ => inv.counted t _ ch found rfl)
    (fun v impossible => by cases impossible)
  rwa [set_same atC] at kept

/-- The main call closes the channel of its batch: it is open, so this does not panic. -/
theorem MergeInv.close (found : stages[t]? = some (.resolving ch)) :
    ∃ m', m.close (some ch) = some m' ∧ MergeInv m' (stages.set t (.succeeded ch)) := by
  obtain ⟨c, atC, rfl⟩ := inv.phase t _ ch _ found rfl
  have flag := (inv.leading t _ ch found rfl).2
  have kept := inv.advance (.succeeded ch) { closed := true } found rfl rfl (fun _ => rfl)
    (fun p mark => by cases mark; rfl) (fun impossible => by cases impossible) (fun v impossible => by cases impossible)
  refine ⟨_, ?_, kept⟩
  simp [Merge.close, atC, flag, Stage.committed]

theorem MergeInv.fail (found : stages[t]? = some (.resolving ch)) (err : Error) :
    MergeInv m (stages.set t (.failing ch err (m.items.length - 1))) := by
  obtain ⟨c, atC, rfl⟩ := inv.phase t _ ch _ found rfl
  have flag := (inv.leading t _ ch found rfl).2
  have count := inv.counted t _ ch found rfl
  have kept := inv.advance (.failing ch err (m.items.length - 1)) {} found rfl rfl (fun _ => rfl)
    (fun p mark => by cases mark; exact .inl ⟨rfl, by omega⟩) (fun impossible => by cases impossible)
    (fun v impossible => by cases impossible)
  rw [set_same atC] at kept
  have same : { m with committed := true } = m := by
    cases m
    simp_all [Stage.committed]
  exact same ▸ kept

theorem MergeInv.send {err : Error} {left : Nat} {m' : Merge T}
    (found : stages[t]? = some (.failing ch err (left + 1))) (sent : m.send (some ch) { err := some err } = some m') :
    MergeInv m' (stages.set t (.failing ch err left)) := by
  obtain ⟨c, atC, holds⟩ := inv.phase t _ ch _ found rfl
  have flag := (inv.leading t _ ch found rfl).2
  rcases holds with ⟨rfl, count⟩ | ⟨rfl, _⟩
  · have kept := inv.advance (.failing ch err left) { buffer := some { err := some err } } found rfl rfl
      (fun _ => rfl) (fun p mark => by cases mark; exact .inr ⟨rfl, count⟩) (fun impossible => by cases impossible)
      (fun v known => by cases known; rfl)
    have same : m' = { m with committed := true, chans := m.chans.set ch { buffer := some { err := some err } } } := by
      simpa [Merge.send, atC, flag, Stage.committed] using sent.symm
    rw [same]
    exact kept
  · simp [Merge.send, atC] at sent

end

/-- The outcome of a batch is there for a call that waits at its channel: the channel is
closed, or an error is in it. -/
def Available (m : Merge T) (ch : Nat) : Prop :=
  ∃ c : StatusChan, m.chans[ch]? = some c ∧ (c.closed = true ∨ ∃ err, c.buffer = some { err := some err })

/-- No wake-up is lost. -/
theorem MergeInv.awaited (inv : MergeInv m stages) (found : stages[t]? = some (.waiting ch)) :
    Available m ch ∨ (∃ (u : Nat) (x : Stage) (ch' : Nat), stages[u]? = some x ∧ x.leads = some ch') ∨
      m.chans[ch]? = some { buffer := some { main := true } } := by
  rcases inv.batch (inv.inside t _ ch found rfl) with ⟨_, opened⟩ | ⟨u, x, p, atU, mark⟩ | pended
  · exact .inr (.inr opened.token)
  · rcases Stage.leads_or_finished mark with leads | ⟨err, rfl⟩
    · exact .inr (.inl ⟨u, x, ch, atU, leads⟩)
    · obtain ⟨c, atC, holds⟩ := inv.phase u _ ch p atU mark
      cases err with
      | none =>
        cases mark
        exact .inl ⟨c, atC, .inl (congrArg StatusChan.closed holds)⟩
      | some err =>
        cases mark
        have positive := waiters_pos found
        rcases holds with ⟨_, none⟩ | ⟨rfl, _⟩
        · omega
        · exact .inl ⟨_, atC, .inr ⟨err, rfl⟩⟩
  · exact .inr (.inl (inv.leader_of_committed (inv.pended ch pended).2.1))

theorem Available.receive (available : Available m ch) : ∃ out, m.receive ch = some out := by
  obtain ⟨c, atC, closed | ⟨err, full⟩⟩ := available
  · cases buffer : c.buffer with
    | none => exact Option.isSome_iff_exists.mp (by simp [Merge.receive, atC, buffer, closed])
    | some value => exact Option.isSome_iff_exists.mp (by simp [Merge.receive, atC, buffer])
  · exact Option.isSome_iff_exists.mp (by simp [Merge.receive, atC, full])

theorem receive_token (token : m.chans[ch]? = some { buffer := some { main := true } }) :
    ∃ out, m.receive ch = some out :=
  Option.isSome_iff_exists.mp (by simp [Merge.receive, token])

/-- The main call can send the error, or a waiting call can take the one before it. -/
theorem MergeInv.send_or_receive (inv : MergeInv m stages) {err : Error} {left : Nat}
    (found : stages[t]? = some (.failing ch err (left + 1))) :
    (∃ m', m.send (some ch) { err := some err } = some m') ∨
      ∃ u : Nat, stages[u]? = some (.waiting ch) ∧ ∃ out, m.receive ch = some out := by
  obtain ⟨c, atC, holds⟩ := inv.phase t _ ch _ found rfl
  rcases holds with ⟨rfl, _⟩ | ⟨rfl, count⟩
  · exact .inl (Option.isSome_iff_exists.mp (by simp [Merge.send, atC]))
  · have positive : 0 < waiters stages ch := by omega
    obtain ⟨u, atU⟩ := exists_waiting positive
    exact .inr ⟨u, atU, Available.receive ⟨_, atC, .inr ⟨err, rfl⟩⟩⟩

/-- The batches of an object hold the items that the calls have added to them. -/
structure Roster (m : Merge T) (members : Nat → List T) : Prop where
  items : ∀ ch, m.status = some ch → m.items = members ch
  pending : ∀ ch, m.pendingStatus = some ch → m.pending = members ch
  fresh : ∀ ch, m.chans.length ≤ ch → members ch = []

section

variable {members : Nat → List T} (roster : Roster m members)
include roster

theorem Roster.assign (inv : MergeInv m stages) (item : T) {members' : Nat → List T}
    (joined : members' (m.assign item).1 = members (m.assign item).1 ++ [item])
    (others : ∀ ch, ch ≠ (m.assign item).1 → members' ch = members ch) : Roster (m.assign item).2 members' := by
  have fresh := roster.fresh m.chans.length (Nat.le_refl _)
  revert joined others
  unfold Merge.assign
  split
  · rename_i committed
    split
    · rename_i free
      intro joined others
      refine ⟨fun ch status => ?_, ?_, fun ch later => ?_⟩
      · exact (roster.items ch status).trans (others ch (Nat.ne_of_lt (inv.current ch status).1)).symm
      · rintro ch ⟨⟩
        change m.pending ++ [item] = _
        rw [joined, fresh, inv.unpended free]
      · rw [List.length_append, List.length_singleton] at later
        exact (others ch (Nat.ne_of_gt later)).trans (roster.fresh ch (Nat.le_of_succ_le later))
    · rename_i d pended
      obtain ⟨empty, _, apart, _⟩ := inv.pended d pended
      intro joined others
      refine ⟨fun ch status => ?_, fun ch pended' => ?_, fun ch later => ?_⟩
      · refine (roster.items ch status).trans (others ch ?_).symm
        rintro rfl
        exact apart status
      · cases pended.symm.trans pended'
        change m.pending ++ [item] = _
        rw [joined, roster.pending d pended]
      · have bound := (List.getElem?_eq_some_iff.mp empty).1
        exact (others ch (Nat.ne_of_gt (Nat.lt_of_lt_of_le bound later))).trans (roster.fresh ch later)
  · rename_i uncommitted
    have noPending : ∀ ch, m.pendingStatus ≠ some ch := fun ch pended => uncommitted (inv.pended ch pended).2.1
    split
    · rename_i free
      intro joined others
      refine ⟨?_, fun ch pended => absurd pended (noPending ch), fun ch later => ?_⟩
      · rintro ch ⟨⟩
        change m.items ++ [item] = _
        rw [joined, fresh, (inv.idle free).1]
      · rw [List.length_append, List.length_singleton] at later
        exact (others ch (Nat.ne_of_gt later)).trans (roster.fresh ch (Nat.le_of_succ_le later))
    · rename_i c status
      intro joined others
      refine ⟨fun ch status' => ?_, fun ch pended => absurd pended (noPending ch), fun ch later => ?_⟩
      · cases status.symm.trans status'
        change m.items ++ [item] = _
        rw [joined, roster.items c status]
      · have bound := (inv.current c status).1
        exact (others ch (Nat.ne_of_gt (Nat.lt_of_lt_of_le bound later))).trans (roster.fresh ch later)

theorem Roster.keep {m' : Merge T} (items : m'.items = m.items) (status : m'.status = m.status)
    (pending : m'.pending = m.pending) (pended : m'.pendingStatus = m.pendingStatus)
    (length : m'.chans.length = m.chans.length) : Roster m' members where
  items ch same := items.trans (roster.items ch (status.symm.trans same))
  pending ch same := pending.trans (roster.pending ch (pended.symm.trans same))
  fresh ch later := roster.fresh ch (length ▸ later)

theorem Roster.promote {m' : Merge T} (promoted : m.promote = some m') : Roster m' members := by
  have moved : ∀ chans : List StatusChan, chans.length = m.chans.length →
      Roster { m with
        committed := false
        items := m.pending
        status := m.pendingStatus
        pending := []
        pendingStatus := none
        chans := chans } members := fun chans length =>
    ⟨roster.pending, fun ch none => absurd none.symm (Option.some_ne_none ch),
      fun ch later => roster.fresh ch (length ▸ later)⟩
  simp only [Merge.promote] at promoted
  split at promoted
  · obtain ⟨d, _, sent⟩ := Option.bind_eq_some_iff.mp promoted
    obtain ⟨c, _, sent⟩ := Option.bind_eq_some_iff.mp sent
    obtain ⟨_, sent⟩ := Option.ite_none_right_eq_some.mp sent
    cases sent
    exact moved _ List.length_set
  · cases promoted
    exact moved _ rfl

theorem Roster.reply {op : MergeOp T} {a : op.Ans} {m' : Merge T} (replied : m.reply op = some (a, m'))
    (plain : ∀ item, op ≠ .assign item) : Roster m' members := by
  cases op with
  | assign item => exact absurd rfl (plain item)
  | receive ch =>
    obtain ⟨c, _, taken⟩ := Option.bind_eq_some_iff.mp replied
    split at taken
    · cases taken
      exact roster.keep rfl rfl rfl rfl List.length_set
    · obtain ⟨_, taken⟩ := Option.ite_none_right_eq_some.mp taken
      cases taken
      exact roster
  | commit =>
    cases replied
    exact roster.keep rfl rfl rfl rfl rfl
  | remaining | status =>
    cases replied
    exact roster
  | close c =>
    obtain ⟨_, closed, same⟩ := Option.map_eq_some_iff.mp replied
    cases same
    obtain ⟨ch, _, closed⟩ := Option.bind_eq_some_iff.mp closed
    obtain ⟨c, _, closed⟩ := Option.bind_eq_some_iff.mp closed
    obtain ⟨_, closed⟩ := Option.ite_none_left_eq_some.mp closed
    cases closed
    exact roster.keep rfl rfl rfl rfl List.length_set
  | send c err =>
    obtain ⟨_, sent, same⟩ := Option.map_eq_some_iff.mp replied
    cases same
    obtain ⟨ch, _, sent⟩ := Option.bind_eq_some_iff.mp sent
    obtain ⟨c, _, sent⟩ := Option.bind_eq_some_iff.mp sent
    obtain ⟨_, sent⟩ := Option.ite_none_right_eq_some.mp sent
    cases sent
    exact roster.keep rfl rfl rfl rfl List.length_set
  | promote =>
    obtain ⟨_, promoted, same⟩ := Option.map_eq_some_iff.mp replied
    cases same
    exact roster.promote promoted

end

/-- What the main call of a batch got from `commit` is no longer added to. -/
theorem MergeInv.assign_elsewhere (inv : MergeInv m stages) {x : Stage} (found : stages[t]? = some x)
    (collected : x.collected = some ch) (item : T) : (m.assign item).1 ≠ ch := by
  have bound : ch < m.chans.length := inv.inside t x ch found (Stage.chan_of_collected collected)
  have apart : (m.committed = true ∨ m.status ≠ some ch) ∧ m.pendingStatus ≠ some ch := by
    rcases Stage.collected_cases collected with ⟨leads, committed⟩ | ⟨err, rfl⟩
    · obtain ⟨status, flag⟩ := inv.leading t x ch found leads
      exact ⟨.inl (flag.trans committed), fun pended => (inv.pended ch pended).2.2.1 status⟩
    · exact ⟨.inr (inv.ended t ch err found).1, (inv.ended t ch err found).2⟩
  unfold Merge.assign
  split
  · split
    · exact (Nat.ne_of_lt bound).symm
    · rename_i d pended
      rintro rfl
      exact apart.2 pended
  · rename_i uncommitted
    have notStatus := apart.1.resolve_left uncommitted
    split
    · exact (Nat.ne_of_lt bound).symm
    · rename_i c status
      rintro rfl
      exact notStatus status

end Steps

end OrasGo.Syncutil
