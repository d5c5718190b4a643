import OrasGo.Syncutil.MergeRun

/-! The merge protocol keeps its promises in every interleaving. -/

namespace OrasGo.Syncutil.MergeRun
open Interleaving

variable {T : Type}

section Logs

variable {β : Type} {e : CallEvent T}

theorem own_self (seen : CallEvent T → Option β) (log : Log T) (e : CallEvent T) :
    own seen (log ++ [e]) e.thread = own seen log e.thread ++ (seen e).toList := by
  simp only [own, List.filter_append, List.filterMap_append, List.filter_cons, beq_self_eq_true, if_true,
    List.filter_nil, List.filterMap_cons, List.filterMap_nil]
  cases seen e <;> rfl

theorem own_other (seen : CallEvent T → Option β) (log : Log T) {t : Nat} (other : t ≠ e.thread) :
    own seen (log ++ [e]) t = own seen log t := by
  simp [own, List.filter_append, Ne.symm other]

theorem batchItems_joins (log : Log T) {item : T} {ch : Nat} (joins : joins e = some (item, ch)) :
    batchItems (log ++ [e]) ch = batchItems log ch ++ [item] := by
  simp [batchItems, List.filterMap_append, joins]

theorem batchItems_elsewhere (log : Log T) {ch : Nat} (other : ∀ item, joins e ≠ some (item, ch)) :
    batchItems (log ++ [e]) ch = batchItems log ch := by
  cases joined : joins e with
  | none => simp [batchItems, List.filterMap_append, joined]
  | some j =>
    obtain ⟨item, ch'⟩ := j
    have apart : ch' ≠ ch := by
      rintro rfl
      exact other item joined
    simp [batchItems, List.filterMap_append, joined, apart]

theorem mem_own {seen : CallEvent T → Option β} {log : Log T} {t : Nat} {x : β} :
    x ∈ own seen log t ↔ ∃ e ∈ log, e.thread = t ∧ seen e = some x := by
  simp [own, and_assoc]

theorem Ordered.concat {log : Log T} (ordered : Ordered log)
    (last : report e = some .prepareBegin → ∀ e' ∈ log, report e' = some .prepareBegin → Promoted log e'.thread) :
    Ordered (log ++ [e]) := by
  intro before after e₁ split begins
  rcases List.eq_nil_or_concat after with rfl | ⟨after', e₂, rfl⟩
  · obtain ⟨rfl, rfl⟩ := List.append_singleton_inj.mp split
    exact last begins
  · have split' : log ++ [e] = (before ++ e₁ :: after') ++ [e₂] := by simpa using split
    obtain ⟨rfl, _⟩ := List.append_singleton_inj.mp split'
    exact ordered before after' e₁ rfl begins

end Logs

/-- A call and what it has done: its stage, what it has done with its functions, and the
items it got from `commit`. -/
structure Work (T : Type) where
  stage : Stage := .outside
  trail : List (Report T) := []
  items : List T := []

/-- How far a call at some stage can be with its functions. -/
inductive Point : Stage → List T → List (Report T) → Prop
  | outside {items} : Point .outside items []
  | waiting {ch items} : Point (.waiting ch) items []
  | elected {ch items} : Point (.preparing ch) items []
  | preparing {ch items} : Point (.preparing ch) items [.prepareBegin]
  | prepared {ch items err} : Point (.preparing ch) items [.prepareBegin, .prepareEnd err]
  | committed {ch items err} : Point (.resolving ch) items [.prepareBegin, .prepareEnd err]
  | resolving {ch items} :
      Point (.resolving ch) items [.prepareBegin, .prepareEnd none, .resolveBegin items]
  | resolved {ch items err} :
      Point (.resolving ch) items [.prepareBegin, .prepareEnd none, .resolveBegin items, .resolveEnd err]
  | failing {ch items err left trail} : Course items (some err) trail → Point (.failing ch err left) items trail
  | succeeded {ch items trail} : Course items none trail → Point (.succeeded ch) items trail
  | main {ch items err trail} : Course items err trail → Point (.finished ch true err) items trail
  | other {ch items err} : Point (.finished ch false err) items []

variable {items : List T} {ghosts : List (T × Work T)} {t : Nat} {item : T} {w : Work T} {log : Log T}
  {e : CallEvent T}

theorem Course.outcome_unique {err err' : Option Error} {trail : List (Report T)} (course : Course items err trail)
    (course' : Course items err' trail) : err = err' := by
  cases course <;> cases course' <;> rfl

/-- A call that has begun with its functions has received the main token of its batch. -/
theorem Point.main_of_reports {stage : Stage} {r : Report T} {rest : List (Report T)}
    (point : Point stage items (r :: rest)) : ∃ ch p, stage.mark = some (ch, p) := by
  cases point with
  | preparing | prepared | committed | resolving | resolved | failing _ | succeeded _ => exact ⟨_, _, rfl⟩
  | @main ch _ err _ _ => cases err <;> exact ⟨ch, _, rfl⟩

section

variable {stage : Stage} {items : List T} {trail : List (Report T)} (point : Point stage items trail)
include point

theorem Point.leads_of_running
    (running : trail.getLast? = some .prepareBegin ∨ ∃ items', trail.getLast? = some (.resolveBegin items')) :
    ∃ ch, stage.leads = some ch := by
  cases point with
  | preparing | resolving | prepared | committed | resolved => exact ⟨_, rfl⟩
  | outside | waiting | elected | other => simp at running
  | failing | succeeded => exact ⟨_, rfl⟩
  | main course => cases course <;> simp at running

/-- What a call has done with its functions is the beginning of a whole course. -/
theorem Point.course :
    ∃ err whole, Course items err whole ∧ trail <+: whole := by
  have resolved : ∀ err, Course items err _ := Course.resolved
  cases point with
  | outside | waiting | elected | other => exact ⟨none, _, resolved none, List.nil_prefix⟩
  | preparing => exact ⟨none, _, resolved none, by simp⟩
  | @prepared _ _ err | @committed _ _ err =>
    cases err with
    | none => exact ⟨none, _, resolved none, by simp⟩
    | some err => exact ⟨some err, _, .unprepared err, List.prefix_rfl⟩
  | resolving => exact ⟨none, _, resolved none, by simp⟩
  | @resolved _ _ err => exact ⟨err, _, resolved err, List.prefix_rfl⟩
  | failing course | succeeded course | main course => exact ⟨_, _, course, List.prefix_rfl⟩

theorem Point.uncollected (uncollected : stage.collected = none) (items' : List T) : Point stage items' trail := by
  cases point with
  | outside => exact .outside
  | waiting => exact .waiting
  | elected => exact .elected
  | preparing => exact .preparing
  | prepared => exact .prepared
  | committed | resolving | resolved | failing _ | succeeded _ | main _ => cases uncollected
  | other => exact .other

end

section Outline

def pre (item : T) : CallOp T → Work T → Prop
  | .merge (.assign x), w => x = item ∧ w = {}
  | .merge (.receive ch), w => w = { stage := .waiting ch }
  | .merge .commit, w => ∃ ch err, w = { stage := .preparing ch, trail := [.prepareBegin, .prepareEnd err] }
  | .merge .remaining, w => ∃ ch err, w.stage = .resolving ch ∧ Course w.items (some err) w.trail
  | .merge .status, w => ∃ ch, w.stage.leads = some ch
  | .merge (.close c), w => ∃ ch, c = some ch ∧ w.stage = .resolving ch ∧ Course w.items none w.trail
  | .merge (.send c err), w => ∃ ch left, c = some ch ∧ w.stage = .failing ch err (left + 1)
  | .merge .promote, w => ∃ ch err, w.stage.settled = some (ch, err)
  | .prepareBegin, w => ∃ ch, w = { stage := .preparing ch }
  | .prepareEnd, w => ∃ ch, w = { stage := .preparing ch, trail := [.prepareBegin] }
  | .resolveBegin items, w =>
    ∃ ch, w = { stage := .resolving ch, trail := [.prepareBegin, .prepareEnd none], items := items }
  | .resolveEnd, w =>
    ∃ ch items, w =
      { stage := .resolving ch, trail := [.prepareBegin, .prepareEnd none, .resolveBegin items], items := items }

def next : (op : CallOp T) → op.Ans → Work T → Work T → Prop
  | .merge (.assign _), ch, _, w' => w' = { stage := .waiting ch }
  | .merge (.receive ch), status, _, w' =>
    status = { main := true } ∧ w' = { stage := .preparing ch } ∨
      status.main = false ∧ w' = { stage := .finished ch false status.err }
  | .merge .commit, items, w, w' => ∃ ch, w.stage = .preparing ch ∧ w' = { w with stage := .resolving ch, items := items }
  | .merge .remaining, left, w, w' => ∃ ch err, w.stage = .resolving ch ∧ Course w.items (some err) w.trail ∧
    w' = { w with stage := .failing ch err left }
  | .merge .status, c, w, w' => c = w.stage.leads ∧ w' = w
  | .merge (.close _), _, w, w' => ∃ ch, w.stage = .resolving ch ∧ w' = { w with stage := .succeeded ch }
  | .merge (.send _ _), _, w, w' => ∃ ch err left, w.stage = .failing ch err (left + 1) ∧
    w' = { w with stage := .failing ch err left }
  | .merge .promote, _, w, w' => ∃ ch err, w.stage.settled = some (ch, err) ∧
    w' = { w with stage := .finished ch true err }
  | .prepareBegin, _, w, w' => w' = { w with trail := w.trail ++ [.prepareBegin] }
  | .prepareEnd, err, w, w' => w' = { w with trail := w.trail ++ [.prepareEnd err] }
  | .resolveBegin items, _, w, w' => w' = { w with trail := w.trail ++ [.resolveBegin items] }
  | .resolveEnd, err, w, w' => w' = { w with trail := w.trail ++ [.resolveEnd err] }

def ghost (item : T) : Ghost (CallOp T) CallOp.Ans (Work T) := ⟨pre item, next⟩

def post (_ : T) (err : Option Error) (w : Work T) : Prop := ∃ ch main, w.stage = .finished ch main err

theorem wp_notify {item : T} {ch : Nat} {err : Error} {w : Work T} {left : Nat} (stage : w.stage = .failing ch err left) :
    wp (ghost item) (notify call (some ch) err left)
      (fun _ w' => w' = { w with stage := .failing ch err 0 }) w := by
  induction left generalizing w with
  | zero =>
    obtain ⟨_, trail, items⟩ := w
    cases stage
    rfl
  | succ left ih =>
    refine ⟨⟨ch, left, rfl, stage⟩, ?_⟩
    rintro _ w' ⟨ch', err', left', stage', rfl⟩
    cases stage.symm.trans stage'
    exact ih (w := { w with stage := .failing ch err left }) rfl

theorem wp_complete {item : T} {ch : Nat} {w : Work T} (stage : w.stage = .resolving ch) (result : Option Error)
    (course : Course w.items result w.trail) : wp (ghost item) (complete call result) (fun _ => post item result) w := by
  have promote : ∀ {w' : Work T}, w'.stage.settled = some (ch, result) →
      wp (ghost item) (call .promote) (fun _ => post item result) w' := by
    intro w' settled
    refine ⟨⟨ch, result, settled⟩, ?_⟩
    rintro _ w'' ⟨ch', result', settled', rfl⟩
    cases settled.symm.trans settled'
    exact ⟨ch, true, rfl⟩
  cases result with
  | none =>
    refine ⟨⟨ch, by rw [stage]; rfl⟩, ?_⟩
    rintro status _ ⟨same, rfl⟩
    rw [stage] at same
    refine ⟨⟨ch, same, stage, course⟩, ?_⟩
    rintro _ w' ⟨ch', stage', rfl⟩
    cases stage.symm.trans stage'
    exact promote rfl
  | some err =>
    refine ⟨⟨ch, err, stage, course⟩, ?_⟩
    rintro left w' ⟨ch', err', stage', course', rfl⟩
    cases stage.symm.trans stage'
    cases course.outcome_unique course'
    refine ⟨⟨ch, rfl⟩, ?_⟩
    rintro status _ ⟨same, rfl⟩
    subst same
    change wp _ (notify call (some ch) err left >>= fun _ => call .promote) _ _
    refine wp_seq _ (wp_notify rfl) ?_
    rintro _ w' rfl
    exact promote rfl

theorem wp_code (item : T) : wp (ghost item) (code item) (post item) {} := by
  refine ⟨⟨rfl, rfl⟩, ?_⟩
  rintro ch _ rfl
  refine ⟨rfl, ?_⟩
  rintro status _ (⟨rfl, rfl⟩ | ⟨follower, rfl⟩)
  · refine ⟨⟨ch, rfl⟩, ?_⟩
    rintro _ _ rfl
    refine ⟨⟨ch, rfl⟩, ?_⟩
    rintro prepared _ rfl
    refine ⟨⟨ch, prepared, rfl⟩, ?_⟩
    rintro items _ ⟨ch', stage, rfl⟩
    cases stage
    cases prepared with
    | none =>
      refine ⟨⟨ch, rfl⟩, ?_⟩
      rintro _ _ rfl
      refine ⟨⟨ch, items, rfl⟩, ?_⟩
      rintro err _ rfl
      change wp _ (complete call err >>= fun _ => Prog.ret err) _ _
      refine wp_seq _ (wp_complete rfl err (Course.resolved err)) ?_
      exact fun _ _ done => done
    | some err =>
      change wp _ (complete call (some err) >>= fun _ => Prog.ret (some err)) _ _
      refine wp_seq _ (wp_complete rfl (some err) (Course.unprepared err)) ?_
      exact fun _ _ done => done
  · change wp _ (if status.main = true then _ else _) _ _
    rw [if_neg (by simp [follower])]
    exact ⟨ch, false, rfl⟩

end Outline

/-- What the log says about one call. -/
structure Own (log : Log T) (t : Nat) (item : T) (w : Work T) : Prop where
  joined : joined log t = w.stage.chan.toList.map (Prod.mk item)
  reports : reports log t = w.trail
  point : Point w.stage w.items w.trail
  elected : ∀ ch p, w.stage.mark = some (ch, p) → Elected log t
  promoted : Promoted log t ↔ ∃ ch err, w.stage = .finished ch true err
  collected : ∀ ch, w.stage.collected = some ch → w.items = batchItems log ch

abbrev stagesOf (ghosts : List (T × Work T)) : List Stage := ghosts.map fun g => g.2.stage

structure RunInv (s : Merge T × Log T) (ghosts : List (T × Work T)) : Prop where
  merge : MergeInv s.1 (stagesOf ghosts)
  roster : Roster s.1 (batchItems s.2)
  own : ∀ (t : Nat) (item : T) (w : Work T), ghosts[t]? = some (item, w) → Own s.2 t item w
  known : ∀ e ∈ s.2, e.thread < ghosts.length
  ordered : Ordered s.2

theorem stagesOf_get (found : ghosts[t]? = some (item, w)) : (stagesOf ghosts)[t]? = some w.stage := by
  rw [List.getElem?_map, found]
  rfl

theorem stagesOf_set (ghosts : List (T × Work T)) (t : Nat) (item : T) (w : Work T) :
    stagesOf (ghosts.set t (item, w)) = (stagesOf ghosts).set t w.stage :=
  List.map_set

theorem stagesOf_getElem? {x : Stage} (found : (stagesOf ghosts)[t]? = some x) :
    ∃ item w, ghosts[t]? = some (item, w) ∧ w.stage = x := by
  rw [List.getElem?_map] at found
  obtain ⟨⟨item, w⟩, atT, same⟩ := Option.map_eq_some_iff.mp found
  exact ⟨item, w, atT, same⟩

theorem Elected.concat (elected : Elected log t) : Elected (log ++ [e]) t := by
  obtain ⟨e', member, found⟩ := elected
  exact ⟨e', List.mem_append_left _ member, found⟩

theorem promoted_concat :
    Promoted (log ++ [e]) t ↔ Promoted log t ∨ e.thread = t ∧ promotes e = true := by
  simp only [Promoted, List.mem_append, List.mem_singleton, or_and_right, exists_or, exists_eq_left]

theorem Own.other {u : Nat} (own : Own log u item w) (other : u ≠ e.thread)
    (items : ∀ ch, w.stage.collected = some ch → batchItems (log ++ [e]) ch = batchItems log ch) :
    Own (log ++ [e]) u item w where
  joined := (own_other joins log other).trans own.joined
  reports := (own_other report log other).trans own.reports
  point := own.point
  elected ch p mark := (own.elected ch p mark).concat
  promoted := by
    rw [promoted_concat, ← own.promoted]
    exact or_iff_left fun here => other here.1.symm
  collected ch collected := (own.collected ch collected).trans (items ch collected).symm

theorem Own.event {w' : Work T} (own : Own log e.thread item w) (plain : joins e = none)
    (chan : w'.stage.chan = w.stage.chan) (trail : w'.trail = w.trail ++ (report e).toList)
    (point : Point w'.stage w'.items w'.trail)
    (elected : ∀ ch p, w'.stage.mark = some (ch, p) → elects e = true ∨ ∃ p', w.stage.mark = some (ch, p'))
    (promoted : (∃ ch err, w'.stage = .finished ch true err) ↔
      (∃ ch err, w.stage = .finished ch true err) ∨ promotes e = true)
    (collected : ∀ ch, w'.stage.collected = some ch → w'.items = batchItems log ch) :
    Own (log ++ [e]) e.thread item w' where
  joined := by
    refine (own_self joins log e).trans ?_
    rw [plain, chan, Option.toList_none, List.append_nil]
    exact own.joined
  reports := by
    refine (own_self report log e).trans ?_
    rw [trail, ← own.reports]
    rfl
  point := point
  elected ch p mark := by
    rcases elected ch p mark with now | ⟨p', before⟩
    · exact ⟨e, List.mem_append_right _ (List.mem_singleton.mpr rfl), rfl, now⟩
    · exact (own.elected ch p' before).concat
  promoted := by
    rw [promoted_concat, promoted, own.promoted]
    simp only [true_and]
  collected ch known := by
    rw [batchItems_elsewhere log fun item impossible => by cases plain.symm.trans impossible]
    exact collected ch known

theorem RunInv.prepared_main {s : Merge T × Log T} (inv : RunInv s ghosts) (member : e ∈ s.2) {r : Report T}
    (reported : report e = some r) :
    ∃ item w ch p, ghosts[e.thread]? = some (item, w) ∧ w.stage.mark = some (ch, p) := by
  obtain ⟨⟨item, w⟩, atE⟩ : ∃ g, ghosts[e.thread]? = some g := ⟨_, List.getElem?_eq_getElem (inv.known e member)⟩
  have own := inv.own e.thread item w atE
  have seen : r ∈ w.trail := by
    rw [← own.reports]
    exact mem_own.mpr ⟨e, member, rfl, reported⟩
  have point := own.point
  cases trail : w.trail with
  | nil =>
    rw [trail] at seen
    cases seen
  | cons first rest =>
    rw [trail] at point
    obtain ⟨ch, p, mark⟩ := point.main_of_reports
    exact ⟨item, w, ch, p, atE, mark⟩

theorem RunInv.event {m m' : Merge T} (inv : RunInv (m, log) ghosts) {w' : Work T}
    (found : ghosts[e.thread]? = some (item, w)) (plain : joins e = none)
    (merge : MergeInv m' ((stagesOf ghosts).set e.thread w'.stage)) (roster : Roster m' (batchItems log))
    (own : Own (log ++ [e]) e.thread item w')
    (begins : report e = some .prepareBegin → ∃ ch, w.stage = .preparing ch ∧ w.trail = []) :
    RunInv (m', log ++ [e]) (ghosts.set e.thread (item, w')) where
  merge := by
    rw [stagesOf_set]
    exact merge
  roster := by
    have same : batchItems (log ++ [e]) = batchItems log := by
      funext ch
      exact batchItems_elsewhere log fun item impossible => by cases plain.symm.trans impossible
    rw [same]
    exact roster
  own u item' x atU := by
    rcases getElem?_set_cases atU with ⟨rfl, same⟩ | ⟨other, old⟩
    · cases same
      exact own
    · refine (inv.own u item' x old).other other fun ch _ => ?_
      exact batchItems_elsewhere log fun item impossible => by cases plain.symm.trans impossible
  known e' member := by
    rw [List.length_set]
    rcases List.mem_append.mp member with old | new
    · exact inv.known e' old
    · rw [List.mem_singleton.mp new]
      exact (List.getElem?_eq_some_iff.mp found).1
  ordered := by
    refine inv.ordered.concat fun reported e' member began => ?_
    obtain ⟨ch, stage, noTrail⟩ := begins reported
    obtain ⟨item', x, ch', p, atE', mark⟩ := inv.prepared_main member began
    refine (inv.own e'.thread item' x atE').promoted.mpr ?_
    rcases Stage.leads_or_finished mark with leads | ⟨err, finished⟩
    · -- the only call at work is the one that starts now, and it has not started before
      have leads' : w.stage.leads = some ch := by rw [stage]; rfl
      have same := inv.merge.leader_unique (stagesOf_get atE') (stagesOf_get found) leads leads'
      rw [same] at atE'
      cases found.symm.trans atE'
      have seen : Report.prepareBegin ∈ reports log e.thread := mem_own.mpr ⟨e', member, same, began⟩
      rw [(inv.own e.thread item w found).reports, noTrail] at seen
      cases seen
    · exact ⟨ch', err, finished⟩

theorem RunInv.assign {m : Merge T} (inv : RunInv (m, log) ghosts) (found : ghosts[t]? = some (item, {})) :
    RunInv ((m.assign item).2, log ++ [⟨t, .merge (.assign item), (m.assign item).1⟩])
      (ghosts.set t (item, { stage := .waiting (m.assign item).1 })) := by
  have joins : joins (⟨t, .merge (.assign item), (m.assign item).1⟩ : CallEvent T) =
    some (item, (m.assign item).1) := rfl
  have elsewhere : ∀ ch, ch ≠ (m.assign item).1 →
      batchItems (log ++ [⟨t, .merge (.assign item), (m.assign item).1⟩]) ch = batchItems log ch := by
    intro ch other
    refine batchItems_elsewhere log fun item' same => other ?_
    exact (congrArg Prod.snd (Option.some.inj (joins.symm.trans same))).symm
  have before := inv.own t item {} found
  constructor
  case merge =>
    rw [stagesOf_set]
    exact inv.merge.assign (stagesOf_get found) item
  case roster => exact inv.roster.assign inv.merge item (batchItems_joins log joins) elsewhere
  case own =>
    intro u item' x atU
    rcases getElem?_set_cases atU with ⟨rfl, same⟩ | ⟨other, old⟩
    · cases same
      refine ⟨?_, ?_, .waiting, (fun _ _ impossible => by cases impossible), ?_,
        (fun _ impossible => by cases impossible)⟩
      · refine (own_self _ log ⟨u, .merge (.assign item), (m.assign item).1⟩).trans ?_
        rw [joins]
        exact congrArg (· ++ _) before.joined
      · refine (own_self _ log ⟨u, .merge (.assign item), (m.assign item).1⟩).trans ?_
        exact (List.append_nil _).trans before.reports
      · rw [promoted_concat, before.promoted]
        simp [promotes]
    · refine (inv.own u item' x old).other other fun ch collected => elsewhere ch ?_
      exact (inv.merge.assign_elsewhere (stagesOf_get old) collected item).symm
  case known =>
    intro e' member
    rw [List.length_set]
    rcases List.mem_append.mp member with old | new
    · exact inv.known e' old
    · rw [List.mem_singleton.mp new]
      exact (List.getElem?_eq_some_iff.mp found).1
  case ordered => exact inv.ordered.concat fun impossible => by cases impossible

section Sound
variable {m m' : Merge T} {log : Log T} {ghosts : List (T × Work T)} {t : Nat} {item : T} {w : Work T}

theorem RunInv.access (inv : RunInv (m, log) ghosts) (found : ghosts[t]? = some (item, w)) {op : MergeOp T} {a : op.Ans}
    (replied : m.reply op = some (a, m')) (plain : ∀ item, op ≠ .assign item) {w' : Work T}
    (merge : MergeInv m' ((stagesOf ghosts).set t w'.stage)) (chan : w'.stage.chan = w.stage.chan)
    (trail : w'.trail = w.trail) (point : Point w'.stage w'.items w'.trail)
    (elected : ∀ ch p, w'.stage.mark = some (ch, p) →
      elects (⟨t, .merge op, a⟩ : CallEvent T) = true ∨ ∃ p', w.stage.mark = some (ch, p'))
    (promoted : (∃ ch err, w'.stage = .finished ch true err) ↔
      (∃ ch err, w.stage = .finished ch true err) ∨ promotes (⟨t, .merge op, a⟩ : CallEvent T) = true)
    (collected : ∀ ch, w'.stage.collected = some ch → w'.items = batchItems log ch) :
    RunInv (m', log ++ [⟨t, .merge op, a⟩]) (ghosts.set t (item, w')) := by
  have noJoin : joins (⟨t, .merge op, a⟩ : CallEvent T) = none := by
    cases op with
    | assign item => exact absurd rfl (plain item)
    | _ => rfl
  have own := (inv.own t item w found).event (e := ⟨t, .merge op, a⟩) noJoin chan (trail.trans (List.append_nil _).symm)
    point elected promoted collected
  exact inv.event (e := ⟨t, .merge op, a⟩) found noJoin merge (inv.roster.reply replied plain) own
    fun impossible => by cases impossible

theorem RunInv.function (inv : RunInv (m, log) ghosts) (found : ghosts[t]? = some (item, w)) {op : CallOp T} {a : op.Ans}
    {r : Report T} (reported : report (⟨t, op, a⟩ : CallEvent T) = some r)
    (point : Point w.stage w.items (w.trail ++ [r]))
    (begins : r = .prepareBegin → ∃ ch, w.stage = .preparing ch ∧ w.trail = []) :
    RunInv (m, log ++ [⟨t, op, a⟩]) (ghosts.set t (item, { w with trail := w.trail ++ [r] })) := by
  have before := inv.own t item w found
  have noJoin : joins (⟨t, op, a⟩ : CallEvent T) = none := by
    cases op <;> first | rfl | cases reported
  have noPromotion : promotes (⟨t, op, a⟩ : CallEvent T) = false := by
    cases op <;> first | rfl | cases reported
  have own : Own (log ++ [⟨t, op, a⟩]) t item { w with trail := w.trail ++ [r] } := by
    refine before.event (e := ⟨t, op, a⟩) noJoin rfl ?_ point (fun ch p mark => .inr ⟨p, mark⟩) ?_ before.collected
    · rw [reported]
      rfl
    · rw [noPromotion]
      simp
  refine inv.event (e := ⟨t, op, a⟩) found noJoin ?_ inv.roster own ?_
  · rw [set_same (stagesOf_get found)]
    exact inv.merge
  · intro began
    exact begins (Option.some.inj (reported.symm.trans began))

theorem respond_merge [DecidableEq T] {op : MergeOp T} {a : op.Ans} (responded : respond m (.merge op) a = some m') :
    m.reply op = some (a, m') := by
  obtain ⟨⟨a', m''⟩, replied, same⟩ := Option.bind_eq_some_iff.mp responded
  obtain ⟨rfl, rfl⟩ := of_ite_some same
  exact replied

theorem RunInv.merge_step (inv : RunInv (m, log) ghosts) (found : ghosts[t]? = some (item, w)) {op : MergeOp T}
    {a : op.Ans} (ready : pre item (.merge op) w) (replied : m.reply op = some (a, m')) :
    ∃ w', next (.merge op) a w w' ∧ RunInv (m', log ++ [⟨t, .merge op, a⟩]) (ghosts.set t (item, w')) := by
  have atStage := stagesOf_get found
  have before := inv.own t item w found
  cases op with
  | assign x =>
    obtain ⟨rfl, rfl⟩ := ready
    have same : m.assign x = (a, m') := Option.some.inj replied
    have kept := inv.assign found
    rw [same] at kept
    exact ⟨_, rfl, kept⟩
  | receive ch =>
    cases ready
    rcases inv.merge.receive atStage replied with ⟨rfl, _, kept⟩ | ⟨follower, _, kept⟩
    · refine ⟨{ stage := .preparing ch }, .inl ⟨rfl, rfl⟩, ?_⟩
      refine inv.access found replied (by simp) kept rfl rfl .elected (fun _ _ _ => .inl rfl) ?_ ?_
      · simp [promotes]
      · exact fun _ impossible => by cases impossible
    · refine ⟨{ stage := .finished ch false a.err }, .inr ⟨follower, rfl⟩, ?_⟩
      refine inv.access found replied (by simp) kept rfl rfl .other (fun _ _ impossible => by cases impossible) ?_ ?_
      · simp [promotes]
      · exact fun _ impossible => by cases impossible
  | commit =>
    obtain ⟨ch, err, rfl⟩ := ready
    cases replied
    refine ⟨_, ⟨ch, rfl, rfl⟩, ?_⟩
    refine inv.access found rfl (by simp) (inv.merge.commit atStage) rfl rfl .committed ?_ ?_ ?_
    · rintro _ _ ⟨⟩
      exact .inr ⟨_, rfl⟩
    · simp [promotes]
    · rintro _ ⟨⟩
      exact inv.roster.items ch (inv.merge.leading t _ ch atStage rfl).1
  | remaining =>
    obtain ⟨ch, err, stage, course⟩ := ready
    cases replied
    refine ⟨_, ⟨ch, err, stage, course, rfl⟩, ?_⟩
    rw [stage] at atStage
    refine inv.access found rfl (by simp) (inv.merge.fail atStage err) ?_ rfl (.failing course) ?_ ?_ ?_
    · rw [stage]
      rfl
    · rintro _ _ ⟨⟩
      exact .inr ⟨.quiet, by rw [stage]; rfl⟩
    · simp [promotes, stage]
    · rintro _ ⟨⟩
      exact before.collected ch (by rw [stage]; rfl)
  | status =>
    obtain ⟨ch, leads⟩ := ready
    cases replied
    have status := (inv.merge.leading t w.stage ch atStage leads).1
    refine ⟨w, ⟨status.trans leads.symm, rfl⟩, ?_⟩
    refine inv.access found rfl (by simp) ?_ rfl rfl before.point (fun _ p mark => .inr ⟨p, mark⟩) ?_ before.collected
    · rw [set_same atStage]
      exact inv.merge
    · simp [promotes]
  | close c =>
    obtain ⟨ch, rfl, stage, course⟩ := ready
    rw [stage] at atStage
    obtain ⟨closed, closes, kept⟩ := inv.merge.close atStage
    have same : m' = closed := by
      obtain ⟨_, closes', same⟩ := Option.map_eq_some_iff.mp replied
      cases same
      exact Option.some.inj (closes'.symm.trans closes)
    subst same
    refine ⟨{ w with stage := .succeeded ch }, ⟨ch, stage, rfl⟩, ?_⟩
    refine inv.access found replied (by simp) kept ?_ rfl (.succeeded course) ?_ ?_ ?_
    · rw [stage]
      rfl
    · rintro _ _ ⟨⟩
      exact .inr ⟨.quiet, by rw [stage]; rfl⟩
    · simp [promotes, stage]
    · rintro _ ⟨⟩
      exact before.collected ch (by rw [stage]; rfl)
  | send c err =>
    obtain ⟨ch, left, rfl, stage⟩ := ready
    rw [stage] at atStage
    have sent : m.send (some ch) { err := some err } = some m' := by
      obtain ⟨_, sent, same⟩ := Option.map_eq_some_iff.mp replied
      cases same
      exact sent
    have point := before.point
    refine ⟨{ w with stage := .failing ch err left }, ⟨ch, err, left, stage, rfl⟩, ?_⟩
    refine inv.access found replied (by simp) (inv.merge.send atStage sent) ?_ rfl ?_ ?_ ?_ ?_
    · rw [stage]
      rfl
    · rw [stage] at point
      cases point with
      | failing course => exact .failing course
    · rintro _ _ ⟨⟩
      exact .inr ⟨.failed err (left + 1), by rw [stage]; rfl⟩
    · simp [promotes, stage]
    · rintro _ ⟨⟩
      exact before.collected ch (by rw [stage]; rfl)
  | promote =>
    obtain ⟨ch, err, settled⟩ := ready
    obtain ⟨promoted, promotes', kept⟩ := inv.merge.promote atStage settled
    have same : m' = promoted := by
      obtain ⟨_, promotes'', same⟩ := Option.map_eq_some_iff.mp replied
      cases same
      exact Option.some.inj (promotes''.symm.trans promotes')
    subst same
    obtain ⟨leads, mark, _⟩ := Stage.settled_spec settled
    have point := before.point
    refine ⟨{ w with stage := .finished ch true err }, ⟨ch, err, settled, rfl⟩, ?_⟩
    refine inv.access found replied (by simp) kept ?_ rfl ?_ ?_ ?_ ?_
    · exact (Stage.chan_of_leads leads).symm
    · cases stage : w.stage with
      | failing ch' err' left =>
        rw [stage] at settled point
        cases left with
        | zero =>
          cases settled
          cases point with
          | failing course => exact .main course
        | succ left => cases settled
      | succeeded ch' =>
        rw [stage] at settled point
        cases settled
        cases point with
        | succeeded course => exact .main course
      | _ =>
        rw [stage] at settled
        cases settled
    · exact fun _ p mark' => .inr ⟨p, mark.trans mark'⟩
    · exact ⟨fun _ => .inr rfl, fun _ => ⟨ch, err, rfl⟩⟩
    · rintro _ ⟨⟩
      refine before.collected ch ?_
      cases stage : w.stage <;> rw [stage] at settled leads <;> first | exact leads | cases settled

theorem RunInv.step [DecidableEq T] (inv : RunInv (m, log) ghosts) (found : ghosts[t]? = some (item, w)) {op : CallOp T}
    {a : op.Ans} (ready : pre item op w) (responded : respond m op a = some m') :
    ∃ w', next op a w w' ∧ RunInv (m', log ++ [⟨t, op, a⟩]) (ghosts.set t (item, w')) := by
  cases op with
  | merge op => exact inv.merge_step found ready (respond_merge responded)
  | prepareBegin =>
    obtain ⟨ch, rfl⟩ := ready
    cases responded
    exact ⟨_, rfl, inv.function found rfl .preparing fun _ => ⟨ch, rfl, rfl⟩⟩
  | prepareEnd =>
    obtain ⟨ch, rfl⟩ := ready
    cases responded
    exact ⟨_, rfl, inv.function found rfl .prepared fun impossible => by cases impossible⟩
  | resolveBegin items =>
    obtain ⟨ch, rfl⟩ := ready
    cases responded
    exact ⟨_, rfl, inv.function found rfl .resolving fun impossible => by cases impossible⟩
  | resolveEnd =>
    obtain ⟨ch, items, rfl⟩ := ready
    cases responded
    exact ⟨_, rfl, inv.function found rfl .resolved fun impossible => by cases impossible⟩

end Sound

theorem sound [DecidableEq T] : Sound ghost post (machine (T := T)).traced RunInv := by
  rintro ⟨m, log⟩ ghosts t item w op a ⟨m', log'⟩ spawned inv found ready performed
  obtain ⟨performed, logged⟩ := traced_perform.mp performed
  obtain ⟨_, responded, same⟩ := Option.map_eq_some_iff.mp performed
  cases same
  cases logged
  obtain ⟨w', moved, kept⟩ := inv.step found ready responded
  exact .move w' moved kept

theorem start_outline (items : List T) : Outline ghost post RunInv (start items) := by
  refine ⟨items.map fun item => (item, {}), ?_, ?_⟩
  · rw [start, List.forall₂_map_left_iff, List.forall₂_map_right_iff, List.forall₂_same]
    exact fun item _ => ⟨rfl, wp_code item⟩
  · have empty : ∀ (t : Nat) (item : T) (w : Work T), (items.map fun item => (item, ({} : Work T)))[t]? = some (item, w) →
        w = {} := by
      intro t item w found
      rw [List.getElem?_map] at found
      obtain ⟨_, _, same⟩ := Option.map_eq_some_iff.mp found
      cases same
      rfl
    have outside : ∀ (t : Nat) (x : Stage), (stagesOf (items.map fun item => (item, ({} : Work T))))[t]? = some x →
        x = .outside := by
      intro t x found
      obtain ⟨item, w, atT, rfl⟩ := stagesOf_getElem? found
      rw [empty t item w atT]
    constructor
    case merge => exact MergeInv.initial outside
    case roster =>
      exact ⟨(fun ch impossible => by cases impossible), (fun ch impossible => by cases impossible), fun _ _ => rfl⟩
    case own =>
      intro t item w found
      obtain rfl := empty t item w found
      refine ⟨rfl, rfl, .outside, (fun _ _ impossible => by cases impossible), ?_,
        (fun _ impossible => by cases impossible)⟩
      simp [Promoted, start]
    case known => exact fun e impossible => by cases impossible
    case ordered =>
      intro before after e split
      simp [start] at split

theorem outline_reach [DecidableEq T] {σ : Calls T} (reach : Reach machine.traced (start items) σ) :
    Outline ghost post RunInv σ :=
  (start_outline items).reach sound (fun _ _ _ _ moved => moved.1.elim) reach

section Results
variable {s : Merge T × Log T} {ghosts : List (T × Work T)}

variable {t : Nat} {item : T} {w : Work T} {ch : Nat}

theorem RunInv.joined_mark (inv : RunInv s ghosts) {p : Notice} (found : ghosts[t]? = some (item, w))
    (mark : w.stage.mark = some (ch, p)) : joined s.2 t = [(item, ch)] := by
  rw [(inv.own t item w found).joined, Stage.chan_of_mark mark]
  rfl

theorem RunInv.batchReports_main (inv : RunInv s ghosts) {p : Notice} (found : ghosts[t]? = some (item, w))
    (mark : w.stage.mark = some (ch, p)) : batchReports s.2 ch = w.trail := by
  rw [← (inv.own t item w found).reports, batchReports, reports, MergeRun.own, List.filterMap_filter, List.filterMap_filter]
  refine List.filterMap_congr fun e member => ?_
  cases reported : report e with
  | none => simp
  | some r =>
    obtain ⟨item', x, ch', p', atE, mark'⟩ := inv.prepared_main member reported
    rw [inv.joined_mark atE mark']
    by_cases same : ch' = ch
    · subst same
      have here := inv.merge.single _ _ _ _ _ _ _ (stagesOf_get atE) (stagesOf_get found) mark' mark
      simp [here]
    · have elsewhere : e.thread ≠ t := by
        intro here
        rw [here] at atE
        cases found.symm.trans atE
        exact same (congrArg Prod.fst (Option.some.inj (mark'.symm.trans mark)))
      simp [same, elsewhere]

theorem RunInv.batchReports_unled (inv : RunInv s ghosts) (unled : Unled (stagesOf ghosts) ch) :
    batchReports s.2 ch = [] := by
  rw [batchReports, List.filterMap_filter, List.filterMap_eq_nil_iff]
  intro e member
  cases reported : report e with
  | none => simp
  | some r =>
    obtain ⟨item', x, ch', p', atE, mark'⟩ := inv.prepared_main member reported
    rw [inv.joined_mark atE mark']
    have other : ch' ≠ ch := by
      rintro rfl
      exact unled _ _ _ (stagesOf_get atE) mark'
    simp [other]

theorem RunInv.course (inv : RunInv s ghosts) (ch : Nat) :
    ∃ err whole, Course (batchItems s.2 ch) err whole ∧ batchReports s.2 ch <+: whole := by
  by_cases unled : Unled (stagesOf ghosts) ch
  · rw [inv.batchReports_unled unled]
    exact ⟨none, _, .resolved none, List.nil_prefix⟩
  · simp only [Unled, not_forall, not_not] at unled
    obtain ⟨t, x, p, found, mark⟩ := unled
    obtain ⟨item, w, atT, rfl⟩ := stagesOf_getElem? found
    have own := inv.own t item w atT
    rw [inv.batchReports_main atT mark]
    cases collected : w.stage.collected with
    | none => exact (own.point.uncollected collected _).course
    | some ch' =>
      cases (Stage.chan_of_collected collected).symm.trans (Stage.chan_of_mark mark)
      rw [← own.collected ch collected]
      exact own.point.course

theorem Point.verdict {stage : Stage} {items : List T} {trail : List (Report T)} {err : Option Error}
    (point : Point stage items trail) (verdict : stage.verdict = some (ch, err)) :
    Course items err trail ∧ stage.collected = some ch := by
  cases point with
  | failing course | succeeded course | main course =>
    cases verdict
    exact ⟨course, rfl⟩
  | _ => cases verdict

theorem mem_batchItems {log : Log T} (submitted : joined log t = [(item, ch)]) :
    item ∈ batchItems log ch := by
  have member : (item, ch) ∈ own joins log t := by
    change _ ∈ joined log t
    rw [submitted]
    exact List.mem_singleton.mpr rfl
  obtain ⟨e, inLog, _, joins⟩ := mem_own.mp member
  simp only [batchItems, List.mem_map, List.mem_filter, List.mem_filterMap]
  exact ⟨(item, ch), ⟨⟨e, inLog, joins⟩, beq_self_eq_true ch⟩, rfl⟩

theorem RunInv.outcome (inv : RunInv s ghosts) {main : Bool} {err : Option Error}
    (found : ghosts[t]? = some (item, w)) (finished : w.stage = .finished ch main err) :
    joined s.2 t = [(item, ch)] ∧ Course (batchItems s.2 ch) err (batchReports s.2 ch) := by
  have submitted := (inv.own t item w found).joined
  rw [finished] at submitted
  refine ⟨submitted, ?_⟩
  -- the outcome is what the main call of the batch has come to
  have leader : ∃ (u : Nat) (item' : T) (x : Work T), ghosts[u]? = some (item', x) ∧ x.stage.verdict = some (ch, err) := by
    cases main with
    | true => exact ⟨t, item, w, found, by rw [finished]; rfl⟩
    | false =>
      obtain ⟨u, x, atU, verdict⟩ := inv.merge.followed t ch err (finished ▸ stagesOf_get found)
      obtain ⟨item', x', atU', rfl⟩ := stagesOf_getElem? atU
      exact ⟨u, item', x', atU', verdict⟩
  obtain ⟨u, item', x, atU, verdict⟩ := leader
  obtain ⟨p, mark⟩ := Stage.mark_of_verdict verdict
  have own := inv.own u item' x atU
  obtain ⟨course, collected⟩ := own.point.verdict verdict
  rw [inv.batchReports_main atU mark, ← own.collected ch collected]
  exact course

end Results

section Progress
variable [DecidableEq T] {σ : Calls T} {ghosts : List (T × Work T)} {t : Nat}

variable {item : T} {op : CallOp T}

theorem moves {next : op.Ans → Code T (Option Error)} {a : op.Ans} {m' : Merge T}
    (found : σ.threads[t]? = some ⟨item, .call op next⟩) (responded : respond σ.shared.1 op a = some m') :
    ∃ σ', Step machine.traced σ σ' := by
  have performed : (machine (T := T)).traced.perform σ.shared t σ.threads.length op a =
      some ((m', σ.shared.2 ++ [⟨t, op, a⟩]), []) :=
    traced_perform.mpr ⟨Option.map_eq_some_iff.mpr ⟨m', responded, rfl⟩, rfl⟩
  exact ⟨_, .thread t (.answer found performed)⟩

theorem moves_merge {op : MergeOp T} {next : op.Ans → Code T (Option Error)} {out : op.Ans × Merge T}
    (found : σ.threads[t]? = some ⟨item, .call (.merge op) next⟩) (replied : σ.shared.1.reply op = some out) :
    ∃ σ', Step machine.traced σ σ' :=
  moves found (Option.bind_eq_some_iff.mpr ⟨out, replied, if_pos rfl⟩)

section

variable (fits : List.Forall₂ (Fits ghost post) σ.threads ghosts)
include fits

omit [DecidableEq T] in
/-- A call that has not finished is about to perform an operation it is ready for. -/
theorem next_operation {item : T} {w : Work T} (found : ghosts[t]? = some (item, w))
    (unfinished : ∀ ch main err, w.stage ≠ .finished ch main err) :
    ∃ op next, σ.threads[t]? = some ⟨item, .call op next⟩ ∧ pre item op w := by
  obtain ⟨prog, atT, outlined⟩ := thread_of_ghost fits found
  cases prog with
  | ret err =>
    obtain ⟨ch, main, finished⟩ := outlined
    exact absurd finished (unfinished ch main err)
  | call op next => exact ⟨op, next, atT, outlined.1⟩

theorem waiting_moves {item : T} {w : Work T} {ch : Nat} (found : ghosts[t]? = some (item, w))
    (waiting : w.stage = .waiting ch) (ready : ∃ out, σ.shared.1.receive ch = some out) :
    ∃ σ', Step machine.traced σ σ' := by
  obtain ⟨out, received⟩ := ready
  obtain ⟨op, next, atT, allowed⟩ := next_operation fits found (by simp [waiting])
  obtain ⟨stage, trail, items⟩ := w
  cases waiting
  cases op with
  | merge op =>
    cases op with
    | receive ch' =>
      cases allowed
      exact moves_merge atT received
    | assign x => cases allowed.2
    | commit | remaining | status | close | send | promote => simp [pre, Stage.leads, Stage.settled] at allowed
  | prepareBegin | prepareEnd | resolveBegin | resolveEnd => simp [pre] at allowed

/-- The main call of a batch can go on, or a call that waits for it can. -/
theorem leader_moves (inv : RunInv σ.shared ghosts) {item : T} {w : Work T} {ch : Nat}
    (found : ghosts[t]? = some (item, w)) (leads : w.stage.leads = some ch) :
    ∃ σ', Step machine.traced σ σ' := by
  have unfinished : ∀ ch main err, w.stage ≠ .finished ch main err := by
    intro ch main err finished
    rw [finished] at leads
    cases leads
  obtain ⟨op, next, atT, allowed⟩ := next_operation fits found unfinished
  have atStage := stagesOf_get found
  cases op with
  | prepareBegin | resolveBegin items => exact moves (a := ()) atT rfl
  | prepareEnd | resolveEnd => exact moves (a := none) atT rfl
  | merge op =>
    cases op with
    | assign x =>
      rw [allowed.2] at leads
      cases leads
    | receive ch' =>
      cases allowed
      cases leads
    | commit | remaining | status => exact moves_merge atT rfl
    | close c =>
      obtain ⟨ch', rfl, stage, _⟩ := allowed
      obtain ⟨m', closes, _⟩ := inv.merge.close (stage ▸ atStage)
      exact moves_merge atT (Option.map_eq_some_iff.mpr ⟨m', closes, rfl⟩)
    | send c err =>
      obtain ⟨ch', left, rfl, stage⟩ := allowed
      rcases inv.merge.send_or_receive (stage ▸ atStage) with ⟨m', sent⟩ | ⟨u, atU, received⟩
      · exact moves_merge atT (Option.map_eq_some_iff.mpr ⟨m', sent, rfl⟩)
      · obtain ⟨item', x, atU', waiting⟩ := stagesOf_getElem? atU
        exact waiting_moves fits atU' waiting received
    | promote =>
      obtain ⟨ch', err, settled⟩ := allowed
      obtain ⟨m', promoted, _⟩ := inv.merge.promote atStage settled
      exact moves_merge atT (Option.map_eq_some_iff.mpr ⟨m', promoted, rfl⟩)

end

omit [DecidableEq T] in
theorem pre_outside {w : Work T} (allowed : pre item op w) (outside : w.stage = .outside) :
    op = .merge (.assign item) := by
  obtain ⟨stage, trail, items⟩ := w
  cases outside
  cases op with
  | merge op =>
    cases op with
    | assign x => rw [allowed.1]
    | receive ch => cases allowed
    | commit | remaining | status | close | send | promote => simp [pre, Stage.leads, Stage.settled] at allowed
  | prepareBegin | prepareEnd | resolveBegin | resolveEnd => simp [pre] at allowed

omit [DecidableEq T] in
theorem not_pre_finished {w : Work T} {ch : Nat} {main : Bool} {err : Option Error}
    (finished : w.stage = .finished ch main err) : ¬ pre item op w := by
  obtain ⟨stage, trail, items⟩ := w
  cases finished
  cases op with
  | merge op => cases op <;> simp [pre, Stage.leads, Stage.settled]
  | prepareBegin | prepareEnd | resolveBegin | resolveEnd => simp [pre]

theorem unfinished_moves (fits : List.Forall₂ (Fits ghost post) σ.threads ghosts) (inv : RunInv σ.shared ghosts)
    (unfinished : σ.Unfinished t) : ∃ σ', Step machine.traced σ σ' := by
  obtain ⟨item, op, next, atT⟩ := unfinished
  obtain ⟨w, found, allowed, _⟩ := ghost_of_thread fits atT
  have atStage := stagesOf_get found
  cases stage : w.stage with
  | outside =>
    have submits : op = .merge (.assign item) := pre_outside allowed stage
    subst submits
    exact moves_merge atT rfl
  | waiting ch =>
    rw [stage] at atStage
    rcases inv.merge.awaited atStage with available | ⟨u, x, ch', atU, leads⟩ | token
    · exact waiting_moves fits found stage available.receive
    · obtain ⟨item', x', atU', rfl⟩ := stagesOf_getElem? atU
      exact leader_moves fits inv atU' leads
    · exact waiting_moves fits found stage (receive_token token)
  | preparing ch | resolving ch | failing ch _ _ | succeeded ch =>
    have leads : w.stage.leads = some ch := by rw [stage]; rfl
    exact leader_moves fits inv found leads
  | finished ch main err => exact absurd allowed (not_pre_finished stage)

end Progress

theorem RunInv.running_leads {s : Merge T × Log T} (inv : RunInv s ghosts) (running : Running s.2 t) :
    ∃ item w ch, ghosts[t]? = some (item, w) ∧ w.stage.leads = some ch := by
  have last : ∃ r, (reports s.2 t).getLast? = some r := by
    rcases running with begun | ⟨items, begun⟩
    · exact ⟨_, begun⟩
    · exact ⟨_, begun⟩
  obtain ⟨r, last⟩ := last
  obtain ⟨e, member, rfl, reported⟩ := mem_own.mp (List.mem_of_getLast? last)
  obtain ⟨item, w, _, _, found, _⟩ := inv.prepared_main member reported
  have own := inv.own e.thread item w found
  rw [Running, own.reports] at running
  obtain ⟨ch, leads⟩ := own.point.leads_of_running running
  exact ⟨item, w, ch, found, leads⟩

/-- The merge protocol, for any number of concurrent calls and any outcomes of their functions. -/
theorem merge_protocol [DecidableEq T] (items : List T) {σ : Calls T} (reach : Reach machine.traced (start items) σ) :
    Protocol items σ := by
  obtain ⟨ghosts, fits, inv⟩ := outline_reach reach
  constructor
  case exclusive =>
    intro t t' running running'
    obtain ⟨_, _, _, found, leads⟩ := inv.running_leads running
    obtain ⟨_, _, _, found', leads'⟩ := inv.running_leads running'
    exact inv.merge.leader_unique (stagesOf_get found) (stagesOf_get found') leads leads'
  case oneBatch =>
    intro t item atT
    have labels : σ.threads.map Thread.label = items := by
      refine (Reach.labels ?_ reach).trans ?_
      · intro s t n op a s' spawned performed
        obtain ⟨_, _, same⟩ := Option.map_eq_some_iff.mp (traced_perform.mp performed).1
        exact (congrArg Prod.snd same).symm
      · simp [start, Function.comp_def]
    rw [← labels, List.getElem?_map] at atT
    obtain ⟨th, atTh, rfl⟩ := Option.map_eq_some_iff.mp atT
    obtain ⟨w, found, _⟩ := ghost_of_thread fits atTh
    rw [(inv.own t _ w found).joined]
    cases w.stage.chan with
    | none => exact .inl rfl
    | some ch => exact .inr ⟨ch, rfl⟩
  case resolvedOnce => exact inv.course
  case outcome =>
    intro t err returned
    obtain ⟨item, atTh⟩ := returned
    obtain ⟨w, found, ch, main, finished⟩ := ghost_of_thread fits atTh
    obtain ⟨submitted, course⟩ := inv.outcome found finished
    exact ⟨item, ch, submitted, mem_batchItems submitted, course⟩
  case ordered => exact inv.ordered
  case awaited =>
    intro t item ch next atTh
    obtain ⟨w, found, allowed, _⟩ := ghost_of_thread fits atTh
    have waiting : w.stage = .waiting ch := congrArg Work.stage allowed
    have atStage := stagesOf_get found
    rw [waiting] at atStage
    rcases inv.merge.awaited atStage with available | ⟨u, x, ch', atU, leads⟩ | token
    · exact .inl available
    · obtain ⟨item', x', atU', rfl⟩ := stagesOf_getElem? atU
      obtain ⟨p, mark⟩ := Stage.mark_of_leads leads
      have own := inv.own u item' x' atU'
      refine .inr (.inl ⟨u, own.elected ch' p mark, fun promoted => ?_⟩)
      obtain ⟨_, _, finished⟩ := own.promoted.mp promoted
      rw [finished] at leads
      cases leads
    · exact .inr (.inr token)
  case progress => exact fun t unfinished => unfinished_moves fits inv unfinished

namespace Trio

instance : (op : MergeOp Nat) → Inhabited op.Ans
  | .assign _ => ⟨(0 : Nat)⟩
  | .receive _ => ⟨({} : MergeStatus)⟩
  | .commit => ⟨([] : List Nat)⟩
  | .remaining => ⟨(0 : Nat)⟩
  | .status => ⟨(none : Option Nat)⟩
  | .close _ | .send _ _ | .promote => ⟨()⟩

/-- The answers of a run in which every `resolve` fails. -/
def oracle (s : Merge Nat × Log Nat) (_ : Nat) : (op : CallOp Nat) → op.Ans
  | .merge op => ((s.1.reply op).map Prod.fst).getD default
  | .prepareBegin | .resolveBegin _ => ()
  | .prepareEnd => none
  | .resolveEnd => some .notFound

/-- Three calls that take turns. -/
def ran : Calls Nat := (start [7, 8, 9]).rounds machine.traced oracle 12

theorem ran_returned : ran.returned? 0 = some (some .notFound) ∧ ran.returned? 1 = some (some .notFound) ∧
    ran.returned? 2 = some (some .notFound) ∧ batchItems ran.shared.2 0 = [7, 8, 9] := by
  decide +kernel

end Trio

theorem merge_protocol_trio : ∃ σ : Calls Nat, Reach machine.traced (start [7, 8, 9]) σ ∧
    σ.Returned 2 (some .notFound) ∧ batchItems σ.shared.2 0 = [7, 8, 9] ∧ Protocol [7, 8, 9] σ :=
  have reach : Reach machine.traced (start [7, 8, 9]) Trio.ran := Pool.rounds_reach 12 _
  ⟨Trio.ran, reach, Pool.returned?_eq_some.mp Trio.ran_returned.2.2.1, Trio.ran_returned.2.2.2, merge_protocol [7, 8, 9] reach⟩

end OrasGo.Syncutil.MergeRun
