import OrasGo.Syncutil.Balance
import OrasGo.Syncutil.Course

/-! When `syncutil.Go` keeps its callbacks under control: it returns after all
those it has started, with all permits released and the error of the first
failure. -/

namespace OrasGo.Syncutil
open Interleaving
variable {U I S : Type} {UAns : U → Type}

abbrev Logged (U I : Type) (UAns : U → Type) (S : Type) :=
  Pool (Op U I) (Ans UAns) (Shared S × Log U I UAns) (Label I) (Option Error)

/-- The items the outermost `Go` has started a callback for, in order. -/
def startedItems (threads : List (Goroutine U I UAns)) : List I := threads.filterMap fun th => ownItem th.label

/-- What `Go` promises for its items and its limiter. -/
structure Structured (limiter : Option Nat) (items : List I) (σ : Logged U I UAns S) : Prop where
  noPanic : σ.shared.1.crashed = false
  once : startedItems σ.threads <+: items
  limit : ∀ limit, limiter = some limit → (List.range σ.threads.length).countP σ.shared.1.started ≤ limit
  joined : ∀ result, σ.Returned 0 result → ∀ (t : Nat) item prog,
    σ.threads[t]? = some ⟨some (0, item), prog⟩ → (∃ err, prog = .ret err) ∧ σ.shared.1.started t = false
  nil : ∀ result, σ.Returned 0 result → (result = none ↔ startedItems σ.threads = items ∧
    ∀ (t : Nat) item prog, σ.threads[t]? = some ⟨some (0, item), prog⟩ → prog = .ret none)
  cause : ∀ err, σ.Returned 0 (some err) → firstFailure σ.shared.2 = some err ∨
    firstFailure σ.shared.2 = none ∧ σ.shared.1.cancelled = true ∧ Shared.ctxErr err = true

section Run
variable (callback : I → Callback U I UAns (Option Error)) (user : S → Nat → Bool → (op : U) → UAns op → Option S)

/-- `Go` with callbacks that do as they like, and the events of its run. -/
def goMachine : Machine (Op U I) (Ans UAns) (Shared S × Log U I UAns) (Label I) (Option Error) :=
  (machine (fun item => callbackCode (callback item)) user).traced

/-- `Go` in the runs all of whose steps are orderly. -/
def orderlyMachine : Machine (Op U I) (Ans UAns) (Shared S × Log U I UAns) (Label I) (Option Error) :=
  (goMachine callback user).restrict fun s => orderly s.1

/-- The caller is about to run `Go` on `items`. -/
def goStart (limiter : Option Nat) (user₀ : S) (items : List I) : Logged U I UAns S :=
  (initial limiter user₀ items).traced []

variable {callback user} {limiter : Option Nat} {user₀ : S} {items : List I} {σ σ' : Logged U I UAns S}

theorem course_sound : Sound courseGhost coursePost (orderlyMachine callback user) (GoInv items) := by
  intro s ghosts t label c op a s' spawned inv found pre performed
  obtain ⟨allowed, performed⟩ := restrict_perform.mp performed
  obtain ⟨performed, logged⟩ := traced_perform.mp performed
  have responded := (perform_eq_some.mp performed).2
  cases label with
  | none =>
    have caller : t = 0 := by
      by_contra other
      exact (inv.callees t none c found).callee other rfl
    subst caller
    exact inv.caller_step found pre allowed responded logged
  | some started => exact inv.callee_step found pre allowed responded logged

theorem course_reach (reach : Reach (orderlyMachine callback user) (goStart limiter user₀ items) σ) :
    Outline courseGhost coursePost (GoInv items) σ := by
  have start : Outline courseGhost coursePost (GoInv items) (goStart limiter user₀ items : Logged U I UAns S) := by
    refine ⟨[(none, { phase := .before items })], .cons ⟨rfl, course_main items⟩ .nil, rfl, ?_,
      { phase := .before items }, rfl, .inl ⟨rfl, rfl, rfl, rfl, rfl⟩⟩
    intro t label c found
    have first := (List.getElem?_eq_some_iff.mp found).1
    cases List.mem_singleton.mp (List.mem_of_getElem? found)
    exact ⟨fun other => absurd (Nat.lt_one_iff.mp first) other, (fun done => by cases done), fun _ reported => by cases reported⟩
  refine start.reach course_sound ?_ reach
  rintro s ghosts ⟨s', log⟩ inv ⟨⟨_, _, rfl⟩, rfl⟩
  obtain ⟨c, atCaller, known⟩ := inv.caller
  refine ⟨inv.running, inv.callees, c, atCaller, ?_⟩
  rcases known with before | ⟨all, group, atGroup, groupInv, phaseInv⟩
  · exact .inl before
  · exact .inr ⟨all, group, atGroup, groupInv, phaseInv.cancel⟩

section Outline
variable {ghosts : List (Label I × Course I)}

theorem startedItems_eq (fits : List.Forall₂ (Fits courseGhost coursePost) σ.threads ghosts) :
    startedItems σ.threads = (owns ghosts).map Own.item := by
  unfold startedItems
  generalize σ.threads = threads at fits
  induction fits with
  | nil => rfl
  | @cons th ghost _ _ head _ ih =>
    rw [List.filterMap_cons, ← head.1, ih]
    cases item : ownItem ghost.1 <;> simp [owns, own?, item]

theorem reported_iff {prog : Code U I UAns (Option Error)} {c : Course I} {item : I} {result : Option Error}
    (outline : wp (courseGhost (some (0, item))) prog (coursePost (some (0, item))) c) :
    c.reported = some result ↔ prog = .ret result := by
  cases prog with
  | ret value =>
    have post : c.reported = some value := outline
    rw [post]
    exact ⟨fun same => by rw [Option.some.inj same], fun same => by cases same; rfl⟩
  | call op next =>
    have pre : c.reported = none ∧ calleePre 0 c op := outline.1
    rw [pre.1]
    exact ⟨nofun, nofun⟩

theorem own_thread (fits : List.Forall₂ (Fits courseGhost coursePost) σ.threads ghosts) {own : Own I}
    (member : own ∈ owns ghosts) : ∃ (t : Nat) (prog : Code U I UAns (Option Error)),
      σ.threads[t]? = some ⟨some (0, own.item), prog⟩ ∧ ∀ result, own.reported = some result ↔ prog = .ret result := by
  obtain ⟨c, found, same⟩ := mem_owns.mp member
  obtain ⟨t, atGhost⟩ := List.mem_iff_getElem?.mp found
  obtain ⟨prog, atThread, outline⟩ := thread_of_ghost fits atGhost
  refine ⟨t, prog, atThread, fun result => ?_⟩
  rw [same]
  exact reported_iff outline

theorem GoInv.returned {result : Option Error} (inv : GoInv items σ.shared ghosts)
    (fits : List.Forall₂ (Fits courseGhost coursePost) σ.threads ghosts) (returned : σ.Returned 0 result) :
    ∃ left, (owns ghosts).map Own.item ++ left = items ∧ ∃ group,
      PhaseInv σ.shared.1.cancelled (firstFailure σ.shared.2) (owns ghosts) group (.finished result left) := by
  obtain ⟨label, found⟩ := returned
  obtain ⟨c, atCaller, known⟩ := inv.caller
  obtain ⟨c', atGhost, post⟩ := ghost_of_thread fits found
  cases atCaller.symm.trans atGhost
  obtain ⟨left, phase⟩ : ∃ left, c.phase = .finished result left := post
  rcases known with ⟨before, _⟩ | ⟨all, group, _, _, phaseInv⟩
  · cases before.symm.trans phase
  · rw [phase] at all phaseInv
    exact ⟨left, all, group, phaseInv⟩

/-- The promise, in a run of orderly steps. -/
theorem GoInv.structured (inv : GoInv items σ.shared ghosts)
    (fits : List.Forall₂ (Fits courseGhost coursePost) σ.threads ghosts)
    (balanced : ∀ limit, limiter = some limit → Balanced limit σ.shared.1 σ.threads.length) :
    Structured limiter items σ where
  noPanic := inv.running
  once := by
    rw [startedItems_eq fits]
    obtain ⟨c, atCaller, ⟨_, _, _, alone, _⟩ | ⟨all, _⟩⟩ := inv.caller
    · obtain ⟨ghost, rfl⟩ := List.length_eq_one_iff.mp alone
      cases Option.some.inj atCaller
      exact List.nil_prefix
    · exact ⟨_, all⟩
  limit limit limited := by
    obtain ⟨free, _, total⟩ := (balanced limit limited).free
    omega
  joined result returned t item prog found := by
    obtain ⟨left, _, group, joined, _⟩ := inv.returned fits returned
    obtain ⟨c, atGhost, fit⟩ := ghost_of_thread fits found
    have member : ⟨item, c.failed, c.reported⟩ ∈ owns ghosts := mem_owns.mpr ⟨c, List.mem_of_getElem? atGhost, rfl⟩
    obtain ⟨value, reported⟩ := Option.ne_none_iff_exists'.mp (joined _ member)
    have callee := inv.callees t _ c atGhost
    exact ⟨⟨value, (reported_iff fit).mp reported⟩, callee.ended (callee.agree value reported).2⟩
  nil result returned := by
    obtain ⟨left, all, group, _, nil, _⟩ := inv.returned fits returned
    rw [nil, startedItems_eq fits]
    refine and_congr ?_ ⟨fun succeeded t item prog found => ?_, fun succeeded own member => ?_⟩
    · rw [← all]
      simp
    · obtain ⟨c, atGhost, fit⟩ := ghost_of_thread fits found
      have member : ⟨item, c.failed, c.reported⟩ ∈ owns ghosts := mem_owns.mpr ⟨c, List.mem_of_getElem? atGhost, rfl⟩
      exact (reported_iff fit).mp (succeeded _ member)
    · obtain ⟨t, prog, found, reported⟩ := own_thread fits member
      exact (reported none).mpr (succeeded t own.item prog found)
  cause err returned := by
    obtain ⟨left, _, group, _, _, cause⟩ := inv.returned fits returned
    exact cause err rfl

end Outline

theorem structured_reach (reach : Reach (orderlyMachine callback user) (goStart limiter user₀ items) σ) :
    Structured limiter items σ := by
  obtain ⟨ghosts, fits, inv⟩ := course_reach reach
  refine inv.structured fits fun limit limited => ?_
  subst limited
  exact balanced_reach (Reach.forget reach.unrestricted)

/-- A step after which the promise still holds is orderly. -/
theorem orderly_of_structured (reach : Reach (orderlyMachine callback user) (goStart limiter user₀ items) σ)
    {t : Nat} {label : Label I} {op : Op U I} {next : Ans UAns op → Code U I UAns (Option Error)} {a : Ans UAns op}
    {s' : Shared S × Log U I UAns} {spawned : List (Goroutine U I UAns)}
    (found : σ.threads[t]? = some ⟨label, .call op next⟩)
    (performed : (goMachine callback user).perform σ.shared t σ.threads.length op a = some (s', spawned))
    (kept : Structured limiter items ⟨s', σ.threads.set t ⟨label, next a⟩ ++ spawned⟩) :
    orderly σ.shared.1 op a = true := by
  obtain ⟨ghosts, fits, inv⟩ := course_reach reach
  obtain ⟨c, atGhost, pre, follows⟩ := ghost_of_thread fits found
  obtain ⟨performed, logged⟩ := traced_perform.mp performed
  have responded := (perform_eq_some.mp performed).2
  have inside := (List.getElem?_eq_some_iff.mp found).1
  -- `load` and `wait` on the first `errgroup` are the last operation of the caller.
  have returned (caller : label = none) (last : ∃ result left, c.phase.after op a = .finished result left)
      (context : contextGroup true op a) : t = 0 ∧ ∃ result left, c.phase.after op a = .finished result left ∧
        Pool.Returned (⟨s', σ.threads.set t ⟨label, next a⟩ ++ spawned⟩ : Logged U I UAns S) 0 result := by
    subst caller
    have zero : t = 0 := by
      by_contra other
      exact (inv.callees t none c atGhost).callee other rfl
    subst zero
    obtain ⟨result, left, phase⟩ := last
    have rest := follows a _ ⟨context, rfl⟩
    refine ⟨rfl, result, left, phase, none, ?_⟩
    rw [List.getElem?_append_left (by simpa using inside), List.getElem?_set_self inside]
    cases after : next a with
    | ret value =>
      rw [after] at rest
      obtain ⟨left', phase'⟩ : ∃ left', c.phase.after op a = .finished value left' := rest
      cases phase.symm.trans phase'
      rfl
    | call op' next' =>
      rw [after] at rest
      have impossible : callerPre (c.phase.after op a) op' := rest.1
      rw [phase] at impossible
      cases op' <;> simp [callerPre] at impossible
  cases op with
  | compareAndSwap g err =>
    obtain ⟨group, atG, rfl, moved⟩ := respond_compareAndSwap responded
    have running : s'.1.crashed = false := kept.noPanic
    simp only [orderly, atG, Option.all_some]
    by_contra different
    rw [moved, Group.uniform, if_neg different] at running
    cases running
  | load g =>
    cases g with
    | succ g => rfl
    | zero =>
      cases label with
      | some started => exact absurd rfl pre.2
      | none =>
        obtain ⟨_, err, left, phase⟩ : 0 = 0 ∧ ∃ err left, c.phase = .refused err left := pre
        obtain ⟨rfl, result, _, _, finished⟩ := returned rfl ⟨_, left, by rw [phase]; rfl⟩ trivial
        obtain ⟨c₀, atCaller, known⟩ := inv.caller
        cases atCaller.symm.trans atGhost
        obtain ⟨_, group, atGroup, groupInv, _⟩ :=
          known.resolve_left fun before => by cases before.1.symm.trans phase
        simp only [orderly, atGroup, Option.all_some, decide_eq_true_eq]
        rw [groupInv.pending, List.countP_eq_zero]
        intro own member waiting
        obtain ⟨t', prog, foundT, reported⟩ := own_thread fits member
        have other : 0 ≠ t' := by
          rintro rfl
          cases found.symm.trans foundT
        have still : (σ.threads.set 0 ⟨none, next a⟩ ++ spawned)[t']? = some ⟨some (0, own.item), prog⟩ := by
          rw [List.getElem?_append_left (by simpa using (List.getElem?_eq_some_iff.mp foundT).1),
            List.getElem?_set_ne other]
          exact foundT
        obtain ⟨value, ret⟩ := (kept.joined result finished t' own.item prog still).1
        rw [(reported value).mpr ret] at waiting
        cases waiting
  | wait g =>
    cases g with
    | succ g => rfl
    | zero =>
      cases label with
      | some started => exact absurd rfl pre.2
      | none =>
        obtain ⟨_, phase⟩ : 0 = 0 ∧ c.phase = .starting [] := pre
        obtain ⟨rfl, result, _, last, finished⟩ := returned rfl ⟨a, [], by rw [phase]; rfl⟩ trivial
        obtain ⟨c₀, atCaller, known⟩ := inv.caller
        cases atCaller.symm.trans atGhost
        obtain ⟨_, group, atGroup, groupInv, _⟩ :=
          known.resolve_left fun before => by cases before.1.symm.trans phase
        obtain ⟨group₀, atGroup₀, done, value, _, _⟩ := respond_wait responded
        cases atGroup.symm.trans atGroup₀
        rw [phase] at last
        obtain rfl : a = result := by
          injection last
        have log : firstFailure s'.2 = group.egErr := by
          rw [logged, firstFailure_append, groupInv.egErr]
          exact Option.or_none
        simp only [orderly, atGroup, Option.all_some, decide_eq_true_eq]
        have errors := groupInv.reported_failed done fun own member result => inv.callees.agree member
        cases recorded : group.err with
        | none => exact (errors.none_of_none groupInv.failed recorded).symm
        | some err =>
          rw [recorded] at value
          subst value
          rcases kept.cause err finished with cause | ⟨unfailed, _⟩
          · exact (log.symm.trans cause).symm
          · cases recorded.symm.trans (groupInv.failed.none_of_none errors (log.symm.trans unfailed))
  | regionStart => rfl
  | regionEnd => rfl
  | withContext => rfl
  | spawn g item => rfl
  | report g err => rfl
  | user op => rfl

/-- The states that a run of `Go` reaches with the promise kept all along are those
that it reaches by orderly steps. -/
theorem go_structured_iff : Relation.ReflTransGen
      (fun σ σ' => Step (goMachine callback user) σ σ' ∧ Structured limiter items σ')
      (goStart limiter user₀ items) σ ↔
    Reach (orderlyMachine callback user) (goStart limiter user₀ items) σ := by
  constructor
  · intro run
    induction run with
    | refl => exact .refl
    | tail _ moved ih =>
      refine ih.tail ?_
      obtain ⟨step, kept⟩ := moved
      cases step with
      | env changed => exact .env changed
      | thread t taken =>
        cases taken with
        | answer found performed =>
          refine .thread t (.answer found (restrict_perform.mpr ⟨?_, performed⟩))
          exact orderly_of_structured ih found performed kept
  · intro reach
    induction reach with
    | refl => exact .refl
    | tail before step ih =>
      refine ih.tail ⟨?_, structured_reach (before.tail step)⟩
      cases step with
      | env changed => exact .env changed
      | thread t taken =>
        cases taken with
        | answer found performed => exact .thread t (.answer found (restrict_perform.mp performed).2)

end Run

namespace Abandoned

def boom : Error := .text "primary callback failure"

/-- The first callback fails at once, the others take a moment. -/
def callback (item : Nat) : Callback Unit Nat (fun _ => Unit) (Option Error) :=
  if item = 0 then .ret (some boom) else .call (.user ()) fun _ => .ret none

/-- Two callbacks that fail with errors of different types. -/
def failing (item : Nat) : Callback Unit Nat (fun _ => Unit) (Option Error) := .ret (some (.other item "failed"))

def user (_ : Unit) (_ : Nat) (_ : Bool) (_ : Unit) (_ : Unit) : Option Unit := some ()

/-- A region is not started once the context has ended. -/
def answers (s : Shared Unit × Log Unit Nat (fun _ => Unit)) (t : Nat) :
    (op : Op Unit Nat) → Ans (fun _ => Unit) op
  | .spawn g item =>
    if (s.1.groups[g]?).any Group.cancelled then some .contextCanceled
    else eager (fun _ _ => ()) s.1 t (.spawn g item)
  | op => eager (fun _ _ => ()) s.1 t op

def run (callback : Nat → Callback Unit Nat (fun _ => Unit) (Option Error)) (limit : Nat) (items turns : List Nat) :
    Logged Unit Nat (fun _ => Unit) Unit :=
  turns.foldl (fun σ t => (σ.step? (goMachine callback user) answers t).getD σ) (goStart (some limit) () items)

/-- The caller starts two callbacks, the first one fails, and the caller gives up on the third item. -/
def left : Logged Unit Nat (fun _ => Unit) Unit := run callback 2 [0, 1, 2] [0, 0, 0, 1, 1, 1, 0, 0]

/-- Both callbacks swap in their error. -/
def panicked : Logged Unit Nat (fun _ => Unit) Unit := run failing 2 [0, 1] [0, 0, 0, 1, 2]

theorem left_running : left.returned? 0 = some (some boom) ∧ left.returned? 2 = none ∧
    (left.threads[2]?).map Thread.label = some (some (0, 1)) ∧ left.shared.1.started 2 = true ∧
    panicked.shared.1.crashed = true := by
  decide +kernel

end Abandoned

/-- `Go` returns the error of the first callback while the second one runs on with
its permit, and two callbacks with errors of different types end the process. -/
theorem go_not_structured :
    (∃ σ, Reach (goMachine Abandoned.callback Abandoned.user) (goStart (some 2) () [0, 1, 2]) σ ∧
      σ.Returned 0 (some Abandoned.boom) ∧ (σ.threads[2]?).map Thread.label = some (some (0, 1)) ∧
      (∀ result, ¬ σ.Returned 2 result) ∧ σ.shared.1.started 2 = true) ∧
    ∃ σ, Reach (goMachine Abandoned.failing Abandoned.user) (goStart (some 2) () [0, 1]) σ ∧
      σ.shared.1.crashed = true := by
  obtain ⟨returned, running, second, started, crashed⟩ := Abandoned.left_running
  refine ⟨⟨Abandoned.left, Pool.turns_reach _ _, Pool.returned?_eq_some.mp returned, second, ?_, started⟩,
    Abandoned.panicked, Pool.turns_reach _ _, crashed⟩
  intro result finished
  cases running.symm.trans (Pool.returned?_eq_some.mpr finished)

end OrasGo.Syncutil
