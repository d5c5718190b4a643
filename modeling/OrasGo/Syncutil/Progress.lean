import OrasGo.Syncutil.Permits
import OrasGo.Syncutil.TreeRun

/-! What a state looks like in which no goroutine can take a step. -/

namespace OrasGo.Syncutil
open Interleaving
variable {U I S : Type} {UAns : U → Type} {r : Label I → Label I → Prop} {blocking : U → Bool}
  {fn : I → Code U I UAns (Option Error)} {user : S → Nat → Bool → (op : U) → UAns op → Option S}
  {creator : Nat → Nat} {σ : State U I UAns S}

variable {th : Goroutine U I UAns}

theorem Tree.main_label (tree : Tree r blocking creator σ) (found : σ.threads[0]? = some th) : th.label = none := by
  obtain ⟨label, prog⟩ := th
  cases label with
  | none => rfl
  | some started => exact absurd (tree.parent 0 started.1 started.2 prog found).1 (Nat.not_lt_zero _)

theorem Tree.all_nil (tree : Tree r blocking creator σ) (success : σ.Returned 0 none) (t : Nat)
    (found : σ.threads[t]? = some th) : th.prog = .ret none := by
  induction t using Nat.strong_induction_on generalizing th with
  | _ t ih =>
    obtain ⟨label, prog⟩ := th
    cases label with
    | none =>
      obtain ⟨label, atMain⟩ := success
      have same := tree.main t prog found
      subst same
      cases atMain.symm.trans found
      rfl
    | some started =>
      obtain ⟨g, item⟩ := started
      obtain ⟨older, label, prog', atCreator, _⟩ := tree.parent t g item prog found
      have returned := ih (creator g) older atCreator
      change prog' = .ret none at returned
      subst returned
      exact tree.nil t g item prog found ⟨label, atCreator⟩

theorem ctxDone_cons {s : Shared S} {g : Nat} {ctx : List Nat} (expired : s.ctxDone ctx = true) :
    s.ctxDone (g :: ctx) = true := by
  simp only [Shared.ctxDone, List.any_cons, Bool.or_eq_true] at expired ⊢
  exact expired.imp id .inr

theorem ctxDone_head {s : Shared S} {g : Nat} {ctx : List Nat} {group : Group}
    (atG : s.groups[g]? = some group) (cancelled : group.cancelled = true) : s.ctxDone (g :: ctx) = true := by
  simp [Shared.ctxDone, atG, cancelled]

/-- No goroutine can take a step, though the process has not panicked. -/
structure Stuck (fn : I → Code U I UAns (Option Error))
    (user : S → Nat → Bool → (op : U) → UAns op → Option S) (σ : State U I UAns S) : Prop where
  running : σ.shared.crashed = false
  blocked : ∀ t σ', ¬ StepBy (machine fn user) t σ σ'

/-- The operations of the callback that may not block always have an answer,
and the others have one when the context is done. -/
structure Responsive (blocking : U → Bool)
    (user : S → Nat → Bool → (op : U) → UAns op → Option S) : Prop where
  free : ∀ s t ended op, blocking op = false → ∃ answer s', user s t ended op answer = some s'
  released : ∀ s t op, ∃ answer s', user s t true op answer = some s'

section Stuck
variable {t : Nat} {label : Label I}

theorem Stuck.no_answer (stuck : Stuck fn user σ) {op : Op U I}
    {next : Ans UAns op → Code U I UAns (Option Error)}
    (found : σ.threads[t]? = some ⟨label, .call op next⟩) (answer : Ans UAns op)
    (result : Shared S × List (Goroutine U I UAns)) :
    respond fn user σ.shared t σ.threads.length op answer ≠ some result := fun responded =>
  stuck.blocked t _ (.answer found (perform_eq_some.mpr ⟨stuck.running, responded⟩))

section

variable (stuck : Stuck fn user σ) (tree : Tree r blocking creator σ) (responsive : Responsive blocking user)
include stuck tree responsive

theorem Stuck.blocks {op : Op U I} {next : Ans UAns op → Code U I UAns (Option Error)}
    (found : σ.threads[t]? = some ⟨label, .call op next⟩) : op.blocking blocking = true := by
  cases op with
  | regionStart => rfl
  | spawn g item => rfl
  | wait g => rfl
  | regionEnd => exact absurd rfl (stuck.no_answer found () _)
  | withContext => exact absurd (if_pos rfl) (stuck.no_answer found σ.shared.groups.length _)
  | load g => exact absurd (if_pos rfl) (stuck.no_answer found ((σ.shared.groups[g]?).bind Group.egErr) _)
  | compareAndSwap g err =>
    obtain ⟨item, rfl⟩ := tree.returning t label g _ next found (.inr ⟨err, rfl⟩)
    obtain ⟨_, group, atG⟩ := tree.ctx t g item _ found
    refine absurd ?_ (stuck.no_answer found () (σ.shared.compareAndSwap g group err, []))
    simp only [respond, atG]
    rfl
  | report g err =>
    obtain ⟨item, rfl⟩ := tree.returning t label g _ next found (.inl ⟨err, rfl⟩)
    obtain ⟨_, group, atG⟩ := tree.ctx t g item _ found
    refine absurd ?_ (stuck.no_answer found () (σ.shared.setGroup g (group.report err), []))
    simp only [respond, atG]
    rfl
  | user op =>
    by_contra free
    obtain ⟨answer, user', answered⟩ := responsive.free σ.shared.user t
      (σ.shared.ctxDone (σ.shared.ctx t)) op (by simpa [Op.blocking] using free)
    refine stuck.no_answer found answer ({ σ.shared with user := user' }, []) ?_
    simp only [respond, answered]
    rfl

theorem Stuck.permitted {limit : Nat} (permits : Permits blocking limit σ) (positive : 0 < limit) :
    σ.shared.limiter ≠ some 0 := by
  have all : σ.shared.limiter = some limit := by
    refine permits.free fun t inside => ?_
    obtain ⟨⟨label, prog⟩, found⟩ : ∃ th, σ.threads[t]? = some th := ⟨_, List.getElem?_eq_getElem inside⟩
    cases prog with
    | ret value => exact permits.returned t value ⟨label, found⟩
    | call op next => exact permits.waiting t label op next found (stuck.blocks tree responsive found)
  rw [all, Ne, Option.some.injEq]
  omega

end

theorem regionStart_permitted {s : Shared S} (permitted : s.limiter ≠ some 0) (t : Nat) :
    ∃ s', s.regionStart t none = some s' := by
  simp only [Shared.regionStart]
  split
  · exact ⟨_, rfl⟩
  · split
    · exact ⟨_, rfl⟩
    · exact absurd ‹_› permitted
    · exact ⟨_, rfl⟩

theorem spawn_permitted {s : Shared S} (permitted : s.limiter ≠ some 0) (n g : Nat) (group : Group) :
    ∃ result, s.spawn n g group none = some result := by
  simp only [Shared.spawn]
  split
  · exact ⟨_, rfl⟩
  · exact absurd ‹_› permitted
  · exact ⟨_, rfl⟩

variable (stuck : Stuck fn user σ) (tree : Tree r blocking creator σ)
  (responsive : Responsive blocking user) (permitted : σ.shared.limiter ≠ some 0)
include stuck tree responsive permitted

/-- It waits for a group with an unfinished goroutine, or for the callback's own
operation. -/
theorem Stuck.waits {op : Op U I} {next : Ans UAns op → Code U I UAns (Option Error)}
    (found : σ.threads[t]? = some ⟨label, .call op next⟩) :
    (∃ g, op = .wait g ∧ creator g = t ∧ ∃ (t' : Nat) (item : I) (op' : Op U I)
      (next' : Ans UAns op' → Code U I UAns (Option Error)),
      σ.threads[t']? = some ⟨some (g, item), .call op' next'⟩) ∨
    ∃ u, op = .user u ∧ blocking u = true ∧
      ∀ answer, user σ.shared.user t (σ.shared.ctxDone (σ.shared.ctx t)) u answer = none := by
  have blocks := stuck.blocks tree responsive found
  cases op with
  | regionStart =>
    obtain ⟨s', started⟩ := regionStart_permitted permitted t
    refine absurd ?_ (stuck.no_answer found none (s', []))
    simp only [respond, started, Option.map_some]
  | spawn g item =>
    obtain ⟨_, group, atG⟩ := tree.spawning t label g item next found
    obtain ⟨⟨s', started⟩, spawned⟩ := spawn_permitted permitted σ.threads.length g group
    refine absurd ?_ (stuck.no_answer found none
      (s', if started then [⟨some (g, item), goroutine fn g item⟩] else []))
    simp only [respond, atG, Option.bind_eq_bind, Option.bind_some, spawned]
  | wait g =>
    obtain ⟨made, group, atG, members⟩ := tree.waiting t label g next found
    refine .inl ⟨g, rfl, made, members ?_⟩
    by_contra none
    refine stuck.no_answer found group.err (σ.shared.setGroup g { group with cancelled := true }, []) ?_
    simp only [respond, atG]
    exact if_pos ⟨by omega, rfl⟩
  | user u =>
    refine .inr ⟨u, rfl, blocks, fun answer => ?_⟩
    cases answered : user σ.shared.user t (σ.shared.ctxDone (σ.shared.ctx t)) u answer with
    | none => rfl
    | some user' =>
      refine absurd ?_ (stuck.no_answer found answer ({ σ.shared with user := user' }, []))
      simp only [respond, answered]
      rfl
  | _ => cases blocks

variable {op : Op U I} {next : Ans UAns op → Code U I UAns (Option Error)}

/-- Whoever is unfinished waits, through the groups below it, for an operation of
a callback whose context is below its own. -/
theorem Stuck.innermost (found : σ.threads[t]? = some ⟨label, .call op next⟩) :
    ∃ t' u, blocking u = true ∧
      (σ.shared.ctxDone (σ.shared.ctx t) = true → σ.shared.ctxDone (σ.shared.ctx t') = true) ∧
      ∀ answer, user σ.shared.user t' (σ.shared.ctxDone (σ.shared.ctx t')) u answer = none := by
  have inside : t < σ.threads.length := (List.getElem?_eq_some_iff.mp found).1
  induction room : σ.threads.length - t using Nat.strong_induction_on generalizing t label op with
  | _ n ih =>
    rcases stuck.waits tree responsive permitted found with
      ⟨g, rfl, made, t', item, op', next', found'⟩ | ⟨u, rfl, blocks, silent⟩
    · have younger := (tree.parent t' g item _ found').1
      have inside' : t' < σ.threads.length := (List.getElem?_eq_some_iff.mp found').1
      obtain ⟨t'', u, blocks, expires, silent⟩ := ih (σ.threads.length - t') (by omega) found' inside' rfl
      refine ⟨t'', u, blocks, fun expired => expires ?_, silent⟩
      rw [(tree.ctx t' g item _ found').1, made]
      exact ctxDone_cons expired
    · exact ⟨t, u, blocks, id, silent⟩

/-- Callbacks that never wait for each other themselves leave nobody unfinished
behind. -/
theorem Stuck.returned (never : ∀ op, blocking op = false) : σ.threads[t]? ≠ some ⟨label, .call op next⟩ := by
  intro found
  obtain ⟨_, u, blocks, _⟩ := stuck.innermost tree responsive permitted found
  cases (never u).symm.trans blocks

theorem Stuck.not_over (found : σ.threads[t]? = some ⟨label, .call op next⟩) :
    σ.shared.ctxDone (σ.shared.ctx t) = false := by
  obtain ⟨t', u, _, expires, silent⟩ := stuck.innermost tree responsive permitted found
  by_contra expired
  rw [expires (by simpa using expired)] at silent
  obtain ⟨answer, user', answered⟩ := responsive.released σ.shared.user t' u
  cases (silent answer).symm.trans answered

/-- The outermost `Go` has not returned while somebody is unfinished. -/
theorem Stuck.main_running (found : σ.threads[t]? = some ⟨label, .call op next⟩) {value : Option Error} :
    ¬ σ.Returned 0 value := by
  induction t using Nat.strong_induction_on generalizing label op with
  | _ t ih =>
    rintro ⟨label₀, atMain⟩
    cases label with
    | none =>
      cases tree.main t _ found
      cases atMain.symm.trans found
    | some started =>
      obtain ⟨g, item⟩ := started
      obtain ⟨older, label', prog, atCreator, _⟩ := tree.parent t g item _ found
      cases prog with
      | call op' next' => exact ih (creator g) older atCreator ⟨label₀, atMain⟩
      | ret value' =>
        have expired := tree.expired t g item _ value' found ⟨label', atCreator⟩
        cases expired.symm.trans (stuck.not_over tree responsive permitted found)

theorem Stuck.main_failed {err : Error} (failed : σ.Returned t (some err)) :
    ∃ err, σ.Returned 0 (some err) := by
  induction t using Nat.strong_induction_on generalizing err with
  | _ t ih =>
    obtain ⟨label, found⟩ := failed
    cases label with
    | none => exact ⟨err, none, tree.main t _ found ▸ found⟩
    | some started =>
      obtain ⟨g, item⟩ := started
      obtain ⟨older, label, prog, atCreator, _⟩ := tree.parent t g item _ found
      obtain ⟨⟨group, atG, cancelled⟩, notNil, stays⟩ := tree.failed t g item err found
      cases prog with
      | ret value =>
        cases value with
        | none => exact absurd ⟨label, atCreator⟩ notNil
        | some err' => exact ih (creator g) older ⟨label, atCreator⟩
      | call op next =>
        have waits := stays label _ next atCreator (stuck.blocks tree responsive atCreator)
        rcases stuck.waits tree responsive permitted atCreator with
          ⟨g', rfl, _, t', item', op', next', found'⟩ | ⟨u, rfl, _, _⟩
        · obtain ⟨item, impossible⟩ | same := waits
          · cases impossible
          · cases same
            have running := stuck.not_over tree responsive permitted found'
            rw [(tree.ctx t' g item' _ found').1, ctxDone_head atG cancelled] at running
            cases running
        · obtain ⟨item, impossible⟩ | impossible := waits <;> cases impossible

end Stuck

end OrasGo.Syncutil
