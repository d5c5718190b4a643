import Mathlib.Logic.Function.Basic
import OrasGo.Base.Pool
import OrasGo.Descriptor

/-! `syncutil.Go` and `syncutil.LimitedRegion`, over the documented behaviour
of `errgroup.Group`, `semaphore.Weighted` and `context.Context`. The callback
and the operations it performs beside these are parameters. -/

namespace OrasGo.Syncutil
open Interleaving

/-- The operations of a goroutine. `load` and `compareAndSwap` are those of the
`atomic.Value` in which `Go` keeps the first error of its callbacks; `spawn` is
`region.Start` and `eg.Go` for the next item; `report` is the end of a goroutine
of an `errgroup`, which records its error. -/
inductive Op (U I : Type)
  | regionStart
  | regionEnd
  | withContext
  | spawn (group : Nat) (item : I)
  | load (group : Nat)
  | wait (group : Nat)
  | compareAndSwap (group : Nat) (err : Error)
  | report (group : Nat) (err : Option Error)
  | user (op : U)

variable {U I S : Type} {UAns : U → Type}

@[reducible] def Ans (UAns : U → Type) : Op U I → Type
  | .regionStart => Option Error
  | .regionEnd => Unit
  | .withContext => Nat
  | .spawn _ _ => Option Error
  | .load _ => Option Error
  | .wait _ => Option Error
  | .compareAndSwap _ _ => Unit
  | .report _ _ => Unit
  | .user op => UAns op

/-- An operation that may have to wait for other goroutines. -/
def Op.blocking (blocking : U → Bool) : Op U I → Bool
  | .regionStart => true
  | .spawn _ _ => true
  | .wait _ => true
  | .user op => blocking op
  | _ => false

abbrev Code (U I : Type) (UAns : U → Type) := Prog (Op U I) (Ans UAns)

def call (op : Op U I) : Code U I UAns (Ans UAns op) := Prog.perform op

def regionStart : Code U I UAns (Option Error) := call .regionStart
def regionEnd : Code U I UAns Unit := call .regionEnd
def withContext : Code U I UAns Nat := call .withContext
def spawn (group : Nat) (item : I) : Code U I UAns (Option Error) := call (.spawn group item)
def load (group : Nat) : Code U I UAns (Option Error) := call (.load group)
def wait (group : Nat) : Code U I UAns (Option Error) := call (.wait group)
def compareAndSwap (group : Nat) (err : Error) : Code U I UAns Unit := call (.compareAndSwap group err)
def report (group : Nat) (err : Option Error) : Code U I UAns Unit := call (.report group err)

/-- The loop of `Go`: it returns at once, without waiting for the goroutines
it has started, when the region of the next item cannot be started. -/
def goLoop (group : Nat) : List I → Code U I UAns (Option Error)
  | [] => wait group
  | item :: rest => do
    match ← spawn group item with
    | some err =>
      match ← load group with
      | some egErr => return some egErr
      | none => return some err
    | none => goLoop group rest

/-- `syncutil.Go`, without its callback: `spawn` starts `goroutine`. -/
def go (items : List I) : Code U I UAns (Option Error) := do
  let group ← withContext
  goLoop group items

/-- The function `Go` hands to `eg.Go`, and what the `errgroup` does when it
returns. -/
def goroutine (fn : I → Code U I UAns (Option Error)) (group : Nat) (item : I) :
    Code U I UAns (Option Error) := do
  let err ← fn item
  match err with
  | some e => compareAndSwap group e
  | none => pure ()
  regionEnd
  report group err
  return err

/-- An `errgroup` with its `egErr`. Its context is the list of the groups whose
cancellation ends it, its own first. -/
structure Group where
  ctx : List Nat
  pending : Nat := 0
  egErr : Option Error := none
  err : Option Error := none
  cancelled : Bool := false

/-- A goroutine of the group has returned; the first error cancels the group. -/
def Group.report (group : Group) (err : Option Error) : Group :=
  match err, group.err with
  | some e, none => { group with pending := group.pending - 1, err := some e, cancelled := true }
  | _, _ => { group with pending := group.pending - 1 }

/-- What the goroutines of one run share. `limiter` is the number of free
permits, nothing for a nil limiter; `started` says whose region is started;
`cancelled` is the context of the outermost caller. A panic ends the process
with all its goroutines, `crashed`. -/
structure Shared (S : Type) where
  limiter : Option Nat
  started : Nat → Bool := fun _ => false
  ctx : Nat → List Nat := fun _ => []
  groups : List Group := []
  cancelled : Bool := false
  crashed : Bool := false
  user : S

/-- The label of a goroutine: the group and the item it was started for, and
nothing for the caller of the outermost `Go`. -/
abbrev Label (I : Type) := Option (Nat × I)

abbrev Goroutine (U I : Type) (UAns : U → Type) := Thread (Op U I) (Ans UAns) (Label I) (Option Error)

abbrev State (U I : Type) (UAns : U → Type) (S : Type) :=
  Pool (Op U I) (Ans UAns) (Shared S) (Label I) (Option Error)

namespace Shared

def ctxDone (s : Shared S) (ctx : List Nat) : Bool :=
  s.cancelled || ctx.any (fun g => (s.groups[g]?).any (fun group => group.cancelled))

def setGroup (s : Shared S) (g : Nat) (group : Group) : Shared S :=
  { s with groups := s.groups.set g group }

/-- `ctx.Err()` of a context that is done. -/
def ctxErr (err : Error) : Bool := err = .contextCanceled || err = .contextDeadlineExceeded

/-- `LimitedRegion.Start` of goroutine `t`: it blocks until there is a permit or
the context is done. -/
def regionStart (s : Shared S) (t : Nat) : Option Error → Option (Shared S)
  | none =>
    if s.started t then some s
    else match s.limiter with
      | none => some s
      | some 0 => none
      | some (free + 1) =>
        some { s with limiter := some free, started := Function.update s.started t true }
  | some err =>
    if s.started t = false ∧ s.limiter.isSome ∧ s.ctxDone (s.ctx t) ∧ ctxErr err then some s else none

/-- `LimitedRegion.End` of goroutine `t`. -/
def regionEnd (s : Shared S) (t : Nat) : Shared S :=
  if s.started t then
    { s with limiter := s.limiter.map (· + 1), started := Function.update s.started t false }
  else s

/-- The goroutine `n` is started in a group, with its region. -/
def start (s : Shared S) (n g : Nat) (group : Group) (limiter : Option Nat) (started : Bool) : Shared S :=
  { s with
    limiter := limiter
    started := Function.update s.started n started
    ctx := Function.update s.ctx n group.ctx
    groups := s.groups.set g { group with pending := group.pending + 1 } }

def spawn (s : Shared S) (n g : Nat) (group : Group) : Option Error → Option (Shared S × Bool)
  | none =>
    match s.limiter with
    | none => some (s.start n g group none false, true)
    | some 0 => none
    | some (free + 1) => some (s.start n g group (some free) true, true)
  | some err =>
    if s.limiter.isSome ∧ s.ctxDone group.ctx ∧ ctxErr err then some (s, false) else none

/-- `atomic.Value.CompareAndSwap(nil, err)`: it panics when the value holds an
error of another concrete type. -/
def compareAndSwap (s : Shared S) (g : Nat) (group : Group) (err : Error) : Shared S :=
  match group.egErr with
  | none => s.setGroup g { group with egErr := some err }
  | some first => if first.goType = err.goType then s else { s with crashed := true }

end Shared

/-- `LimitedRegion.Start` leaves all as it is or takes a permit. -/
theorem regionStart_cases {s s' : Shared S} {t : Nat} {answer : Option Error}
    (moved : s.regionStart t answer = some s') :
    s' = s ∧ (answer = none ∧ (s.started t = true ∨ s.limiter = none) ∨ answer ≠ none ∧ s.limiter.isSome) ∨
    answer = none ∧ s.started t = false ∧ ∃ free, s.limiter = some (free + 1) ∧
      s' = { s with limiter := some free, started := Function.update s.started t true } := by
  cases answer with
  | none =>
    simp only [Shared.regionStart] at moved
    split at moved
    · rename_i started
      cases moved
      exact .inl ⟨rfl, .inl ⟨rfl, .inl started⟩⟩
    · rename_i idle
      split at moved
      · rename_i unlimited
        cases moved
        exact .inl ⟨rfl, .inl ⟨rfl, .inr unlimited⟩⟩
      · cases moved
      · rename_i free limited
        cases moved
        exact .inr ⟨rfl, Bool.eq_false_iff.mpr idle, free, limited, rfl⟩
  | some err =>
    obtain ⟨⟨_, limited, _⟩, rfl⟩ := of_ite_some moved
    exact .inl ⟨rfl, .inr ⟨Option.some_ne_none _, limited⟩⟩

theorem regionEnd_eq (s : Shared S) (t : Nat) : s.regionEnd t =
    { s with
      limiter := if s.started t then s.limiter.map (· + 1) else s.limiter
      started := Function.update s.started t false } := by
  unfold Shared.regionEnd
  split
  · rfl
  · rename_i idle
    have same := Function.update_eq_self t s.started
    rw [Bool.eq_false_iff.mpr idle] at same
    rw [same]

/-- The two callbacks that have failed did so with errors of one concrete type. -/
def Group.uniform (group : Group) (err : Error) : Bool := group.egErr.all fun first => first.goType = err.goType

theorem compareAndSwap_eq {s : Shared S} {g : Nat} {group : Group} (atG : s.groups[g]? = some group) (err : Error) :
    s.compareAndSwap g group err =
      if group.uniform err then s.setGroup g { group with egErr := group.egErr.or (some err) }
      else { s with crashed := true } := by
  unfold Shared.compareAndSwap Group.uniform
  cases before : group.egErr with
  | none => rfl
  | some first =>
    by_cases same : first.goType = err.goType
    · simp only [same, if_true, Option.all_some, decide_true, Option.some_or, Shared.setGroup]
      rw [← before, set_same atG]
    · simp only [same, if_false, Option.all_some, decide_false, Bool.false_eq_true]

theorem Group.report_fields (group : Group) (err : Option Error) :
    (group.report err).ctx = group.ctx ∧ (group.report err).pending = group.pending - 1 ∧
      (group.report err).egErr = group.egErr ∧ (group.report err).err = group.err.or err ∧
      (group.report err).cancelled = (group.cancelled || group.err.isNone && err.isSome) := by
  cases err with
  | none => simp [Group.report]
  | some e => cases before : group.err <;> simp [Group.report, before]

/-- The answers to the operations of goroutine `t`. The operations of the
callback are answered by `user`, which is told whether the goroutine's context
is done. -/
def respond (fn : I → Code U I UAns (Option Error))
    (user : S → Nat → Bool → (op : U) → UAns op → Option S) (s : Shared S) (t n : Nat) :
    (op : Op U I) → Ans UAns op → Option (Shared S × List (Goroutine U I UAns))
  | .regionStart, answer => (s.regionStart t answer).map (·, [])
  | .regionEnd, _ => some (s.regionEnd t, [])
  | .withContext, (g : Nat) =>
    if g = s.groups.length then
      some ({ s with groups := s.groups ++ [{ ctx := g :: s.ctx t }] }, [])
    else none
  | .spawn g item, answer => do
    let group ← s.groups[g]?
    let (s', started) ← s.spawn n g group answer
    some (s', if started then [⟨some (g, item), goroutine fn g item⟩] else [])
  | .load g, (answer : Option Error) =>
    if answer = (s.groups[g]?).bind Group.egErr then some (s, []) else none
  | .wait g, (answer : Option Error) => do
    let group ← s.groups[g]?
    if group.pending = 0 ∧ answer = group.err then
      some (s.setGroup g { group with cancelled := true }, [])
    else none
  | .compareAndSwap g err, _ => do
    let group ← s.groups[g]?
    some (s.compareAndSwap g group err, [])
  | .report g err, _ => do
    let group ← s.groups[g]?
    some (s.setGroup g (group.report err), [])
  | .user op, answer => do
    let user' ← user s.user t (s.ctxDone (s.ctx t)) op answer
    some ({ s with user := user' }, [])

def perform (fn : I → Code U I UAns (Option Error))
    (user : S → Nat → Bool → (op : U) → UAns op → Option S) (s : Shared S) (t n : Nat)
    (op : Op U I) (answer : Ans UAns op) : Option (Shared S × List (Goroutine U I UAns)) :=
  if s.crashed then none else respond fn user s t n op answer

/-- The steps after which no two callbacks of one `Go` have failed with errors of different
concrete types. -/
def uniform (s : Shared S) : (op : Op U I) → Ans UAns op → Bool
  | .compareAndSwap g err, _ => (s.groups[g]?).all fun group => group.uniform err
  | _, _ => true

/-- The group that an operation is about. -/
def Op.group? : Op U I → Option Nat
  | .spawn g _ | .load g | .wait g | .compareAndSwap g _ | .report g _ => some g
  | _ => none

section Perform
variable {fn : I → Code U I UAns (Option Error)} {user : S → Nat → Bool → (op : U) → UAns op → Option S}
  {s s' : Shared S} {t n : Nat} {spawned : List (Goroutine U I UAns)}

theorem perform_eq_some {op : Op U I} {answer : Ans UAns op} :
    perform fn user s t n op answer = some (s', spawned) ↔
      s.crashed = false ∧ respond fn user s t n op answer = some (s', spawned) := by
  cases crashed : s.crashed <;> simp [perform, crashed]

theorem respond_regionStart {answer : Option Error}
    (done : respond fn user s t n .regionStart answer = some (s', spawned)) : spawned = [] ∧
    (s' = s ∧ (answer = none ∧ (s.started t = true ∨ s.limiter = none) ∨ answer ≠ none ∧ s.limiter.isSome) ∨
    answer = none ∧ s.started t = false ∧ ∃ free, s.limiter = some (free + 1) ∧
      s' = { s with limiter := some free, started := Function.update s.started t true }) := by
  obtain ⟨_, moved, same⟩ := Option.map_eq_some_iff.mp done
  cases same
  exact ⟨rfl, regionStart_cases moved⟩

theorem respond_regionEnd {answer : Unit}
    (done : respond fn user s t n .regionEnd answer = some (s', spawned)) : spawned = [] ∧ s' =
    { s with
      limiter := if s.started t then s.limiter.map (· + 1) else s.limiter
      started := Function.update s.started t false } := by
  cases done
  exact ⟨rfl, regionEnd_eq s t⟩

variable {g : Nat}

theorem respond_withContext (done : respond fn user s t n .withContext g = some (s', spawned)) :
    g = s.groups.length ∧ s' = { s with groups := s.groups ++ [{ ctx := g :: s.ctx t }] } ∧
      spawned = [] := by
  simp only [respond, Option.ite_none_right_eq_some,
    Option.some.injEq, Prod.mk.injEq] at done
  exact ⟨done.1, done.2.1.symm, done.2.2.symm⟩

theorem respond_spawn {item : I} {answer : Option Error}
    (done : respond fn user s t n (.spawn g item) answer = some (s', spawned)) :
    ∃ group, s.groups[g]? = some group ∧
      ((answer = none ∧ spawned = [⟨some (g, item), goroutine fn g item⟩] ∧ s.limiter ≠ some 0 ∧
        s' = s.start n g group (s.limiter.map (· - 1)) s.limiter.isSome) ∨
      ∃ err, answer = some err ∧ s.limiter.isSome ∧ s.ctxDone group.ctx = true ∧ Shared.ctxErr err = true ∧
        s' = s ∧ spawned = []) := by
  simp only [respond] at done
  obtain ⟨group, found, done⟩ := Option.bind_eq_some_iff.mp done
  obtain ⟨⟨after, started⟩, moved, done⟩ := Option.bind_eq_some_iff.mp done
  simp only [Option.some.injEq, Prod.mk.injEq] at done
  obtain ⟨rfl, rfl⟩ := done
  refine ⟨group, found, ?_⟩
  cases answer with
  | none =>
    left
    simp only [Shared.spawn] at moved
    split at moved <;> rename_i permits <;> cases moved
    · exact ⟨rfl, rfl, by simp [permits], by simp [permits]⟩
    · exact ⟨rfl, rfl, by simp [permits], by simp [permits]⟩
  | some err =>
    right
    simp only [Shared.spawn, Option.ite_none_right_eq_some, Option.some.injEq, Prod.mk.injEq] at moved
    obtain ⟨⟨limited, ended, expired⟩, rfl, rfl⟩ := moved
    exact ⟨err, rfl, limited, ended, expired, rfl, rfl⟩

theorem respond_load {answer : Option Error} (done : respond fn user s t n (.load g) answer = some (s', spawned)) :
    s' = s ∧ spawned = [] := by
  simp only [respond, Option.ite_none_right_eq_some, Option.some.injEq, Prod.mk.injEq] at done
  exact ⟨done.2.1.symm, done.2.2.symm⟩

theorem respond_wait {answer : Option Error} (done : respond fn user s t n (.wait g) answer = some (s', spawned)) :
    ∃ group, s.groups[g]? = some group ∧ group.pending = 0 ∧ answer = group.err ∧
      s' = s.setGroup g { group with cancelled := true } ∧ spawned = [] := by
  simp only [respond] at done
  obtain ⟨group, found, done⟩ := Option.bind_eq_some_iff.mp done
  simp only [Option.ite_none_right_eq_some, Option.some.injEq, Prod.mk.injEq] at done
  exact ⟨group, found, done.1.1, done.1.2, done.2.1.symm, done.2.2.symm⟩

theorem respond_compareAndSwap {err : Error} {answer : Unit}
    (done : respond fn user s t n (.compareAndSwap g err) answer = some (s', spawned)) :
    ∃ group, s.groups[g]? = some group ∧ spawned = [] ∧ s' =
      if group.uniform err then s.setGroup g { group with egErr := group.egErr.or (some err) }
      else { s with crashed := true } := by
  obtain ⟨group, found, done⟩ := Option.bind_eq_some_iff.mp done
  cases done
  exact ⟨group, found, rfl, compareAndSwap_eq found err⟩

theorem respond_report {err : Option Error} {answer : Unit}
    (done : respond fn user s t n (.report g err) answer = some (s', spawned)) :
    ∃ group, s.groups[g]? = some group ∧ s' = s.setGroup g (group.report err) ∧
      spawned = [] := by
  obtain ⟨group, found, done⟩ := Option.bind_eq_some_iff.mp done
  cases done
  exact ⟨group, found, rfl, rfl⟩

theorem respond_user {op : U} {answer : UAns op}
    (done : respond fn user s t n (.user op) answer = some (s', spawned)) :
    ∃ user', user s.user t (s.ctxDone (s.ctx t)) op answer = some user' ∧
      s' = { s with user := user' } ∧ spawned = [] := by
  obtain ⟨user', answered, done⟩ := Option.bind_eq_some_iff.mp done
  cases done
  exact ⟨user', answered, rfl, rfl⟩

variable {op : Op U I} {answer : Ans UAns op}

/-- Only the caller cancels the run, only `spawn` starts goroutines, only the operations of the
callback change its state, and only regions and `spawn` move permits. -/
theorem respond_frame (done : respond fn user s t n op answer = some (s', spawned)) : s'.cancelled = s.cancelled ∧
      (spawned = [] ∨ ∃ g item, op = .spawn g item ∧ spawned = [⟨some (g, item), goroutine fn g item⟩]) ∧
      (s'.user = s.user ∨ ∃ u, op = .user u) ∧
      (spawned = [] ∧ s'.started = s.started ∧ s'.limiter = s.limiter ∨ op = .regionStart ∨ op = .regionEnd ∨
        ∃ g item, op = .spawn g item) := by
  cases op with
  | regionStart =>
    obtain ⟨rfl, ⟨rfl, _⟩ | ⟨_, _, free, _, rfl⟩⟩ := respond_regionStart done
    all_goals exact ⟨rfl, .inl rfl, .inl rfl, .inr (.inl rfl)⟩
  | regionEnd =>
    obtain ⟨rfl, rfl⟩ := respond_regionEnd done
    exact ⟨rfl, .inl rfl, .inl rfl, .inr (.inr (.inl rfl))⟩
  | withContext =>
    obtain ⟨_, rfl, rfl⟩ := respond_withContext done
    exact ⟨rfl, .inl rfl, .inl rfl, .inl ⟨rfl, rfl, rfl⟩⟩
  | spawn g item =>
    obtain ⟨group, _, ⟨_, rfl, _, rfl⟩ | ⟨_, _, _, _, _, rfl, rfl⟩⟩ := respond_spawn done
    · exact ⟨rfl, .inr ⟨g, item, rfl, rfl⟩, .inl rfl, .inr (.inr (.inr ⟨g, item, rfl⟩))⟩
    · exact ⟨rfl, .inl rfl, .inl rfl, .inr (.inr (.inr ⟨g, item, rfl⟩))⟩
  | load g =>
    obtain ⟨rfl, rfl⟩ := respond_load done
    exact ⟨rfl, .inl rfl, .inl rfl, .inl ⟨rfl, rfl, rfl⟩⟩
  | wait g =>
    obtain ⟨group, _, _, _, rfl, rfl⟩ := respond_wait done
    exact ⟨rfl, .inl rfl, .inl rfl, .inl ⟨rfl, rfl, rfl⟩⟩
  | compareAndSwap g err =>
    obtain ⟨group, _, rfl, rfl⟩ := respond_compareAndSwap done
    split <;> exact ⟨rfl, .inl rfl, .inl rfl, .inl ⟨rfl, rfl, rfl⟩⟩
  | report g err =>
    obtain ⟨group, _, rfl, rfl⟩ := respond_report done
    exact ⟨rfl, .inl rfl, .inl rfl, .inl ⟨rfl, rfl, rfl⟩⟩
  | user op =>
    obtain ⟨user', _, rfl, rfl⟩ := respond_user done
    exact ⟨rfl, .inl rfl, .inr ⟨op, rfl⟩, .inl ⟨rfl, rfl, rfl⟩⟩

theorem respond_user_kept (done : respond fn user s t n op answer = some (s', spawned))
    (other : ∀ u, op ≠ .user u) : s'.user = s.user :=
  (respond_frame done).2.2.1.resolve_right fun ⟨u, same⟩ => other u same

theorem respond_quiet (done : respond fn user s t n op answer = some (s', spawned)) (other : ∀ u, op ≠ .user u)
    (still : ∀ g item, op ≠ .spawn g item) : s'.user = s.user ∧ spawned = [] := by
  refine ⟨respond_user_kept done other, ?_⟩
  rcases (respond_frame done).2.1 with none | ⟨g, item, starts, _⟩
  · exact none
  · exact absurd starts (still g item)

theorem respond_others (done : respond fn user s t n op answer = some (s', spawned)) {t' : Nat} (other : t' ≠ t)
    (old : t' < n) : s'.started t' = s.started t' := by
  rcases (respond_frame done).2.2.2 with ⟨_, same, _⟩ | rfl | rfl | ⟨g, item, rfl⟩
  · rw [same]
  · obtain ⟨_, ⟨rfl, _⟩ | ⟨_, _, free, _, rfl⟩⟩ := respond_regionStart done
    · rfl
    · exact Function.update_of_ne other _ _
  · obtain ⟨_, rfl⟩ := respond_regionEnd done
    exact Function.update_of_ne other _ _
  · obtain ⟨group, _, ⟨_, _, _, rfl⟩ | ⟨_, _, _, _, _, rfl, _⟩⟩ := respond_spawn done
    · exact Function.update_of_ne old.ne _ _
    · rfl

theorem respond_unlimited (unlimited : s.limiter = none)
    (done : respond fn user s t n op answer = some (s', spawned)) : s'.limiter = none := by
  rcases (respond_frame done).2.2.2 with ⟨_, _, same⟩ | rfl | rfl | ⟨g, item, rfl⟩
  · exact same.trans unlimited
  · obtain ⟨_, ⟨rfl, _⟩ | ⟨_, _, free, limited, _⟩⟩ := respond_regionStart done
    · exact unlimited
    · cases unlimited.symm.trans limited
  · obtain ⟨_, rfl⟩ := respond_regionEnd done
    simp [unlimited]
  · obtain ⟨group, _, ⟨_, _, _, rfl⟩ | ⟨_, _, _, _, _, rfl, _⟩⟩ := respond_spawn done
    · exact congrArg (Option.map (· - 1)) unlimited
    · exact unlimited

/-- The groups are kept but for the one that the operation is about. -/
theorem respond_group (done : respond fn user s t n op answer = some (s', spawned)) (inside : g < s.groups.length)
    (other : op.group? ≠ some g) : s'.groups[g]? = s.groups[g]? := by
  have elsewhere {g' : Nat} (about : op.group? = some g') (group : Group) :
      (s.groups.set g' group)[g]? = s.groups[g]? :=
    List.getElem?_set_ne fun same => other (about.trans (congrArg some same))
  cases op with
  | regionStart => obtain ⟨_, ⟨rfl, _⟩ | ⟨_, _, free, _, rfl⟩⟩ := respond_regionStart done <;> rfl
  | regionEnd => obtain ⟨_, rfl⟩ := respond_regionEnd done; rfl
  | withContext =>
    obtain ⟨_, rfl, _⟩ := respond_withContext done
    exact List.getElem?_append_left inside
  | spawn g' item =>
    obtain ⟨group, _, ⟨_, _, _, rfl⟩ | ⟨_, _, _, _, _, rfl, _⟩⟩ := respond_spawn done
    · exact elsewhere rfl _
    · rfl
  | load g' => rw [(respond_load done).1]
  | wait g' =>
    obtain ⟨group, _, _, _, rfl, _⟩ := respond_wait done
    exact elsewhere rfl _
  | compareAndSwap g' err =>
    obtain ⟨group, _, _, rfl⟩ := respond_compareAndSwap done
    split
    · exact elsewhere rfl _
    · rfl
  | report g' err =>
    obtain ⟨group, _, rfl, _⟩ := respond_report done
    exact elsewhere rfl _
  | user op => obtain ⟨user', _, rfl, _⟩ := respond_user done; rfl

theorem respond_running (done : respond fn user s t n op answer = some (s', spawned))
    (allowed : uniform s op answer = true) : s'.crashed = s.crashed := by
  cases op with
  | regionStart => obtain ⟨_, ⟨rfl, _⟩ | ⟨_, _, free, _, rfl⟩⟩ := respond_regionStart done <;> rfl
  | regionEnd => obtain ⟨_, rfl⟩ := respond_regionEnd done; rfl
  | withContext => obtain ⟨_, rfl, _⟩ := respond_withContext done; rfl
  | spawn g item => obtain ⟨group, _, ⟨_, _, _, rfl⟩ | ⟨_, _, _, _, _, rfl, _⟩⟩ := respond_spawn done <;> rfl
  | load g => rw [(respond_load done).1]
  | wait g => obtain ⟨group, _, _, _, rfl, _⟩ := respond_wait done; rfl
  | compareAndSwap g err =>
    obtain ⟨group, found, _, rfl⟩ := respond_compareAndSwap done
    rw [uniform, found, Option.all_some] at allowed
    rw [if_pos allowed]
    rfl
  | report g err => obtain ⟨group, _, rfl, _⟩ := respond_report done; rfl
  | user u => obtain ⟨user', _, rfl, _⟩ := respond_user done; rfl

end Perform

/-- The callback's operations keep `J`, and so does a new goroutine in ghost state `fresh`. -/
structure CallbackKeeps {L : Type} (γ : Label I → Ghost U UAns L) (fresh : L)
    (user : S → Nat → Bool → (op : U) → UAns op → Option S) (J : S → List (Label I × L) → Prop) : Prop where
  start : ∀ s ghosts label, J s ghosts → J s (ghosts ++ [(label, fresh)])
  answers : ∀ s ghosts t label l ended op answer s', J s ghosts → ghosts[t]? = some (label, l) →
    (γ label).pre op l → user s t ended op answer = some s' →
    ∃ l', (γ label).next op answer l l' ∧ J s' (ghosts.set t (label, l'))

/-- One run of `Go`: the caller's context may be cancelled at any time. -/
def machine (fn : I → Code U I UAns (Option Error))
    (user : S → Nat → Bool → (op : U) → UAns op → Option S) :
    Machine (Op U I) (Ans UAns) (Shared S) (Label I) (Option Error) where
  perform := perform fn user
  env s s' := s.cancelled = false ∧ s.crashed = false ∧ s' = { s with cancelled := true }

/-- The caller is about to run `Go` on `items`. -/
def initial (limiter : Option Nat) (user : S) (items : List I) : State U I UAns S :=
  ⟨{ limiter, user }, [⟨none, go items⟩]⟩

/-- Surroundings that answer as soon as they can and never fail, where `user`
answers the operations of the callback. -/
def eager (user : S → (op : U) → UAns op) (s : Shared S) (_ : Nat) : (op : Op U I) → Ans UAns op
  | .regionStart => none
  | .regionEnd => ()
  | .withContext => s.groups.length
  | .spawn _ _ => none
  | .load g => (s.groups[g]?).bind Group.egErr
  | .wait g => (s.groups[g]?).bind Group.err
  | .compareAndSwap _ _ => ()
  | .report _ _ => ()
  | .user op => user s.user op

end OrasGo.Syncutil
