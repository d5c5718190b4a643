import Mathlib.Data.List.ReduceOption
import OrasGo.Base.Trace
import OrasGo.Syncutil.Go

/-! The course of the outermost `Go` and of its callbacks, whatever these do:
what its `errgroup` knows of them, and what it means that it has returned. -/

namespace OrasGo.Syncutil
open Interleaving
variable {U I S α : Type} {UAns : U → Type}

/-- What a callback may do: end and restart its region, run `Go` itself, and the
operations that are none of `Go`'s business. -/
inductive CallbackOp (U I : Type)
  | regionStart
  | regionEnd
  | go (items : List I)
  | user (op : U)

@[reducible] def CallbackAns (UAns : U → Type) : CallbackOp U I → Type
  | .regionStart => Option Error
  | .regionEnd => Unit
  | .go _ => Option Error
  | .user op => UAns op

abbrev Callback (U I : Type) (UAns : U → Type) := Prog (CallbackOp U I) (CallbackAns UAns)

def CallbackOp.code : (op : CallbackOp U I) → Code U I UAns (CallbackAns UAns op)
  | .regionStart => Syncutil.regionStart
  | .regionEnd => Syncutil.regionEnd
  | .go items => Syncutil.go items
  | .user op => call (.user op)

def callbackCode : Callback U I UAns α → Code U I UAns α
  | .ret value => .ret value
  | .call op next => op.code >>= fun answer => callbackCode (next answer)

abbrev Log (U I : Type) (UAns : U → Type) := List (Event (Op U I) (Ans UAns))

/-- The item of a goroutine of the outermost `Go`. -/
def ownItem : Label I → Option I
  | some (0, item) => some item
  | _ => none

/-- The error of a callback of the outermost `Go` that has just failed. -/
def failure (event : Event (Op U I) (Ans UAns)) : Option Error :=
  match event.op with
  | .compareAndSwap 0 err => some err
  | _ => none

def firstFailure (log : Log U I UAns) : Option Error := log.findSome? failure

/-- The steps that keep the promise. No two callbacks of one `Go` fail with errors of
different concrete types; when the outermost `Go` gives up on an item its callbacks have
all returned; and the first callback to report to its `errgroup` is the one that has
failed first. -/
def orderly (s : Shared S) : (op : Op U I) → Ans UAns op → Bool
  | .compareAndSwap g err, _ => (s.groups[g]?).all fun group => group.egErr.all fun first => first.goType = err.goType
  | .load 0, _ => (s.groups[0]?).all fun group => group.pending = 0
  | .wait 0, _ => (s.groups[0]?).all fun group => group.err = group.egErr
  | _, _ => true

/-- Where the caller of the outermost `Go` is, with the items that are left. -/
inductive Phase (I : Type)
  | before (left : List I)
  | starting (left : List I)
  | refused (err : Error) (left : List I)
  | finished (result : Option Error) (left : List I)

def Phase.left : Phase I → List I
  | .before left => left
  | .starting left => left
  | .refused _ left => left
  | .finished _ left => left

def Phase.after : (op : Op U I) → Ans UAns op → Phase I → Phase I
  | .withContext, _, .before left => .starting left
  | .spawn _ _, none, .starting (_ :: rest) => .starting rest
  | .spawn _ _, some err, .starting left => .refused err left
  | .load _, egErr, .refused err left => .finished (some (Option.getD egErr err)) left
  | .wait _, err, .starting left => .finished err left
  | _, _, phase => phase

/-- How far a goroutine is: the caller by its phase, a callback by the error it has
failed with, whether its region is ended, and what it has reported. -/
structure Course (I : Type) where
  phase : Phase I := .before []
  failed : Option Error := none
  ended : Bool := false
  reported : Option (Option Error) := none

/-- A callback that is about to begin. -/
def Course.fresh : Course I := {}

def Course.after (c : Course I) : Op U I → Course I
  | .regionStart => { c with ended := false }
  | .regionEnd => { c with ended := true }
  | .compareAndSwap _ err => { c with failed := some err }
  | .report _ err => { c with reported := some err }
  | _ => c

/-- The group of a new `errgroup`. -/
def contextGroup (first : Bool) : (op : Op U I) → Ans UAns op → Prop
  | .withContext, (g : Nat) => first = true ↔ g = 0
  | _, _ => True

def callerPre (phase : Phase I) : Op U I → Prop
  | .withContext => ∃ left, phase = .before left
  | .spawn g item => g = 0 ∧ ∃ rest, phase = .starting (item :: rest)
  | .load g => g = 0 ∧ ∃ err left, phase = .refused err left
  | .wait g => g = 0 ∧ phase = .starting []
  | _ => False

def calleePre (own : Nat) (c : Course I) : Op U I → Prop
  | .spawn g _ => g ≠ 0
  | .load g => g ≠ 0
  | .wait g => g ≠ 0
  | .compareAndSwap g _ => g = own ∧ c.failed = none
  | .report g err => g = own ∧ c.failed = err ∧ c.ended = true
  | _ => True

def courseGhost : Label I → Ghost (Op U I) (Ans UAns) (Course I)
  | none =>
    { pre := fun op c => callerPre c.phase op
      next := fun op a c c' => contextGroup true op a ∧ c' = { c with phase := c.phase.after op a } }
  | some (own, _) =>
    { pre := fun op c => c.reported = none ∧ calleePre own c op
      next := fun op a c c' => contextGroup false op a ∧ c' = c.after op }

def coursePost : Label I → Option Error → Course I → Prop
  | none, result, c => ∃ left, c.phase = .finished result left
  | some _, result, c => c.reported = some result

section Program

theorem course_caller (items : List I) (c : Course I) (starting : c.phase = .starting items) :
    wp (courseGhost none) (goLoop 0 items : Code U I UAns _) (coursePost none) c := by
  induction items generalizing c with
  | nil =>
    refine ⟨⟨rfl, starting⟩, ?_⟩
    rintro err _ ⟨_, rfl⟩
    exact ⟨[], by rw [starting]; rfl⟩
  | cons item rest ih =>
    refine ⟨⟨rfl, rest, starting⟩, ?_⟩
    rintro answer _ ⟨_, rfl⟩
    cases answer with
    | none => exact ih _ (by rw [starting]; rfl)
    | some err =>
      refine ⟨⟨rfl, err, item :: rest, by rw [starting]; rfl⟩, ?_⟩
      rintro egErr _ ⟨_, rfl⟩
      cases egErr with
      | none | some => exact ⟨item :: rest, by rw [starting]; rfl⟩

theorem course_main (items : List I) :
    wp (courseGhost none) (go items : Code U I UAns _) (coursePost none) { phase := .before items } := by
  refine ⟨⟨items, rfl⟩, ?_⟩
  rintro g _ ⟨first, rfl⟩
  cases first.mp rfl
  exact course_caller items _ rfl

variable {own : Nat} {item : I}

theorem course_nested {g : Nat} (other : g ≠ 0) (items : List I) {c : Course I} (silent : c.reported = none) :
    wp (courseGhost (some (own, item))) (goLoop g items : Code U I UAns _) (fun _ c' => c' = c) c := by
  induction items with
  | nil =>
    refine ⟨⟨silent, other⟩, ?_⟩
    rintro err _ ⟨_, rfl⟩
    rfl
  | cons next rest ih =>
    refine ⟨⟨silent, other⟩, ?_⟩
    rintro answer _ ⟨_, rfl⟩
    cases answer with
    | none => exact ih
    | some err =>
      refine ⟨⟨silent, other⟩, ?_⟩
      rintro egErr _ ⟨_, rfl⟩
      cases egErr <;> rfl

/-- A callback neither fails nor reports on its own; `Go` does so for it. -/
theorem course_callback (callback : Callback U I UAns α) {c : Course I} (fine : c.failed = none)
    (silent : c.reported = none) :
    wp (courseGhost (some (own, item))) (callbackCode callback)
      (fun _ c' => c'.failed = none ∧ c'.reported = none) c := by
  induction callback generalizing c with
  | ret value => exact ⟨fine, silent⟩
  | call op next ih =>
    cases op with
    | regionStart | regionEnd | user =>
      refine ⟨⟨silent, trivial⟩, ?_⟩
      rintro answer _ ⟨_, rfl⟩
      exact ih answer fine silent
    | go items =>
      have went : wp (courseGhost (some (own, item))) (go items : Code U I UAns _) (fun _ c' => c' = c) c := by
        refine ⟨⟨silent, trivial⟩, ?_⟩
        rintro g _ ⟨first, rfl⟩
        exact course_nested (fun zero => absurd (first.mpr zero) Bool.false_ne_true) items silent
      refine wp_seq _ went fun answer c' same => ?_
      subst same
      exact ih answer fine silent

theorem course_goroutine (callback : I → Callback U I UAns (Option Error)) :
    wp (courseGhost (some (own, item))) (goroutine (fun item => callbackCode (callback item)) own item)
      (coursePost (some (own, item))) .fresh := by
  refine wp_seq (p := callbackCode (callback item)) _ (course_callback (callback item) rfl rfl)
    fun err c ⟨fine, silent⟩ => ?_
  have finish {c : Course I} (failed : c.failed = err) (silent : c.reported = none) :
      wp (@courseGhost U I UAns (some (own, item))) (do regionEnd; report own err; return err)
        (coursePost (some (own, item))) c := by
    refine ⟨⟨silent, trivial⟩, ?_⟩
    rintro _ _ ⟨_, rfl⟩
    refine ⟨⟨silent, rfl, failed, rfl⟩, ?_⟩
    rintro _ _ ⟨_, rfl⟩
    rfl
  cases err with
  | none => exact finish fine silent
  | some e =>
    refine ⟨⟨silent, rfl, fine⟩, ?_⟩
    rintro _ _ ⟨_, rfl⟩
    exact finish rfl silent

end Program

/-- A callback of the outermost `Go`: its item, the error it has failed with and what it has
reported. -/
structure Own (I : Type) where
  item : I
  failed : Option Error
  reported : Option (Option Error)

def own? (ghost : Label I × Course I) : Option (Own I) :=
  (ownItem ghost.1).map fun item => ⟨item, ghost.2.failed, ghost.2.reported⟩

def owns (ghosts : List (Label I × Course I)) : List (Own I) := (ghosts.map own?).reduceOption

/-- The error of one of those that have failed, if any. -/
structure Knows (known : Option Error) (outcomes : List (Option Error)) : Prop where
  error : ∀ err, known = some err → some err ∈ outcomes
  fine : known = none → ∀ outcome ∈ outcomes, outcome = none

/-- What the `errgroup` of the outermost `Go` knows of its callbacks. -/
structure GroupInv (first : Option Error) (owns : List (Own I)) (group : Group) : Prop where
  ctx : group.ctx = [0]
  pending : group.pending = owns.countP fun own => own.reported.isNone
  egErr : group.egErr = first
  failed : Knows group.egErr (owns.map Own.failed)
  reported : Knows group.err (owns.map fun own => own.reported.join)

/-- What the caller knows in its phase. -/
def PhaseInv (cancelled : Bool) (first : Option Error) (owns : List (Own I)) (group : Group) : Phase I → Prop
  | .before _ => False
  | .starting _ => group.cancelled = true → group.err ≠ none
  | .refused err left => left ≠ [] ∧ Shared.ctxErr err = true ∧ (cancelled = true ∨ group.err ≠ none)
  | .finished result left => (∀ own ∈ owns, own.reported ≠ none) ∧
    (result = none ↔ left = [] ∧ ∀ own ∈ owns, own.reported = some none) ∧
    ∀ err, result = some err → first = some err ∨ first = none ∧ cancelled = true ∧ Shared.ctxErr err = true

/-- The caller has its `errgroup`. -/
def Begun (items : List I) (s : Shared S × Log U I UAns) (owns : List (Own I)) (phase : Phase I) : Prop :=
  owns.map Own.item ++ phase.left = items ∧ ∃ group, s.1.groups[0]? = some group ∧
    GroupInv (firstFailure s.2) owns group ∧ PhaseInv s.1.cancelled (firstFailure s.2) owns group phase

/-- What holds of every goroutine: only the first one is the caller, and a callback that has reported
its result has ended its region. -/
structure Callee (started : Bool) (t : Nat) (label : Label I) (c : Course I) : Prop where
  callee : t ≠ 0 → label ≠ none
  ended : c.ended = true → started = false
  agree : ∀ result, c.reported = some result → c.failed = result ∧ c.ended = true

def Callees (started : Nat → Bool) (ghosts : List (Label I × Course I)) : Prop :=
  ∀ (t : Nat) label c, ghosts[t]? = some (label, c) → Callee (started t) t label c

structure GoInv (items : List I) (s : Shared S × Log U I UAns) (ghosts : List (Label I × Course I)) : Prop where
  running : s.1.crashed = false
  callees : Callees s.1.started ghosts
  caller : ∃ c : Course I, ghosts[0]? = some (none, c) ∧
    (c.phase = .before items ∧ s.1.groups = [] ∧ s.1.ctx 0 = [] ∧ ghosts.length = 1 ∧ firstFailure s.2 = none ∨
      Begun items s (owns ghosts) c.phase)

section Knows
variable {known other : Option Error} {outcomes : List (Option Error)}

theorem Knows.set {i : Nat} (knows : Knows known outcomes) (atI : outcomes[i]? = some none) (outcome : Option Error) :
    Knows (known.or outcome) (outcomes.set i outcome) where
  error err found := by
    cases known with
    | none =>
      rw [Option.none_or] at found
      exact found ▸ mem_set_self atI
    | some e =>
      rcases mem_set_or_eq (y := outcome) atI (knows.error err (by simpa using found)) with kept | impossible
      · exact kept
      · cases impossible
  fine unknown o member := by
    obtain ⟨unknown, none⟩ := Option.or_eq_none_iff.mp unknown
    rcases List.mem_or_eq_of_mem_set member with old | rfl
    · exact knows.fine unknown o old
    · exact none

theorem Knows.concat (knows : Knows known outcomes) : Knows known (outcomes ++ [none]) where
  error err found := List.mem_append_left _ (knows.error err found)
  fine unknown o member := by
    rcases List.mem_append.mp member with old | new
    · exact knows.fine unknown o old
    · exact List.mem_singleton.mp new

theorem Knows.none_of_none (knows : Knows known outcomes) (knows' : Knows other outcomes) (unknown : known = none) :
    other = none := by
  cases found : other with
  | none => rfl
  | some err => exact knows.fine unknown _ (knows'.error err found)

end Knows

section Owns
variable {ghosts : List (Label I × Course I)} {t : Nat} {ghost : Label I × Course I} {own : Own I}

theorem owns_set_same {ghost' : Label I × Course I} (found : ghosts[t]? = some ghost)
    (same : own? ghost' = own? ghost) : owns (ghosts.set t ghost') = owns ghosts := by
  have found' : (ghosts.map own?)[t]? = some (own? ghost') := by rw [List.getElem?_map, found, Option.map_some, same]
  rw [owns, List.map_set, set_same found', owns]

theorem owns_set (found : ghosts[t]? = some ghost) (is : own? ghost = some own) :
    ∃ i : Nat, (owns ghosts)[i]? = some own ∧
      ∀ ghost' own', own? ghost' = some own' → owns (ghosts.set t ghost') = (owns ghosts).set i own' := by
  induction ghosts generalizing t with
  | nil => cases found
  | cons head rest ih =>
    cases t with
    | zero =>
      cases Option.some.inj found
      exact ⟨0, by simp [owns, is], fun ghost' own' is' => by simp [owns, is, is']⟩
    | succ t =>
      obtain ⟨i, atI, sets⟩ := ih found
      cases here : own? head with
      | none =>
        refine ⟨i, by simpa [owns, here] using atI, fun ghost' own' is' => ?_⟩
        simpa [owns, here] using sets ghost' own' is'
      | some first =>
        refine ⟨i + 1, by simpa [owns, here] using atI, fun ghost' own' is' => ?_⟩
        simpa [owns, here] using sets ghost' own' is'

theorem mem_owns : own ∈ owns ghosts ↔ ∃ c, (some (0, own.item), c) ∈ ghosts ∧ own = ⟨own.item, c.failed, c.reported⟩ := by
  rw [owns, List.reduceOption_mem_iff, List.mem_map]
  constructor
  · rintro ⟨⟨label, c⟩, member, is⟩
    obtain ⟨item, same, rfl⟩ := Option.map_eq_some_iff.mp is
    rcases label with _ | ⟨_ | g, item'⟩ <;> cases same
    exact ⟨c, member, rfl⟩
  · rintro ⟨c, member, same⟩
    exact ⟨_, member, congrArg some same.symm⟩

theorem Callees.agree {started : Nat → Bool} (callees : Callees started ghosts) (member : own ∈ owns ghosts)
    {result : Option Error} (reported : own.reported = some result) : own.failed = result := by
  obtain ⟨c, found, same⟩ := mem_owns.mp member
  obtain ⟨t, atT⟩ := List.mem_iff_getElem?.mp found
  rw [same] at reported ⊢
  exact ((callees t _ c atT).agree result reported).1

end Owns

section Group
variable {first : Option Error} {owns : List (Own I)} {group : Group} {i : Nat} {own : Own I}

theorem GroupInv.fail (inv : GroupInv first owns group) (atI : owns[i]? = some own) (fine : own.failed = none)
    (err : Error) : GroupInv (first.or (some err)) (owns.set i { own with failed := some err })
      { group with egErr := group.egErr.or (some err) } where
  ctx := inv.ctx
  pending := by
    have counted := countP_set_add (fun own => own.reported.isNone) atI { own with failed := some err }
    exact inv.pending.trans (Nat.add_right_cancel counted).symm
  egErr := by rw [inv.egErr]
  failed := by
    rw [List.map_set]
    exact inv.failed.set (by rw [List.getElem?_map, atI, Option.map_some, fine]) (some err)
  reported := by
    rw [List.map_set, set_same (by rw [List.getElem?_map, atI]; rfl)]
    exact inv.reported

theorem GroupInv.report (inv : GroupInv first owns group) (atI : owns[i]? = some own) (silent : own.reported = none)
    (err : Option Error) : GroupInv first (owns.set i { own with reported := some err }) (group.report err) := by
  obtain ⟨ctx, pending, egErr, recorded, _⟩ := group.report_fields err
  refine ⟨ctx.trans inv.ctx, ?_, egErr.trans inv.egErr, ?_, ?_⟩
  · have counted := countP_set_add (fun own => own.reported.isNone) atI { own with reported := some err }
    have before := inv.pending
    simp only [silent, Option.isNone_none, Option.isNone_some, if_true, Bool.false_eq_true, if_false] at counted
    omega
  · rw [egErr, List.map_set, set_same (by rw [List.getElem?_map, atI]; rfl)]
    exact inv.failed
  · rw [recorded, List.map_set]
    exact inv.reported.set (by rw [List.getElem?_map, atI, Option.map_some, silent]; rfl) err

theorem GroupInv.spawn (inv : GroupInv first owns group) (item : I) :
    GroupInv first (owns ++ [⟨item, none, none⟩]) { group with pending := group.pending + 1 } where
  ctx := inv.ctx
  pending := by
    rw [List.countP_append, ← inv.pending]
    rfl
  egErr := inv.egErr
  failed := by
    rw [List.map_append]
    exact inv.failed.concat
  reported := by
    rw [List.map_append]
    exact inv.reported.concat

theorem GroupInv.joined (inv : GroupInv first owns group) (finished : group.pending = 0) :
    ∀ own ∈ owns, own.reported ≠ none := by
  intro own member silent
  have counted : 0 < owns.countP fun own => own.reported.isNone :=
    List.countP_pos_iff.mpr ⟨_, member, by rw [silent]; rfl⟩
  have pending := inv.pending
  omega

/-- When all have reported, the errors that were swapped in are those that were reported. -/
theorem GroupInv.reported_failed (inv : GroupInv first owns group) (finished : group.pending = 0)
    (agree : ∀ own ∈ owns, ∀ result, own.reported = some result → own.failed = result) :
    Knows group.err (owns.map Own.failed) := by
  have same : owns.map Own.failed = owns.map fun own => own.reported.join := by
    refine List.map_congr_left fun own member => ?_
    obtain ⟨result, reported⟩ := Option.ne_none_iff_exists'.mp (inv.joined finished own member)
    rw [agree own member result reported, reported]
    rfl
  rw [same]
  exact inv.reported

end Group

theorem PhaseInv.cancel {cancelled : Bool} {first : Option Error} {owns : List (Own I)} {group : Group} {phase : Phase I}
    (inv : PhaseInv cancelled first owns group phase) : PhaseInv true first owns group phase := by
  cases phase with
  | before | starting => exact inv
  | refused err left => exact ⟨inv.1, inv.2.1, .inl rfl⟩
  | finished result left =>
    exact ⟨inv.1, inv.2.1, fun err failed => (inv.2.2 err failed).imp_right fun ⟨unfailed, _, ended⟩ => ⟨unfailed, rfl, ended⟩⟩

section Steps
variable {items : List I} {s s' : Shared S × Log U I UAns} {ghosts : List (Label I × Course I)} {t : Nat}
  {label : Label I} {c c' : Course I} {phase : Phase I} {item : I} {group : Group}

theorem Begun.transfer {ghosts' : List (Label I × Course I)} (begun : Begun items s (owns ghosts) phase)
    (same : owns ghosts' = owns ghosts) (groups : s'.1.groups[0]? = s.1.groups[0]?)
    (first : firstFailure s'.2 = firstFailure s.2) (cancelled : s'.1.cancelled = s.1.cancelled) :
    Begun items s' (owns ghosts') phase := by
  unfold Begun
  rw [same, groups, first, cancelled]
  exact begun

theorem Begun.own {group' : Group} (begun : Begun items s (owns ghosts) phase)
    (found : ghosts[t]? = some (some (0, item), c)) (silent : c.reported = none)
    (atGroup : s.1.groups[0]? = some group) (groups : s'.1.groups[0]? = some group')
    (cancelled : s'.1.cancelled = s.1.cancelled) (err : group.err ≠ none → group'.err ≠ none)
    (closed : (group.cancelled = true → group.err ≠ none) → group'.cancelled = true → group'.err ≠ none)
    (groupInv : ∀ owns (i : Nat), owns[i]? = some ⟨item, c.failed, c.reported⟩ → GroupInv (firstFailure s.2) owns group →
      GroupInv (firstFailure s'.2) (owns.set i ⟨item, c'.failed, c'.reported⟩) group') :
    Begun items s' (owns (ghosts.set t (some (0, item), c'))) phase := by
  obtain ⟨all, group₀, atGroup₀, inv, phaseInv⟩ := begun
  cases atGroup.symm.trans atGroup₀
  obtain ⟨i, atI, sets⟩ := owns_set found rfl
  rw [sets _ _ rfl]
  refine ⟨?_, group', groups, groupInv _ i atI inv, ?_⟩
  · rw [List.map_set, set_same (by rw [List.getElem?_map, atI]; rfl)]
    exact all
  · cases phase with
    | before left => exact phaseInv
    | starting left => exact closed phaseInv
    | refused e left => exact ⟨phaseInv.1, phaseInv.2.1, phaseInv.2.2.imp (fun h => cancelled.trans h) err⟩
    | finished result left =>
      -- `Go` does not return while one of its callbacks is at work.
      exact absurd silent (phaseInv.1 _ (List.mem_of_getElem? atI))

theorem Callees.set {started started' : Nat → Bool} (callees : Callees started ghosts)
    (others : ∀ t', t' ≠ t → t' < ghosts.length → started' t' = started t') (own : Callee (started' t) t label c') :
    Callees started' (ghosts.set t (label, c')) := by
  intro t' label' d found'
  rcases getElem?_set_cases found' with ⟨rfl, same⟩ | ⟨other, old⟩
  · cases same
    exact own
  · rw [others t' other (List.getElem?_eq_some_iff.mp old).1]
    exact callees t' label' d old

theorem Callees.append {started started' : Nat → Bool} {new : Nat × I} (callees : Callees started ghosts)
    (same : ∀ t', t' < ghosts.length → started' t' = started t') :
    Callees started' (ghosts ++ [(some new, .fresh)]) := by
  intro t' label' d found
  rcases getElem?_concat_cases found with old | ⟨_, fresh⟩
  · rw [same t' (List.getElem?_eq_some_iff.mp old).1]
    exact callees t' label' d old
  · cases fresh
    exact ⟨fun _ => Option.some_ne_none _, (fun done => by cases done), fun _ reported => by cases reported⟩

theorem GoInv.begun (inv : GoInv items s ghosts) (found : ghosts[t]? = some (label, c)) (callee : label ≠ none) :
    t ≠ 0 ∧ ∃ c₀, ghosts[0]? = some (none, c₀) ∧ Begun items s (owns ghosts) c₀.phase := by
  obtain ⟨c₀, atCaller, before | begun⟩ := inv.caller
  · have inside := (List.getElem?_eq_some_iff.mp found).1
    have zero : t = 0 := by have := before.2.2.2.1; omega
    subst zero
    cases atCaller.symm.trans found
    exact absurd rfl callee
  · refine ⟨fun zero => ?_, c₀, atCaller, begun⟩
    subst zero
    cases atCaller.symm.trans found
    exact callee rfl

theorem firstFailure_append (log : Log U I UAns) (event : Event (Op U I) (Ans UAns)) :
    firstFailure (log ++ [event]) = (firstFailure log).or (failure event) := by
  simp [firstFailure, List.findSome?_append]

variable {callback : I → Callback U I UAns (Option Error)}
  {user : S → Nat → Bool → (op : U) → UAns op → Option S} {op : Op U I} {a : Ans UAns op}
  {spawned : List (Goroutine U I UAns)}

theorem uniform_of_orderly {s : Shared S} (allowed : orderly s op a = true) : uniform s op a = true := by
  cases op with
  | compareAndSwap g err => exact allowed
  | _ => rfl

section Callee
variable {own : Nat}

/-- A region that has been ended is not started. -/
theorem respond_ended {fn : I → Code U I UAns (Option Error)} {s s' : Shared S} {n : Nat}
    (responded : respond fn user s t n op a = some (s', spawned)) (inside : t < n)
    (ended : c.ended = true → s.started t = false) (done : (c.after op).ended = true) : s'.started t = false := by
  cases op with
  | regionStart => cases done
  | regionEnd =>
    obtain ⟨_, rfl⟩ := respond_regionEnd responded
    exact Function.update_self ..
  | spawn g item =>
    obtain ⟨group, _, ⟨_, _, _, rfl⟩ | ⟨_, _, _, _, _, rfl, _⟩⟩ := respond_spawn responded
    · exact (Function.update_of_ne inside.ne ..).trans (ended done)
    · exact ended done
  | withContext | load | wait | compareAndSwap | report | user =>
    obtain ⟨_, started, _⟩ := (respond_frame responded).2.2.2.resolve_right (by simp)
    rw [started]
    exact ended done

theorem own?_elsewhere (pre : calleePre own c op) (elsewhere : op.group? ≠ some 0) :
    own? (some (own, item), c.after op) = own? (some (own, item), c) := by
  have foreign (other : own ≠ 0) : ownItem (some (own, item)) = none := by
    cases own with
    | zero => exact absurd rfl other
    | succ own => rfl
  cases op with
  | compareAndSwap | report =>
    obtain ⟨rfl, _⟩ := pre
    rw [own?, own?, foreign fun zero => elsewhere (congrArg some zero)]
    rfl
  | _ => rfl

theorem failure_elsewhere (elsewhere : op.group? ≠ some 0) : failure (⟨t, op, a⟩ : Event _ (Ans UAns)) = none := by
  cases op with
  | compareAndSwap g err =>
    cases g with
    | zero => exact absurd rfl elsewhere
    | succ g => rfl
  | _ => rfl

theorem GoInv.callee_step (inv : GoInv items s ghosts) (found : ghosts[t]? = some (some (own, item), c))
    (pre : c.reported = none ∧ calleePre own c op) (allowed : orderly s.1 op a = true)
    (responded : respond (fun item => callbackCode (callback item)) user s.1 t ghosts.length op a =
      some (s'.1, spawned)) (logged : s'.2 = s.2 ++ [⟨t, op, a⟩]) :
    Answered courseGhost coursePost (GoInv items) s' ghosts t (some (own, item)) c op a spawned := by
  obtain ⟨silent, pre⟩ := pre
  obtain ⟨notCaller, c₀, atCaller, begun⟩ := inv.begun found (Option.some_ne_none _)
  have inside := (List.getElem?_eq_some_iff.mp found).1
  have first : firstFailure s'.2 = (firstFailure s.2).or (failure ⟨t, op, a⟩) := by rw [logged, firstFailure_append]
  have cancelled := (respond_frame responded).1
  have agree : ∀ result, (c.after op).reported = some result →
      (c.after op).failed = result ∧ (c.after op).ended = true := by
    intro result reported
    cases op with
    | report g err =>
      cases reported
      exact pre.2
    | _ => cases silent.symm.trans reported
  have moves (kept : Begun items s' (owns (ghosts.set t (some (own, item), c.after op))) c₀.phase) :
      GoInv items s' (ghosts.set t (some (own, item), c.after op)) := by
    refine ⟨(respond_running responded (uniform_of_orderly allowed)).trans inv.running,
      inv.callees.set (fun t' other old => respond_others responded other old)
        ⟨fun _ => Option.some_ne_none _, respond_ended responded inside (inv.callees t _ c found).ended, agree⟩,
      c₀, ?_, .inr kept⟩
    rw [List.getElem?_set_ne notCaller]
    exact atCaller
  by_cases about : op.group? = some 0
  · cases op with
    | compareAndSwap g err =>
      cases about
      obtain ⟨rfl, fine⟩ := pre
      obtain ⟨group, atG, rfl, moved⟩ := respond_compareAndSwap responded
      simp only [orderly, atG, Option.all_some] at allowed
      rw [Group.uniform, if_pos allowed] at moved
      have groups : s'.1.groups[0]? = some { group with egErr := group.egErr.or (some err) } := by
        rw [moved]
        exact List.getElem?_set_self (List.getElem?_eq_some_iff.mp atG).1
      refine .move _ ⟨trivial, rfl⟩ (moves (begun.own found silent atG groups cancelled id id fun owns i atI groupInv => ?_))
      rw [first]
      exact groupInv.fail atI fine err
    | report g err =>
      cases about
      obtain ⟨rfl, _⟩ := pre
      obtain ⟨group, atG, moved, rfl⟩ := respond_report responded
      obtain ⟨_, _, _, recorded, closes⟩ := group.report_fields err
      have groups : s'.1.groups[0]? = some (group.report err) := by
        rw [moved]
        exact List.getElem?_set_self (List.getElem?_eq_some_iff.mp atG).1
      refine .move _ ⟨trivial, rfl⟩ (moves (begun.own found silent atG groups cancelled ?_ ?_ fun owns i atI groupInv => ?_))
      · rw [recorded]
        exact fun known none => known (Option.or_eq_none_iff.mp none).1
      · rw [recorded, closes]
        intro closed cancelled none
        obtain ⟨quiet, rfl⟩ := Option.or_eq_none_iff.mp none
        exact closed (by simpa using cancelled) quiet
      · rw [first]
        exact Option.or_none ▸ groupInv.report atI silent err
    | spawn | load | wait => exact absurd (Option.some.inj about) pre
    | regionStart | regionEnd | withContext | user => cases about
  · have some : 0 < s.1.groups.length := by
      obtain ⟨_, group, atGroup, _⟩ := begun
      exact (List.getElem?_eq_some_iff.mp atGroup).1
    have groups := respond_group responded some about
    rw [failure_elsewhere about, Option.or_none] at first
    have kept := moves (begun.transfer (owns_set_same found (own?_elsewhere pre about)) groups first cancelled)
    have context : contextGroup false op a := by
      cases op with
      | withContext =>
        obtain ⟨fresh, _⟩ := respond_withContext responded
        refine ⟨(fun impossible => by cases impossible), fun zero => ?_⟩
        have empty := (show a = 0 from zero).symm.trans fresh
        omega
      | _ => trivial
    rcases (respond_frame responded).2.1 with rfl | ⟨g, next, rfl, rfl⟩
    · exact .move _ ⟨context, rfl⟩ kept
    · refine ⟨_, [(Option.some (g, next), .fresh)], ⟨trivial, rfl⟩, .cons ⟨rfl, course_goroutine callback⟩ .nil, ?_⟩
      obtain ⟨_, c₁, atCaller, begun⟩ := kept.begun (List.getElem?_set_self inside) (Option.some_ne_none _)
      refine ⟨kept.running, kept.callees.append fun _ _ => rfl, c₁, ?_, .inr (begun.transfer ?_ rfl rfl rfl)⟩
      · rw [List.getElem?_append_left (List.getElem?_eq_some_iff.mp atCaller).1]
        exact atCaller
      · have foreign : own? (Option.some (g, next), (.fresh : Course I)) = none := by
          cases g with
          | zero => exact absurd rfl pre
          | succ g => rfl
        simp [owns, foreign, List.reduceOption_append]

end Callee

section Caller

theorem GoInv.caller_move {phase : Phase I} (inv : GoInv items s ghosts) (found : ghosts[0]? = some (none, c))
    (begun : Begun items s' (owns ghosts) phase) (crashed : s'.1.crashed = s.1.crashed)
    (started : s'.1.started = s.1.started) : GoInv items s' (ghosts.set 0 (none, { c with phase })) := by
  obtain ⟨_, ended, agree⟩ := inv.callees 0 none c found
  refine ⟨crashed.trans inv.running, inv.callees.set (fun _ _ _ => by rw [started])
    ⟨fun other => absurd rfl other, by rwa [started], agree⟩, { c with phase },
    List.getElem?_set_self (List.getElem?_eq_some_iff.mp found).1, .inr ?_⟩
  have same : owns (ghosts.set 0 (none, { c with phase })) = owns ghosts := owns_set_same found rfl
  rw [same]
  exact begun

theorem GoInv.withContext (inv : GoInv items s ghosts) (found : ghosts[0]? = some (none, c))
    (groups : s.1.groups = []) (ctx : s.1.ctx 0 = []) (alone : ghosts.length = 1)
    (unfailed : firstFailure s.2 = none) (moved : s'.1 = { s.1 with groups := s.1.groups ++ [{ ctx := 0 :: s.1.ctx 0 }] })
    (first : firstFailure s'.2 = firstFailure s.2) :
    GoInv items s' (ghosts.set 0 (none, { c with phase := .starting items })) := by
  obtain ⟨ghost, rfl⟩ := List.length_eq_one_iff.mp alone
  cases Option.some.inj found
  refine inv.caller_move found ⟨rfl, { ctx := [0] }, ?_, ?_, fun cancelled => by cases cancelled⟩
    (by rw [moved]) (by rw [moved])
  · rw [moved, groups, ctx]
    rfl
  · refine ⟨rfl, rfl, (first.trans unfailed).symm, ⟨?_, ?_⟩, ⟨?_, ?_⟩⟩ <;> simp [owns, own?, ownItem]

theorem GoInv.spawn {rest : List I} {limiter : Option Nat} {holding : Bool} (inv : GoInv items s ghosts)
    (found : ghosts[0]? = some (none, c)) (phase : c.phase = .starting (item :: rest))
    (begun : Begun items s (owns ghosts) c.phase) (atGroup : s.1.groups[0]? = some group)
    (moved : s'.1 = s.1.start ghosts.length 0 group limiter holding) (first : firstFailure s'.2 = firstFailure s.2) :
    GoInv items s' (ghosts.set 0 (none, { c with phase := .starting rest }) ++ [(some (0, item), .fresh)]) := by
  obtain ⟨all, group₀, atGroup₀, groupInv, phaseInv⟩ := begun
  cases atGroup.symm.trans atGroup₀
  have inside := (List.getElem?_eq_some_iff.mp found).1
  obtain ⟨_, ended, agree⟩ := inv.callees 0 none c found
  have callees : Callees s.1.started (ghosts.set 0 (none, { c with phase := .starting rest })) :=
    inv.callees.set (fun _ _ _ => rfl) ⟨fun other => absurd rfl other, ended, agree⟩
  have same : owns (ghosts.set 0 (none, { c with phase := .starting rest }) ++ [(some (0, item), .fresh)]) =
      owns ghosts ++ [⟨item, none, none⟩] := by
    have caller : owns (ghosts.set 0 (none, { c with phase := .starting rest })) = owns ghosts := owns_set_same found rfl
    rw [← caller]
    simp [owns, own?, ownItem, Course.fresh, List.reduceOption_append]
  refine ⟨?_, callees.append fun t' old => ?_, { c with phase := .starting rest }, ?_, .inr ?_⟩
  · rw [moved]
    exact inv.running
  · rw [moved]
    exact Function.update_of_ne (by simpa using old.ne) _ _
  · rw [List.getElem?_append_left (by simpa using inside), List.getElem?_set_self inside]
  · rw [phase] at all phaseInv
    rw [same]
    refine ⟨?_, { group with pending := group.pending + 1 }, ?_, first ▸ groupInv.spawn item, phaseInv⟩
    · rw [← all]
      simp [Phase.left]
    · rw [moved]
      exact List.getElem?_set_self (List.getElem?_eq_some_iff.mp atGroup).1

theorem GoInv.caller_step (inv : GoInv items s ghosts) (found : ghosts[0]? = some (none, c))
    (pre : callerPre c.phase op) (allowed : orderly s.1 op a = true)
    (responded : respond (fun item => callbackCode (callback item)) user s.1 0 ghosts.length op a =
      some (s'.1, spawned)) (logged : s'.2 = s.2 ++ [⟨0, op, a⟩]) :
    Answered courseGhost coursePost (GoInv items) s' ghosts 0 none c op a spawned := by
  have first : firstFailure s'.2 = (firstFailure s.2).or (failure ⟨0, op, a⟩) := by rw [logged, firstFailure_append]
  have crashed := respond_running responded (uniform_of_orderly allowed)
  obtain ⟨c₀, atCaller, known⟩ := inv.caller
  cases atCaller.symm.trans found
  have moves (phase : Phase I) (context : contextGroup true op a) (after : c.phase.after op a = phase)
      (none : spawned = []) (kept : GoInv items s' (ghosts.set 0 (Option.none, { c with phase }))) :
      Answered courseGhost coursePost (GoInv items) s' ghosts 0 Option.none c op a spawned :=
    none ▸ .move _ ⟨context, rfl⟩ (after ▸ kept)
  cases op with
  | withContext =>
    obtain ⟨left, phase⟩ := pre
    rcases known with ⟨before, groups, ctx, alone, unfailed⟩ | ⟨_, group, _, _, impossible⟩
    · obtain ⟨fresh, moved, none⟩ := respond_withContext responded
      have zero : a = 0 := by rw [fresh, groups]; rfl
      subst zero
      exact moves _ ⟨fun _ => rfl, fun _ => rfl⟩ (by rw [before]; rfl) none
        (inv.withContext found groups ctx alone unfailed moved (first.trans Option.or_none))
    · rw [phase] at impossible
      exact absurd impossible id
  | spawn g item =>
    obtain ⟨rfl, rest, phase⟩ := pre
    have begun := known.resolve_left fun before => by cases before.1.symm.trans phase
    obtain ⟨group, atGroup, ⟨rfl, rfl, _, moved⟩ | ⟨err, rfl, _, expired, because, moved, none⟩⟩ := respond_spawn responded
    · refine ⟨{ c with phase := .starting rest }, [(some (0, item), .fresh)], ⟨trivial, by rw [phase]; rfl⟩,
        .cons ⟨rfl, course_goroutine callback⟩ .nil, ?_⟩
      exact inv.spawn found phase begun atGroup moved (first.trans Option.or_none)
    · obtain ⟨all, group₀, atGroup₀, groupInv, phaseInv⟩ := begun
      cases atGroup.symm.trans atGroup₀
      simp only [Shared.ctxDone, groupInv.ctx, List.any_cons, List.any_nil, atGroup, Option.any_some, Bool.or_false,
        Bool.or_eq_true] at expired
      rw [phase] at all phaseInv
      refine moves (.refused err (item :: rest)) trivial (by rw [phase]; rfl) none
        (inv.caller_move found ⟨all, group, ?_, ?_, List.cons_ne_nil _ _, because, ?_⟩ crashed (by rw [moved]))
      · rw [moved]
        exact atGroup
      · rw [first.trans Option.or_none]
        exact groupInv
      · rw [moved]
        exact expired.imp_right phaseInv
  | load g =>
    obtain ⟨rfl, err, left, phase⟩ := pre
    obtain ⟨all, group, atGroup, groupInv, phaseInv⟩ := known.resolve_left fun before => by cases before.1.symm.trans phase
    obtain ⟨moved, none⟩ := respond_load responded
    simp only [orderly, atGroup, Option.all_some, decide_eq_true_eq] at allowed
    have loaded : a = group.egErr := by
      simp only [respond, atGroup, Option.bind_some, Option.ite_none_right_eq_some] at responded
      exact responded.1
    rw [phase] at all phaseInv
    obtain ⟨more, expired, cancelled⟩ := phaseInv
    refine moves (.finished (some (Option.getD a err)) left) trivial (by rw [phase]; rfl) none (inv.caller_move found
      ⟨all, group, ?_, ?_, groupInv.joined allowed, ⟨(fun impossible => by cases impossible), fun nothing => absurd nothing.1 more⟩,
      fun e result => ?_⟩ crashed (by rw [moved]))
    · rw [moved]
      exact atGroup
    · rw [first.trans Option.or_none]
      exact groupInv
    · cases Option.some.inj result
      rw [first.trans Option.or_none, moved, ← groupInv.egErr, loaded]
      cases known : group.egErr with
      | some e => exact .inl rfl
      | none =>
        -- Nobody has failed, so that it is the caller's context that has ended.
        have quiet : group.err = Option.none := groupInv.failed.none_of_none
          (groupInv.reported_failed allowed fun own member result => inv.callees.agree member) known
        exact .inr ⟨rfl, cancelled.resolve_right fun some => some quiet, expired⟩
  | wait g =>
    obtain ⟨rfl, phase⟩ := pre
    obtain ⟨all, group, atGroup, groupInv, phaseInv⟩ := known.resolve_left fun before => by cases before.1.symm.trans phase
    obtain ⟨group₀, atGroup₀, finished, result, moved, none⟩ := respond_wait responded
    cases atGroup.symm.trans atGroup₀
    simp only [orderly, atGroup, Option.all_some, decide_eq_true_eq] at allowed
    have joined := groupInv.joined finished
    have closed : GroupInv (firstFailure s.2) (owns ghosts) { group with cancelled := true } :=
      ⟨groupInv.ctx, groupInv.pending, groupInv.egErr, groupInv.failed, groupInv.reported⟩
    rw [phase] at all
    refine moves (.finished a []) trivial (by rw [phase]; rfl) none (inv.caller_move found
      ⟨all, { group with cancelled := true }, ?_, ?_, joined, ?_, fun e failed => .inl ?_⟩ crashed (by rw [moved]; rfl))
    · rw [moved]
      exact List.getElem?_set_self (List.getElem?_eq_some_iff.mp atGroup).1
    · rw [first.trans Option.or_none]
      exact closed
    · rw [result]
      constructor
      · intro quiet
        refine ⟨rfl, fun own member => ?_⟩
        obtain ⟨value, reported⟩ := Option.ne_none_iff_exists'.mp (joined own member)
        have fine := groupInv.reported.fine quiet _ (List.mem_map_of_mem member)
        rw [reported] at fine ⊢
        exact congrArg some fine
      · rintro ⟨_, succeeded⟩
        cases recorded : group.err with
        | none => rfl
        | some e =>
          obtain ⟨own, member, failed⟩ := List.mem_map.mp (groupInv.reported.error e recorded)
          rw [succeeded own member] at failed
          cases failed
    · rw [first.trans Option.or_none, ← groupInv.egErr, ← allowed, ← result]
      exact failed
  | regionStart | regionEnd | compareAndSwap | report | user => exact absurd pre id

end Caller

end Steps

end OrasGo.Syncutil
