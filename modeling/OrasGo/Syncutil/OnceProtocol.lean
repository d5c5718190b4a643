import OrasGo.Base.History
import OrasGo.Base.Trace
import OrasGo.Syncutil.Once

/-! Concurrent calls of `Once.Do` in every interleaving. -/

namespace OrasGo.Syncutil.OnceRun
open Interleaving

variable {V : Type}

/-- `Once`: whether the channel `status` holds its token, whether it is closed, and the result. -/
structure State (V : Type) where
  token : Bool := true
  closed : Bool := false
  result : Except Error V

/-- The case that the `select` of `Do` takes. -/
inductive Selected
  | inProgress
  | closed
  | cancelled (err : Error)
  deriving DecidableEq

inductive OnceOp (V : Type)
  | select
  | readResult
  | callBegin
  | callEnd
  | send
  | record (result : Except Error V)
  | close

def OnceOp.Ans : OnceOp V → Type
  | .select => Selected
  | .readResult => Except Error V
  | .callEnd => Outcome V
  | .callBegin | .send | .record _ | .close => Unit

abbrev Code (V : Type) := Prog (OnceOp V) OnceOp.Ans

def State.reads [DecidableEq V] (s : State V) (result : Except Error V) : Option (State V) :=
  if result = s.result then some s else none

/-- The state after an operation, if it can be answered so. A send blocks while the channel
holds the token, and on a closed channel it panics, as a second `close` does. -/
def State.respond [DecidableEq V] (s : State V) : (op : OnceOp V) → op.Ans → Option (State V)
  | .select, .inProgress => if s.token then some { s with token := false } else none
  | .select, .closed => if s.token = false ∧ s.closed = true then some s else none
  | .select, .cancelled _ => some s
  | .readResult, result => s.reads result
  | .callBegin, () => some s
  | .callEnd, _ => some s
  | .send, () => if s.token = true ∨ s.closed = true then none else some { s with token := true }
  | .record result, () => some { s with result := result }
  | .close, () => if s.closed then none else some { s with closed := true }

def receive : Code V (Received V) := do
  let selected : Selected ← Prog.perform OnceOp.select
  match selected with
  | .inProgress => return .inProgress
  | .closed => do
    let result : Except Error V ← Prog.perform OnceOp.readResult
    return .finished result
  | .cancelled err => return .cancelled err

/-- The function given to `Do`, which may end in any way. -/
def function : Code V (Outcome V) := do
  let _ : Unit ← Prog.perform OnceOp.callBegin
  Prog.perform OnceOp.callEnd

def finish (result : Except Error V) : Code V Unit := do
  let _ : Unit ← Prog.perform (OnceOp.record result)
  Prog.perform OnceOp.close

/-- One call of `Do`. -/
def code : Code V (Option (Done V)) := onceDo receive (Prog.perform OnceOp.send) finish function

abbrev OnceEvent (V : Type) := Event (OnceOp V) OnceOp.Ans
abbrev Log (V : Type) := List (OnceEvent V)

def machine [DecidableEq V] : Machine (OnceOp V) OnceOp.Ans (State V) Unit (Option (Done V)) where
  perform s _ _ op a := (s.respond op a).map fun s' => (s', [])
  env _ _ := False

abbrev Calls (V : Type) := Pool (OnceOp V) OnceOp.Ans (State V × Log V) Unit (Option (Done V))

/-- `NewOnce`, and some calls of `Do`; `result` is the zero value of the fields. -/
def start (result : Except Error V) (n : Nat) : Calls V :=
  ⟨({ result := result }, []), List.replicate n ⟨(), code⟩⟩

/-- What a call has done. -/
def own (log : Log V) (t : Nat) : List (Exchange (OnceOp V) OnceOp.Ans) :=
  (log.filter fun e => e.thread == t).map fun e => ⟨e.op, e.answer⟩

/-- The result that an event records. -/
def recorded? (e : OnceEvent V) : Option (Nat × Except Error V) :=
  match e.op with
  | .record result => some (e.thread, result)
  | _ => none

/-- The results that were recorded, with the calls that did it. -/
def records (log : Log V) : List (Nat × Except Error V) := log.filterMap recorded?

/-- The call is inside its function. -/
def Running (log : Log V) (t : Nat) : Prop := (own log t).getLast? = some ⟨.callBegin, ()⟩

/-- A function ended in a way that `Do` does not record. -/
def handsBack : Outcome V → Bool
  | .panicked => true
  | .returned (.ok _) => false
  | .returned (.error err) => isContextError err

/-- The call has the right to run: it took the token, and it is about to call its function, is
inside of it, or has to deal with its outcome. The steps of `Do` before and after the function
are its own, so no other call can tell them from the function. -/
inductive Turn : List (Exchange (OnceOp V) OnceOp.Ans) → Prop
  | taken : Turn [⟨.select, Selected.inProgress⟩]
  | running : Turn [⟨.select, Selected.inProgress⟩, ⟨.callBegin, ()⟩]
  | ended (outcome : Outcome V) :
      Turn [⟨.select, Selected.inProgress⟩, ⟨.callBegin, ()⟩, ⟨.callEnd, outcome⟩]

/-- What holds in every state of every run. -/
structure Protocol [DecidableEq V] (σ : Calls V) : Prop where
  exclusive : ∀ t t', Running σ.shared.2 t → Running σ.shared.2 t' → t = t'
  /-- At most one result, and no function runs after it. -/
  atMostOne : (records σ.shared.2).length ≤ 1
  settled : ∀ before after e, σ.shared.2 = before ++ e :: after → recorded? e ≠ none →
    ∀ e' ∈ after, e'.op ≠ .callBegin
  stopped : ∀ t, Running σ.shared.2 t → records σ.shared.2 = []
  /-- A function that panics, or whose context is over, records nothing. -/
  unrecorded : ∀ t outcome, handsBack outcome = true →
    (⟨t, .callEnd, outcome⟩ : OnceEvent V) ∈ σ.shared.2 → ∀ result, (t, result) ∉ records σ.shared.2
  /-- Before a result is recorded, the right to run is with a call or can be had. -/
  available : records σ.shared.2 = [] →
    σ.shared.1.token = true ∧ σ.shared.1.closed = false ∨ ∃ t, Turn (own σ.shared.2 t)
  /-- The call with the right to run can always go on. -/
  goesOn : ∀ t, Turn (own σ.shared.2 t) → ∃ σ', StepBy machine.traced t σ σ'
  /-- A call that panics has given its token back. -/
  panics : ∀ t, σ.Returned t none → (⟨t, .callEnd, Outcome.panicked⟩ : OnceEvent V) ∈ σ.shared.2 ∧
    (⟨t, .send, ()⟩ : OnceEvent V) ∈ σ.shared.2
  /-- `true` is for the call whose function gave the recorded result. -/
  first : ∀ t result, σ.Returned t (some ⟨true, result⟩) →
    (⟨t, .callEnd, Outcome.returned result⟩ : OnceEvent V) ∈ σ.shared.2 ∧ records σ.shared.2 = [(t, result)]
  /-- Other calls return the recorded result, the error of their context, or the context error of
  their own function, after which the token is given back. -/
  other : ∀ t result, σ.Returned t (some ⟨false, result⟩) →
    (∃ t', records σ.shared.2 = [(t', result)] ∧ (⟨t, .callBegin, ()⟩ : OnceEvent V) ∉ σ.shared.2) ∨
    (∃ err, result = .error err ∧ (⟨t, .select, Selected.cancelled err⟩ : OnceEvent V) ∈ σ.shared.2) ∨
    ∃ err, result = .error err ∧ isContextError err = true ∧
      (⟨t, .callEnd, Outcome.returned (.error err)⟩ : OnceEvent V) ∈ σ.shared.2 ∧
      (⟨t, .send, ()⟩ : OnceEvent V) ∈ σ.shared.2
  /-- A call that begins after a result was recorded returns it, or the error of its context. -/
  later : ∀ before after t t' result, σ.shared.2 = before ++ (⟨t', .record result, ()⟩ : OnceEvent V) :: after →
    own before t = [] → ∀ value, σ.Returned t value →
      value = some ⟨false, result⟩ ∨
      ∃ err, value = some ⟨false, .error err⟩ ∧ (⟨t, .select, Selected.cancelled err⟩ : OnceEvent V) ∈ σ.shared.2

/-- How a call has ended. -/
inductive Ending (V : Type)
  | cancelled (err : Error)
  | joined (result : Except Error V)
  | panicked
  | gaveUp (err : Error)
  | first (result : Except Error V)

def Ending.done : Ending V → Option (Done V)
  | .cancelled err | .gaveUp err => some ⟨false, .error err⟩
  | .joined result => some ⟨false, result⟩
  | .panicked => none
  | .first result => some ⟨true, result⟩

/-- How far a call is. -/
inductive Stage (V : Type)
  | outside
  | reading
  | taken
  | running
  | ended (outcome : Outcome V)
  | recorded (result : Except Error V)
  | finished (ending : Ending V)

namespace Stage

/-- What a call at this stage has done. -/
def trail : Stage V → List (Exchange (OnceOp V) OnceOp.Ans)
  | .outside => []
  | .reading => [⟨.select, Selected.closed⟩]
  | .taken => [⟨.select, Selected.inProgress⟩]
  | .running => [⟨.select, Selected.inProgress⟩, ⟨.callBegin, ()⟩]
  | .ended outcome => [⟨.select, Selected.inProgress⟩, ⟨.callBegin, ()⟩, ⟨.callEnd, outcome⟩]
  | .recorded result =>
    [⟨.select, Selected.inProgress⟩, ⟨.callBegin, ()⟩, ⟨.callEnd, Outcome.returned result⟩, ⟨.record result, ()⟩]
  | .finished (.cancelled err) => [⟨.select, Selected.cancelled err⟩]
  | .finished (.joined result) => [⟨.select, Selected.closed⟩, ⟨.readResult, result⟩]
  | .finished .panicked =>
    [⟨.select, Selected.inProgress⟩, ⟨.callBegin, ()⟩, ⟨.callEnd, Outcome.panicked⟩, ⟨.send, ()⟩]
  | .finished (.gaveUp err) =>
    [⟨.select, Selected.inProgress⟩, ⟨.callBegin, ()⟩, ⟨.callEnd, Outcome.returned (.error err)⟩, ⟨.send, ()⟩]
  | .finished (.first result) =>
    [⟨.select, Selected.inProgress⟩, ⟨.callBegin, ()⟩, ⟨.callEnd, Outcome.returned result⟩, ⟨.record result, ()⟩,
      ⟨.close, ()⟩]

/-- The call has the token: it is neither in the channel nor is the channel closed. -/
def active : Stage V → Bool
  | .taken | .running | .ended _ | .recorded _ => true
  | .outside | .reading | .finished _ => false

/-- What the call with the token has recorded. -/
def recording (t : Nat) : Stage V → List (Nat × Except Error V)
  | .recorded result => [(t, result)]
  | _ => []

/-- The stage after an operation. -/
def after : (op : OnceOp V) → op.Ans → Stage V → Stage V
  | .select, .inProgress, _ => .taken
  | .select, .closed, _ => .reading
  | .select, .cancelled err, _ => .finished (.cancelled err)
  | .readResult, result, _ => .finished (.joined result)
  | .callBegin, _, _ => .running
  | .callEnd, outcome, _ => .ended outcome
  | .send, _, .ended (.returned (.error err)) => .finished (.gaveUp err)
  | .send, _, _ => .finished .panicked
  | .record result, _, _ => .recorded result
  | .close, _, .recorded result => .finished (.first result)
  | .close, _, stage => stage

end Stage

def pre : OnceOp V → Stage V → Prop
  | .select, stage => stage = .outside
  | .readResult, stage => stage = .reading
  | .callBegin, stage => stage = .taken
  | .callEnd, stage => stage = .running
  | .send, stage => ∃ outcome, handsBack outcome = true ∧ stage = .ended outcome
  | .record result, stage => handsBack (.returned result) = false ∧ stage = .ended (.returned result)
  | .close, stage => ∃ result, stage = .recorded result

def ghost (_ : Unit) : Ghost (OnceOp V) OnceOp.Ans (Stage V) where
  pre := pre
  next op a stage stage' := stage' = stage.after op a

def post (_ : Unit) (value : Option (Done V)) (stage : Stage V) : Prop :=
  ∃ ending, stage = .finished ending ∧ value = ending.done

theorem wp_settle (outcome : Outcome V) :
    wp (ghost ()) (settle (Prog.perform OnceOp.send) finish outcome) (post ()) (.ended outcome) := by
  have send : ∀ (value : Option (Done V)) (ending : Ending V), handsBack outcome = true →
      (Stage.ended outcome).after .send () = .finished ending → value = ending.done →
      wp (ghost ()) (Prog.perform OnceOp.send >>= fun _ => Prog.ret value) (post ()) (.ended outcome) := by
    intro value ending back next same
    refine ⟨⟨outcome, back, rfl⟩, ?_⟩
    rintro _ _ rfl
    exact ⟨ending, next, same⟩
  have record : ∀ result : Except Error V, outcome = .returned result → handsBack outcome = false →
      wp (ghost ()) (finish result >>= fun _ => Prog.ret (some ⟨true, result⟩)) (post ()) (.ended outcome) := by
    rintro result rfl kept
    refine ⟨⟨kept, rfl⟩, ?_⟩
    rintro _ _ rfl
    refine ⟨⟨result, rfl⟩, ?_⟩
    rintro _ _ rfl
    exact ⟨.first result, rfl, rfl⟩
  cases outcome with
  | panicked => exact send none .panicked rfl rfl rfl
  | returned result =>
    cases result with
    | ok value => exact record (.ok value) rfl rfl
    | error err =>
      by_cases context : isContextError err = true
      · simp only [settle, context, if_true]
        exact send _ (.gaveUp err) context rfl rfl
      · simp only [settle, context]
        exact record (.error err) rfl (Bool.eq_false_iff.mpr context)

theorem wp_code : wp (ghost ()) (code (V := V)) (post ()) .outside := by
  refine ⟨rfl, ?_⟩
  rintro (_ | _ | err) _ rfl
  · refine ⟨rfl, ?_⟩
    rintro _ _ rfl
    refine ⟨rfl, ?_⟩
    rintro outcome _ rfl
    exact wp_settle outcome
  · refine ⟨rfl, ?_⟩
    rintro result _ rfl
    exact ⟨.joined result, rfl, rfl⟩
  · exact ⟨.cancelled err, rfl, rfl⟩

theorem trail_after {op : OnceOp V} {a : op.Ans} {stage : Stage V} (allowed : pre op stage) :
    (stage.after op a).trail = stage.trail ++ [⟨op, a⟩] := by
  cases op with
  | select =>
    cases allowed
    cases a <;> rfl
  | readResult | callBegin | callEnd =>
    cases allowed
    rfl
  | send =>
    obtain ⟨outcome, back, rfl⟩ := allowed
    cases outcome with
    | panicked => rfl
    | returned result =>
      cases result with
      | ok value => cases back
      | error err => rfl
  | record result =>
    obtain ⟨_, rfl⟩ := allowed
    rfl
  | close =>
    obtain ⟨result, rfl⟩ := allowed
    rfl

section Logs
variable {log : Log V} {e : OnceEvent V} {t : Nat}

theorem own_self (log : Log V) (e : OnceEvent V) : own (log ++ [e]) e.thread = own log e.thread ++ [⟨e.op, e.answer⟩] := by
  simp [own]

theorem own_other (log : Log V) (other : t ≠ e.thread) : own (log ++ [e]) t = own log t := by
  simp [own, Ne.symm other]

theorem mem_own {op : OnceOp V} {a : op.Ans} : ⟨op, a⟩ ∈ own log t ↔ (⟨t, op, a⟩ : OnceEvent V) ∈ log := by
  constructor
  · intro member
    obtain ⟨⟨t', op', a'⟩, inside, same⟩ := List.mem_map.mp member
    obtain ⟨inLog, thread⟩ := List.mem_filter.mp inside
    cases same
    cases beq_iff_eq.mp thread
    exact inLog
  · intro member
    exact List.mem_map.mpr ⟨_, List.mem_filter.mpr ⟨member, beq_self_eq_true t⟩, rfl⟩

theorem records_concat (log : Log V) (e : OnceEvent V) : records (log ++ [e]) = records log ++ (recorded? e).toList := by
  rw [records, List.filterMap_append]
  cases found : recorded? e <;> simp [found, records]

theorem records_silent (silent : recorded? e = none) : records (log ++ [e]) = records log := by
  rw [records_concat, silent, Option.toList_none, List.append_nil]

theorem mem_records {result : Except Error V} :
    (t, result) ∈ records log ↔ (⟨t, .record result, ()⟩ : OnceEvent V) ∈ log := by
  constructor
  · intro member
    obtain ⟨⟨t', op, a⟩, inLog, same⟩ := List.mem_filterMap.mp member
    cases op with
    | record result' =>
      cases same
      exact inLog
    | select | readResult | callBegin | callEnd | send | close => cases same
  · intro member
    exact List.mem_filterMap.mpr ⟨_, member, rfl⟩

end Logs

/-- What the stage of a call says about the shared state. -/
def Local (s : State V × Log V) : Stage V → Prop
  | .reading => s.1.closed = true
  | .recorded result | .finished (.first result) => handsBack (.returned result) = false
  | .finished (.joined result) => ∃ t, (t, result) ∈ records s.2
  | .finished (.gaveUp err) => isContextError err = true
  | _ => True

abbrev Ghosts (V : Type) := List (Unit × Stage V)

/-- Where the token is: in the channel, with a call, or gone since a result is there. -/
inductive Phase (s : State V × Log V) (ghosts : Ghosts V) : Prop
  | free : s.1.token = true → s.1.closed = false → (∀ (t : Nat) (stage : Stage V), ghosts[t]? = some ((), stage) →
      stage.active = false) → records s.2 = [] → Phase s ghosts
  | busy (t : Nat) (stage : Stage V) : s.1.token = false → s.1.closed = false → ghosts[t]? = some ((), stage) →
      stage.active = true → (∀ (t' : Nat) (stage' : Stage V), ghosts[t']? = some ((), stage') → stage'.active = true →
        t' = t) → records s.2 = stage.recording t → (∀ result, stage = .recorded result → s.1.result = result) →
      Phase s ghosts
  | done (t : Nat) : s.1.token = false → s.1.closed = true → (∀ (t' : Nat) (stage : Stage V),
      ghosts[t']? = some ((), stage) → stage.active = false) → records s.2 = [(t, s.1.result)] → Phase s ghosts

/-- After a recorded result nothing is recorded and no function begins. -/
def Final (e e' : OnceEvent V) : Prop := recorded? e ≠ none → recorded? e' = none ∧ e'.op ≠ .callBegin

structure Inv (s : State V × Log V) (ghosts : Ghosts V) : Prop where
  trail : ∀ (t : Nat) (stage : Stage V), ghosts[t]? = some ((), stage) → own s.2 t = stage.trail
  known : ∀ e ∈ s.2, e.thread < ghosts.length
  fits : ∀ (t : Nat) (stage : Stage V), ghosts[t]? = some ((), stage) → Local s stage
  phase : Phase s ghosts
  final : s.2.Pairwise Final

section Phases
variable {s s' : State V × Log V} {ghosts : Ghosts V} {t : Nat} {stage stage' : Stage V}

section

variable (phase : Phase s ghosts) (found : ghosts[t]? = some ((), stage))
include phase found

theorem Phase.active (active : stage.active = true) :
    s.1.token = false ∧ s.1.closed = false ∧ (∀ (t' : Nat) (stage' : Stage V), ghosts[t']? = some ((), stage') →
      stage'.active = true → t' = t) ∧ records s.2 = stage.recording t ∧
      ∀ result, stage = .recorded result → s.1.result = result := by
  cases phase with
  | free _ _ idle _ => exact absurd active (by simp [idle t stage found])
  | done _ _ _ idle _ => exact absurd active (by simp [idle t stage found])
  | busy u stage' noToken opened atU activeU only recorded stored =>
    obtain rfl := only t stage found active
    cases Option.some.inj (atU.symm.trans found)
    exact ⟨noToken, opened, only, recorded, stored⟩

theorem Phase.idle (before : stage.active = false) (after : stage'.active = false) (same : s'.1 = s.1)
    (silent : records s'.2 = records s.2) :
    Phase s' (ghosts.set t ((), stage')) := by
  have still : ∀ (u : Nat) (x : Stage V), (ghosts.set t ((), stage'))[u]? = some ((), x) → x.active = true →
      ghosts[u]? = some ((), x) := by
    intro u x atU active
    rcases getElem?_set_cases atU with ⟨_, same⟩ | ⟨_, old⟩
    · cases same
      cases after.symm.trans active
    · exact old
  have nobody : (∀ (u : Nat) (x : Stage V), ghosts[u]? = some ((), x) → x.active = false) →
      ∀ (u : Nat) (x : Stage V), (ghosts.set t ((), stage'))[u]? = some ((), x) → x.active = false := by
    intro idle u x atU
    by_contra active
    exact active (idle u x (still u x atU (by simpa using active)))
  cases phase with
  | free token opened idle none => exact .free (same ▸ token) (same ▸ opened) (nobody idle) (silent.trans none)
  | done u noToken closed idle one =>
    refine .done u (same ▸ noToken) (same ▸ closed) (nobody idle) ?_
    rw [silent, one, same]
  | busy u x noToken opened atU active only recorded stored =>
    have apart : t ≠ u := by
      rintro rfl
      cases Option.some.inj (atU.symm.trans found)
      cases before.symm.trans active
    refine .busy u x (same ▸ noToken) (same ▸ opened) ((List.getElem?_set_ne apart).trans atU) active ?_
      (silent.trans recorded) ?_
    · exact fun u' x' atU' active' => only u' x' (still u' x' atU' active') active'
    · exact fun result at_ => (congrArg State.result same).trans (stored result at_)

theorem Phase.turn (before : stage.active = true) (after : stage'.active = true) (token : s'.1.token = s.1.token)
    (closed : s'.1.closed = s.1.closed) (recorded : records s'.2 = stage'.recording t)
    (stored : ∀ result, stage' = .recorded result → s'.1.result = result) :
    Phase s' (ghosts.set t ((), stage')) := by
  obtain ⟨noToken, opened, only, _⟩ := phase.active found before
  have inside := (List.getElem?_eq_some_iff.mp found).1
  refine .busy t stage' (token.trans noToken) (closed.trans opened) (List.getElem?_set_self inside) after ?_ recorded stored
  intro u x atU active
  rcases getElem?_set_cases atU with ⟨rfl, _⟩ | ⟨_, old⟩
  · rfl
  · exact only u x old active

end

theorem Phase.take {s : State V} {log : Log V} {op : OnceOp V} {a : op.Ans} (phase : Phase (s, log) ghosts)
    (found : ghosts[t]? = some ((), stage)) (token : s.token = true)
    (silent : recorded? (⟨t, op, a⟩ : OnceEvent V) = none) :
    Phase ({ s with token := false }, log ++ [⟨t, op, a⟩]) (ghosts.set t ((), .taken)) := by
  cases phase with
  | busy _ _ noToken => cases token.symm.trans noToken
  | done _ noToken => cases token.symm.trans noToken
  | free _ opened idle none =>
    have inside := (List.getElem?_eq_some_iff.mp found).1
    refine .busy t .taken rfl opened (List.getElem?_set_self inside) rfl ?_ ((records_silent silent).trans none) ?_
    · intro u x atU active
      rcases getElem?_set_cases atU with ⟨same, _⟩ | ⟨_, old⟩
      · exact same
      · cases (idle u x old).symm.trans active
    · intro result impossible
      cases impossible

theorem Phase.leave (phase : Phase s ghosts) (found : ghosts[t]? = some ((), stage)) (before : stage.active = true)
    (after : stage'.active = false) (u : Nat) (x : Stage V) (atU : (ghosts.set t ((), stage'))[u]? = some ((), x)) :
    x.active = false := by
  obtain ⟨_, _, only, _⟩ := phase.active found before
  rcases getElem?_set_cases atU with ⟨_, same⟩ | ⟨apart, old⟩
  · cases same
    exact after
  · by_contra active
    exact apart (only u x old (by simpa using active))

end Phases

section Steps
variable [DecidableEq V] {s s' : State V} {log : Log V} {ghosts : Ghosts V} {t : Nat} {stage : Stage V}

omit [DecidableEq V] in
theorem Local.mono {st : Stage V} {s s' : State V × Log V} (fits : Local s st) (closed : s.1.closed = true → s'.1.closed = true)
    (records' : ∀ x, x ∈ records s.2 → x ∈ records s'.2) : Local s' st := by
  cases st with
  | reading => exact closed fits
  | finished ending =>
    cases ending with
    | joined result =>
      obtain ⟨u, recorded⟩ := fits
      exact ⟨u, records' _ recorded⟩
    | cancelled | panicked | gaveUp | first => exact fits
  | outside | taken | running | ended | recorded => exact fits

variable {op : OnceOp V} {a : op.Ans}

theorem respond_closed (responded : s.respond op a = some s') (closed : s.closed = true) :
    s'.closed = true := by
  cases op with
  | select =>
    cases a with
    | inProgress | closed =>
      obtain ⟨_, rfl⟩ := of_ite_some responded
      exact closed
    | cancelled err =>
      cases responded
      exact closed
  | readResult =>
    obtain ⟨_, same⟩ := of_ite_some responded
    cases same
    exact closed
  | callBegin | callEnd | record result =>
    cases responded
    exact closed
  | send =>
    obtain ⟨_, same⟩ := Option.ite_none_left_eq_some.mp responded
    cases same
    exact closed
  | close =>
    obtain ⟨_, same⟩ := Option.ite_none_left_eq_some.mp responded
    cases same
    rfl

/-- The step of an invariant that is left when the log, the other calls and their trails are
taken care of. -/
theorem Inv.event (inv : Inv (s, log) ghosts) (found : ghosts[t]? = some ((), stage)) (allowed : pre op stage)
    (responded : s.respond op a = some s') (fits : Local (s', log ++ [⟨t, op, a⟩]) (stage.after op a))
    (phase : Phase (s', log ++ [⟨t, op, a⟩]) (ghosts.set t ((), stage.after op a)))
    (final : recorded? (⟨t, op, a⟩ : OnceEvent V) = none ∧ op ≠ .callBegin ∨ records log = []) :
    Inv (s', log ++ [⟨t, op, a⟩]) (ghosts.set t ((), stage.after op a)) where
  trail := by
    intro u x atU
    rcases getElem?_set_cases atU with ⟨rfl, same⟩ | ⟨apart, old⟩
    · cases same
      rw [own_self log ⟨u, op, a⟩, trail_after allowed, inv.trail u stage found]
    · rw [own_other log (e := ⟨t, op, a⟩) apart]
      exact inv.trail u x old
  known := by
    intro e member
    rw [List.length_set]
    rcases List.mem_append.mp member with old | new
    · exact inv.known e old
    · obtain rfl := List.mem_singleton.mp new
      exact (List.getElem?_eq_some_iff.mp found).1
  fits := by
    intro u x atU
    rcases getElem?_set_cases atU with ⟨_, same⟩ | ⟨_, old⟩
    · cases same
      exact fits
    · refine (inv.fits u x old).mono (respond_closed responded) ?_
      intro r recorded
      rw [records_concat]
      exact List.mem_append_left _ recorded
  phase := phase
  final := by
    refine List.pairwise_append.mpr ⟨inv.final, List.pairwise_singleton _ _, ?_⟩
    intro e member e' new recorded
    obtain rfl := List.mem_singleton.mp new
    rcases final with kept | none
    · exact kept
    · obtain ⟨r, found⟩ := Option.ne_none_iff_exists'.mp recorded
      have inside : r ∈ records log := List.mem_filterMap.mpr ⟨e, member, found⟩
      rw [none] at inside
      cases inside

theorem Inv.step (inv : Inv (s, log) ghosts) (found : ghosts[t]? = some ((), stage)) (allowed : pre op stage)
    (responded : s.respond op a = some s') :
    Inv (s', log ++ [⟨t, op, a⟩]) (ghosts.set t ((), stage.after op a)) := by
  cases op with
  | select =>
    cases allowed
    refine inv.event found rfl responded ?_ ?_ (.inl ⟨rfl, by simp⟩)
    · cases a with
      | closed =>
        obtain ⟨⟨_, closed⟩, rfl⟩ := of_ite_some responded
        exact closed
      | inProgress | cancelled => trivial
    · cases a with
      | inProgress =>
        obtain ⟨token, rfl⟩ := of_ite_some responded
        exact inv.phase.take found token rfl
      | closed =>
        obtain ⟨_, rfl⟩ := of_ite_some responded
        exact inv.phase.idle found rfl rfl rfl (records_silent rfl)
      | cancelled err =>
        cases responded
        exact inv.phase.idle found rfl rfl rfl (records_silent rfl)
  | readResult =>
    cases allowed
    obtain ⟨same, here⟩ := Option.ite_none_right_eq_some.mp responded
    cases here
    cases same
    refine inv.event found rfl responded ?_ (inv.phase.idle found rfl rfl rfl (records_silent rfl)) (.inl ⟨rfl, by simp⟩)
    have closed : s.closed = true := inv.fits t .reading found
    cases inv.phase with
    | free _ opened => cases opened.symm.trans closed
    | busy _ _ _ opened => cases opened.symm.trans closed
    | done u _ _ _ one =>
      refine ⟨u, ?_⟩
      rw [records_silent rfl]
      exact one ▸ List.mem_singleton_self _
  | callBegin | callEnd =>
    cases allowed
    cases responded
    obtain ⟨_, _, _, none, _⟩ := inv.phase.active found rfl
    exact inv.event found rfl rfl trivial (inv.phase.turn found rfl rfl rfl rfl ((records_silent rfl).trans none)
      (fun _ impossible => by cases impossible)) (.inr none)
  | record result =>
    obtain ⟨kept, rfl⟩ := allowed
    cases responded
    obtain ⟨_, _, _, none, _⟩ := inv.phase.active found rfl
    refine inv.event found ⟨kept, rfl⟩ rfl kept (inv.phase.turn found rfl rfl rfl rfl ?_ ?_) (.inr none)
    · rw [records_concat, none]
      rfl
    · rintro _ ⟨⟩
      rfl
  | send =>
    obtain ⟨outcome, back, rfl⟩ := allowed
    obtain ⟨_, _, _, none, _⟩ := inv.phase.active found rfl
    have left : ((Stage.ended outcome).after .send ()).active = false := by
      rcases outcome with (_ | _) | _ <;> rfl
    refine inv.event found ⟨outcome, back, rfl⟩ responded ?_ ?_ (.inl ⟨rfl, by simp⟩)
    · rcases outcome with (err | value) | _
      · exact back
      · trivial
      · trivial
    · obtain ⟨opened, same⟩ := Option.ite_none_left_eq_some.mp responded
      cases same
      exact .free rfl (Bool.eq_false_iff.mpr fun closed => opened (.inr closed)) (inv.phase.leave found rfl left)
        ((records_silent rfl).trans none)
  | close =>
    obtain ⟨result, rfl⟩ := allowed
    obtain ⟨noToken, _, _, one, stored⟩ := inv.phase.active found rfl
    refine inv.event found ⟨result, rfl⟩ responded (inv.fits t _ found) ?_ (.inl ⟨rfl, by simp⟩)
    obtain ⟨_, same⟩ := Option.ite_none_left_eq_some.mp responded
    cases same
    refine .done t noToken rfl (inv.phase.leave found rfl rfl) ?_
    rw [records_silent rfl, one, ← stored result rfl]
    rfl

end Steps

theorem sound [DecidableEq V] : Sound ghost post (machine (V := V)).traced Inv := by
  rintro ⟨s, log⟩ ghosts t ⟨⟩ stage op a ⟨s', log'⟩ spawned inv found allowed performed
  obtain ⟨performed, logged⟩ := traced_perform.mp performed
  obtain ⟨_, responded, same⟩ := Option.map_eq_some_iff.mp performed
  cases same
  cases logged
  exact .move _ rfl (inv.step found allowed responded)

theorem start_outline (result : Except Error V) (n : Nat) : Outline ghost post Inv (start result n) := by
  have outside : ∀ (t : Nat) (stage : Stage V), (List.replicate n ((), Stage.outside))[t]? = some ((), stage) →
      stage = .outside := by
    intro t stage found
    rw [List.getElem?_replicate] at found
    obtain ⟨_, same⟩ := of_ite_some found
    cases same
    rfl
  refine ⟨List.replicate n ((), .outside), ?_, ?_⟩
  · change List.Forall₂ (Fits ghost post) (List.replicate n ⟨(), code⟩) (List.replicate n ((), .outside))
    clear outside
    induction n with
    | zero => exact .nil
    | succ n ih => exact .cons ⟨rfl, wp_code⟩ ih
  · constructor
    case trail =>
      intro t stage found
      rw [outside t stage found]
      rfl
    case known => exact fun e impossible => by cases impossible
    case fits =>
      intro t stage found
      rw [outside t stage found]
      trivial
    case phase => exact .free rfl rfl (fun t stage found => by rw [outside t stage found]; rfl) rfl
    case final => exact .nil

theorem outline_reach [DecidableEq V] {result : Except Error V} {n : Nat} {σ : Calls V}
    (reach : Reach machine.traced (start result n) σ) : Outline ghost post Inv σ :=
  (start_outline result n).reach sound (fun _ _ _ _ moved => moved.1.elim) reach

section Results
variable {s : State V × Log V} {ghosts : Ghosts V} {t : Nat}

section

variable (inv : Inv s ghosts)
include inv

theorem Inv.of_event {x : Exchange (OnceOp V) OnceOp.Ans} (member : x ∈ own s.2 t) :
    ∃ stage, ghosts[t]? = some ((), stage) ∧ x ∈ stage.trail := by
  obtain ⟨op, a⟩ := x
  have inside : t < ghosts.length := inv.known _ (mem_own.mp member)
  have found : ghosts[t]? = some ((), ghosts[t].2) := List.getElem?_eq_getElem inside
  exact ⟨_, found, inv.trail t _ found ▸ member⟩

theorem Inv.running (running : Running s.2 t) : ghosts[t]? = some ((), .running) := by
  obtain ⟨stage, found, _⟩ := inv.of_event (List.mem_of_getLast? running)
  rw [Running, inv.trail t stage found] at running
  cases stage with
  | running => exact found
  | outside | reading | taken | ended | recorded => cases running
  | finished ending => cases ending <;> cases running

theorem Inv.turn (turn : Turn (own s.2 t)) :
    ∃ stage, ghosts[t]? = some ((), stage) ∧ stage.active = true := by
  have begun : (⟨.select, Selected.inProgress⟩ : Exchange (OnceOp V) OnceOp.Ans) ∈ own s.2 t := by
    generalize own s.2 t = trail at turn
    cases turn <;> exact List.mem_cons_self
  obtain ⟨stage, found, _⟩ := inv.of_event begun
  rw [inv.trail t stage found] at turn
  refine ⟨stage, found, ?_⟩
  generalize same : stage.trail = trail at turn
  cases stage with
  | taken | running | ended | recorded => rfl
  | outside | reading => cases turn <;> cases same
  | finished ending => cases ending <;> cases turn <;> cases same

theorem Inv.atMostOne : (records s.2).length ≤ 1 := by
  cases inv.phase with
  | free _ _ _ none => simp [none]
  | done _ _ _ _ one => simp [one]
  | busy t stage _ _ _ _ _ recorded =>
    rw [recorded]
    cases stage <;> simp [Stage.recording]

theorem Inv.record_unique {x : Nat × Except Error V} (member : x ∈ records s.2) :
    records s.2 = [x] := by
  obtain ⟨y, one⟩ := List.length_eq_one_iff.mp (le_antisymm inv.atMostOne (List.length_pos_of_mem member))
  rw [one] at member ⊢
  rw [List.mem_singleton.mp member]

theorem Inv.settled {before after : Log V} {e : OnceEvent V} (split : s.2 = before ++ e :: after)
    (recorded : recorded? e ≠ none) : ∀ e' ∈ after, e'.op ≠ .callBegin := by
  have final := inv.final
  rw [split, List.pairwise_append, List.pairwise_cons] at final
  exact fun e' member => (final.2.1.1 e' member recorded).2

end

def outcome? : Exchange (OnceOp V) OnceOp.Ans → Option (Outcome V)
  | ⟨.callEnd, outcome⟩ => some outcome
  | _ => none

def result? : Exchange (OnceOp V) OnceOp.Ans → Option (Except Error V)
  | ⟨.record result, _⟩ => some result
  | _ => none

theorem Inv.recorded_outcome (inv : Inv s ghosts) {result : Except Error V} (member : (t, result) ∈ records s.2)
    {outcome : Outcome V} (ended : (⟨t, .callEnd, outcome⟩ : OnceEvent V) ∈ s.2) :
    outcome = .returned result ∧ handsBack outcome = false := by
  obtain ⟨stage, found, recorded⟩ := inv.of_event (mem_own.mpr (mem_records.mp member))
  have ended' := mem_own.mpr ended
  rw [inv.trail t stage found] at ended'
  have fits := inv.fits t stage found
  have outcomes : outcome ∈ stage.trail.filterMap outcome? := List.mem_filterMap.mpr ⟨_, ended', rfl⟩
  have results : result ∈ stage.trail.filterMap result? := List.mem_filterMap.mpr ⟨_, recorded, rfl⟩
  -- only the trails with a record are left, and they hold one outcome
  cases stage with
  | outside | reading | taken | running | ended => cases results
  | recorded r =>
    obtain rfl := List.mem_singleton.mp results
    obtain rfl := List.mem_singleton.mp outcomes
    exact ⟨rfl, fits⟩
  | finished ending =>
    cases ending with
    | cancelled | joined | panicked | gaveUp => cases results
    | first r =>
      obtain rfl := List.mem_singleton.mp results
      obtain rfl := List.mem_singleton.mp outcomes
      exact ⟨rfl, fits⟩

/-- A call that begins after a result was recorded does not run its function. -/
theorem Inv.not_begun (inv : Inv s ghosts) {before after : Log V} {e : OnceEvent V} (split : s.2 = before ++ e :: after)
    (recorded : recorded? e ≠ none) (late : own before t = []) : (⟨t, .callBegin, ()⟩ : OnceEvent V) ∉ s.2 := by
  intro begun
  rw [split] at begun
  rcases List.mem_append.mp begun with early | member
  · have old := mem_own.mpr early
    rw [late] at old
    cases old
  · rcases List.mem_cons.mp member with same | member
    · rw [← same] at recorded
      exact recorded rfl
    · exact inv.settled split recorded _ member rfl

end Results

section Progress
variable [DecidableEq V] {σ : Calls V} {ghosts : Ghosts V} {t : Nat} {stage : Stage V}

theorem moves {op : OnceOp V} {next : op.Ans → Code V (Option (Done V))} {s' : State V}
    (found : σ.threads[t]? = some ⟨(), .call op next⟩) (a : op.Ans) (responded : σ.shared.1.respond op a = some s') :
    ∃ σ', StepBy machine.traced t σ σ' := by
  have performed : (machine (V := V)).traced.perform σ.shared t σ.threads.length op a =
      some ((s', σ.shared.2 ++ [⟨t, op, a⟩]), []) :=
    traced_perform.mpr ⟨Option.map_eq_some_iff.mpr ⟨s', responded, rfl⟩, rfl⟩
  exact ⟨_, .answer found performed⟩

/-- The call with the token is never blocked. -/
theorem active_moves (fits : List.Forall₂ (Fits ghost post) σ.threads ghosts) (inv : Inv σ.shared ghosts)
    (found : ghosts[t]? = some ((), stage)) (active : stage.active = true) : ∃ σ', StepBy machine.traced t σ σ' := by
  obtain ⟨prog, atT, outlined⟩ := thread_of_ghost fits found
  obtain ⟨noToken, opened, _⟩ := inv.phase.active found active
  cases prog with
  | ret value =>
    obtain ⟨ending, rfl, _⟩ := outlined
    cases active
  | call op next =>
    cases op with
    | select | readResult =>
      cases outlined.1
      cases active
    | callBegin | record => exact moves atT () rfl
    | callEnd => exact moves atT Outcome.panicked rfl
    | send =>
      have room : ¬ (σ.shared.1.token = true ∨ σ.shared.1.closed = true) := by simp [noToken, opened]
      exact moves atT () (if_neg room)
    | close =>
      have still : ¬ σ.shared.1.closed = true := by simp [opened]
      exact moves atT () (if_neg still)

end Progress

/-- `Once.Do` in every run of any number of calls, whatever their contexts and functions do. -/
theorem once_protocol [DecidableEq V] (zero : Except Error V) (n : Nat) {σ : Calls V}
    (reach : Reach machine.traced (start zero n) σ) : Protocol σ := by
  obtain ⟨ghosts, fits, inv⟩ := outline_reach reach
  have ended : ∀ t value, σ.Returned t value →
      ∃ ending, value = ending.done ∧ own σ.shared.2 t = (Stage.finished ending).trail ∧
        Local σ.shared (.finished ending) := by
    rintro t value ⟨_, atT⟩
    obtain ⟨stage, found, ending, same, done⟩ := ghost_of_thread fits atT
    cases same
    exact ⟨ending, done, inv.trail t _ found, inv.fits t _ found⟩
  constructor
  case exclusive =>
    intro t t' running running'
    obtain ⟨_, _, only, _⟩ := inv.phase.active (inv.running running') rfl
    exact only t _ (inv.running running) rfl
  case atMostOne => exact inv.atMostOne
  case settled => exact fun _ _ _ split recorded => inv.settled split recorded
  case stopped =>
    intro t running
    obtain ⟨_, _, _, none, _⟩ := inv.phase.active (inv.running running) rfl
    exact none
  case unrecorded =>
    intro t outcome back atEnd result member
    cases (inv.recorded_outcome member atEnd).2.symm.trans back
  case available =>
    intro none
    cases inv.phase with
    | free token opened => exact .inl ⟨token, opened⟩
    | done _ _ _ _ one => cases none.symm.trans one
    | busy t stage _ _ found active _ recorded =>
      refine .inr ⟨t, ?_⟩
      rw [inv.trail t stage found]
      cases stage with
      | taken => exact .taken
      | running => exact .running
      | ended outcome => exact .ended outcome
      | recorded => cases none.symm.trans recorded
      | outside | reading | finished => cases active
  case goesOn =>
    intro t turn
    obtain ⟨stage, found, active⟩ := inv.turn turn
    exact active_moves fits inv found active
  case panics =>
    intro t returned
    obtain ⟨ending, same, trail, _⟩ := ended t none returned
    cases ending with
    | panicked => exact ⟨mem_own.mp (by simp [trail, Stage.trail]), mem_own.mp (by simp [trail, Stage.trail])⟩
    | cancelled | joined | gaveUp | first => cases same
  case first =>
    intro t result returned
    obtain ⟨ending, same, trail, _⟩ := ended t _ returned
    cases ending with
    | first r =>
      cases same
      refine ⟨mem_own.mp (by simp [trail, Stage.trail]), inv.record_unique (mem_records.mpr (mem_own.mp ?_))⟩
      simp [trail, Stage.trail]
    | cancelled | joined | gaveUp | panicked => cases same
  case other =>
    intro t result returned
    obtain ⟨ending, same, trail, local_⟩ := ended t _ returned
    cases ending with
    | joined r =>
      cases same
      obtain ⟨u, recorded⟩ := local_
      refine .inl ⟨u, inv.record_unique recorded, fun begun => ?_⟩
      have begins := List.mem_map_of_mem (f := Sigma.fst) (mem_own.mpr begun)
      simp [trail, Stage.trail] at begins
    | cancelled err =>
      cases same
      exact .inr (.inl ⟨err, rfl, mem_own.mp (by simp [trail, Stage.trail])⟩)
    | gaveUp err =>
      cases same
      exact .inr (.inr ⟨err, rfl, local_, mem_own.mp (by simp [trail, Stage.trail]),
        mem_own.mp (by simp [trail, Stage.trail])⟩)
    | panicked | first => cases same
  case later =>
    intro before after t t' result split late value returned
    obtain ⟨ending, rfl, trail, local_⟩ := ended t value returned
    have unbegun : (⟨.callBegin, ()⟩ : Exchange (OnceOp V) OnceOp.Ans) ∉ own σ.shared.2 t :=
      fun begun => inv.not_begun split (by simp [recorded?]) late (mem_own.mp begun)
    rw [trail] at unbegun
    cases ending with
    | joined r =>
      obtain ⟨u, recorded⟩ := local_
      have here : (t', result) ∈ records σ.shared.2 := mem_records.mpr (by rw [split]; simp)
      cases (inv.record_unique recorded).symm.trans (inv.record_unique here)
      exact .inl rfl
    | cancelled err => exact .inr ⟨err, rfl, mem_own.mp (by simp [trail, Stage.trail])⟩
    | panicked | gaveUp | first => simp [Stage.trail] at unbegun

namespace Relay

/-- The answers of a run in which the function of the first call panics. -/
def oracle (s : State Nat × Log Nat) (t : Nat) : (op : OnceOp Nat) → op.Ans
  | .select => if s.1.closed then Selected.closed else Selected.inProgress
  | .readResult => s.1.result
  | .callEnd => if t = 0 then Outcome.panicked else Outcome.returned (.ok 7)
  | .callBegin | .send | .record _ | .close => ()

/-- Three calls that take turns. -/
def ran : Calls Nat := (start (.ok 0) 3).rounds machine.traced oracle 12

theorem ran_returned : ran.returned? 0 = some none ∧ ran.returned? 1 = some (some ⟨true, .ok 7⟩) ∧
    ran.returned? 2 = some (some ⟨false, .ok 7⟩) :=
  ⟨rfl, rfl, rfl⟩

end Relay

theorem once_protocol_relay : ∃ σ : Calls Nat, Reach machine.traced (start (.ok 0) 3) σ ∧ σ.Returned 0 none ∧
    σ.Returned 1 (some ⟨true, .ok 7⟩) ∧ σ.Returned 2 (some ⟨false, .ok 7⟩) ∧ Protocol σ :=
  have reach : Reach machine.traced (start (.ok 0) 3) Relay.ran := Pool.rounds_reach 12 _
  ⟨Relay.ran, reach, Pool.returned?_eq_some.mp Relay.ran_returned.1, Pool.returned?_eq_some.mp Relay.ran_returned.2.1,
    Pool.returned?_eq_some.mp Relay.ran_returned.2.2, once_protocol (.ok 0) 3 reach⟩

end OrasGo.Syncutil.OnceRun
