import Mathlib.Data.List.Count
import Mathlib.Data.List.Range
import OrasGo.Descriptor

/-! `retry.Transport`: a request is sent again while the policy asks for it. -/

namespace OrasGo.Retry
variable {ρ : Type}

/-- `GenericPolicy`. What `Retryable` and `Backoff` answer may also depend on the attempt; a
response is missing exactly if the round trip has failed. Durations are in nanoseconds. -/
structure GenericPolicy (ρ : Type) where
  retryable : Nat → Except Error ρ → Except Error Bool
  backoff : Nat → Option ρ → Int
  minWait : Int
  maxWait : Int
  maxRetry : Int

/-- `GenericPolicy.Retry`. -/
def GenericPolicy.retry (p : GenericPolicy ρ) (attempt : Nat) (out : Except Error ρ) : Except Error Int := do
  if p.maxRetry ≤ attempt then return -1
  if ← p.retryable attempt out then
    let backoff := p.backoff attempt out.toOption
    let backoff := if backoff < p.minWait then p.minWait else backoff
    return if p.maxWait < backoff then p.maxWait else backoff
  else return -1

/-- The policy asks for another attempt after the outcome of this one. -/
def GenericPolicy.Asks (p : GenericPolicy ρ) (attempt : Nat) (out : Except Error ρ) : Prop :=
  ∃ duration, p.retry attempt out = .ok duration ∧ 0 ≤ duration

theorem GenericPolicy.Asks.lt {p : GenericPolicy ρ} {attempt : Nat} {out : Except Error ρ} (asks : p.Asks attempt out) :
    (attempt : Int) < p.maxRetry := by
  obtain ⟨duration, answered, positive⟩ := asks
  by_contra spent
  rw [retry, if_pos (by omega)] at answered
  obtain rfl : -1 = duration := Except.ok.inj answered
  omega

/-- The body of a request: that of the caller, or the one of a call of `GetBody`. -/
inductive Body
  | original
  | rewound (n : Nat)
  deriving DecidableEq

/-- What the transport meets: how each attempt ends, whether the request has a body and a
`GetBody`, what each call of it returns, and whether the context is done in the wait after an
attempt. -/
structure Surroundings (ρ : Type) where
  base : Nat → Except Error ρ
  hasBody : Bool
  getBody : Option (Nat → Except Error Unit)
  done : Nat → Option Error

/-- The request is sent with a body, or the body of the response to an attempt is closed. -/
inductive Event
  | sent (attempt : Nat) (body : Option Body)
  | closed (attempt : Nat)
  deriving DecidableEq

/-- `RoundTrip` returns what an attempt has returned, or only an error. -/
inductive Result
  | outcome (attempt : Nat)
  | failed (err : Error)
  deriving DecidableEq

namespace Surroundings
variable (w : Surroundings ρ)

/-- The body of the next attempt, unless it cannot be rewound. -/
def rewind (attempt : Nat) : Option (Option Body) :=
  if w.hasBody then
    match w.getBody with
    | none => none
    | some getBody =>
      match getBody attempt with
      | .error _ => none
      | .ok () => some (some (.rewound attempt))
  else some none

/-- `resp.Body.Close()`, if there is a response. -/
def close (attempt : Nat) : List Event :=
  match w.base attempt with
  | .ok _ => [.closed attempt]
  | .error _ => []

/-- The loop of `Transport.RoundTrip`. -/
def loop (p : GenericPolicy ρ) (attempt : Nat) (body : Option Body) : List Event × Result :=
  match answered : p.retry attempt (w.base attempt) with
  | .error err => (.sent attempt body :: w.close attempt, .failed err)
  | .ok duration =>
    if negative : duration < 0 then ([.sent attempt body], .outcome attempt)
    else
      match w.rewind attempt with
      | none => ([.sent attempt body], .outcome attempt)
      | some body' =>
        match w.done attempt with
        | some err => (.sent attempt body :: w.close attempt, .failed err)
        | none =>
          let rest := loop p (attempt + 1) body'
          (.sent attempt body :: w.close attempt ++ rest.1, rest.2)
termination_by (p.maxRetry - attempt).toNat
decreasing_by
  have less := GenericPolicy.Asks.lt ⟨duration, answered, by omega⟩
  omega

/-- `Transport.RoundTrip`. -/
def roundTrip (p : GenericPolicy ρ) : List Event × Result :=
  w.loop p 0 (if w.hasBody then some .original else none)

end Surroundings

/-- The attempts of a run with the bodies they send. -/
def attempts (log : List Event) : List (Nat × Option Body) :=
  log.filterMap fun event => match event with
    | .sent attempt body => some (attempt, body)
    | .closed _ => none

@[simp] theorem attempts_sent (attempt : Nat) (body : Option Body) (log : List Event) :
    attempts (.sent attempt body :: log) = (attempt, body) :: attempts log := rfl

@[simp] theorem attempts_append (log log' : List Event) : attempts (log ++ log') = attempts log ++ attempts log' :=
  List.filterMap_append

section Loop
variable {w : Surroundings ρ} {p : GenericPolicy ρ}

@[simp] theorem attempts_close (attempt : Nat) : attempts (w.close attempt) = [] := by
  unfold Surroundings.close
  split <;> rfl

theorem count_close (attempt n : Nat) :
    (w.close attempt).count (.closed n) = if n = attempt ∧ (w.base n).isOk then 1 else 0 := by
  unfold Surroundings.close
  by_cases same : n = attempt
  · subst same
    cases w.base n <;> simp [Except.isOk, Except.toBool]
  · split <;> simp [same, Ne.symm same]

/-- The body that is sent after an attempt. -/
def Surroundings.bodyAfter (w : Surroundings ρ) (attempt : Nat) : Option Body :=
  if w.hasBody then some (.rewound attempt) else none

/-- The attempt may be followed by another one: the policy asks for it and the body is rewound. -/
structure Continues (w : Surroundings ρ) (p : GenericPolicy ρ) (attempt : Nat) : Prop where
  asks : p.Asks attempt (w.base attempt)
  rewound : w.rewind attempt = some (w.bodyAfter attempt)

theorem rewind_eq {attempt : Nat} {body : Option Body} (found : w.rewind attempt = some body) :
    body = w.bodyAfter attempt := by
  unfold Surroundings.rewind at found
  unfold Surroundings.bodyAfter
  split at found
  · rename_i has
    rw [if_pos has]
    split at found
    · cases found
    · split at found <;> cases found
      rfl
  · rename_i has
    rw [if_neg has]
    cases found
    rfl

/-- What the loop does from an attempt on: `more` attempts follow it, and every response that is
not returned is closed. -/
structure Follows (w : Surroundings ρ) (p : GenericPolicy ρ) (attempt : Nat) (body : Option Body) (more : Nat)
    (run : List Event × Result) : Prop where
  sent : attempts run.1 = (attempt, body) :: (List.range' attempt more).map fun n => (n + 1, w.bodyAfter n)
  continues : ∀ n, attempt ≤ n → n < attempt + more → Continues w p n
  closed : ∀ n, run.1.count (.closed n) =
    if attempt ≤ n ∧ n ≤ attempt + more ∧ (w.base n).isOk ∧ run.2 ≠ .outcome n then 1 else 0
  last : ∀ n, run.2 = .outcome n → n = attempt + more

theorem Follows.outcome (attempt : Nat) (body : Option Body) :
    Follows w p attempt body 0 ([.sent attempt body], .outcome attempt) where
  sent := rfl
  continues n from_ below := by omega
  closed n := by
    rw [if_neg]
    · simp
    · rintro ⟨after, before, _, other⟩
      exact other (congrArg Result.outcome (by omega))
  last n same := by cases same; rfl

theorem Follows.failed (attempt : Nat) (body : Option Body) (err : Error) :
    Follows w p attempt body 0 (.sent attempt body :: w.close attempt, .failed err) where
  sent := by simp
  continues n from_ below := by omega
  closed n := by
    rw [List.count_cons_of_ne (by simp), count_close]
    refine if_congr ?_ rfl rfl
    constructor
    · rintro ⟨rfl, resp⟩
      exact ⟨le_rfl, le_rfl, resp, by simp⟩
    · rintro ⟨after, before, resp, _⟩
      exact ⟨by omega, resp⟩
  last n same := by cases same

theorem Follows.next {attempt more : Nat} {rest : List Event × Result} (body : Option Body)
    (continues : Continues w p attempt) (follows : Follows w p (attempt + 1) (w.bodyAfter attempt) more rest) :
    Follows w p attempt body (more + 1) (.sent attempt body :: w.close attempt ++ rest.1, rest.2) where
  sent := by simp [follows.sent, List.range'_succ]
  continues n from_ below := by
    rcases Nat.eq_or_lt_of_le from_ with rfl | later
    · exact continues
    · exact follows.continues n later (by omega)
  closed n := by
    rw [List.cons_append, List.count_cons_of_ne (by simp), List.count_append, count_close, follows.closed]
    by_cases same : n = attempt
    · subst same
      have other : rest.2 ≠ .outcome n := fun returned => by
        have := follows.last n returned
        omega
      rw [if_neg (by omega : ¬ (n + 1 ≤ n ∧ _))]
      simp [other]
    · rw [if_neg fun both => same both.1, Nat.zero_add]
      refine if_congr ?_ rfl rfl
      constructor
      · rintro ⟨after, before, rest⟩
        exact ⟨by omega, by omega, rest⟩
      · rintro ⟨after, before, rest⟩
        exact ⟨by omega, by omega, rest⟩
  last n returned := by
    have := follows.last n returned
    omega

theorem loop_follows (attempt : Nat) (body : Option Body) :
    ∃ more, Follows w p attempt body more (w.loop p attempt body) := by
  -- the attempts that the policy still allows
  induction room : (p.maxRetry - attempt).toNat using Nat.strong_induction_on generalizing attempt body with
  | _ n ih =>
    unfold Surroundings.loop
    split
    · exact ⟨0, .failed attempt body _⟩
    · rename_i duration answered
      split
      · exact ⟨0, .outcome attempt body⟩
      · rename_i positive
        have asks : p.Asks attempt (w.base attempt) := ⟨duration, answered, by omega⟩
        split
        · exact ⟨0, .outcome attempt body⟩
        · rename_i body' rewound
          split
          · exact ⟨0, .failed attempt body _⟩
          · have less := asks.lt
            obtain rfl := rewind_eq rewound
            obtain ⟨more, follows⟩ := ih _ (by omega) (attempt + 1) (w.bodyAfter attempt) rfl
            exact ⟨more + 1, follows.next body ⟨asks, rewound⟩⟩

end Loop

/-- What a caller and a server can rely on. Attempts are numbered from 0. -/
structure Protocol (w : Surroundings ρ) (p : GenericPolicy ρ) (log : List Event) (result : Result) : Prop where
  bounded : ((attempts log).length : Int) ≤ max p.maxRetry 0 + 1
  numbered : ∀ (n : Nat) (entry : Nat × Option Body), (attempts log)[n]? = some entry → entry.1 = n
  /-- The first body is the caller's; each later one comes from a call of `GetBody` of its own. -/
  bodies : ∀ (n : Nat) (entry : Nat × Option Body), (attempts log)[n]? = some entry →
    entry.2 = if w.hasBody then some (if n = 0 then .original else .rewound (n - 1)) else none
  obtained : ∀ n, n + 1 < (attempts log).length → w.hasBody = true →
    ∃ getBody, w.getBody = some getBody ∧ getBody n = .ok ()
  closed : ∀ n, n < (attempts log).length → (w.base n).isOk → result ≠ .outcome n →
    log.count (.closed n) = 1
  returned : ∀ n, result = .outcome n → n + 1 = (attempts log).length ∧ .closed n ∉ log
  accepted : ∀ n, n + 1 < (attempts log).length → p.Asks n (w.base n)

theorem rewind_getBody {w : Surroundings ρ} {attempt : Nat} {body : Option Body}
    (rewound : w.rewind attempt = some body) (has : w.hasBody = true) :
    ∃ getBody, w.getBody = some getBody ∧ getBody attempt = .ok () := by
  rw [Surroundings.rewind, if_pos has] at rewound
  split at rewound
  · cases rewound
  · rename_i getBody found
    split at rewound
    · cases rewound
    · rename_i answered
      exact ⟨getBody, found, answered⟩

/-- Whatever the attempts return, whenever the context is done, and whether or not the body can be
rewound, `RoundTrip` with a `GenericPolicy` keeps to the protocol. -/
theorem roundTrip_protocol (w : Surroundings ρ) (p : GenericPolicy ρ) :
    Protocol w p (w.roundTrip p).1 (w.roundTrip p).2 := by
  obtain ⟨more, follows⟩ := loop_follows (w := w) (p := p) 0 (if w.hasBody then some .original else none)
  change Follows w p 0 _ more (w.roundTrip p) at follows
  have length : (attempts (w.roundTrip p).1).length = more + 1 := by simp [follows.sent]
  have continues : ∀ n, n < more → Continues w p n := fun n below => follows.continues n n.zero_le (by omega)
  constructor
  case bounded =>
    rw [length]
    cases more with
    | zero => omega
    | succ more =>
      have less := (continues more more.lt_succ_self).asks.lt
      omega
  case numbered =>
    intro n entry found
    rw [follows.sent] at found
    cases n with
    | zero => cases found; rfl
    | succ n =>
      simp only [List.getElem?_cons_succ, List.getElem?_map, Option.map_eq_some_iff] at found
      obtain ⟨m, atN, rfl⟩ := found
      simp only [List.getElem?_eq_some_iff, List.getElem_range'] at atN
      omega
  case bodies =>
    intro n entry found
    rw [follows.sent] at found
    cases n with
    | zero => cases found; simp
    | succ n =>
      simp only [List.getElem?_cons_succ, List.getElem?_map, Option.map_eq_some_iff] at found
      obtain ⟨m, atN, rfl⟩ := found
      simp only [List.getElem?_eq_some_iff, List.getElem_range'] at atN
      obtain ⟨_, rfl⟩ := atN
      simp [Surroundings.bodyAfter]
  case obtained =>
    intro n below has
    exact rewind_getBody (continues n (by omega)).rewound has
  case closed =>
    intro n below resp other
    rw [follows.closed, if_pos ⟨n.zero_le, by omega, resp, other⟩]
  case returned =>
    intro n same
    refine ⟨by rw [follows.last n same, length]; omega, ?_⟩
    rw [← List.count_eq_zero, follows.closed, if_neg fun closed => closed.2.2.2 same]
  case accepted => exact fun n below => (continues n (by omega)).asks

end OrasGo.Retry
