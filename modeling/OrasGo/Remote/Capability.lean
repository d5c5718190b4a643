import OrasGo.Base.Pool
import OrasGo.Descriptor

/-! Whether a repository supports the Referrers API, found out by any number of concurrent calls. -/

namespace OrasGo.Remote.Capability
open Interleaving

/-- `referrersState`. -/
inductive ReferrersState
  | unknown
  | supported
  | unsupported
  deriving DecidableEq

def ReferrersState.of (capable : Bool) : ReferrersState := if capable then .supported else .unsupported

/-- The response to a ping, with the error that `ParseErrorResponse` finds in it. -/
structure Response where
  statusCode : Nat
  contentType : String
  nameUnknown : Bool
  err : Error

/-- Accesses to `referrersState` and `referrersPingLock`, and requests to the registry, which may
answer anything. -/
inductive Op
  | load
  | compareAndSwap (capable : Bool)
  | lock
  | unlock
  | referrersByAPI
  | referrersByTagSchema
  | ping

@[reducible] def Ans : Op → Type
  | .load => ReferrersState
  | .compareAndSwap _ => Bool
  | .lock | .unlock => Unit
  | .referrersByAPI | .referrersByTagSchema => Option Error
  | .ping => Except Error Response

abbrev Code := Prog Op Ans

def ask (op : Op) : Code (Ans op) := Prog.perform op

/-- `SetReferrersCapability`. -/
def setReferrersCapability (capable : Bool) : Code (Option Error) := do
  if ← ask (.compareAndSwap capable) then return none
  let fact ← ask .load
  if fact = .of capable then return none
  return some (.wrap ("current capability = " ++ toString (fact == .supported) ++ ", new capability = " ++ toString capable)
    (.text "referrers capability cannot be changed once set"))

/-- `Referrers`. -/
def referrers : Code (Option Error) := do
  let state ← ask .load
  if state = .unsupported then ask .referrersByTagSchema
  else
    let err ← ask .referrersByAPI
    if state = .supported then return err
    match err with
    | some err =>
      if Error.is .unsupported err then
        let _ ← setReferrersCapability false
        ask .referrersByTagSchema
      else return some err
    | none =>
      let _ ← setReferrersCapability true
      return none

/-- `pingReferrers` from its second look at the state on. -/
def pingLocked : Code (Except Error Bool) := do
  match ← ask .load with
  | .supported => return .ok true
  | .unsupported => return .ok false
  | .unknown =>
    match ← ask .ping with
    | .error err => return .error err
    | .ok resp =>
      if resp.statusCode = 200 then
        let supported := resp.contentType == "application/vnd.oci.image.index.v1+json"
        let _ ← setReferrersCapability supported
        return .ok supported
      else if resp.statusCode = 404 ∧ resp.nameUnknown = false then
        let _ ← setReferrersCapability false
        return .ok false
      else return .error resp.err

/-- `pingReferrers`. -/
def pingReferrers : Code (Except Error Bool) := do
  match ← ask .load with
  | .supported => return .ok true
  | .unsupported => return .ok false
  | .unknown =>
    ask .lock
    let result ← pingLocked
    ask .unlock
    return result

inductive Call
  | set (capable : Bool)
  | list
  | ping

inductive Result
  | set (err : Option Error)
  | listed (err : Option Error)
  | pinged (supported : Except Error Bool)

def Call.code : Call → Code Result
  | .set capable => do return .set (← setReferrersCapability capable)
  | .list => do return .listed (← referrers)
  | .ping => do return .pinged (← pingReferrers)

structure Shared where
  state : ReferrersState := .unknown
  holder : Option Nat := none

def perform (s : Shared) (t _ : Nat) : (op : Op) → Ans op → Option (Shared × List (Thread Op Ans Call Result))
  | .load, fact => if fact = s.state then some (s, []) else none
  | .compareAndSwap capable, swapped =>
    if swapped = decide (s.state = .unknown) then
      some ({ s with state := if swapped then .of capable else s.state }, [])
    else none
  | .lock, _ => if s.holder = none then some ({ s with holder := some t }, []) else none
  | .unlock, _ => some ({ s with holder := none }, [])
  | .referrersByAPI, _ | .referrersByTagSchema, _ | .ping, _ => some (s, [])

def machine : Machine Op Ans Shared Call Result := ⟨perform, fun _ _ => False⟩

abbrev Run := Pool Op Ans Shared Call Result

/-- The calls are about to be made on a new repository. -/
def start (calls : List Call) : Run := ⟨{}, calls.map fun call => ⟨call, call.code⟩⟩

/-- Whether a call has the lock, and the last it learned of the state. -/
structure Local where
  locked : Bool := false
  knows : ReferrersState := .unknown

def ghost : Ghost Op Ans Local where
  pre op l := match op with
    | .lock => l.locked = false
    | .unlock | .ping => l.locked = true
    | _ => True
  next op a l l' := match op, a with
    | .load, fact => l' = { l with knows := fact } ∧ (l.knows ≠ .unknown → fact = l.knows)
    | .compareAndSwap capable, swapped => ∃ fact, l' = { l with knows := fact } ∧ fact ≠ .unknown ∧
        (swapped = true → fact = .of capable)
    | .lock, _ => l' = { l with locked := true }
    | .unlock, _ => l' = { l with locked := false }
    | _, _ => l' = l

/-- What the state must be once a call has returned. -/
def Settles (state : ReferrersState) : Call → Result → Prop
  | .set capable, .set none => state = .of capable
  | .set capable, .set (some _) => state = .of !capable
  | .list, .listed err => err = none → state ≠ .unknown
  | .ping, .pinged answer => ∀ b, answer = .ok b → state ≠ .unknown
  | _, _ => False

def post (call : Call) (result : Result) (l : Local) : Prop :=
  l.locked = false ∧ ∀ state, (l.knows ≠ .unknown → state = l.knows) → Settles state call result

theorem of_ne_unknown (capable : Bool) : ReferrersState.of capable ≠ .unknown := by
  cases capable <;> nofun

theorem wp_set (capable : Bool) {after : Option Error → Local → Prop} {l : Local}
    (done : after none { l with knows := .of capable }) (refused : ∀ err, after (some err) { l with knows := .of !capable }) :
    wp ghost (setReferrersCapability capable) after l := by
  refine ⟨trivial, fun swapped l₁ moved => ?_⟩
  obtain ⟨fact, rfl, known, own⟩ := moved
  cases swapped with
  | true => exact own rfl ▸ done
  | false =>
    refine ⟨trivial, fun fact' l₂ learned => ?_⟩
    obtain ⟨rfl, same⟩ := learned
    obtain rfl : fact' = fact := same known
    cases fact' with
    | unknown => exact absurd rfl known
    | supported | unsupported => cases capable <;> first | exact done | exact refused _

theorem wp_set_known (capable : Bool) (l : Local) :
    wp ghost (setReferrersCapability capable) (fun _ l' => l'.locked = l.locked ∧ l'.knows ≠ .unknown) l :=
  wp_set capable ⟨rfl, of_ne_unknown _⟩ fun _ => ⟨rfl, of_ne_unknown _⟩

theorem wp_referrers :
    wp ghost referrers (fun err l => l.locked = false ∧ (err = none → l.knows ≠ .unknown)) {} := by
  refine ⟨trivial, fun state l learned => ?_⟩
  obtain ⟨rfl, -⟩ := learned
  cases state with
  | supported | unsupported =>
    refine ⟨trivial, fun err l' same => ?_⟩
    cases same
    exact ⟨rfl, fun _ => nofun⟩
  | unknown =>
    refine ⟨trivial, fun err l' same => ?_⟩
    cases same
    cases err with
    | none =>
      change wp ghost (setReferrersCapability true >>= fun _ => pure none) _ _
      exact wp_seq ghost (wp_set_known true {}) fun _ _ known => ⟨known.1, fun _ => known.2⟩
    | some err =>
      change wp ghost (if Error.is .unsupported err then
        setReferrersCapability false >>= fun _ => ask .referrersByTagSchema else pure (some err)) _ _
      split
      · refine wp_seq ghost (wp_set_known false {}) fun _ l₁ known => ⟨trivial, fun _ l₂ same => ?_⟩
        cases same
        exact ⟨known.1, fun _ => known.2⟩
      · exact ⟨rfl, nofun⟩

theorem wp_pingLocked : wp ghost pingLocked
    (fun answer l => l.locked = true ∧ ∀ b, answer = .ok b → l.knows ≠ .unknown) ⟨true, .unknown⟩ := by
  refine ⟨trivial, fun state l learned => ?_⟩
  obtain ⟨rfl, -⟩ := learned
  cases state with
  | supported | unsupported => exact ⟨rfl, fun _ _ => nofun⟩
  | unknown =>
    refine ⟨rfl, fun answer l' same => ?_⟩
    cases same
    have settles (supported : Bool) : wp ghost (setReferrersCapability supported >>= fun _ => pure (.ok supported))
        (fun (answer : Except Error Bool) l => l.locked = true ∧ ∀ b, answer = .ok b → l.knows ≠ .unknown) ⟨true, .unknown⟩ :=
      wp_seq ghost (wp_set_known supported _) fun _ _ known => ⟨known.1, fun _ _ => known.2⟩
    cases answer with
    | error err => exact ⟨rfl, nofun⟩
    | ok resp =>
      change wp ghost (if resp.statusCode = 200 then _ else if _ then _ else _) _ _
      split
      · exact settles _
      split
      · exact settles false
      · exact ⟨rfl, nofun⟩

theorem wp_code (call : Call) : wp ghost call.code (post call) {} := by
  cases call with
  | set capable =>
    have done : wp ghost (setReferrersCapability capable) (fun err l => post (.set capable) (.set err) l) {} :=
      wp_set capable ⟨rfl, fun _ fact => fact (of_ne_unknown _)⟩ fun _ => ⟨rfl, fun _ fact => fact (of_ne_unknown _)⟩
    exact wp_seq ghost done fun _ _ known => known
  | list =>
    refine wp_seq ghost wp_referrers fun err l known => ⟨known.1, fun state fact done => ?_⟩
    rw [fact (known.2 done)]
    exact known.2 done
  | ping =>
    refine ⟨trivial, fun state l learned => ?_⟩
    obtain ⟨rfl, -⟩ := learned
    cases state with
    | supported | unsupported => exact ⟨rfl, fun _ fact _ _ => fact nofun ▸ nofun⟩
    | unknown =>
      refine ⟨rfl, fun _ l' same => ?_⟩
      cases same
      change wp ghost ((pingLocked >>= fun answer => ask .unlock >>= fun _ => pure answer) >>=
        fun answer => pure (Result.pinged answer)) _ _
      rw [Prog.bind_assoc]
      refine wp_seq ghost wp_pingLocked fun answer l₁ known => ⟨known.1, fun _ l₂ same => ?_⟩
      cases same
      refine ⟨rfl, fun state fact b done => ?_⟩
      rw [fact (known.2 b done)]
      exact known.2 b done

section Invariant
variable {s s' : Shared} {t n : Nat} {op : Op} {a : Ans op} {spawned : List (Thread Op Ans Call Result)}

/-- A capability that is known stays as it is, whatever is done. -/
theorem perform_frame (performed : machine.perform s t n op a = some (s', spawned)) :
    spawned = [] ∧ (s.state ≠ .unknown → s'.state = s.state) := by
  cases op with
  | compareAndSwap capable =>
    obtain ⟨swapped, same⟩ := of_ite_some performed
    cases same
    refine ⟨rfl, fun known => ?_⟩
    have failed : a = false := by simpa [known] using swapped
    rw [failed]
    rfl
  | load | lock =>
    obtain ⟨_, same⟩ := of_ite_some performed
    cases same
    exact ⟨rfl, fun _ => rfl⟩
  | unlock | referrersByAPI | referrersByTagSchema | ping =>
    cases performed
    exact ⟨rfl, fun _ => rfl⟩

/-- What a call has learned is true, and the one that thinks it has the lock is its holder. -/
def Local.Agrees (s : Shared) (t : Nat) (l : Local) : Prop :=
  (l.knows ≠ .unknown → s.state = l.knows) ∧ (l.locked = true ↔ s.holder = some t)

def Inv (s : Shared) (ghosts : List (Call × Local)) : Prop :=
  ∀ (t : Nat) (call : Call) (l : Local), ghosts[t]? = some (call, l) → l.Agrees s t

variable {ghosts : List (Call × Local)} {call : Call} {l l' : Local}

theorem Inv.move (inv : Inv s ghosts) (kept : s.state ≠ .unknown → s'.state = s.state) (own : l'.Agrees s' t)
    (others : ∀ t', t' ≠ t → (s'.holder = some t' ↔ s.holder = some t')) : Inv s' (ghosts.set t (call, l')) := by
  intro t' call' l₁ found
  rcases getElem?_set_cases found with ⟨rfl, same⟩ | ⟨other, before⟩
  · cases same
    exact own
  · obtain ⟨knows, locks⟩ := inv t' call' l₁ before
    refine ⟨fun known => ?_, locks.trans (others t' other).symm⟩
    have fact := knows known
    rw [kept (fact ▸ known), fact]

theorem capability_sound : Sound (fun _ => ghost) post machine Inv := by
  intro s ghosts t call l op a s' spawned inv found pre performed
  obtain ⟨rfl, kept⟩ := perform_frame performed
  obtain ⟨knows, locks⟩ := inv t call l found
  suffices moved : ∃ l', ghost.next op a l l' ∧ l'.Agrees s' t ∧ ∀ t', t' ≠ t → (s'.holder = some t' ↔ s.holder = some t') by
    obtain ⟨l', next, own, others⟩ := moved
    exact .move l' next (inv.move kept own others)
  cases op with
  | load =>
    obtain ⟨fact, same⟩ := of_ite_some performed
    cases same
    exact ⟨_, ⟨rfl, fun known => fact.trans (knows known)⟩, ⟨fun _ => fact.symm, locks⟩, fun _ _ => Iff.rfl⟩
  | compareAndSwap capable =>
    obtain ⟨swapped, same⟩ := of_ite_some performed
    cases same
    refine ⟨_, ⟨_, rfl, ?_, fun done => if_pos done⟩, ⟨fun _ => rfl, locks⟩, fun _ _ => Iff.rfl⟩
    cases a with
    | true => exact of_ne_unknown capable
    | false => exact of_decide_eq_false swapped.symm
  | lock =>
    obtain ⟨free, same⟩ := of_ite_some performed
    cases same
    refine ⟨_, rfl, ⟨knows, iff_of_true rfl rfl⟩, fun t' other => ?_⟩
    rw [free]
    exact iff_of_false (fun taken => other (Option.some.inj taken).symm) nofun
  | unlock =>
    cases performed
    refine ⟨_, rfl, ⟨knows, iff_of_false nofun nofun⟩, fun t' other => ?_⟩
    rw [locks.mp pre]
    exact iff_of_false nofun fun held => other (Option.some.inj held).symm
  | referrersByAPI | referrersByTagSchema | ping =>
    cases performed
    exact ⟨l, rfl, ⟨knows, locks⟩, fun _ _ => Iff.rfl⟩

variable {calls : List Call} {σ σ' : Run}

theorem capability_reach (reach : Reach machine (start calls) σ) : Outline (fun _ => ghost) post Inv σ := by
  refine Outline.reach capability_sound (fun _ _ _ _ => False.elim) ⟨calls.map (·, {}), ?_, fun t call l found => ?_⟩ reach
  · rw [start, List.forall₂_map_left_iff, List.forall₂_map_right_iff, List.forall₂_same]
    exact fun call _ => ⟨rfl, wp_code call⟩
  · obtain ⟨_, _, same⟩ := List.mem_map.mp (List.mem_of_getElem? found)
    cases same
    exact ⟨fun known => absurd rfl known, iff_of_false nofun nofun⟩

theorem state_kept (known : σ.shared.state ≠ .unknown) (reach : Reach machine σ σ') : σ'.shared.state = σ.shared.state := by
  refine Reach.invariant (P := fun σ' => σ'.shared.state = σ.shared.state) ?_ reach rfl
  intro σ₁ σ₂ same step
  cases step with
  | env impossible => exact impossible.elim
  | thread t moved =>
    cases moved with
    | answer _ performed => exact ((perform_frame performed).2 (same ▸ known)).trans same

/-- A call that returns has found the capability, or set it, as its result says, and has not the
lock; no two calls ping at a time; and a capability that is known is never changed. -/
theorem capability_settled (reach : Reach machine (start calls) σ) :
    (∀ (t : Nat) call result, σ.threads[t]? = some ⟨call, .ret result⟩ →
      Settles σ.shared.state call result ∧ σ.shared.holder ≠ some t) ∧
    (∀ (t t' : Nat) call call' next next', σ.threads[t]? = some ⟨call, .call .ping next⟩ →
      σ.threads[t']? = some ⟨call', .call .ping next'⟩ → t = t') ∧
    (σ.shared.state ≠ .unknown → ∀ σ', Reach machine σ σ' → σ'.shared.state = σ.shared.state) := by
  obtain ⟨ghosts, fits, inv⟩ := capability_reach reach
  have holder {t : Nat} {call : Call} {next : Ans .ping → Code Result}
      (pings : σ.threads[t]? = some ⟨call, .call .ping next⟩) : σ.shared.holder = some t := by
    obtain ⟨l, atT, locked, _⟩ := ghost_of_thread fits pings
    exact (inv t _ l atT).2.mp locked
  refine ⟨fun t call result returned => ?_, fun t t' call call' next next' pings pings' => ?_, fun known σ' => state_kept known⟩
  · obtain ⟨l, atT, free, settles⟩ := ghost_of_thread fits returned
    obtain ⟨knows, locks⟩ := inv t _ l atT
    exact ⟨settles _ knows, fun held => nomatch free.symm.trans (locks.mpr held)⟩
  · exact Option.some.inj ((holder pings).symm.trans (holder pings'))

/-- The second of two calls that disagree is refused. -/
theorem capability_settled_refused : ∃ σ err, Reach machine (start [.set true, .set false]) σ ∧
    σ.threads[1]? = some ⟨.set false, .ret (.set (some err))⟩ ∧ σ.shared.state = .of true := by
  have set : Reach machine (start [.set true, .set false]) _ := .single (.thread 0 (.answer (a := true) rfl rfl))
  have tried := set.tail (.thread 1 (.answer (a := false) rfl rfl))
  have refused := tried.tail (.thread 1 (.answer (a := ReferrersState.supported) rfl rfl))
  exact ⟨_, _, refused, rfl, ((capability_settled refused).1 1 (.set false) (.set (some _)) rfl).1⟩

end Invariant

end OrasGo.Remote.Capability
