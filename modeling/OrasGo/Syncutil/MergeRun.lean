import OrasGo.Base.Trace
import OrasGo.Syncutil.MergeSteps

/-! Any number of concurrent calls of `Merge.Do` on one object. -/

namespace OrasGo.Syncutil
open Interleaving

/-- The operations of a call: its accesses to the object, and the start and the end of the
functions it was given. -/
inductive CallOp (T : Type)
  | merge (op : MergeOp T)
  | prepareBegin
  | prepareEnd
  | resolveBegin (items : List T)
  | resolveEnd

abbrev CallOp.Ans {T : Type} : CallOp T → Type
  | merge op => op.Ans
  | prepareBegin | resolveBegin _ => Unit
  | prepareEnd | resolveEnd => Option Error

namespace MergeRun
variable {T : Type}

abbrev Code (T α : Type) := Prog (CallOp T) CallOp.Ans α

/-- A `prepare` that returns whatever it likes. -/
def prepare : Code T (Option Error) := do
  Prog.perform CallOp.prepareBegin
  Prog.perform CallOp.prepareEnd

/-- A `resolve` that returns whatever it likes. -/
def resolve (items : List T) : Code T (Option Error) := do
  Prog.perform (CallOp.resolveBegin items)
  Prog.perform CallOp.resolveEnd

def call (op : MergeOp T) : Code T op.Ans := Prog.perform (CallOp.merge op)

def code (item : T) : Code T (Option Error) := mergeDo call item prepare resolve

abbrev CallEvent (T : Type) := Event (CallOp T) CallOp.Ans

abbrev Log (T : Type) := List (CallEvent T)

abbrev Calls (T : Type) := Pool (CallOp T) CallOp.Ans (Merge T × Log T) T (Option Error)

def respond [DecidableEq T] (m : Merge T) : (op : CallOp T) → op.Ans → Option (Merge T)
  | .merge op, a => (m.reply op).bind fun out => if a = out.1 then some out.2 else none
  | .prepareBegin, _ | .prepareEnd, _ | .resolveBegin _, _ | .resolveEnd, _ => some m

def machine [DecidableEq T] : Machine (CallOp T) CallOp.Ans (Merge T) T (Option Error) where
  perform m _ _ op a := (respond m op a).map fun m => (m, [])
  env _ _ := False

/-- Calls with these items on a new object. -/
def start (items : List T) : Calls T := ⟨({}, []), items.map fun item => ⟨item, code item⟩⟩

/-- What a call has done with its functions. -/
inductive Report (T : Type)
  | prepareBegin
  | prepareEnd (err : Option Error)
  | resolveBegin (items : List T)
  | resolveEnd (err : Option Error)
  deriving DecidableEq

def report : CallEvent T → Option (Report T)
  | ⟨_, .merge _, _⟩ => none
  | ⟨_, .prepareBegin, _⟩ => some .prepareBegin
  | ⟨_, .prepareEnd, err⟩ => some (.prepareEnd err)
  | ⟨_, .resolveBegin items, _⟩ => some (.resolveBegin items)
  | ⟨_, .resolveEnd, err⟩ => some (.resolveEnd err)

/-- The item a call submits and the batch it gets into. -/
def joins : CallEvent T → Option (T × Nat)
  | ⟨_, .merge (.assign item), ch⟩ => some (item, ch)
  | _ => none

/-- The call receives the main token. -/
def elects : CallEvent T → Bool
  | ⟨_, .merge (.receive _), status⟩ => status.main
  | _ => false

/-- The call finishes `complete`. -/
def promotes : CallEvent T → Bool
  | ⟨_, .merge .promote, _⟩ => true
  | _ => false

/-- What `seen` sees of the events of a call. -/
def own {β : Type} (seen : CallEvent T → Option β) (log : Log T) (t : Nat) : List β :=
  (log.filter fun e => e.thread == t).filterMap seen

def reports (log : Log T) (t : Nat) : List (Report T) := own report log t

def joined (log : Log T) (t : Nat) : List (T × Nat) := own joins log t

/-- The items submitted to a batch. -/
def batchItems (log : Log T) (ch : Nat) : List T :=
  ((log.filterMap joins).filter fun j => j.2 == ch).map Prod.fst

/-- What the calls of a batch have done with their functions. -/
def batchReports (log : Log T) (ch : Nat) : List (Report T) :=
  (log.filter fun e => (joined log e.thread).map Prod.snd == [ch]).filterMap report

/-- The call is inside `prepare` or `resolve`. -/
def Running (log : Log T) (t : Nat) : Prop :=
  (reports log t).getLast? = some .prepareBegin ∨ ∃ items, (reports log t).getLast? = some (.resolveBegin items)

def Elected (log : Log T) (t : Nat) : Prop := ∃ e ∈ log, e.thread = t ∧ elects e = true

def Promoted (log : Log T) (t : Nat) : Prop := ∃ e ∈ log, e.thread = t ∧ promotes e = true

/-- All that a batch with these items does, and its outcome: `prepare` fails, or it succeeds
and `resolve` gets all the items once. -/
inductive Course (items : List T) : Option Error → List (Report T) → Prop
  | unprepared (err : Error) : Course items (some err) [.prepareBegin, .prepareEnd (some err)]
  | resolved (err : Option Error) :
      Course items err [.prepareBegin, .prepareEnd none, .resolveBegin items, .resolveEnd err]

/-- Each `prepare` starts after the calls that ran theirs before have finished `complete`. -/
def Ordered (log : Log T) : Prop :=
  ∀ (before after : Log T) (e : CallEvent T), log = before ++ e :: after → report e = some .prepareBegin →
    ∀ e' ∈ before, report e' = some .prepareBegin → Promoted before e'.thread

/-- What the merge protocol promises to the calls with these items. -/
structure Protocol [DecidableEq T] (items : List T) (σ : Calls T) : Prop where
  exclusive : ∀ t t', Running σ.shared.2 t → Running σ.shared.2 t' → t = t'
  oneBatch : ∀ (t : Nat) (item : T), items[t]? = some item →
    joined σ.shared.2 t = [] ∨ ∃ ch, joined σ.shared.2 t = [(item, ch)]
  resolvedOnce : ∀ ch, ∃ err whole, Course (batchItems σ.shared.2 ch) err whole ∧ batchReports σ.shared.2 ch <+: whole
  outcome : ∀ (t : Nat) (err : Option Error), σ.Returned t err →
    ∃ item ch, joined σ.shared.2 t = [(item, ch)] ∧ item ∈ batchItems σ.shared.2 ch ∧
      Course (batchItems σ.shared.2 ch) err (batchReports σ.shared.2 ch)
  ordered : Ordered σ.shared.2
  awaited : ∀ (t : Nat) (item : T) (ch : Nat) (next : MergeStatus → Code T (Option Error)),
    σ.threads[t]? = some ⟨item, .call (.merge (.receive ch)) next⟩ →
    Available σ.shared.1 ch ∨ (∃ u, Elected σ.shared.2 u ∧ ¬ Promoted σ.shared.2 u) ∨
      σ.shared.1.chans[ch]? = some { buffer := some { main := true } }
  progress : ∀ t, σ.Unfinished t → ∃ σ', Step machine.traced σ σ'

end MergeRun

end OrasGo.Syncutil
