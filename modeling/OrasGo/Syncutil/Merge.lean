import OrasGo.Base.Program
import OrasGo.Descriptor

/-! `syncutil.Merge`. -/

namespace OrasGo.Syncutil
open Interleaving

/-- `mergeStatus`. -/
structure MergeStatus where
  main : Bool := false
  err : Option Error := none
  deriving DecidableEq

/-- A `chan mergeStatus` of capacity 1. -/
structure StatusChan where
  buffer : Option MergeStatus := none
  closed : Bool := false
  deriving DecidableEq

/-- `Merge`, with the channels it has made: `status` and `pendingStatus` hold the number
of a channel, or are nil. -/
structure Merge (T : Type) where
  committed : Bool := false
  items : List T := []
  status : Option Nat := none
  pending : List T := []
  pendingStatus : Option Nat := none
  chans : List StatusChan := []
  deriving DecidableEq

namespace Merge
variable {T : Type}

def assign (m : Merge T) (item : T) : Nat × Merge T :=
  if m.committed then
    match m.pendingStatus with
    | none =>
      (m.chans.length, { m with
        pendingStatus := some m.chans.length
        pending := m.pending ++ [item]
        chans := m.chans ++ [{}] })
    | some ch => (ch, { m with pending := m.pending ++ [item] })
  else
    match m.status with
    | none =>
      (m.chans.length, { m with
        status := some m.chans.length
        items := m.items ++ [item]
        chans := m.chans ++ [{ buffer := some { main := true } }] })
    | some ch => (ch, { m with items := m.items ++ [item] })

/-- `<-ch`: blocks while the channel is open and has no value; a closed channel gives the
zero status. -/
def receive (m : Merge T) (ch : Nat) : Option (MergeStatus × Merge T) :=
  (m.chans[ch]?).bind fun c =>
    match c.buffer with
    | some value => some (value, { m with chans := m.chans.set ch { c with buffer := none } })
    | none => if c.closed then some ({}, m) else none

/-- `ch <- value`: blocks while the channel has a value, for ever on a nil channel, and
panics on a closed one. -/
def send (m : Merge T) (ch : Option Nat) (value : MergeStatus) : Option (Merge T) :=
  ch.bind fun ch => (m.chans[ch]?).bind fun c =>
    if c.buffer.isNone && !c.closed then
      some { m with chans := m.chans.set ch { c with buffer := some value } }
    else none

/-- `close(ch)`, which panics on a nil channel and on a closed one. -/
def close (m : Merge T) (ch : Option Nat) : Option (Merge T) :=
  ch.bind fun ch => (m.chans[ch]?).bind fun c =>
    if c.closed then none else some { m with chans := m.chans.set ch { c with closed := true } }

def commit (m : Merge T) : List T × Merge T := (m.items, { m with committed := true })

/-- What `complete` does under the lock: it moves the pending items to the stage. -/
def promote (m : Merge T) : Option (Merge T) :=
  let next := { m with
    committed := false
    items := m.pending
    status := m.pendingStatus
    pending := []
    pendingStatus := none }
  if next.status.isSome then next.send next.status { main := true } else some next

end Merge

/-- The accesses of the methods to the object they share. What a method does under the
lock is one operation; `complete` reads `m.items` and `m.status` without it. -/
inductive MergeOp (T : Type)
  | assign (item : T)
  | receive (ch : Nat)
  | commit
  | remaining
  | status
  | close (ch : Option Nat)
  | send (ch : Option Nat) (err : Error)
  | promote

abbrev MergeOp.Ans {T : Type} : MergeOp T → Type
  | assign _ => Nat
  | receive _ => MergeStatus
  | commit => List T
  | remaining => Nat
  | status => Option Nat
  | close _ | send _ _ | promote => Unit

/-- The answer of an object to an access and the object after it; `none` while the access
blocks, and where it panics. -/
def Merge.reply {T : Type} (m : Merge T) : (op : MergeOp T) → Option (op.Ans × Merge T)
  | .assign item => some (m.assign item)
  | .receive ch => m.receive ch
  | .commit => some m.commit
  | .remaining => some (m.items.length - 1, m)
  | .status => some (m.status, m)
  | .close ch => (m.close ch).map fun m => ((), m)
  | .send ch err => (m.send ch { err := some err }).map fun m => ((), m)
  | .promote => m.promote.map fun m => ((), m)

instance {T : Type} [DecidableEq T] : (op : MergeOp T) → DecidableEq op.Ans
  | .assign _ => inferInstanceAs (DecidableEq Nat)
  | .receive _ => inferInstanceAs (DecidableEq MergeStatus)
  | .commit => inferInstanceAs (DecidableEq (List T))
  | .remaining => inferInstanceAs (DecidableEq Nat)
  | .status => inferInstanceAs (DecidableEq (Option Nat))
  | .close _ | .send _ _ | .promote => inferInstanceAs (DecidableEq Unit)

section
variable {Op : Type} {Ans : Op → Type} {T : Type} (call : (op : MergeOp T) → Prog Op Ans op.Ans)

/-- The loop of `complete` that sends the error to the other calls of the batch. -/
def notify (ch : Option Nat) (err : Error) : Nat → Prog Op Ans Unit
  | 0 => pure ()
  | remaining + 1 => do
    call (.send ch err)
    notify ch err remaining

def complete (result : Option Error) : Prog Op Ans Unit := do
  match result with
  | none =>
    let status ← call .status
    call (.close status)
  | some err =>
    let remaining ← call .remaining
    let status ← call .status
    notify call status err remaining
  call .promote

/-- `Merge.Do`. -/
def mergeDo (item : T) (prepare : Prog Op Ans (Option Error)) (resolve : List T → Prog Op Ans (Option Error)) :
    Prog Op Ans (Option Error) := do
  let ch ← call (.assign item)
  let status ← call (.receive ch)
  if status.main then
    let prepared ← prepare
    let items ← call .commit
    let err ← if prepared.isNone then resolve items else pure prepared
    complete call err
    return err
  else
    return status.err

end

end OrasGo.Syncutil
