import OrasGo.Base.Reply
import OrasGo.Cas.Memory

/-! `cas.Proxy` over `cas.Memory`: the callers that read and close what `Fetch` returned,
and the goroutines that push to the cache what these callers read. -/

namespace OrasGo.Cas
open Interleaving

/-- `pushLimit` is that of the `LimitedStorage` of `NewProxyWithLimit`; `NewProxy` has none. -/
structure Proxy where
  pushLimit : Option Int := none
  stopCaching : Bool := false

/-- The reader that the base storage returns, and the error of its `Close`. -/
structure Blob where
  content : Stream
  closing : Option Error := none

/-- A call of `Fetch`, what the base storage has for it, and what the caller does with the
reader before closing it. -/
structure FetchCall where
  target : Descriptor
  base : Except Error Blob
  consumer : Consumer (Except Error Bytes)

/-- The operations on the cache, on the `io.Pipe` and on the `sync.WaitGroup` of a call. The
caller uses those of its own call; the goroutine that pushes says which call it belongs to.
A `Write` starts with `offer` and returns with `await`. -/
inductive ProxyOp
  | load (key : Key)
  | loadOrStore (key : Key) (value : Bytes)
  | goPush (target : Descriptor)
  | offer (bytes : Bytes)
  | await (bytes : Bytes)
  | closeWriter
  | wait
  | readPipe (t k : Nat)
  | closeWithError (t : Nat) (err : Error)
  | done (t : Nat) (pushErr : Option Error)

@[reducible] def ProxyAns : ProxyOp → Type
  | .load _ => Option Bytes
  | .loadOrStore _ _ => Bool
  | .await _ => Option (Nat × Error)
  | .wait => Option Error
  | .readPipe _ _ => Chunk
  | _ => Unit

instance : (op : ProxyOp) → DecidableEq (ProxyAns op)
  | .load _ => inferInstanceAs (DecidableEq (Option Bytes))
  | .loadOrStore _ _ => inferInstanceAs (DecidableEq Bool)
  | .goPush _ => inferInstanceAs (DecidableEq Unit)
  | .offer _ => inferInstanceAs (DecidableEq Unit)
  | .await _ => inferInstanceAs (DecidableEq (Option (Nat × Error)))
  | .closeWriter => inferInstanceAs (DecidableEq Unit)
  | .wait => inferInstanceAs (DecidableEq (Option Error))
  | .readPipe _ _ => inferInstanceAs (DecidableEq Chunk)
  | .closeWithError _ _ => inferInstanceAs (DecidableEq Unit)
  | .done _ _ => inferInstanceAs (DecidableEq Unit)

abbrev ProxyCode := Prog ProxyOp ProxyAns

namespace ProxyCode

def load (key : Key) : ProxyCode (Option Bytes) := Prog.perform (ProxyOp.load key)

def loadOrStore (key : Key) (value : Bytes) : ProxyCode Bool := Prog.perform (ProxyOp.loadOrStore key value)

def wait : ProxyCode (Option Error) := Prog.perform ProxyOp.wait

/-- The program with `io.TeeReader(rc, pw)` as its reader, where `s` is what is left of `rc`.
The pipe's error comes before that of `rc`, with the number of bytes that were written. -/
def tee {α : Type} : Consumer α → Stream → ProxyCode α
  | .ret value, _ => .ret value
  | .call k next, s =>
    if (s.read k).1.1 = [] then tee (next (s.read k).1) (s.read k).2
    else .call (.offer (s.read k).1.1) fun _ => .call (.await (s.read k).1.1) fun
      | none => tee (next (s.read k).1) (s.read k).2
      | some (written, err) => tee (next ((s.read k).1.1.take written, some (.failed err))) (s.read k).2

/-- The program with the read end of the pipe of call `t` as its reader. -/
def fromPipe {α : Type} (t : Nat) : Consumer α → ProxyCode α
  | .ret value => .ret value
  | .call k next => .call (.readPipe t k) fun chunk => fromPipe t (next chunk)

end ProxyCode

inductive ProxyResult
  /-- `Fetch` has returned an error. -/
  | failed (err : Error)
  /-- The caller has made `value` of what it was given, and `Close` has returned `err`. -/
  | closed (value : Except Error Bytes) (taken : Taken) (err : Option Error)
  | pushed (err : Option Error)
  deriving DecidableEq

def errSizeExceedsLimit : Error := .text "size exceeds limit"

section
open ProxyCode
variable (p : Proxy) (cd : Codec)

/-- The caller reads from `s` alone, and closes it with the error `closing`. -/
def FetchCall.readFrom (call : FetchCall) (s : Stream) (closing : Option Error) : ProxyResult :=
  .closed (s.run (observe call.consumer {})).1 (s.run (observe call.consumer {})).2 closing

/-- The `io.NopCloser` of a `bytes.Reader` that `Memory.Fetch` returns. -/
def FetchCall.readCached (call : FetchCall) : Except Error Bytes → ProxyResult
  | .ok content => call.readFrom { chunks := [content] } none
  | .error err => .failed err

def FetchCall.readBase (call : FetchCall) : ProxyResult :=
  match call.base with
  | .ok blob => call.readFrom blob.content blob.closing
  | .error err => .failed err

/-- `Proxy.FetchCached` and its caller. -/
def fetchCached (call : FetchCall) : ProxyCode ProxyResult := do
  if ← contains ProxyCode.load call.target then return call.readCached (← fetch ProxyCode.load call.target)
  else return call.readBase

/-- The `closer` of `Proxy.Fetch`. -/
def closeTee (blob : Blob) (read : Except Error Bytes × Taken) : ProxyCode ProxyResult := do
  Prog.perform ProxyOp.closeWriter
  match ← wait with
  | some pushErr => return .closed read.1 read.2 (some pushErr)
  | none => return .closed read.1 read.2 blob.closing

/-- The caller reads through the pipe, and closes the reader. -/
def readTee (call : FetchCall) (blob : Blob) : ProxyCode ProxyResult := do
  Prog.perform (ProxyOp.goPush call.target)
  tee (observe call.consumer {}) blob.content >>= closeTee blob

/-- The caller, with what the cache has returned. -/
def fetchFound (call : FetchCall) : Except Error Bytes → ProxyCode ProxyResult
  | .ok content => return call.readCached (.ok content)
  | .error _ => match call.base with
    | .error err => return .failed err
    | .ok blob => readTee call blob

/-- `Proxy.Fetch` and its caller. -/
def fetchThrough (call : FetchCall) : ProxyCode ProxyResult :=
  if p.stopCaching then fetchCached call else fetch ProxyCode.load call.target >>= fetchFound call

/-- `Cache.Push` with the pipe of call `t`. -/
def cachePush (t : Nat) (target : Descriptor) : ProxyCode (Option Error) :=
  match p.pushLimit with
  | none => push ProxyCode.load ProxyCode.loadOrStore target (fromPipe t (readAllFrom cd target))
  | some limit =>
    if limit < target.size then
      return some (.wrap ("content size " ++ toString target.size ++ " exceeds push size limit " ++ toString limit)
        errSizeExceedsLimit)
    else push ProxyCode.load ProxyCode.loadOrStore target (fromPipe t (limitReader target.size.toNat (readAllFrom cd target)))

/-- The goroutine that pushes has the result of `Cache.Push`. -/
def report (t : Nat) : Option Error → ProxyCode ProxyResult
  | none => do
    Prog.perform (ProxyOp.done t none)
    return .pushed none
  | some err => do
    Prog.perform (ProxyOp.closeWithError t err)
    Prog.perform (ProxyOp.done t (some err))
    return .pushed (some err)

/-- The goroutine that pushes what the caller of `t` reads. -/
def goPush (t : Nat) (target : Descriptor) : ProxyCode ProxyResult := cachePush p cd t target >>= report t

end

inductive Role
  | caller (call : FetchCall)
  | pusher (t : Nat) (target : Descriptor)

/-- The pipe, the wait group and `pushErr` of a call. `offered` is what a `Write` has still to
hand over. -/
structure Pipe where
  offered : Bytes := []
  writerClosed : Bool := false
  readerErr : Option Error := none
  pushErr : Option (Option Error) := none

structure ProxyState where
  cache : Contents
  pipes : Nat → Pipe := fun _ => {}

def ProxyState.update (s : ProxyState) (t : Nat) (pipe : Pipe) : ProxyState :=
  { s with pipes := Function.update s.pipes t pipe }

section
variable (s : ProxyState) (t : Nat) (pipe : Pipe)

@[simp] theorem ProxyState.update_pipes : (s.update t pipe).pipes t = pipe := by simp [ProxyState.update]

theorem ProxyState.update_pipes_of_ne {t' : Nat} (other : t' ≠ t) : (s.update t pipe).pipes t' = s.pipes t' := by
  simp [ProxyState.update, other]

theorem ProxyState.update_self : s.update t (s.pipes t) = s := by simp [ProxyState.update]

end

def proxyReply (p : Proxy) (cd : Codec) : Reply ProxyOp ProxyAns ProxyState Role ProxyResult := fun s t _ op =>
  match op with
  | .load key => some (s.cache.lookup key, s, [])
  | .loadOrStore key value =>
    if key ∈ s.cache then some (true, s, [])
    else some (false, { s with cache := s.cache.insert key value }, [])
  | .goPush target => some ((), s, [⟨.pusher t target, goPush p cd t target⟩])
  | .offer bytes => some ((), s.update t { s.pipes t with offered := bytes }, [])
  | .await bytes =>
    if (s.pipes t).offered = [] then some (none, s, [])
    else (s.pipes t).readerErr.map fun err =>
      (some (bytes.length - (s.pipes t).offered.length, err), s.update t { s.pipes t with offered := [] }, [])
  | .closeWriter => some ((), s.update t { s.pipes t with writerClosed := true }, [])
  | .wait => (s.pipes t).pushErr.map fun err => (err, s, [])
  | .readPipe t k =>
    if (s.pipes t).offered = [] then
      if (s.pipes t).writerClosed then some (([], some .eof), s, []) else none
    else some (((s.pipes t).offered.take k, none), s.update t { s.pipes t with offered := (s.pipes t).offered.drop k }, [])
  | .closeWithError t err => some ((), s.update t { s.pipes t with readerErr := some err }, [])
  | .done t err => some ((), s.update t { s.pipes t with pushErr := some err }, [])

abbrev ProxyRun := Pool ProxyOp ProxyAns ProxyState Role ProxyResult

/-- The calls are about to be made, with the given contents of the cache. -/
def proxyStart (p : Proxy) (cache : Contents) (calls : List FetchCall) : ProxyRun :=
  ⟨{ cache }, calls.map fun call => ⟨.caller call, fetchThrough p call⟩⟩

end OrasGo.Cas
