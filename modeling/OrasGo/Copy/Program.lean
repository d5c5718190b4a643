import OrasGo.Content
import OrasGo.Syncutil.Go

/-! The programs of `copy.go` and `extendedcopy.go` that copy a graph: what a
worker does between two answers of its surroundings. -/

namespace OrasGo.Copy
open Interleaving Syncutil

/-- The callbacks of `CopyGraphOptions` that report on a node. One that is not
set behaves as one that returns nil. -/
inductive Callback
  | onCopySkipped
  | preCopy
  | postCopy
  | onMounted
  deriving DecidableEq, Repr

/-- What `Mounter.Mount` does first: it mounts the blob, it fails, or it asks
for the content with `getContent`. -/
inductive MountAnswer
  | mounted
  | failed (err : Error)
  | getContent
  deriving DecidableEq, Repr

/-- `tryCommit`, `closeDone` and `selectDone` are on the done channel the tracker
has for a node, the others on the source with its cache, on the destination, and
on the caller's options. `mountPush` is the rest of a `Mount` that was given the
content. -/
inductive CopyOp
  | tryCommit (node : Descriptor)
  | closeDone (node : Descriptor)
  | selectDone (node : Descriptor)
  | dstExists (desc : Descriptor)
  | findSuccessors (desc : Descriptor)
  | cacheExists (desc : Descriptor)
  | fetch (desc : Descriptor)
  | push (desc : Descriptor)
  | preCopy (desc : Descriptor)
  | callback (which : Callback) (desc : Descriptor)
  | mountFrom (desc : Descriptor)
  | mount (desc : Descriptor) (repository : String)
  | mountPush (desc : Descriptor)

/-- `PreCopy` may itself store the node in the destination, as the one that
`prepareCopy` installs does, and tells whether it did. -/
@[reducible] def CopyAns : CopyOp → Type
  | .tryCommit _ => Bool
  | .closeDone _ => Unit
  | .selectDone _ => Option Error
  | .dstExists _ => Except Error Bool
  | .findSuccessors _ => Except Error (List Descriptor)
  | .cacheExists _ => Except Error Bool
  | .fetch _ => Option Error
  | .push _ => Option Error
  | .preCopy _ => Bool × Option Error
  | .callback _ _ => Option Error
  | .mountFrom _ => Except Error (List String)
  | .mount _ _ => MountAnswer
  | .mountPush _ => Option Error

/-- What a goroutine is started for: a root of `ExtendedCopyGraph`, or a node of
`copyGraph`. -/
inductive Item
  | root (desc : Descriptor)
  | node (desc : Descriptor)

abbrev Worker := Code CopyOp Item CopyAns

/-- Whether `opts.MountFrom` is set, and whether the destination is a
`registry.Mounter`. -/
structure Options where
  mountFrom : Bool
  mounter : Bool

def ask (op : CopyOp) : Worker (CopyAns op) := call (.user op)

/-- `removeForeignLayers`. -/
def removeForeignLayers (descs : List Descriptor) : List Descriptor :=
  descs.filter (fun desc => !isForeignLayer desc)

/-- `doCopyNode`. -/
def doCopyNode (desc : Descriptor) : Worker (Option Error) := do
  match ← ask (.fetch desc) with
  | some err => return some (Error.newCopyError "Fetch" .source err)
  | none =>
    match ← ask (.push desc) with
    | some err =>
      if Error.is .alreadyExists err then return none
      else return some (Error.newCopyError "Push" .destination err)
    | none => return none

/-- `copyNode`. -/
def copyNode (desc : Descriptor) : Worker (Option Error) := do
  let (_, preCopy) ← ask (.preCopy desc)
  match preCopy with
  | some err => if err = .skipNode then return none else return some err
  | none =>
    match ← doCopyNode desc with
    | some err => return some err
    | none => ask (.callback .postCopy desc)

/-- `getContent` of `mountOrCopyNode`. -/
def getContent (desc : Descriptor) (last : Bool) : Worker (Option Error) := do
  if last then
    let (_, preCopy) ← ask (.preCopy desc)
    match preCopy with
    | some err => return some err
    | none => ask (.fetch desc)
  else return some .skipSource

/-- What follows a call of `Mount` that has asked for the content: its error,
unless it is `skipSource`, ends the copy, and otherwise the loop goes on. -/
def afterMount (next : Worker (Option Error)) : Option Error → Worker (Option Error)
  | some err =>
    if Error.is .skipSource err then next
    else return some (Error.newCopyError "Mount" .destination err)
  | none => next

/-- The loop of `mountOrCopyNode` over the source repositories. `Mount` asks for
the content at most once and passes an error of `getContent` on. -/
def mountLoop (desc : Descriptor) : List String → Worker (Option Error)
  | [] => ask (.callback .postCopy desc)
  | repository :: rest => do
    match ← ask (.mount desc repository) with
    | .mounted => ask (.callback .onMounted desc)
    | .failed err => afterMount (ask (.callback .onMounted desc)) (some err)
    | .getContent =>
      match ← getContent desc rest.isEmpty with
      | some err => afterMount (mountLoop desc rest) (some (.wrap "cannot read source blob" err))
      | none =>
        let err ← ask (.mountPush desc)
        afterMount (mountLoop desc rest) err

/-- `mountOrCopyNode`. -/
def mountOrCopyNode (opts : Options) (desc : Descriptor) : Worker (Option Error) := do
  if opts.mountFrom = false ∨ isManifest desc = true then copyNode desc
  else if opts.mounter = false then copyNode desc
  else
    match ← ask (.mountFrom desc) with
    | .error err => return some err
    | .ok [] => copyNode desc
    | .ok sourceRepositories => mountLoop desc sourceRepositories

/-- The loop of `copyGraph` that waits for the successors of a node. -/
def awaitSuccessors (desc : Descriptor) : List Descriptor → Worker (Option Error)
  | [] => return none
  | node :: rest => do
    if ← ask (.tryCommit node) then
      return some (.text (desc.digest ++ ": " ++ node.digest ++ ": successor not committed"))
    else
      match ← ask (.selectDone node) with
      | some err => return some err
      | none => awaitSuccessors desc rest

/-- The part of `copyGraph` that processes the successors of a non-leaf node,
without the permit of its region. -/
def processSuccessors (desc : Descriptor) (successors : List Descriptor) : Worker (Option Error) := do
  if successors = [] then return none
  else
    regionEnd
    match ← go (successors.map .node) with
    | some err => return some err
    | none =>
      match ← awaitSuccessors desc successors with
      | some err => return some err
      | none => regionStart

/-- The callback of `copyGraph` once the successors of the node are found. -/
def copyFound (opts : Options) (desc : Descriptor) (successors : List Descriptor) :
    Worker (Option Error) := do
  match ← processSuccessors desc (removeForeignLayers successors) with
  | some err => return some err
  | none =>
    match ← ask (.cacheExists desc) with
    | .error err => return some (.wrap ("failed to check cache existence: " ++ desc.digest) err)
    | .ok true => copyNode desc
    | .ok false => mountOrCopyNode opts desc

/-- The callback of `copyGraph` once the node is committed. -/
def copyCommitted (opts : Options) (desc : Descriptor) : Worker (Option Error) := do
  match ← ask (.dstExists desc) with
  | .error err => return some (Error.newCopyError "Exists" .destination err)
  | .ok true => ask (.callback .onCopySkipped desc)
  | .ok false =>
    match ← ask (.findSuccessors desc) with
    | .error err => return some (Error.newCopyError "FindSuccessors" .source err)
    | .ok successors => copyFound opts desc successors

/-- The callback `fn` of `copyGraph`, with its deferred `close(done)`. -/
def fn (opts : Options) (desc : Descriptor) : Worker (Option Error) := do
  if ← ask (.tryCommit desc) then
    let err ← copyCommitted opts desc
    match err with
    | none => ask (.closeDone desc)
    | some _ => pure ()
    return err
  else return none

/-- The goroutines of `copyGraph` and of `ExtendedCopyGraph`; the latter calls
`copyGraph` for its root with the shared limiter and tracker. -/
def work (opts : Options) : Item → Worker (Option Error)
  | .node desc => fn opts desc
  | .root desc => do
    regionEnd
    match ← go [.node desc] with
    | some err => return some err
    | none => regionStart

end OrasGo.Copy
