import OrasGo.Copy.State

/-! `oras.Copy`: the hooks that `prepareCopy` puts around the callbacks of the caller, so that the
copy of the graph also tags its root. -/

namespace OrasGo.Copy
open Interleaving Syncutil

/-- What the workers of `Copy` ask for: what those of `copyGraph` do, where the callbacks are now
those of the caller, and the operations of the hooks on the cache and on the destination. -/
inductive TargetOp
  | copy (op : CopyOp)
  | fetchCached (desc : Descriptor)
  | pushReference (desc : Descriptor) (reference : String)
  | tag (desc : Descriptor) (reference : String)

@[reducible] def TargetAns : TargetOp → Type
  | .copy op => CopyAns op
  | .fetchCached _ => Option Error
  | .pushReference _ _ => Option Error
  | .tag _ _ => Option Error

abbrev Hook := Code TargetOp Item TargetAns

/-- The root and the reference of a copy, and whether the destination is a `registry.ReferencePusher`. -/
structure Delivery where
  root : Descriptor
  dstRef : String
  refPusher : Bool

namespace Delivery
variable (delivery : Delivery)

def ask (op : TargetOp) : Hook (TargetAns op) := call (.user op)

/-- `copyCachedNodeWithReference`. -/
def copyCachedNodeWithReference (desc : Descriptor) : Hook (Option Error) := do
  match ← ask (.fetchCached desc) with
  | some err => return some (Error.newCopyError "Fetch" .source err)
  | none =>
    match ← ask (.pushReference desc delivery.dstRef) with
    | some err =>
      if Error.is .alreadyExists err then return none
      else return some (Error.newCopyError "PushReference" .destination err)
    | none => return none

/-- `dst.Tag` of the root. -/
def tagRoot : Hook (Option Error) := do
  match ← ask (.tag delivery.root delivery.dstRef) with
  | some err => return some (Error.newCopyError "Tag" .destination err)
  | none => return none

/-- The `PreCopy` of `prepareCopy`. -/
def preCopy (desc : Descriptor) : Hook (Option Error) := do
  let (_, err) ← ask (.copy (.preCopy desc))
  if delivery.refPusher then
    match err with
    | some err => return some err
    | none =>
      if contentEqual desc delivery.root = false then return none
      else
        match ← delivery.copyCachedNodeWithReference desc with
        | some err => return some err
        | none =>
          match ← ask (.copy (.callback .postCopy desc)) with
          | some err => return some err
          | none => return some .skipNode
  else return err

/-- The `PostCopy` of `prepareCopy`. -/
def postCopy (desc : Descriptor) : Hook (Option Error) := do
  if delivery.refPusher = false ∧ contentEqual desc delivery.root = true then
    match ← delivery.tagRoot with
    | some err => return some err
    | none => ask (.copy (.callback .postCopy desc))
  else ask (.copy (.callback .postCopy desc))

/-- The `OnCopySkipped` of `prepareCopy`. -/
def onCopySkipped (desc : Descriptor) : Hook (Option Error) := do
  if contentEqual desc delivery.root = false then ask (.copy (.callback .onCopySkipped desc))
  else if delivery.refPusher then delivery.copyCachedNodeWithReference desc
  else
    match ← ask (.copy (.callback .onCopySkipped desc)) with
    | some err => return some err
    | none => delivery.tagRoot

/-- What a worker of `copyGraph` gets for an operation, with the hooks of `prepareCopy` in the options. -/
def hooked : (op : CopyOp) → Hook (CopyAns op)
  | .preCopy desc => do return (false, ← delivery.preCopy desc)
  | .callback .postCopy desc => delivery.postCopy desc
  | .callback .onCopySkipped desc => delivery.onCopySkipped desc
  | op => ask (.copy op)

def handler : (op : Op CopyOp Item) → Hook (Ans CopyAns op)
  | .regionStart => call .regionStart
  | .regionEnd => call .regionEnd
  | .withContext => call .withContext
  | .spawn g item => call (.spawn g item)
  | .load g => call (.load g)
  | .wait g => call (.wait g)
  | .compareAndSwap g err => call (.compareAndSwap g err)
  | .report g err => call (.report g err)
  | .user op => delivery.hooked op

/-- The goroutines of `copyGraph` with the hooks. -/
def work (opts : Options) (item : Item) : Hook (Option Error) := (Copy.work opts item).handle delivery.handler

end Delivery

/-- What the workers share, and the references of the destination. -/
structure TargetState extends CopyState where
  references : String → Option Key

def TargetState.resolveTo (st : TargetState) (reference : String) (k : Key) : TargetState :=
  { st with references := Function.update st.references reference (some k) }

/-- The surroundings answer as they do to `copyGraph`, except that the caller's `FindSuccessors` may
find anything. `PushReference` stores the node and lets the reference point to it, or says that this
is so already, or fails; `Tag` lets the reference point to its node, or fails. As before, nobody
returns `skipSource`. -/
def answerTarget (G : Content) (st : TargetState) (t : Nat) (ended : Bool) :
    (op : TargetOp) → TargetAns op → Option TargetState
  | .copy (.findSuccessors _), _ => some st
  | .copy (.callback which desc), err =>
    if foreignError err then some { st with toCopyState := st.record t (fromOCI desc) which err } else none
  | .copy op, a => (answer G st.toCopyState t ended op a).map fun copy => { st with toCopyState := copy }
  | .fetchCached _, err => if foreignError err then some st else none
  | .pushReference desc reference, none =>
    some { st.resolveTo reference (fromOCI desc) with stored := insert (fromOCI desc) st.stored }
  | .pushReference desc reference, some err =>
    if foreignError (some err) ∧ (Error.is .alreadyExists err →
        fromOCI desc ∈ st.stored ∧ st.references reference = some (fromOCI desc)) then
      some st
    else none
  | .tag desc reference, none => some (st.resolveTo reference (fromOCI desc))
  | .tag _ _, some err => if foreignError (some err) then some st else none

abbrev TargetRun := State TargetOp Item TargetAns TargetState

def targetMachine (G : Content) (opts : Options) (delivery : Delivery) :
    Machine (Op TargetOp Item) (Ans TargetAns) (Shared TargetState) (Label Item) (Option Error) :=
  machine (delivery.work opts) (answerTarget G)

/-- What `Copy` may ask of its source. -/
structure Source where
  resolve : String → Except Error Descriptor
  fetchReference : Option (String → Except Error (Descriptor × Bytes))

/-- `resolveRoot`. -/
def resolveRoot (cd : Codec) (src : Source) (srcRef : String) : Except Error Descriptor :=
  match src.fetchReference with
  | none =>
    match src.resolve srcRef with
    | .error err => .error (Error.newCopyError "Resolve" .source err)
    | .ok desc => .ok desc
  | some fetchReference =>
    match fetchReference srcRef with
    | .error err => .error (Error.newCopyError "FetchReference" .source err)
    | .ok (root, content) =>
      let fetcher : Fetcher := fun target =>
        if contentEqual target root then .ok content else .error (.text "fetching only root node expected")
      match successors cd fetcher root with
      | .error err => .error (Error.newCopyError "Successors" .source err)
      | .ok _ => .ok root

/-- The root that `Copy` copies, which the caller may map. -/
def findRoot (cd : Codec) (src : Source) (srcRef : String) (mapRoot : Option (Descriptor → Except Error Descriptor)) :
    Except Error Descriptor :=
  match resolveRoot cd src srcRef, mapRoot with
  | .error err, _ => .error err
  | .ok root, none => .ok root
  | .ok root, some mapRoot =>
    match mapRoot root with
    | .error err => .error (Error.newCopyError "MapRoot" .source err)
    | .ok root => .ok root

/-- The arguments of `Copy`, and the destination as it finds it. -/
structure CopyCall where
  content : Content
  src : Source
  srcRef : String
  dstRef : String
  refPusher : Bool
  opts : Options
  mapRoot : Option (Descriptor → Except Error Descriptor)
  concurrency : Nat
  stored : Finset Key
  references : String → Option Key

namespace CopyCall
variable (c : CopyCall)

/-- The destination reference is the source reference if it is left blank. -/
def reference : String := if c.dstRef = "" then c.srcRef else c.dstRef

def delivery (root : Descriptor) : Delivery := ⟨root, c.reference, c.refPusher⟩

/-- `copyGraph` with the hooks, where a concurrency of 0 is the default one. -/
def start (root : Descriptor) : TargetRun :=
  initial (some (if c.concurrency = 0 then 3 else c.concurrency))
    { stored := c.stored, references := c.references } [.node root]

def machine (root : Descriptor) :
    Machine (Op TargetOp Item) (Ans TargetAns) (Shared TargetState) (Label Item) (Option Error) :=
  targetMachine c.content c.opts (c.delivery root)

/-- What `Copy` may come to: the descriptor or the error it returns, and what it leaves behind. -/
inductive Returns : Except Error Descriptor → TargetState → Prop
  | unresolved {err : Error} : findRoot c.content.codec c.src c.srcRef c.mapRoot = .error err →
      Returns (.error err) { stored := c.stored, references := c.references }
  | failed {root : Descriptor} {err : Error} {σ : TargetRun} :
      findRoot c.content.codec c.src c.srcRef c.mapRoot = .ok root → Reach (c.machine root) (c.start root) σ →
      σ.Returned 0 (some err) → Returns (.error err) σ.shared.user
  | copied {root : Descriptor} {σ : TargetRun} :
      findRoot c.content.codec c.src c.srcRef c.mapRoot = .ok root → Reach (c.machine root) (c.start root) σ →
      σ.Returned 0 none → Returns (.ok root) σ.shared.user

end CopyCall

end OrasGo.Copy
