import OrasGo.Copy.Program

/-! What the workers of a copy share, and the answers a faithful source and
destination give them. -/

namespace OrasGo.Copy
open Interleaving Syncutil

/-- The content of the nodes, which `descriptor.FromOCI` identifies, with the
decoders `content.Successors` reads it with. -/
structure Content where
  codec : Codec
  blobs : Finmap (fun _ : Key => Bytes)

def Content.fetch (G : Content) (desc : Descriptor) : Except Error Bytes :=
  match G.blobs.lookup (fromOCI desc) with
  | some content => .ok content
  | none => .error .notFound

def Content.successors (G : Content) (desc : Descriptor) : Except Error (List Descriptor) :=
  OrasGo.successors G.codec G.fetch desc

/-- The successors of a node without its foreign layers. -/
def Content.children (G : Content) (k : Key) : List Descriptor :=
  match G.successors { mediaType := k.mediaType, digest := k.digest, size := k.size } with
  | .ok nodes => removeForeignLayers nodes
  | .error _ => []

theorem Content.children_eq {G : Content} {desc : Descriptor} {nodes : List Descriptor}
    (found : G.successors desc = .ok nodes) : G.children (fromOCI desc) = removeForeignLayers nodes := by
  have same : G.successors { mediaType := desc.mediaType, digest := desc.digest, size := desc.size } =
      G.successors desc := successors_congr rfl rfl
  simp only [children, fromOCI_mediaType, fromOCI_digest, fromOCI_size, same, found]

/-- `child` is the key of a successor of `parent`. -/
def Content.Child (G : Content) (child parent : Key) : Prop :=
  ∃ node ∈ G.children parent, fromOCI node = child

/-- Every stored node has all its successors stored, foreign layers apart. -/
def Content.Closed (G : Content) (stored : Finset Key) : Prop :=
  ∀ k ∈ stored, ∀ node ∈ G.children k, fromOCI node ∈ stored

/-- The done channel of a node, with the goroutine that committed the node. -/
structure Entry where
  owner : Nat
  closed : Bool
  deriving DecidableEq

structure Event where
  worker : Nat
  key : Key
  callback : Callback
  result : Option Error
  deriving DecidableEq

structure CopyState where
  tracker : Key → Option Entry := fun _ => none
  stored : Finset Key
  log : List Event := []

namespace CopyState

def setEntry (st : CopyState) (k : Key) (entry : Entry) : CopyState :=
  { st with tracker := Function.update st.tracker k (some entry) }

def store (st : CopyState) (k : Key) : CopyState := { st with stored := insert k st.stored }

def record (st : CopyState) (t : Nat) (k : Key) (which : Callback) (result : Option Error) : CopyState :=
  { st with log := st.log ++ [⟨t, k, which, result⟩] }

end CopyState

/-- `skipSource` is local to `mountOrCopyNode`, so nobody else returns it. -/
def foreignError (err : Option Error) : Bool := err.all (fun e => !Error.is .skipSource e)

/-- The answers to a worker `t` whose context is done if `ended`. The destination
is faithful: `Exists` answers whether the node is stored, `Push` and `Mount` store
exactly the node or fail, and `Push` says that the node already exists only if it
does. `PreCopy` returns `SkipNode` only for a node that is stored by then. -/
def answer (G : Content) (st : CopyState) (t : Nat) (ended : Bool) :
    (op : CopyOp) → CopyAns op → Option CopyState
  | .tryCommit node, committed =>
    match st.tracker (fromOCI node), committed with
    | none, true => some (st.setEntry (fromOCI node) ⟨t, false⟩)
    | some _, false => some st
    | _, _ => none
  | .closeDone node, _ =>
    match st.tracker (fromOCI node) with
    | some entry => some (st.setEntry (fromOCI node) { entry with closed := true })
    | none => some st
  | .selectDone node, none => if (st.tracker (fromOCI node)).any Entry.closed then some st else none
  | .selectDone _, some err => if ended ∧ Shared.ctxErr err then some st else none
  | .dstExists desc, .ok found => if found = decide (fromOCI desc ∈ st.stored) then some st else none
  | .dstExists _, .error _ => some st
  | .findSuccessors desc, .ok nodes =>
    match G.successors desc with
    | .ok found => if nodes = found then some st else none
    | .error _ => none
  | .findSuccessors desc, .error _ => if isManifest desc then some st else none
  | .cacheExists _, _ => some st
  | .fetch desc, none => if (G.blobs.lookup (fromOCI desc)).isSome then some st else none
  | .fetch _, some err => if foreignError (some err) then some st else none
  | .push desc, none => some (st.store (fromOCI desc))
  | .push desc, some err =>
    if Error.is .alreadyExists err → fromOCI desc ∈ st.stored then some st else none
  | .preCopy desc, (stores, err) =>
    let st' := if stores then st.store (fromOCI desc) else st
    if (err = some .skipNode → fromOCI desc ∈ st'.stored) ∧ foreignError err then
      some (st'.record t (fromOCI desc) .preCopy err)
    else none
  | .callback which desc, err => some (st.record t (fromOCI desc) which err)
  | .mountFrom _, _ => some st
  | .mount desc _, .mounted => some (st.store (fromOCI desc))
  | .mount _ _, .failed err => if foreignError (some err) then some st else none
  | .mount _ _, .getContent => some st
  | .mountPush desc, none => some (st.store (fromOCI desc))
  | .mountPush _, some err => if foreignError (some err) then some st else none

/-- The only operation of a worker on which it may have to wait for others:
`FindSuccessors` is taken to be answered (`proxiedMachine` has where it is not). -/
def blocking : CopyOp → Bool
  | .selectDone _ => true
  | _ => false

abbrev CopyRun := State CopyOp Item CopyAns CopyState

def copyMachine (G : Content) (opts : Options) :
    Machine (Op CopyOp Item) (Ans CopyAns) (Shared CopyState) (Label Item) (Option Error) :=
  machine (work opts) (answer G)

/-- A copy with a fresh tracker and a limiter of `limit` permits into a
destination that holds `stored`. -/
def start (limit : Nat) (stored : Finset Key) (items : List Item) : CopyRun :=
  initial (some limit) { stored } items

/-- `copyGraph` with a root, where it makes its own limiter and tracker. -/
def copyGraph (limit : Nat) (stored : Finset Key) (root : Descriptor) : CopyRun :=
  start limit stored [.node root]

/-- The copying part of `ExtendedCopyGraph`. -/
def extendedCopyGraph (limit : Nat) (stored : Finset Key) (roots : List Descriptor) : CopyRun :=
  start limit stored (roots.map .root)

end OrasGo.Copy
