import OrasGo.Oci.Storage
import OrasGo.Registry.Referrers
import OrasGo.Resolver

/-! `oci.Store`: pushing, tagging, untagging and deleting. An operation returns
its error, nothing for nil, and the state it leaves, also when it fails. -/

namespace OrasGo.Oci
open Graph Iteration

/-- The state of a store: the blobs and the manifests of `index.json` on disk,
the references and the graph in memory. The index in memory is left out, since
`saveIndex` overwrites its manifests before it writes them. -/
structure Store where
  blobs : Blobs := ∅
  indexFile : List Descriptor := []
  tagResolver : Resolver.Memory := {}
  graph : Graph.Memory := {}
  autoSaveIndex : Bool := true
  autoGC : Bool := true

/-- The orders of the two iterations over the references in `saveIndex`. -/
structure SaveOrders where
  tagged : Enumeration String
  untagged : Enumeration String

/-- The orders of the iterations in one round of `Delete`. -/
structure DeleteOrders extends SaveOrders where
  resolvers : Enumeration String
  predecessors : Enumeration Key
  successors : Enumeration Key

/-- `deleteAnnotationRefName`. -/
def deleteAnnotationRefName (desc : Descriptor) : Descriptor :=
  { desc with annotations := desc.annotations.erase Ocispec.annotationRefName }

/-- The descriptor as `saveIndex` lists it for a reference. -/
def setAnnotationRefName (desc : Descriptor) (reference : String) : Descriptor :=
  { desc with annotations := desc.annotations.insert Ocispec.annotationRefName reference }

/-- The manifests that `saveIndex` writes: first one for each reference that is no
digest of its descriptor, then one for each other descriptor. -/
def indexManifests (orders : SaveOrders) (refMap : Finmap (fun _ : String => Descriptor)) : List Descriptor :=
  let tagged := (orders.tagged.entries refMap).filter fun entry => entry.1 ≠ entry.2.digest
  let untagged := (orders.untagged.entries refMap).filter fun entry =>
    entry.1 = entry.2.digest && !(tagged.map fun e => e.2.digest).contains entry.2.digest
  (tagged.map fun entry => setAnnotationRefName entry.2 entry.1) ++
    untagged.map fun entry => deleteAnnotationRefName entry.2

/-- `validateReference`. -/
def validateReference (ref : String) : Option Error :=
  if ref = "" then some .missingReference else none

namespace Store

/-- `Store.saveIndex`. -/
def saveIndex (s : Store) (orders : SaveOrders) : Store :=
  { s with indexFile := indexManifests orders s.tagResolver.index }

/-- `Store.tag`: a reference that is not the digest comes with the digest. -/
def tagInternal (s : Store) (orders : SaveOrders) (desc : Descriptor) (reference : String) : Store :=
  let resolver := if reference = desc.digest then s.tagResolver else s.tagResolver.tag desc desc.digest
  let s := { s with tagResolver := resolver.tag desc reference }
  if s.autoSaveIndex then s.saveIndex orders else s

/-- `Store.Tag`. -/
def tag (s : Store) (orders : SaveOrders) (desc : Descriptor) (reference : String) : Option Error × Store :=
  match validateReference reference with
  | some err => (some err, s)
  | none =>
    match Storage.contains s.blobs desc with
    | .error err => (some err, s)
    | .ok false => (some (.wrap (Storage.describe desc) .notFound), s)
    | .ok true => (none, s.tagInternal orders desc reference)

/-- `Store.Push`. -/
def push (cd : Codec) (s : Store) (orders : SaveOrders) (expected : Descriptor) (content : Bytes) :
    Option Error × Store :=
  match Storage.push cd s.blobs expected content with
  | (some err, blobs) => (some err, { s with blobs })
  | (none, blobs) =>
    match s.graph.index cd (Storage.fetch blobs) expected with
    | (.error err, graph) => (some err, { s with blobs, graph })
    | (.ok _, graph) =>
      let s := { s with blobs, graph }
      if isManifest expected then (none, s.tagInternal orders expected expected.digest) else (none, s)

/-- `Store.Untag`. -/
def untag (s : Store) (orders : SaveOrders) (reference : String) : Option Error × Store :=
  if reference = "" then (some .missingReference, s)
  else match s.tagResolver.resolve reference with
    | .error err => (some (.wrap ("resolving reference \"" ++ reference ++ "\"") err), s)
    | .ok desc =>
      if reference = desc.digest then
        (some (.wrap ("reference \"" ++ reference ++ "\" is a digest and not a tag") .invalidReference), s)
      else
        let s := { s with tagResolver := s.tagResolver.untag reference }
        (none, if s.autoSaveIndex then s.saveIndex orders else s)

/-- `Store.isTagged`. -/
def isTagged (s : Store) (desc : Descriptor) : Bool :=
  let tagSet := s.tagResolver.tagSet desc
  if desc.digest ∈ tagSet then 1 < tagSet.card else 0 < tagSet.card

/-- The references `delete` untags for its target. -/
def references (s : Store) (order : Enumeration String) (target : Descriptor) : List String :=
  ((order.entries s.tagResolver.index).filter fun entry => contentEqual entry.2 target).map Prod.fst

/-- What `Store.delete` does in memory and to `index.json` before it removes the blob. -/
def forget (s : Store) (orders : DeleteOrders) (target : Descriptor) : Store :=
  let untagged := s.references orders.resolvers target
  let s := { s with
    tagResolver := untagged.foldl Resolver.Memory.untag s.tagResolver
    graph := (s.graph.remove orders.successors target).1 }
  if !untagged.isEmpty && s.autoSaveIndex then s.saveIndex orders.toSaveOrders else s

/-- `Store.delete`, with the dangling nodes it returns. -/
def deleteNode (s : Store) (orders : DeleteOrders) (target : Descriptor) :
    Except Error (List Descriptor) × Store :=
  match Storage.delete s.blobs target with
  | (some err, _) => (.error err, s.forget orders target)
  | (none, blobs) =>
    (.ok (s.graph.remove orders.successors target).2, { s.forget orders target with blobs })

/-- The referrers that `Delete` appends to its queue for a node. -/
def referrersOf (cd : Codec) (s : Store) (order : Enumeration Key) (head : Descriptor) :
    Except Error (List Descriptor) :=
  if s.autoGC && isManifest head then
    Registry.referrers cd (Storage.fetch s.blobs) (s.graph.predecessorList order head) head ""
  else
    .ok []

/-- The loop of `Store.Delete` over its queue, for at most so many rounds. -/
def deleteLoop (cd : Codec) (orders : Nat → DeleteOrders) :
    Nat → List Descriptor → Store → Option (Option Error × Store)
  | _, [], s => some (none, s)
  | 0, _ :: _, _ => none
  | n + 1, head :: queue, s =>
    match s.referrersOf cd (orders n).predecessors head with
    | .error err => some (some err, s)
    | .ok referrers =>
      match s.deleteNode (orders n) head with
      | (.error err, s) => some (some err, s)
      | (.ok danglings, s) =>
        let unreferenced := if s.autoGC then danglings.filter fun d => !s.isTagged d else []
        deleteLoop cd orders n (queue ++ referrers ++ unreferenced) s

/-- `Store.Delete`: every round removes a blob, so that there are never more. -/
def delete (cd : Codec) (s : Store) (orders : Nat → DeleteOrders) (target : Descriptor) :
    Option (Option Error × Store) :=
  deleteLoop cd orders (s.blobs.keys.card + 1) [target] s

end Store

end OrasGo.Oci
