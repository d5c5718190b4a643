import OrasGo.Oci.Store

/-! Opening a store on a directory, and `Store.GC`. -/

namespace OrasGo.Oci
open Graph Iteration

/-- An OCI layout on disk: the blobs and the manifests of `index.json`, if there
is one. -/
structure Layout where
  blobs : Blobs := ∅
  indexFile : Option (List Descriptor) := none

def Store.layout (s : Store) : Layout := ⟨s.blobs, some s.indexFile⟩

/-- The reference in the annotations of a descriptor of the index. -/
def annotatedRef (desc : Descriptor) : String := (desc.annotations.lookup Ocispec.annotationRefName).getD ""

/-- The references of a store or of an index that is loaded. -/
def loadReference (resolver : Resolver.Memory) (desc : Descriptor) : Resolver.Memory :=
  let resolver := resolver.tag (deleteAnnotationRefName desc) desc.digest
  if annotatedRef desc = "" then resolver else resolver.tag desc (annotatedRef desc)

section
variable {cd : Codec} {blobs : Blobs}

/-- `loadIndex`. -/
def loadIndex (sched : Nat → Scheduler cd (Storage.fetch blobs)) :
    List Descriptor → Resolver.Memory → Memory → Except Error (Resolver.Memory × Memory)
  | [], resolver, graph => .ok (resolver, graph)
  | desc :: manifests, resolver, graph =>
    match (sched manifests.length).indexAll graph (plain desc) with
    | (some err, _) => .error err
    | (none, graph) => loadIndex sched manifests (loadReference resolver desc) graph

/-- `NewWithContext` on a directory with a valid `oci-layout` file or none, where
the JSON text of `index.json` decodes to what was encoded. -/
def newWithContext (layout : Layout) (sched : Nat → Scheduler cd (Storage.fetch layout.blobs)) :
    Except Error Store :=
  match layout.indexFile with
  | none => .ok { blobs := layout.blobs, indexFile := [] }
  | some manifests =>
    match loadIndex sched manifests {} {} with
    | .error err => .error (.wrap "invalid OCI Image Index" err)
    | .ok (tagResolver, graph) => .ok { blobs := layout.blobs, indexFile := manifests, tagResolver, graph }

/-- What `gcIndex` builds: the new references and graph, and the tagged digests. -/
structure Rebuilt where
  tagResolver : Resolver.Memory := {}
  graph : Memory := {}
  tagged : Finset Digest := ∅

/-- The first loop of `gcIndex`, over the tagged manifests. -/
def indexTagged (sched : String → Scheduler cd (Storage.fetch blobs)) :
    List (String × Descriptor) → Rebuilt → Except Error Rebuilt
  | [], r => .ok r
  | (ref, desc) :: entries, r =>
    if ref = desc.digest then indexTagged sched entries r
    else match (sched ref).indexAll r.graph (plain desc) with
      | (some err, _) => .error err
      | (none, graph) => indexTagged sched entries
        { tagResolver := (r.tagResolver.tag (deleteAnnotationRefName desc) desc.digest).tag desc ref
          graph
          tagged := insert desc.digest r.tagged }

/-- The unbounded loop of `gcIndex` for one untagged manifest, for at most so many
rounds. The variable that the loop assigns hides the one that it reads, so that
every round reads the subject of the manifest itself. -/
def subjectLoop (sched : Scheduler cd (Storage.fetch blobs)) (desc : Descriptor) (r : Rebuilt) :
    Nat → Option (Except Error Rebuilt)
  | 0 => none
  | n + 1 =>
    match subject cd (Storage.fetch blobs) desc with
    | .error err => some (.error err)
    | .ok none => some (.ok r)
    | .ok (some found) =>
      if r.graph.contains found then
        match sched.indexAll r.graph (plain desc) with
        | (some err, _) => some (.error err)
        | (none, graph) =>
          some (.ok { r with tagResolver := r.tagResolver.tag (deleteAnnotationRefName desc) desc.digest, graph })
      else subjectLoop sched desc r n

/-- The second loop of `gcIndex`, over the untagged manifests. -/
def indexReferrers (sched : String → Scheduler cd (Storage.fetch blobs)) (fuel : Nat) :
    List (String × Descriptor) → Rebuilt → Option (Except Error Rebuilt)
  | [], r => some (.ok r)
  | (ref, desc) :: entries, r =>
    if ref ≠ desc.digest ∨ desc.digest ∈ r.tagged then indexReferrers sched fuel entries r
    else match subjectLoop (sched ref) desc r fuel with
      | none => none
      | some (.error err) => some (.error err)
      | some (.ok r) => indexReferrers sched fuel entries r

end

/-- The choices of the runtime during one `GC`: the orders of the iterations over
the references and over the files, what the scheduler makes of the calls of
`IndexAll`, and at which files the context is found to be done. -/
structure GCChoices (cd : Codec) (blobs : Blobs) where
  tagged : Enumeration String
  untagged : Enumeration String
  files : Enumeration Digest
  sched : String → Scheduler cd (Storage.fetch blobs)
  ctx : Digest → Option Error

/-- `isKnownAlgorithm`. -/
def isKnownAlgorithm (alg : String) : Bool := alg = "sha256" || alg = "sha512" || alg = "sha384"

/-- The loop of `GC` over the files of the algorithm directories. -/
def sweep (ctx : Digest → Option Error) (reachableNodes : Finset Digest) :
    List Digest → Blobs → Option Error × Blobs
  | [], blobs => (none, blobs)
  | d :: files, blobs =>
    if isKnownAlgorithm (Digest.algorithm d) = false then sweep ctx reachableNodes files blobs
    else match ctx d with
      | some err => (some err, blobs)
      | none =>
        if Digest.validate d = false ∨ d ∈ reachableNodes then sweep ctx reachableNodes files blobs
        else sweep ctx reachableNodes files (blobs.erase d)

namespace Store
variable {cd : Codec}

/-- `Store.gcIndex`; without result if a loop does not end within `fuel` rounds. -/
def gcIndex (s : Store) (choices : GCChoices cd s.blobs) (fuel : Nat) : Option (Option Error × Store) :=
  match indexTagged choices.sched (choices.tagged.entries s.tagResolver.index) {} with
  | .error err => some (some err, s)
  | .ok r =>
    match indexReferrers choices.sched fuel (choices.untagged.entries s.tagResolver.index) r with
    | none => none
    | some (.error err) => some (some err, s)
    | some (.ok r) => some (none, { s with tagResolver := r.tagResolver, graph := r.graph })

/-- `Store.GC`. -/
def gc (s : Store) (choices : GCChoices cd s.blobs) (fuel : Nat) : Option (Option Error × Store) :=
  match s.gcIndex choices fuel with
  | none => none
  | some (some err, s) => some (some (.wrap "unable to reload index" err), s)
  | some (none, s) =>
    let (err, blobs) := sweep choices.ctx s.graph.digestSet (choices.files.list s.blobs.keys) s.blobs
    some (err, { s with blobs })

end Store

end OrasGo.Oci
