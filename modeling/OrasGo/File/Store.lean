import OrasGo.Base.Pool
import OrasGo.Content.CopyBuffer
import OrasGo.Graph.Memory

/-! `file.Store`: the files that descriptors name, a map from digests to their paths, and a
fallback storage for what has no name. -/

namespace OrasGo.File
open Interleaving

def annotationTitle := "org.opencontainers.image.title"

/-- `AnnotationDigest`. -/
def annotationDigest := "io.deis.oras.content.digest"

/-- `AnnotationUnpack`. -/
def annotationUnpack := "io.deis.oras.content.unpack"

/-- The value of an annotation, empty where there is none. -/
def annotated (desc : Descriptor) (key : String) : String := (desc.annotations.lookup key).getD ""

/-- The name of a descriptor. -/
def title (desc : Descriptor) : String := annotated desc annotationTitle

def errDuplicateName : Error := .text "duplicate name"

def errPathTraversalDisallowed : Error := .text "path traversal disallowed"

def errOverwriteDisallowed : Error := .text "overwrite disallowed"

def errStoreClosed : Error := .text "store already closed"

def errSkipUnnamed : Error := .text "unnamed descriptor skipped"

/-- The fields of the store that a push reads, and what it asks `path/filepath` for: the absolute
path of a name, its directory, and whether it leaves the working directory. -/
structure Options where
  allowPathTraversalOnWrite : Bool := false
  disableOverwrite : Bool := false
  forceCAS : Bool := false
  ignoreNoName : Bool := false
  skipUnpack : Bool := false
  absPath : String → String
  dir : String → String
  escapes : String → Bool

/-- What is found at a path. -/
inductive Found
  | present
  | absent
  | failed (err : Error)
  deriving DecidableEq

/-- The steps of a call that other calls may come between. A file is read and written as a whole. -/
inductive Op
  | isClosedSet
  /-- `nameExists`, under the read lock of the name. -/
  | nameExists (name : String)
  /-- The lock of a name, and then its flag. -/
  | lock (name : String)
  /-- The flag of a name is set if the push went well, and its lock released. -/
  | unlock (name : String) (pushed : Bool)
  | stat (path : String)
  | mkdirAll (path : String)
  | create (path : String)
  | createTemp
  | openFile (path : String)
  | read (path : String)
  | write (path : String) (content : Bytes)
  | close (path : String)
  | extractTarGzip (target name gzip checksum : String)
  /-- `digestToPath.Load`. -/
  | load (digest : Digest)
  /-- `digestToPath.Store`. -/
  | store (digest : Digest) (path : String)
  | fallbackFetch (desc : Descriptor)
  | fallbackPush (desc : Descriptor) (content : Bytes)
  /-- What `graph.Memory` does under its lock. -/
  | indexNode (node : Descriptor) (nodes : List Descriptor)

/-- A write says how many bytes it has written, and an extraction what files it has. -/
@[reducible] def Ans : Op → Type
  | .isClosedSet | .nameExists _ | .lock _ => Bool
  | .unlock _ _ | .store _ _ | .indexNode _ _ => Unit
  | .stat _ | .openFile _ => Found
  | .mkdirAll _ | .create _ | .close _ | .fallbackPush _ _ => Option Error
  | .createTemp => Except Error String
  | .read _ | .fallbackFetch _ => Except Error Bytes
  | .write _ _ => Nat × Option Error
  | .extractTarGzip _ _ _ _ => Option Error × List (String × Bytes)
  | .load _ => Option String

abbrev Code := Prog Op Ans

def ask (op : Op) : Code (Ans op) := Prog.perform op

/-- The reader that content comes from. -/
inductive Source
  | memory (content : Bytes)
  | file (path : String)

def Source.read : Source → Code (Except Error Bytes)
  | memory content => return .ok content
  | file path => ask (.read path)

section Push
variable (opts : Options) (cd : Codec)

/-- `ioutil.CopyBuffer` to a file. -/
def copyBuffer (path : String) (expected : Descriptor) (content : Source) : Code (Option Error) := do
  if algorithmSize (Digest.algorithm expected.digest) = none then
    return some (.panicked "digest algorithm not available")
  else match ← content.read with
    | .error err => return some (.wrap "copy failed" err)
    | .ok stream =>
      match ← ask (.write path (stream.take expected.size.toNat)) with
      | (_, some err) => return some (.wrap "copy failed" err)
      | (_, none) =>
        match (pieceReader .eof false).copyBuffer cd [stream] expected with
        | .error err => return some err
        | .ok _ => return none

/-- `saveFile`. -/
def saveFile (path : String) (expected : Descriptor) (content : Source) : Code (Option Error) := do
  match ← copyBuffer cd path expected content with
  | some err =>
    let _ ← ask (.close path)
    return some (.wrap ("failed to copy content to " ++ path) err)
  | none =>
    ask (.store expected.digest path)
    ask (.close path)

/-- `pushFile`. -/
def pushFile (target : String) (expected : Descriptor) (content : Source) : Code (Option Error) := do
  match ← ask (.mkdirAll (opts.dir target)) with
  | some err => return some (.wrap "failed to ensure directories of the target path" err)
  | none =>
    match ← ask (.create target) with
    | some err => return some (.wrap ("failed to create file " ++ target) err)
    | none => saveFile cd target expected content

/-- `pushDir`. -/
def pushDir (name target : String) (expected : Descriptor) (content : Source) : Code (Option Error) := do
  match ← ask (.mkdirAll target) with
  | some err => return some (.wrap "failed to ensure directories of the target path" err)
  | none =>
    match ← ask .createTemp with
    | .error err => return some err
    | .ok gzip =>
      match ← saveFile cd gzip expected content with
      | some err => return some (.wrap ("failed to save gzip to " ++ gzip) err)
      | none =>
        match ← ask (.extractTarGzip target name gzip (annotated expected annotationDigest)) with
        | (some err, _) => return some (.wrap ("failed to extract tar to " ++ target) err)
        | (none, _) => return none

/-- `resolveWritePath`. -/
def resolveWritePath (name : String) : Code (Except Error String) := do
  let path := opts.absPath name
  if opts.allowPathTraversalOnWrite = false ∧ opts.escapes path = true then return .error errPathTraversalDisallowed
  else if opts.disableOverwrite then
    match ← ask (.stat path) with
    | .present => return .error errOverwriteDisallowed
    | .failed err => return .error err
    | .absent => return .ok path
  else return .ok path

/-- The part of `push` under the lock of a name that is new. -/
def pushNamed (name : String) (expected : Descriptor) (content : Source) : Code (Option Error) := do
  match ← resolveWritePath opts name with
  | .error err => return some (.wrap "failed to resolve path for writing" err)
  | .ok target =>
    if annotated expected annotationUnpack = "true" ∧ opts.skipUnpack = false then
      pushDir cd name target expected content
    else pushFile opts cd target expected content

/-- `push`. -/
def push (expected : Descriptor) (content : Source) : Code (Option Error) := do
  let name := title expected
  if name = "" then
    if opts.ignoreNoName then return some errSkipUnnamed
    else match ← content.read with
      | .error err => return some err
      | .ok stream => ask (.fallbackPush expected stream)
  else
    if ← ask (.lock name) then
      ask (.unlock name false)
      return some (.wrap name errDuplicateName)
    else
      let err ← pushNamed opts cd name expected content
      ask (.unlock name err.isNone)
      return err

/-- The part of `Store.Fetch` after the check of the name. -/
def fetchContent (target : Descriptor) : Code (Except Error Source) := do
  match ← ask (.load target.digest) with
  | some path =>
    match ← ask (.openFile path) with
    | .present => return .ok (.file path)
    | .absent => return .error (.wrap (target.digest ++ ": " ++ target.mediaType) .notFound)
    | .failed err => return .error err
  | none =>
    match ← ask (.fallbackFetch target) with
    | .error err => return .error err
    | .ok content => return .ok (.memory content)

/-- `Store.Fetch`. -/
def fetch (target : Descriptor) : Code (Except Error Source) := do
  if ← ask .isClosedSet then return .error errStoreClosed
  else if title target = "" then fetchContent target
  else if ← ask (.nameExists (title target)) then fetchContent target
  else return .error (.wrap (title target ++ ": " ++ target.mediaType) .notFound)

/-- `content.Successors` with the store as its fetcher, which reads the content of manifests only. -/
def storeSuccessors (node : Descriptor) : Code (Except Error (List Descriptor)) := do
  if isManifest node then
    match ← fetch node with
    | .error err => return .error err
    | .ok source =>
      let stream ← source.read
      return successors cd (fun _ => stream) node
  else return .ok []

/-- The restoration of one successor. -/
def restore (successor : Descriptor) : Code (Option Error) := do
  let desc : Descriptor := plain successor
  let describe := fun err => Error.wrap ("\"" ++ title successor ++ "\": " ++ desc.mediaType) err
  match ← fetch desc with
  | .error err => return some (describe err)
  | .ok content => return (← push opts cd successor content).map describe

/-- The loop of `restoreDuplicates`. -/
def restoreAll : List Descriptor → Code (Option Error)
  | [] => return none
  | successor :: rest => do
    if title successor = "" then restoreAll rest
    else if ← ask (.nameExists (title successor)) then restoreAll rest
    else match ← restore opts cd successor with
      | some err => if Error.is .notFound err then restoreAll rest else return some err
      | none => restoreAll rest

/-- `restoreDuplicates`. -/
def restoreDuplicates (desc : Descriptor) : Code (Option Error) := do
  match ← storeSuccessors cd desc with
  | .error err => return some err
  | .ok nodes => restoreAll opts cd nodes

/-- `graph.Memory.Index` with the store as its fetcher. -/
def index (node : Descriptor) : Code (Option Error) := do
  match ← storeSuccessors cd node with
  | .error err => return some err
  | .ok nodes =>
    ask (.indexNode node nodes)
    return none

/-- `Store.Push`. -/
def storePush (expected : Descriptor) (content : Bytes) : Code (Option Error) := do
  if ← ask .isClosedSet then return some errStoreClosed
  else match ← push opts cd expected (.memory content) with
    | some err => return if Error.is errSkipUnnamed err then none else some err
    | none =>
      if opts.forceCAS then index cd expected
      else match ← restoreDuplicates opts cd expected with
        | some err => return some (.wrap "failed to restore duplicated file" err)
        | none => index cd expected

end Push

/-- What the calls share: the flag and the lock of each name, the paths of the digests, the files of
the working directory, and what is in the fallback storage. -/
structure State where
  closed : Bool := false
  taken : String → Bool := fun _ => false
  holder : String → Option Nat := fun _ => none
  digestToPath : Digest → Option String := fun _ => none
  files : String → Option Bytes := fun _ => none
  fallback : Key → Option Bytes := fun _ => none
  graph : Graph.Memory := {}

namespace State

def acquire (s : State) (name : String) (t : Nat) : State :=
  { s with holder := Function.update s.holder name (some t) }

def release (s : State) (name : String) (pushed : Bool) : State :=
  { s with
    holder := Function.update s.holder name none
    taken := Function.update s.taken name (s.taken name || pushed) }

def record (s : State) (digest : Digest) (path : String) : State :=
  { s with digestToPath := Function.update s.digestToPath digest (some path) }

def keep (s : State) (desc : Descriptor) (content : Bytes) : State :=
  { s with fallback := Function.update s.fallback (fromOCI desc) (some content) }

def index (s : State) (node : Descriptor) (nodes : List Descriptor) : State :=
  { s with graph := s.graph.indexNode node nodes }

def setFile (s : State) (path : String) (content : Bytes) : State :=
  { s with files := Function.update s.files path (some content) }

/-- The files after an extraction. -/
def setFiles (s : State) (written : List (String × Bytes)) : State :=
  written.foldl (fun s file => s.setFile file.1 file.2) s

theorem setFiles_files {s : State} {written : List (String × Bytes)} {path : String} (other : ∀ file ∈ written, file.1 ≠ path) :
    (s.setFiles written).files path = s.files path := by
  induction written generalizing s with
  | nil => rfl
  | cons file rest ih =>
    have step := ih (s := s.setFile file.1 file.2) fun next member => other next (List.mem_cons_of_mem _ member)
    exact step.trans (Function.update_of_ne (other file List.mem_cons_self).symm _ _)

theorem setFiles_eq (s : State) (written : List (String × Bytes)) :
    s.setFiles written = { s with files := (s.setFiles written).files } := by
  induction written generalizing s with
  | nil => rfl
  | cons file rest ih => exact ih (s.setFile file.1 file.2)

end State

/-- The answers to goroutine `t`. The files are changed by the calls only, and the fallback storage
keeps what has been pushed into it and verified. -/
def perform (cd : Codec) (s : State) (t : Nat) : (op : Op) → Ans op → Option State
  | .isClosedSet, closed => if closed = s.closed then some s else none
  | .nameExists name, known => if s.holder name = none ∧ known = s.taken name then some s else none
  | .lock name, known =>
    if s.holder name = none ∧ known = s.taken name then some (s.acquire name t) else none
  | .unlock name pushed, _ => if s.holder name = some t then some (s.release name pushed) else none
  | .stat path, .absent => if s.files path = none then some s else none
  | .stat _, _ => some s
  | .mkdirAll _, _ | .close _, _ => some s
  | .create path, none => some (s.setFile path [])
  | .create _, some _ => some s
  | .createTemp, .ok path => if s.files path = none then some (s.setFile path []) else none
  | .createTemp, .error _ => some s
  | .openFile path, .present => if s.files path = none then none else some s
  | .openFile path, .absent => if s.files path = none then some s else none
  | .openFile _, .failed _ => some s
  | .read path, .ok content => if s.files path = some content then some s else none
  | .read _, .error _ => some s
  | .write path content, (n, err) =>
    if (if err.isNone then n = content.length else n ≤ content.length) then
      some (s.setFile path (content.take n ++ ((s.files path).getD []).drop n))
    else none
  | .extractTarGzip _ _ _ _, (_, written) => some (s.setFiles written)
  | .load digest, path => if path = s.digestToPath digest then some s else none
  | .store digest path, _ => some (s.record digest path)
  | .fallbackFetch desc, .ok content => if s.fallback (fromOCI desc) = some content then some s else none
  | .fallbackFetch desc, .error err =>
    if Error.is .notFound err → s.fallback (fromOCI desc) = none then some s else none
  | .fallbackPush desc content, none =>
    if s.fallback (fromOCI desc) = none ∧ (readAll cd content desc).toBool then some (s.keep desc content) else none
  | .fallbackPush _ _, some _ => some s
  | .indexNode node nodes, _ => some (s.index node nodes)

/-- A call of `Push`. -/
structure Call where
  expected : Descriptor
  content : Bytes

def machine (cd : Codec) : Machine Op Ans State Call (Option Error) where
  perform s t _ op answer := (perform cd s t op answer).map fun s => (s, [])
  env _ _ := False

def start (opts : Options) (cd : Codec) (s : State) (calls : List Call) : Pool Op Ans State Call (Option Error) :=
  ⟨s, calls.map fun call => ⟨call, storePush opts cd call.expected call.content⟩⟩

end OrasGo.File
