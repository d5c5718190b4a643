import OrasGo.File.Store

/-! Manifests pushed at the same time, which restore the same named file. -/

namespace OrasGo.File
open Interleaving

/-- The successors of the manifest that is pushed. -/
def Call.nodes (cd : Codec) (call : Call) : List Descriptor :=
  match successors cd (fun _ => .ok call.content) call.expected with
  | .ok nodes => nodes
  | .error _ => []

/-- Calls of `Push` on one store, and a successor of what they push. -/
structure Scene where
  opts : Options
  cd : Codec
  calls : List Call
  layer : Descriptor

namespace Scene
variable (sc : Scene)

/-- Every descriptor in play. -/
def descs : List Descriptor := sc.calls.flatMap fun call => call.expected :: call.nodes sc.cd

/-- Every name in play. -/
def names : List String := (sc.descs.map title).filter (· ≠ "")

def unpacks (desc : Descriptor) : Prop := annotated desc annotationUnpack = "true" ∧ sc.opts.skipUnpack = false

/-- The path of the named file. -/
def path : String := sc.opts.absPath (title sc.layer)

/-- A manifest with its content, which is the only one that has its digest. -/
structure Valid (call : Call) : Prop where
  manifest : isManifest call.expected = true
  content : Matches sc.cd call.expected call.content
  decodes : successors sc.cd (fun _ => .ok call.content) call.expected = .ok (call.nodes sc.cd)
  unique : ∀ content, sc.cd.verified call.expected.digest content = true → content = call.content
  layer : sc.layer ∈ call.nodes sc.cd

/-- The manifests are valid and the store restores their named successors, each to a file of its
own inside the working directory. -/
structure Proper : Prop where
  valid : ∀ call ∈ sc.calls, sc.Valid call
  named : title sc.layer ≠ ""
  restores : sc.opts.forceCAS = false
  keeps : ∀ call ∈ sc.calls, title call.expected = "" → sc.opts.ignoreNoName = false
  sized : ∀ desc ∈ sc.descs, ∀ content, sc.cd.verified desc.digest content = true → (content.length : Int) = desc.size
  inside : ∀ name ∈ sc.names, sc.opts.allowPathTraversalOnWrite = true ∨ sc.opts.escapes (sc.opts.absPath name) = false
  apart : ∀ name ∈ sc.names, ∀ name' ∈ sc.names, sc.opts.absPath name = sc.opts.absPath name' → name = name'
  alone : ∀ desc ∈ sc.descs, title desc = title sc.layer →
    desc.digest = sc.layer.digest ∧ desc.size = sc.layer.size ∧ ¬ sc.unpacks desc

/-- A step that goes well: a push finds its name free, no operation on files and on the fallback
storage fails, and an archive is unpacked to new files. -/
def calm (s : State) : (op : Op) → Ans op → Bool
  | .lock _, known => known = false
  | .stat _, found => found = .absent
  | .openFile _, found => found = .present
  | .mkdirAll _, err | .create _, err | .close _, err | .fallbackPush _ _, err => err.isNone
  | .createTemp, .ok path => sc.names.all fun name => sc.opts.absPath name ≠ path
  | .createTemp, .error _ | .read _, .error _ => false
  | .write _ _, (_, err) => err.isNone
  | .extractTarGzip _ _ _ _, (err, written) => err.isNone && written.all fun file => (s.files file.1).isNone
  | .fallbackFetch _, .error err => Error.is .notFound err
  | _, _ => true

/-- The runs all of whose steps go well. -/
def calmMachine : Machine Op Ans State Call (Option Error) where
  perform s t n op answer := if sc.calm s op answer then (machine sc.cd).perform s t n op answer else none
  env _ _ := False

end Scene

/-- What a proof keeps in mind of a call: the name under whose lock it writes a file, the name whose
file it has recorded but not unlocked, the file it writes, the file it reads, what it knows to be in
the fallback storage, and what it has done so far. -/
structure Local where
  pushing : Option String := none
  stored : Option String := none
  writing : Option (String × Bytes) := none
  source : Option (String × Bytes) := none
  inFallback : List Key := []
  recorded : Bool := false
  saved : Bool := false
  restored : Bool := false
  indexed : Bool := false

namespace Local

/-- The call holds no lock. -/
structure Idle (l : Local) : Prop where
  pushing : l.pushing = none
  stored : l.stored = none
  writing : l.writing = none

/-- The call holds no lock again, and what it had done before remains done. -/
structure Next (l l' : Local) : Prop where
  idle : l'.Idle
  saved : l.saved = true → l'.saved = true
  restored : l.restored = true → l'.restored = true
  indexed : l.indexed = true → l'.indexed = true

theorem Next.refl {l : Local} (idle : l.Idle) : l.Next l := ⟨idle, id, id, id⟩

theorem Next.trans {l l' l'' : Local} (first : l.Next l') (second : l'.Next l'') : l.Next l'' :=
  ⟨second.idle, second.saved ∘ first.saved, second.restored ∘ first.restored, second.indexed ∘ first.indexed⟩

theorem Next.readFrom {l l' : Local} (next : l.Next l') (source : Option (String × Bytes)) (inFallback : List Key) :
    l.Next { l' with source, inFallback } :=
  ⟨⟨next.idle.pushing, next.idle.stored, next.idle.writing⟩, next.saved, next.restored, next.indexed⟩

/-- The call gets the lock of a name. -/
def acquire (l : Local) (name : String) : Local := { l with pushing := some name }

/-- The call has so much in the file it writes. -/
def write (l : Local) (path : String) (content : Bytes) : Local := { l with writing := some (path, content) }

/-- The call has recorded the file it has written. -/
def store (l : Local) (call : Call) (digest : Digest) : Local :=
  { l with
    pushing := none
    stored := l.pushing
    writing := none
    recorded := l.recorded || digest = call.expected.digest }

/-- The call releases the lock of a name that is taken now. -/
def release (l : Local) (sc : Scene) (call : Call) (name : String) : Local :=
  { l with
    stored := none
    restored := l.restored || name = title sc.layer
    saved := l.saved || (l.recorded && name = title call.expected) }

/-- The call has pushed to the fallback storage. -/
def keep (l : Local) (call : Call) (desc : Descriptor) : Local :=
  { l with saved := l.saved || (desc = call.expected && title call.expected = "") }

/-- What will be read from a source. -/
def Reads (l : Local) (content : Bytes) : Source → Prop
  | .memory bytes => bytes = content
  | .file path => l.source = some (path, content)

end Local

section Ghosts
variable (sc : Scene) (call : Call)

def Settles (digest : Digest) (content : Bytes) : Prop :=
  sc.cd.verified digest content = true ∧ algorithmSize (Digest.algorithm digest) ≠ none

def callGhost : Ghost Op Ans Local where
  pre
    | .nameExists name, _ => name ≠ ""
    | .lock name, l => name ∈ sc.names ∧ l.Idle
    | .unlock name pushed, l => l.stored = some name ∧ pushed = true
    | .create path, l => (∃ name, l.pushing = some name ∧ path = sc.opts.absPath name) ∧ l.writing = none
    | .createTemp, l => (∃ name, l.pushing = some name ∧ name ≠ title sc.layer) ∧ l.writing = none
    | .read path, l => ∃ content, l.source = some (path, content)
    | .write path _, l => l.writing = some (path, [])
    | .store digest path, l => ∃ name content, l.pushing = some name ∧ l.writing = some (path, content) ∧
      Settles sc digest content ∧
      (name = title sc.layer → path = sc.path ∧ (content.length : Int) = sc.layer.size ∧ digest = sc.layer.digest)
    | .indexNode node nodes, _ => node = call.expected ∧ nodes = call.nodes sc.cd
    | _, _ => True
  next
    | .isClosedSet, closed, l, l' => closed = false ∧ l' = l
    | .nameExists name, known, l, l' => (name = title call.expected → l.saved = true → known = true) ∧
      l' = { l with restored := l.restored || (known && name = title sc.layer) }
    | .lock name, known, l, l' => known = false ∧ l' = l.acquire name
    | .unlock name _, _, l, l' => l' = l.release sc call name
    | .stat _, found, l, l' => found = .absent ∧ l' = l
    | .openFile _, found, l, l' => found = .present ∧ l' = l
    | .mkdirAll _, err, l, l' | .close _, err, l, l' => err = none ∧ l' = l
    | .create path, err, l, l' => err = none ∧ l' = l.write path []
    | .createTemp, .ok path, l, l' => l' = l.write path []
    | .createTemp, .error _, _, _ => False
    | .read path, .ok content, l, l' => l.source = some (path, content) ∧ l' = l
    | .read _, .error _, _, _ => False
    | .write path content, (_, err), l, l' => err = none ∧ l' = l.write path content
    | .extractTarGzip _ _ _ _, (err, _), l, l' => err = none ∧ l' = l
    | .load digest, some path, l, l' => ∃ content, Settles sc digest content ∧
      l' = { l with source := some (path, content) }
    | .load digest, none, l, l' => ∃ keys, (digest = sc.layer.digest → fromOCI sc.layer ∈ keys) ∧
      (l.saved = true → digest = call.expected.digest → fromOCI call.expected ∈ keys) ∧
      l' = { l with inFallback := keys }
    | .store digest _, _, l, l' => l' = l.store call digest
    | .fallbackFetch desc, .ok content, l, l' => Matches sc.cd desc content ∧ l' = l
    | .fallbackFetch desc, .error err, l, l' => Error.is .notFound err = true ∧ fromOCI desc ∉ l.inFallback ∧ l' = l
    | .fallbackPush desc _, err, l, l' => err = none ∧
      l' = l.keep call desc
    | .indexNode _ _, _, l, l' => l' = { l with indexed := true }

/-- A call returns nil, with the named file restored and its manifest indexed. -/
def callPost (result : Option Error) (l : Local) : Prop :=
  result = none ∧ l.restored = true ∧ l.indexed = true

end Ghosts

section Outline
variable {sc : Scene} {call : Call} {l : Local}

variable {desc : Descriptor}

theorem mem_names (inPlay : desc ∈ sc.descs) (named : title desc ≠ "") : title desc ∈ sc.names :=
  List.mem_filter.mpr ⟨List.mem_map_of_mem inPlay, by simpa using named⟩

/-- A source returns the bytes that are to be read from it. -/
theorem wp_read {content : Bytes} {source : Source} (reads : l.Reads content source) :
    wp (callGhost sc call) source.read (fun result l' => result = .ok content ∧ l' = l) l := by
  cases source with
  | memory bytes =>
    obtain rfl : bytes = content := reads
    exact ⟨rfl, rfl⟩
  | file path =>
    refine ⟨⟨content, reads⟩, ?_⟩
    rintro (err | bytes) l' moved
    · exact moved.elim
    · obtain ⟨same, rfl⟩ := moved
      have found : l'.source = some (path, content) := reads
      cases found.symm.trans same
      exact ⟨rfl, rfl⟩

theorem copyBuffer_matches {expected : Descriptor} {content : Bytes} (settles : Settles sc expected.digest content)
    (size : (content.length : Int) = expected.size) :
    (pieceReader .eof false).copyBuffer sc.cd [content] expected = .ok content := by
  refine (FiniteReader.copyBuffer_result sc.cd _ settles.2).ok_iff content |>.mpr ⟨?_, rfl, by omega, settles.1⟩
  exact List.append_nil content

section File
variable {path : String} {expected : Descriptor} {source : Source} {content : Bytes}

theorem wp_copyBuffer (reads : l.Reads content source) (settles : Settles sc expected.digest content)
    (size : (content.length : Int) = expected.size) (writing : l.writing = some (path, [])) :
    wp (callGhost sc call) (copyBuffer sc.cd path expected source)
      (fun result l' => result = none ∧ l' = l.write path content) l := by
  have whole : content.take expected.size.toNat = content := List.take_of_length_le (by omega)
  rw [copyBuffer, if_neg settles.2]
  refine wp_seq _ (wp_read reads) ?_
  rintro _ _ ⟨rfl, rfl⟩
  refine ⟨writing, ?_⟩
  rintro ⟨n, err⟩ l' ⟨rfl, rfl⟩
  simp only [copyBuffer_matches settles size, whole]
  exact ⟨rfl, rfl⟩

variable {name : String}

/-- A file that is saved holds the verified content and is recorded under its digest. -/
theorem wp_saveFile (reads : l.Reads content source) (settles : Settles sc expected.digest content)
    (size : (content.length : Int) = expected.size) (writing : l.writing = some (path, []))
    (pushing : l.pushing = some name)
    (own : name = title sc.layer → path = sc.path ∧ (content.length : Int) = sc.layer.size ∧ expected.digest = sc.layer.digest) :
    wp (callGhost sc call) (saveFile sc.cd path expected source)
      (fun result l' => result = none ∧ l' = l.store call expected.digest) l := by
  refine wp_seq _ (wp_copyBuffer reads settles size writing) ?_
  rintro _ _ ⟨rfl, rfl⟩
  refine ⟨⟨name, content, pushing, rfl, settles, own⟩, ?_⟩
  rintro _ _ rfl
  refine ⟨trivial, ?_⟩
  rintro err _ ⟨rfl, rfl⟩
  exact ⟨rfl, rfl⟩

variable (proper : sc.Proper)
include proper

/-- The holder of the lock of a name writes its file, unpacked or as it is, and records it. -/
theorem wp_pushNamed (inPlay : expected ∈ sc.descs) (named : title expected ≠ "") (reads : l.Reads content source)
    (settles : Settles sc expected.digest content) (pushing : l.pushing = some (title expected)) (writing : l.writing = none) :
    wp (callGhost sc call) (pushNamed sc.opts sc.cd (title expected) expected source)
      (fun result l' => result = none ∧ l' = l.store call expected.digest) l := by
  have size := proper.sized expected inPlay content settles.1
  have resolved : wp (callGhost sc call) (resolveWritePath sc.opts (title expected))
      (fun result l' => result = .ok (sc.opts.absPath (title expected)) ∧ l' = l) l := by
    have inside := proper.inside (title expected) (mem_names inPlay named)
    rw [resolveWritePath, if_neg (by rintro ⟨disallowed, escapes⟩; simp_all)]
    split
    · refine ⟨trivial, ?_⟩
      rintro found l' ⟨rfl, rfl⟩
      exact ⟨rfl, rfl⟩
    · exact ⟨rfl, rfl⟩
  refine wp_seq _ resolved ?_
  rintro _ l ⟨rfl, rfl⟩
  change wp _ (if _ then _ else _) _ _
  split
  · rename_i unpacks
    have other : title expected ≠ title sc.layer := fun same => (proper.alone expected inPlay same).2.2 unpacks
    refine ⟨trivial, ?_⟩
    rintro err l ⟨rfl, rfl⟩
    refine ⟨⟨⟨_, pushing, other⟩, writing⟩, ?_⟩
    rintro (err | gzip) l' moved
    · exact moved.elim
    · obtain rfl : l' = _ := moved
      change wp _ (saveFile sc.cd gzip expected source >>= _) _ _
      refine wp_seq _ (wp_saveFile (l := l.write gzip []) reads settles size rfl pushing
        (fun same => absurd same other)) ?_
      rintro _ _ ⟨rfl, rfl⟩
      refine ⟨trivial, ?_⟩
      rintro ⟨err, written⟩ _ ⟨rfl, rfl⟩
      exact ⟨rfl, rfl⟩
  · refine ⟨trivial, ?_⟩
    rintro err l ⟨rfl, rfl⟩
    refine ⟨⟨⟨_, pushing, rfl⟩, writing⟩, ?_⟩
    rintro err _ ⟨rfl, rfl⟩
    refine wp_saveFile (l := l.write (sc.opts.absPath (title expected)) []) reads settles size rfl pushing
      fun same => ?_
    obtain ⟨digest, sameSize, _⟩ := proper.alone expected inPlay same
    exact ⟨by rw [same]; rfl, size.trans sameSize, digest⟩

/-- A push under a name takes the lock of the name, and leaves the name taken. -/
theorem wp_push_named (inPlay : expected ∈ sc.descs) (named : title expected ≠ "") (reads : l.Reads content source)
    (settles : Settles sc expected.digest content) (idle : l.Idle) :
    wp (callGhost sc call) (push sc.opts sc.cd expected source)
      (fun result l' => result = none ∧ l.Next l' ∧ (title expected = title sc.layer → l'.restored = true) ∧
        (expected = call.expected → l'.saved = true)) l := by
  rw [push, if_neg named]
  refine ⟨⟨mem_names inPlay named, idle⟩, ?_⟩
  rintro known l' ⟨rfl, rfl⟩
  change wp _ (pushNamed sc.opts sc.cd (title expected) expected source >>= _) _ _
  refine wp_seq _ (wp_pushNamed (l := l.acquire (title expected)) proper inPlay named reads settles rfl
    idle.writing) ?_
  rintro _ _ ⟨rfl, rfl⟩
  refine ⟨⟨rfl, rfl⟩, ?_⟩
  rintro _ _ rfl
  refine ⟨rfl, ⟨⟨rfl, rfl, rfl⟩, fun saved => ?_, fun restored => ?_, id⟩, fun same => ?_, ?_⟩
  · simp [Local.release, Local.store, Local.acquire, saved]
  · simp [Local.release, Local.store, Local.acquire, restored]
  · simp [Local.release, same]
  · rintro rfl
    simp [Local.release, Local.store]

end File

variable {content : Bytes} {source : Source}

/-- A push without a name ends in the fallback storage. -/
theorem wp_push_unnamed (keeps : sc.opts.ignoreNoName = false) (unnamed : title call.expected = "") (idle : l.Idle) :
    wp (callGhost sc call) (push sc.opts sc.cd call.expected (.memory content))
      (fun result l' => result = none ∧ l.Next l' ∧ l'.saved = true) l := by
  rw [push, if_pos unnamed, keeps]
  refine ⟨trivial, ?_⟩
  rintro err l' ⟨rfl, rfl⟩
  exact ⟨rfl, ⟨⟨idle.pushing, idle.stored, idle.writing⟩, fun saved => by simp [Local.keep, saved], id, id⟩,
    by simp [Local.keep, unnamed]⟩

/-- What a fetch of a descriptor without a name, or of the manifest of the call, returns. -/
def Fetched (sc : Scene) (call : Call) (desc : Descriptor) (l : Local) (result : Except Error Source) (l' : Local) : Prop :=
  l.Next l' ∧ match result with
    | .ok source => ∃ content, l'.Reads content source ∧ Settles sc desc.digest content
    | .error err => Error.is .notFound err = true ∧ fromOCI desc ≠ fromOCI sc.layer ∧
      (desc = call.expected → l.saved = false)

/-- Content is read from the recorded file, or else from the fallback storage. -/
theorem wp_fetchContent {l' : Local} (next : l.Next l') (saved : l'.saved = l.saved) :
    wp (callGhost sc call) (fetchContent desc) (Fetched sc call desc l) l' := by
  refine ⟨trivial, ?_⟩
  rintro (_ | path) l₁ moved
  · obtain ⟨keys, layer, manifest, rfl⟩ := moved
    refine ⟨trivial, ?_⟩
    rintro (err | content) l₂ moved
    · obtain ⟨missing, unknown, rfl⟩ := moved
      refine ⟨next.readFrom _ _, missing, fun same => ?_, ?_⟩
      · exact unknown (same ▸ layer (fromOCI_eq_iff.mp same).2.1)
      · rintro rfl
        by_contra known
        exact unknown (manifest (saved.trans (Bool.not_eq_false _ ▸ known)) rfl)
    · obtain ⟨matching, rfl⟩ := moved
      exact ⟨next.readFrom _ _, content, rfl, matching.verified, matching.algorithm⟩
  · obtain ⟨content, settles, rfl⟩ := moved
    refine ⟨trivial, ?_⟩
    rintro found _ ⟨rfl, rfl⟩
    exact ⟨next.readFrom _ _, content, rfl, settles⟩

theorem wp_fetch (known : title desc = "" ∨ desc = call.expected ∧ l.saved = true) (idle : l.Idle) :
    wp (callGhost sc call) (fetch desc) (Fetched sc call desc l) l := by
  refine ⟨trivial, ?_⟩
  rintro closed l ⟨rfl, rfl⟩
  change wp _ (if title desc = "" then _ else _) _ _
  split
  · exact wp_fetchContent (.refl idle) rfl
  · rename_i named
    obtain ⟨rfl, saved⟩ := known.resolve_left named
    refine ⟨named, ?_⟩
    rintro known l' ⟨exists', rfl⟩
    obtain rfl : known = true := exists' rfl saved
    exact wp_fetchContent ⟨⟨idle.pushing, idle.stored, idle.writing⟩, id, fun restored => by simp [restored], id⟩ rfl

theorem mem_descs (mine : call ∈ sc.calls) (member : desc ∈ call.nodes sc.cd) : desc ∈ sc.descs :=
  List.mem_flatMap.mpr ⟨call, mine, List.mem_cons_of_mem _ member⟩

variable (proper : sc.Proper) (mine : call ∈ sc.calls)
include proper mine

/-- A manifest that is saved is read back and decoded. -/
theorem wp_storeSuccessors (saved : l.saved = true) (idle : l.Idle) :
    wp (callGhost sc call) (storeSuccessors sc.cd call.expected)
      (fun result l' => result = .ok (call.nodes sc.cd) ∧ l.Next l') l := by
  have valid := proper.valid call mine
  rw [storeSuccessors, if_pos valid.manifest]
  refine wp_seq _ (wp_fetch (.inr ⟨rfl, saved⟩) idle) ?_
  rintro (err | source) l' ⟨next, fetched⟩
  · cases saved.symm.trans (fetched.2.2 rfl)
  · obtain ⟨content, reads, settles⟩ := fetched
    obtain rfl := valid.unique content settles.1
    refine wp_seq _ (wp_read reads) ?_
    rintro _ _ ⟨rfl, rfl⟩
    exact ⟨valid.decodes, next⟩

/-- A successor is restored under its name, unless its content is missing. -/
theorem wp_restore {successor : Descriptor} (member : successor ∈ call.nodes sc.cd) (named : title successor ≠ "")
    (idle : l.Idle) :
    wp (callGhost sc call) (restore sc.opts sc.cd successor)
      (fun result l' => l.Next l' ∧ match result with
        | none => title successor = title sc.layer → l'.restored = true
        | some err => Error.is .notFound err = true ∧ fromOCI successor ≠ fromOCI sc.layer) l := by
  refine wp_seq _ (wp_fetch (.inl rfl) idle) ?_
  rintro (err | source) l' ⟨next, fetched⟩
  · exact ⟨next, by simp [Error.is, fetched.1], fetched.2.1⟩
  · obtain ⟨content, reads, settles⟩ := fetched
    refine wp_seq _ (wp_push_named proper (mem_descs mine member) named reads settles next.idle) ?_
    rintro _ l'' ⟨rfl, next', restored, _⟩
    exact ⟨next.trans next', restored⟩

/-- By induction on the successors: each that has a name is there already or restored, unless its
content is missing, and that of the layer is not. -/
theorem wp_restoreAll {nodes : List Descriptor} (members : ∀ node ∈ nodes, node ∈ call.nodes sc.cd) (idle : l.Idle) :
    wp (callGhost sc call) (restoreAll sc.opts sc.cd nodes)
      (fun result l' => result = none ∧ l.Next l' ∧ (sc.layer ∈ nodes → l'.restored = true)) l := by
  induction nodes generalizing l with
  | nil => exact ⟨rfl, .refl idle, fun impossible => by cases impossible⟩
  | cons successor rest ih =>
    have rest' (l' : Local) (next : l.Next l') (done : successor = sc.layer → l'.restored = true) :
        wp (callGhost sc call) (restoreAll sc.opts sc.cd rest)
          (fun result l'' => result = none ∧ l.Next l'' ∧ (sc.layer ∈ successor :: rest → l''.restored = true)) l' := by
      refine wp_mono _ ?_ (ih (fun node inRest => members node (List.mem_cons_of_mem _ inRest)) next.idle)
      rintro result l'' ⟨rfl, next', restored⟩
      refine ⟨rfl, next.trans next', fun member => ?_⟩
      rcases List.mem_cons.mp member with rfl | inRest
      · exact next'.restored (done rfl)
      · exact restored inRest
    rw [restoreAll]
    split
    · rename_i unnamed
      exact rest' l (.refl idle) (fun same => absurd (same ▸ unnamed) proper.named)
    · rename_i named
      refine ⟨named, ?_⟩
      rintro known l' ⟨_, rfl⟩
      have next : l.Next { l with restored := l.restored || (known && title successor = title sc.layer) } :=
        ⟨⟨idle.pushing, idle.stored, idle.writing⟩, id, fun restored => by simp [restored], id⟩
      cases known with
      | true =>
        refine rest' _ next ?_
        rintro rfl
        simp
      | false =>
        change wp _ (restore sc.opts sc.cd successor >>= _) _ _
        refine wp_seq _ (wp_restore proper mine (members successor List.mem_cons_self) named next.idle) ?_
        rintro (_ | err) l'' ⟨next', outcome⟩
        · refine rest' l'' (next.trans next') ?_
          rintro rfl
          exact outcome rfl
        · change wp _ (if Error.is .notFound err then _ else _) _ _
          rw [if_pos outcome.1]
          refine rest' l'' (next.trans next') ?_
          rintro rfl
          exact absurd rfl outcome.2

theorem wp_restoreDuplicates (saved : l.saved = true) (idle : l.Idle) :
    wp (callGhost sc call) (restoreDuplicates sc.opts sc.cd call.expected)
      (fun result l' => result = none ∧ l.Next l' ∧ l'.restored = true) l := by
  refine wp_seq _ (wp_storeSuccessors proper mine saved idle) ?_
  rintro _ l' ⟨rfl, next⟩
  refine wp_mono _ ?_ (wp_restoreAll proper mine (fun node member => member) next.idle)
  rintro result l'' ⟨nil, next', restored⟩
  exact ⟨nil, next.trans next', restored (proper.valid call mine).layer⟩

theorem wp_index (saved : l.saved = true) (idle : l.Idle) :
    wp (callGhost sc call) (index sc.cd call.expected)
      (fun result l' => result = none ∧ (l.restored = true → l'.restored = true) ∧ l'.indexed = true) l := by
  refine wp_seq _ (wp_storeSuccessors proper mine saved idle) ?_
  rintro _ l' ⟨rfl, next⟩
  refine ⟨⟨rfl, rfl⟩, ?_⟩
  rintro _ _ rfl
  exact ⟨rfl, next.restored, rfl⟩

/-- A push saves the manifest, restores the names of its successors, and indexes it. -/
theorem wp_storePush : wp (callGhost sc call) (storePush sc.opts sc.cd call.expected call.content) callPost {} := by
  have valid := proper.valid call mine
  refine ⟨trivial, ?_⟩
  rintro closed _ ⟨rfl, rfl⟩
  have idle : Local.Idle {} := ⟨rfl, rfl, rfl⟩
  have pushed : wp (callGhost sc call) (push sc.opts sc.cd call.expected (.memory call.content))
      (fun result l' => result = none ∧ l'.Idle ∧ l'.saved = true) {} := by
    by_cases named : title call.expected = ""
    · refine wp_mono _ ?_ (wp_push_unnamed (proper.keeps call mine named) named idle)
      rintro result l' ⟨nil, next, saved⟩
      exact ⟨nil, next.idle, saved⟩
    · have inPlay : call.expected ∈ sc.descs := List.mem_flatMap.mpr ⟨call, mine, List.mem_cons_self⟩
      have reads : Local.Reads {} call.content (.memory call.content) := rfl
      refine wp_mono _ ?_ (wp_push_named proper inPlay named reads
        ⟨valid.content.verified, valid.content.algorithm⟩ idle)
      rintro result l' ⟨nil, next, _, saved⟩
      exact ⟨nil, next.idle, saved rfl⟩
  change wp _ (push sc.opts sc.cd call.expected (.memory call.content) >>= _) _ _
  refine wp_seq _ pushed ?_
  rintro _ l ⟨rfl, idle, saved⟩
  change wp _ (if sc.opts.forceCAS = true then _ else _) _ _
  rw [proper.restores, if_neg Bool.false_ne_true]
  refine wp_seq _ (wp_restoreDuplicates proper mine saved idle) ?_
  rintro _ l' ⟨rfl, next, restored⟩
  refine wp_mono _ ?_ (wp_index proper mine (next.saved saved) next.idle)
  rintro result l'' ⟨nil, kept, indexed⟩
  exact ⟨nil, kept restored, indexed⟩

end Outline

end OrasGo.File
