import OrasGo.Descriptor

/-! Reading content and the edges of the content graph: `content.ReadAll`,
`content.FetchAll`, `content.Successors` and `manifestutil.Subject`. -/

namespace OrasGo

/-- `ocispec.Manifest`, as far as the code reads it. -/
structure Manifest where
  config : Descriptor := {}
  layers : List Descriptor := []
  subject : Option Descriptor := none
  artifactType : String := ""
  annotations : Annotations := ∅
  deriving DecidableEq

/-- `ocispec.Index`, as far as the code reads it. -/
structure Index where
  manifests : List Descriptor := []
  subject : Option Descriptor := none
  artifactType : String := ""
  annotations : Annotations := ∅
  deriving DecidableEq

/-- `spec.Artifact`, as far as the code reads it. -/
structure Artifact where
  blobs : List Descriptor := []
  subject : Option Descriptor := none
  artifactType : String := ""
  annotations : Annotations := ∅
  deriving DecidableEq

/-- The hash functions of `go-digest` and the JSON decoders of the standard
library: for an algorithm the hexadecimal hash of some bytes, and what
`json.Unmarshal` makes of them for each of the types it is called with. -/
structure Codec where
  hash : String → Bytes → String
  unmarshalManifest : Bytes → Except Error Manifest
  unmarshalIndex : Bytes → Except Error Index
  unmarshalArtifact : Bytes → Except Error Artifact
  unmarshalSubject : Bytes → Except Error (Option Descriptor)

variable (cd : Codec)

/-- `Verifier.Verified` once all of `content` has been written to it. -/
def Codec.verified (d : Digest) (content : Bytes) : Bool :=
  d == Digest.algorithm d ++ ":" ++ cd.hash (Digest.algorithm d) content

/-- The most bytes `make` can allocate; it panics beyond. -/
def maxAlloc : Int := 2 ^ 48

/-- `content.ReadAll` on a stream that holds exactly `stream` and fails at no
read. -/
def readAll (stream : Bytes) (desc : Descriptor) : Except Error Bytes :=
  if desc.size < 0 then
    .error .invalidDescriptorSize
  else if maxAlloc < desc.size then
    .error (.panicked "makeslice: len out of range")
  else if algorithmSize (Digest.algorithm desc.digest) = none then
    .error (.panicked "digest algorithm not available")
  else if (stream.length : Int) < desc.size then
    .error (.wrap ("read failed: expected content size of " ++ toString desc.size ++ ", got " ++
      toString stream.length ++ ", for digest " ++ desc.digest) .unexpectedEOF)
  else if desc.size < stream.length then
    .error .trailingData
  else if cd.verified desc.digest stream then
    .ok stream
  else
    .error .mismatchedDigest

abbrev Fetcher := Descriptor → Except Error Bytes

/-- `content.FetchAll`. -/
def fetchAll (fetch : Fetcher) (desc : Descriptor) : Except Error Bytes :=
  match fetch desc with
  | .error e => .error e
  | .ok stream => readAll cd stream desc

/-- Fetch the content of a node and decode it. -/
def fetchAndUnmarshal {α : Type} (unmarshal : Bytes → Except Error α) (fetch : Fetcher)
    (desc : Descriptor) : Except Error α :=
  match fetchAll cd fetch desc with
  | .error e => .error e
  | .ok content => unmarshal content

/-- `content.Successors`. -/
def successors (fetch : Fetcher) (node : Descriptor) : Except Error (List Descriptor) :=
  if node.mediaType = Docker.mediaTypeManifest then
    (fetchAndUnmarshal cd cd.unmarshalManifest fetch node).map
      fun manifest => manifest.config :: manifest.layers
  else if node.mediaType = Ocispec.mediaTypeImageManifest then
    (fetchAndUnmarshal cd cd.unmarshalManifest fetch node).map
      fun manifest => manifest.subject.toList ++ manifest.config :: manifest.layers
  else if node.mediaType = Docker.mediaTypeManifestList then
    (fetchAndUnmarshal cd cd.unmarshalIndex fetch node).map fun index => index.manifests
  else if node.mediaType = Ocispec.mediaTypeImageIndex then
    (fetchAndUnmarshal cd cd.unmarshalIndex fetch node).map
      fun index => index.subject.toList ++ index.manifests
  else if node.mediaType = Spec.mediaTypeArtifactManifest then
    (fetchAndUnmarshal cd cd.unmarshalArtifact fetch node).map
      fun manifest => manifest.subject.toList ++ manifest.blobs
  else
    .ok []

/-- `manifestutil.Subject`. -/
def subject (fetch : Fetcher) (desc : Descriptor) : Except Error (Option Descriptor) :=
  if desc.mediaType = Ocispec.mediaTypeImageManifest ∨ desc.mediaType = Ocispec.mediaTypeImageIndex ∨
      desc.mediaType = Spec.mediaTypeArtifactManifest then
    fetchAndUnmarshal cd cd.unmarshalSubject fetch desc
  else
    .ok none

variable {cd}

variable {stream : Bytes} {desc a b : Descriptor} {α : Type} {fetch : Fetcher} {node : Descriptor} {err : Error}
  {hashes : List (Bytes × String)} {indexes : List (Bytes × Index)}

theorem readAll_ok {content : Bytes} (read : readAll cd stream desc = .ok content) :
    content = stream ∧ desc.size = stream.length ∧ cd.verified desc.digest stream = true := by
  unfold readAll at read
  split at read
  · cases read
  split at read
  · cases read
  split at read
  · cases read
  split at read
  · cases read
  split at read
  · cases read
  split at read
  · rename_i verified
    cases read
    exact ⟨rfl, by omega, verified⟩
  · cases read

theorem readAll_congr (same : fromOCI a = fromOCI b) :
    readAll cd stream a = readAll cd stream b := by
  obtain ⟨_, digest, size⟩ := fromOCI_eq_iff.mp same
  simp only [readAll, digest, size]

theorem fetchAndUnmarshal_congr {unmarshal : Bytes → Except Error α} {fetch' : Fetcher} (same : fromOCI a = fromOCI b)
    (fetched : fetch a = fetch' b) :
    fetchAndUnmarshal cd unmarshal fetch a = fetchAndUnmarshal cd unmarshal fetch' b := by
  simp only [fetchAndUnmarshal, fetchAll, fetched, readAll_congr same]

theorem successors_congr {fetch' : Fetcher} (same : fromOCI a = fromOCI b) (fetched : fetch a = fetch' b) :
    successors cd fetch a = successors cd fetch' b := by
  have mediaType := (fromOCI_eq_iff.mp same).1
  simp only [successors, mediaType, fetchAndUnmarshal_congr same fetched]

/-- A node that is no manifest is a leaf, and its content is not read. -/
theorem successors_of_not_isManifest (leaf : isManifest node = false) : successors cd fetch node = .ok [] := by
  simp only [isManifest, Bool.or_eq_false_iff, decide_eq_false_iff_not] at leaf
  simp only [successors, leaf, if_false]

theorem successors_of_isManifest {nodes : List Descriptor} (manifest : isManifest node = true)
    (found : successors cd fetch node = .ok nodes) :
    ∃ content, fetchAll cd fetch node = .ok content := by
  simp only [isManifest, Bool.or_eq_true, decide_eq_true_eq] at manifest
  cases fetched : fetchAll cd fetch node with
  | ok content => exact ⟨content, rfl⟩
  | error e =>
    simp only [successors, fetchAndUnmarshal, fetched, Except.map] at found
    split at found
    · cases found
    split at found
    · cases found
    split at found
    · cases found
    split at found
    · cases found
    split at found
    · cases found
    · rcases manifest with (((h | h) | h) | h) | h <;> contradiction

theorem successors_of_fetch_error (manifest : isManifest node = true) (failed : fetch node = .error err) :
    successors cd fetch node = .error err := by
  simp only [isManifest, Bool.or_eq_true, decide_eq_true_eq] at manifest
  simp only [successors, fetchAndUnmarshal, fetchAll, failed, Except.map]
  split
  · rfl
  split
  · rfl
  split
  · rfl
  split
  · rfl
  split
  · rfl
  · rcases manifest with (((h | h) | h) | h) | h <;> contradiction

/-- Content that does not decode is reported as an error of the JSON decoder. -/
structure Codec.JSONErrors (cd : Codec) : Prop where
  manifest : ∀ content err, cd.unmarshalManifest content = .error err → ∃ text, err = .json text
  index : ∀ content err, cd.unmarshalIndex content = .error err → ∃ text, err = .json text
  artifact : ∀ content err, cd.unmarshalArtifact content = .error err → ∃ text, err = .json text

theorem readAll_error (failed : readAll cd stream desc = .error err) : Error.is .notFound err = false := by
  unfold readAll at failed
  split at failed
  · cases failed; rfl
  split at failed
  · cases failed; rfl
  split at failed
  · cases failed; rfl
  split at failed
  · cases failed; rfl
  split at failed
  · cases failed; rfl
  split at failed
  · cases failed
  · cases failed; rfl

theorem fetchAndUnmarshal_notFound {unmarshal : Bytes → Except Error α}
    (json : ∀ content err, unmarshal content = .error err → ∃ text, err = .json text)
    (failed : fetchAndUnmarshal cd unmarshal fetch desc = .error err) (absent : Error.is .notFound err = true) :
    fetch desc = .error err := by
  unfold fetchAndUnmarshal fetchAll at failed
  split at failed
  · rename_i failure
    cases failed
    split at failure
    · cases failure
      assumption
    · cases absent.symm.trans (readAll_error failure)
  · obtain ⟨text, rfl⟩ := json _ _ failed
    cases absent

/-- Only the fetcher reports a node as absent. -/
theorem successors_notFound (json : cd.JSONErrors) (failed : successors cd fetch node = .error err)
    (absent : Error.is .notFound err = true) :
    fetch node = .error err := by
  have read {α : Type} {unmarshal : Bytes → Except Error α} {list : α → List Descriptor}
      (json : ∀ content err, unmarshal content = .error err → ∃ text, err = .json text)
      (failed : (fetchAndUnmarshal cd unmarshal fetch node).map list = .error err) :
      fetch node = .error err := by
    cases fetched : fetchAndUnmarshal cd unmarshal fetch node with
    | ok value =>
      rw [fetched] at failed
      cases failed
    | error failure =>
      rw [fetched] at failed
      cases failed
      exact fetchAndUnmarshal_notFound json fetched absent
  unfold successors at failed
  split at failed
  · exact read json.manifest failed
  split at failed
  · exact read json.manifest failed
  split at failed
  · exact read json.index failed
  split at failed
  · exact read json.index failed
  split at failed
  · exact read json.artifact failed
  · cases failed

/-- The codec that knows the hashes of a few contents and what they decode to. -/
def Codec.ofTable (hashes : List (Bytes × String)) (manifests : List (Bytes × Manifest))
    (indexes : List (Bytes × Index)) : Codec where
  hash _ content := (hashes.lookup content).getD ""
  unmarshalManifest content := match manifests.lookup content with
    | some manifest => .ok manifest
    | none => .error (.json "invalid manifest")
  unmarshalIndex content := match indexes.lookup content with
    | some index => .ok index
    | none => .error (.json "invalid index")
  unmarshalArtifact _ := .error (.json "invalid artifact")
  unmarshalSubject content := match manifests.lookup content, indexes.lookup content with
    | some manifest, _ => .ok manifest.subject
    | none, some index => .ok index.subject
    | none, none => .error (.json "invalid manifest")

theorem mem_of_lookup {β : Type} [BEq α] [LawfulBEq α] {table : List (α × β)} {a : α} {b : β}
    (found : table.lookup a = some b) : (a, b) ∈ table := by
  induction table with
  | nil => cases found
  | cons entry rest ih =>
    obtain ⟨a', b'⟩ := entry
    rw [List.lookup_cons] at found
    split at found
    · rename_i same
      cases eq_of_beq same
      cases found
      exact List.mem_cons_self
    · exact List.mem_cons_of_mem _ (ih found)

theorem ofTable_verified {hashes : List (Bytes × String)} {manifests : List (Bytes × Manifest)}
    {indexes : List (Bytes × Index)} {d : Digest} {content : Bytes} (encoded : d ≠ Digest.algorithm d ++ ":" ++ "")
    (verified : (Codec.ofTable hashes manifests indexes).verified d content = true) :
    ∃ entry ∈ hashes, entry.1 = content ∧ d = Digest.algorithm d ++ ":" ++ entry.2 := by
  have hash := eq_of_beq verified
  simp only [Codec.ofTable] at hash
  cases found : hashes.lookup content with
  | none =>
    rw [found] at hash
    exact absurd hash encoded
  | some h =>
    rw [found] at hash
    exact ⟨(content, h), mem_of_lookup found, rfl, hash⟩

theorem ofTable_manifest {manifests : List (Bytes × Manifest)} {content : Bytes} {manifest : Manifest}
    (decoded : (Codec.ofTable hashes manifests indexes).unmarshalManifest content = .ok manifest) :
    (content, manifest) ∈ manifests := by
  simp only [Codec.ofTable] at decoded
  split at decoded
  · rename_i found
    exact mem_of_lookup (Except.ok.inj decoded ▸ found)
  · cases decoded

theorem ofTable_index {manifests : List (Bytes × Manifest)} {content : Bytes} {index : Index}
    (decoded : (Codec.ofTable hashes manifests indexes).unmarshalIndex content = .ok index) :
    (content, index) ∈ indexes := by
  simp only [Codec.ofTable] at decoded
  split at decoded
  · rename_i found
    exact mem_of_lookup (Except.ok.inj decoded ▸ found)
  · cases decoded

theorem ofTable_subject {manifests : List (Bytes × Manifest)} {content : Bytes} {found : Descriptor}
    (decoded : (Codec.ofTable hashes manifests indexes).unmarshalSubject content = .ok (some found)) :
    (∃ manifest, (content, manifest) ∈ manifests ∧ manifest.subject = some found) ∨
      ∃ index, (content, index) ∈ indexes ∧ index.subject = some found := by
  simp only [Codec.ofTable] at decoded
  split at decoded
  · rename_i listed
    exact .inl ⟨_, mem_of_lookup listed, Except.ok.inj decoded⟩
  · rename_i listed
    exact .inr ⟨_, mem_of_lookup listed, Except.ok.inj decoded⟩
  · cases decoded

theorem ofTable_jsonErrors (hashes : List (Bytes × String)) (manifests : List (Bytes × Manifest))
    (indexes : List (Bytes × Index)) : (Codec.ofTable hashes manifests indexes).JSONErrors where
  manifest content err failed := by
    simp only [Codec.ofTable] at failed
    split at failed
    · cases failed
    · exact ⟨_, (Except.error.inj failed).symm⟩
  index content err failed := by
    simp only [Codec.ofTable] at failed
    split at failed
    · cases failed
    · exact ⟨_, (Except.error.inj failed).symm⟩
  artifact content err failed := ⟨_, (Except.error.inj failed).symm⟩

/-- The `length` bytes of a number, the most significant first. -/
def Bytes.ofNat (length value : Nat) : Bytes :=
  (List.range length).map fun i => UInt8.ofNat (value / 256 ^ (length - 1 - i))

/-! Three manifests without layers, namely an image, an artifact with the same empty
object as its configuration and an artifact that refers to the image, and a plain text. -/

namespace Sample

def config : Descriptor where
  mediaType := "application/vnd.oci.image.config.v1+json"
  digest := "sha256:44136fa355b3678a1146ad16f7e8649e94fb4fc21fe77e8310c060f61caaff8a"
  size := 2

def emptyConfig : Descriptor where
  mediaType := "application/vnd.oci.empty.v1+json"
  digest := "sha256:44136fa355b3678a1146ad16f7e8649e94fb4fc21fe77e8310c060f61caaff8a"
  size := 2

def image : Descriptor where
  mediaType := Ocispec.mediaTypeImageManifest
  digest := "sha256:c18d69ac3ba3e775ab5837ebd5e526dde0bcef2c72d0cfb26c6ccec7645245e5"
  size := 189

def artifact : Descriptor where
  mediaType := Ocispec.mediaTypeImageManifest
  digest := "sha256:91f862fccf6f849deec349bc66cd9dafffefb5179629c1e53c58b2010fda0e02"
  size := 182

def referrer : Descriptor where
  mediaType := Ocispec.mediaTypeImageManifest
  digest := "sha256:f1d3725dbcee5d1ad7da11d5bc465ff04cfb9ff79b67f1e3cd1201d85e8daa4f"
  size := 345

def hello : Descriptor where
  mediaType := "application/octet-stream"
  digest := "sha256:2cf24dba5fb0a30e26e83b2ac5b9e29e1b161e5c1fa7425e73043362938b9824"
  size := 5

/-- The same bytes, taken for a manifest. -/
def helloManifest : Descriptor := { hello with mediaType := Ocispec.mediaTypeImageManifest }

/-- The ASCII text of the word, which is no JSON. -/
def helloBytes : Bytes := Bytes.ofNat 5 0x68656c6c6f

/-- The JSON text of an empty object. -/
def configBytes : Bytes := Bytes.ofNat 2 0x7b7d

/-- The JSON text of `schemaVersion` 2 and the configuration up to its size. -/
def imageHead : Bytes :=
  Bytes.ofNat 42 0x7b22736368656d6156657273696f6e223a322c22636f6e666967223a7b226d6564696154797065223a22 ++
  Bytes.ofNat 42 0x6170706c69636174696f6e2f766e642e6f63692e696d6167652e636f6e6669672e76312b6a736f6e222c ++
  Bytes.ofNat 42 0x22646967657374223a227368613235363a34343133366661333535623336373861313134366164313666 ++
  Bytes.ofNat 42 0x376538363439653934666234666332316665373765383331306330363066363163616166663861222c22

/-- The JSON text of `schemaVersion` 2, the configuration and no layers. -/
def imageBytes : Bytes :=
  imageHead ++
  Bytes.ofNat 21 0x73697a65223a327d2c226c6179657273223a5b5d7d

/-- The JSON text of `schemaVersion` 2 and the empty configuration up to its closing brace. -/
def artifactHead : Bytes :=
  Bytes.ofNat 42 0x7b22736368656d6156657273696f6e223a322c22636f6e666967223a7b226d6564696154797065223a22 ++
  Bytes.ofNat 42 0x6170706c69636174696f6e2f766e642e6f63692e656d7074792e76312b6a736f6e222c22646967657374 ++
  Bytes.ofNat 42 0x223a227368613235363a3434313336666133353562333637386131313436616431366637653836343965 ++
  Bytes.ofNat 42 0x3934666234666332316665373765383331306330363066363163616166663861222c2273697a65223a32

/-- The JSON text of `schemaVersion` 2, the empty configuration and no layers. -/
def artifactBytes : Bytes :=
  artifactHead ++
  Bytes.ofNat 14 0x7d2c226c6179657273223a5b5d7d

/-- The JSON text of the artifact with the image as its subject. -/
def referrerBytes : Bytes :=
  artifactHead ++
  Bytes.ofNat 42 0x7d2c226c6179657273223a5b5d2c227375626a656374223a7b226d6564696154797065223a226170706c ++
  Bytes.ofNat 42 0x69636174696f6e2f766e642e6f63692e696d6167652e6d616e69666573742e76312b6a736f6e222c2264 ++
  Bytes.ofNat 42 0x6967657374223a227368613235363a633138643639616333626133653737356162353833376562643565 ++
  Bytes.ofNat 42 0x35323664646530626365663263373264306366623236633663636563373634353234356535222c227369 ++
  Bytes.ofNat 9 0x7a65223a3138397d7d

def codec : Codec := .ofTable
  [(configBytes, "44136fa355b3678a1146ad16f7e8649e94fb4fc21fe77e8310c060f61caaff8a"),
    (imageBytes, "c18d69ac3ba3e775ab5837ebd5e526dde0bcef2c72d0cfb26c6ccec7645245e5"),
    (artifactBytes, "91f862fccf6f849deec349bc66cd9dafffefb5179629c1e53c58b2010fda0e02"),
    (referrerBytes, "f1d3725dbcee5d1ad7da11d5bc465ff04cfb9ff79b67f1e3cd1201d85e8daa4f"),
    (helloBytes, "2cf24dba5fb0a30e26e83b2ac5b9e29e1b161e5c1fa7425e73043362938b9824")]
  [(imageBytes, { config }), (artifactBytes, { config := emptyConfig }),
    (referrerBytes, { config := emptyConfig, subject := some image })] []

end Sample

end OrasGo
