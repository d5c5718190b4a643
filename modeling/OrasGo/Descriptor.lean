import Mathlib.Data.Finmap
import Mathlib.Data.Finset.Basic

/-! Descriptors, media types, digests and the errors of the library. -/

namespace OrasGo

/-- `CopyErrorOrigin`. -/
inductive CopyErrorOrigin
  | source
  | destination
  deriving DecidableEq, Repr

/-- The errors the modelled code returns: the sentinels of `errdef`, `content`
and the standard library, errors that wrap another one, and errors of the
caller's own concrete types. `panicked` stands for a run-time panic. -/
inductive Error
  | alreadyExists
  | invalidDigest
  | invalidReference
  | missingReference
  | notFound
  | unsupported
  | invalidDescriptorSize
  | mismatchedDigest
  | trailingData
  | unexpectedEOF
  | contextCanceled
  | contextDeadlineExceeded
  | skipNode
  | skipSource
  | json (text : String)
  | fileSystem (text : String)
  | text (message : String)
  | wrap (message : String) (cause : Error)
  | copyError (op : String) (origin : CopyErrorOrigin) (cause : Error)
  | other (goType : Nat) (message : String)
  | panicked (message : String)
  deriving DecidableEq, Repr

/-- The concrete Go type of an error, which is all `atomic.Value` looks at. -/
inductive GoType
  | errorString
  | deadlineExceededError
  | jsonSyntaxError
  | fsPathError
  | fmtWrapError
  | orasCopyError
  | callerDefined (id : Nat)
  deriving DecidableEq, Repr

namespace Error

def goType : Error → GoType
  | contextDeadlineExceeded => .deadlineExceededError
  | json _ => .jsonSyntaxError
  | fileSystem _ => .fsPathError
  | wrap _ _ => .fmtWrapError
  | copyError _ _ _ => .orasCopyError
  | other id _ => .callerDefined id
  | _ => .errorString

/-- `errors.Is`. -/
def is (target : Error) : Error → Bool
  | wrap message cause => decide (wrap message cause = target) || is target cause
  | copyError op origin cause => decide (copyError op origin cause = target) || is target cause
  | e => decide (e = target)

/-- `newCopyError`, for an error that is not nil. -/
def newCopyError (op : String) (origin : CopyErrorOrigin) (cause : Error) : Error :=
  .copyError op origin cause

end Error

/-- `digest.Digest`: the algorithm, a colon and the encoded hash. -/
abbrev Digest := String

/-- `Digest.Algorithm`: the text before the first colon. The method panics where there is
none; such a digest has the algorithm with the empty name here, which is not available. -/
def Digest.algorithm (d : Digest) : String :=
  if d.toList.contains ':' then String.ofList (d.toList.takeWhile (· != ':')) else ""

/-- `Digest.Encoded`: the text after the first colon. -/
def Digest.encoded (d : Digest) : String := String.ofList ((d.toList.dropWhile (· != ':')).drop 1)

/-- The size in bytes of the hashes of an available algorithm. -/
def algorithmSize (alg : String) : Option Nat :=
  if alg = "sha256" then some 32
  else if alg = "sha384" then some 48
  else if alg = "sha512" then some 64
  else none

/-- `Digest.Validate`: an available algorithm followed by a lower case
hexadecimal text of exactly its length. -/
def Digest.validate (d : Digest) : Bool :=
  match algorithmSize (Digest.algorithm d) with
  | none => false
  | some size =>
    let encoded := (Digest.encoded d).toList
    encoded.length == 2 * size && encoded.all (fun c => c.isDigit || ('a' ≤ c && c ≤ 'f'))

theorem available_of_validate {d : Digest} (valid : Digest.validate d = true) :
    algorithmSize (Digest.algorithm d) ≠ none := by
  intro unknown
  simp [Digest.validate, unknown] at valid

/-- `map[string]string`; Go's nil map and empty map are the same here. -/
abbrev Annotations := Finmap (fun _ : String => String)

/-- `ocispec.Platform`. -/
structure Platform where
  architecture : String
  os : String
  osVersion : String
  osFeatures : List String
  variant : String
  deriving DecidableEq, Repr

abbrev Bytes := List UInt8

/-- `ocispec.Descriptor`. -/
structure Descriptor where
  mediaType : String := ""
  digest : Digest := ""
  size : Int := 0
  urls : List String := []
  annotations : Annotations := ∅
  data : Bytes := []
  platform : Option Platform := none
  artifactType : String := ""
  deriving DecidableEq

/-- `descriptor.Descriptor`, the comparable key of a node. -/
structure Key where
  mediaType : String
  digest : Digest
  size : Int
  deriving DecidableEq, Repr

/-- `descriptor.FromOCI`. -/
def fromOCI (desc : Descriptor) : Key := ⟨desc.mediaType, desc.digest, desc.size⟩

/-- `descriptor.Plain`. -/
def plain (desc : Descriptor) : Descriptor :=
  { mediaType := desc.mediaType, digest := desc.digest, size := desc.size }

/-- `content.Equal`. -/
def contentEqual (a b : Descriptor) : Bool :=
  a.size == b.size && a.digest == b.digest && a.mediaType == b.mediaType

@[simp] theorem fromOCI_mediaType (desc : Descriptor) : (fromOCI desc).mediaType = desc.mediaType := rfl
@[simp] theorem fromOCI_digest (desc : Descriptor) : (fromOCI desc).digest = desc.digest := rfl
@[simp] theorem fromOCI_size (desc : Descriptor) : (fromOCI desc).size = desc.size := rfl
@[simp] theorem fromOCI_plain (desc : Descriptor) : fromOCI (plain desc) = fromOCI desc := rfl

theorem contentEqual_iff {a b : Descriptor} : contentEqual a b = true ↔ fromOCI a = fromOCI b := by
  simp only [contentEqual, fromOCI, Bool.and_eq_true, beq_iff_eq, Key.mk.injEq]
  constructor
  · rintro ⟨⟨size, digest⟩, mediaType⟩
    exact ⟨mediaType, digest, size⟩
  · rintro ⟨mediaType, digest, size⟩
    exact ⟨⟨size, digest⟩, mediaType⟩

theorem fromOCI_eq_iff {a b : Descriptor} :
    fromOCI a = fromOCI b ↔ a.mediaType = b.mediaType ∧ a.digest = b.digest ∧ a.size = b.size := by
  simp only [fromOCI, Key.mk.injEq]

namespace Docker

def mediaTypeManifest := "application/vnd.docker.distribution.manifest.v2+json"
def mediaTypeManifestList := "application/vnd.docker.distribution.manifest.list.v2+json"
def mediaTypeForeignLayer := "application/vnd.docker.image.rootfs.foreign.diff.tar.gzip"

end Docker

namespace Ocispec

def mediaTypeImageManifest := "application/vnd.oci.image.manifest.v1+json"
def mediaTypeImageIndex := "application/vnd.oci.image.index.v1+json"
def mediaTypeImageLayerNonDistributable := "application/vnd.oci.image.layer.nondistributable.v1.tar"
def mediaTypeImageLayerNonDistributableGzip :=
  "application/vnd.oci.image.layer.nondistributable.v1.tar+gzip"
def mediaTypeImageLayerNonDistributableZstd :=
  "application/vnd.oci.image.layer.nondistributable.v1.tar+zstd"
def annotationRefName := "org.opencontainers.image.ref.name"

end Ocispec

namespace Spec

def mediaTypeArtifactManifest := "application/vnd.oci.artifact.manifest.v1+json"

end Spec

/-- `descriptor.IsForeignLayer`. -/
def isForeignLayer (desc : Descriptor) : Bool :=
  desc.mediaType = Ocispec.mediaTypeImageLayerNonDistributable ||
  desc.mediaType = Ocispec.mediaTypeImageLayerNonDistributableGzip ||
  desc.mediaType = Ocispec.mediaTypeImageLayerNonDistributableZstd ||
  desc.mediaType = Docker.mediaTypeForeignLayer

/-- `descriptor.IsManifest`. -/
def isManifest (desc : Descriptor) : Bool :=
  desc.mediaType = Docker.mediaTypeManifest ||
  desc.mediaType = Docker.mediaTypeManifestList ||
  desc.mediaType = Ocispec.mediaTypeImageManifest ||
  desc.mediaType = Ocispec.mediaTypeImageIndex ||
  desc.mediaType = Spec.mediaTypeArtifactManifest

end OrasGo
