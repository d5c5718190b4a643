import OrasGo.Content.LimitReader
import OrasGo.Registry.Reference

/-! `manifestStore.generateDescriptor`: the descriptor of a manifest out of a response. -/

namespace OrasGo.Remote
open Registry

/-- What the code asks `mime` for, besides the texts of a reference. -/
structure Texts extends Registry.Texts where
  parseMediaType : String → Except Error String

inductive Method
  | get
  | head
  deriving DecidableEq, Repr

def Method.string : Method → String
  | get => "GET"
  | head => "HEAD"

/-- The body of a response: a reader that is somewhere in its stream. -/
structure Body where
  reader : FiniteReader
  state : reader.State

namespace Body

def bytes (body : Body) : Bytes := body.reader.bytes body.state

def ending (body : Body) : End := body.reader.ending body.state

/-- `io.NopCloser` on `bytes.NewReader`. -/
def ofBytes (content : Bytes) : Body := ⟨pieceReader .eof false, if content = [] then [] else [content]⟩

@[simp] theorem ofBytes_bytes (content : Bytes) : (ofBytes content).bytes = content := by
  by_cases empty : content = []
  · simp [ofBytes, bytes, pieceReader, empty]
  · simp [ofBytes, bytes, pieceReader, empty]

@[simp] theorem ofBytes_ending (content : Bytes) : (ofBytes content).ending = .eof := rfl

end Body

/-- `http.Response`, with the method and the URL of its request. -/
structure Response where
  method : Method
  url : String
  contentType : String
  dockerContentDigest : String
  contentLength : Int
  body : Body

def defaultMaxMetadataBytes : Nat := 4 * 1024 * 1024

/-- The limit that `limitReader` sets. -/
def metadataLimit (maxMetadataBytes : Int) : Nat :=
  if maxMetadataBytes ≤ 0 then defaultMaxMetadataBytes else maxMetadataBytes.toNat

/-- `digest.FromBytes`. -/
def fromBytes (cd : Codec) (content : Bytes) : Digest := "sha256" ++ ":" ++ cd.hash "sha256" content

section Generate
variable (cd : Codec) (texts : Texts) (spare : Nat → Nat) (maxMetadataBytes : Int)

/-- The method and the URL that most errors begin with. -/
def Response.requested (resp : Response) : String := resp.method.string ++ " " ++ texts.quote resp.url

/-- `calculateDigestFromResponse`, with the response that has the new body. -/
def calculateDigestFromResponse (resp : Response) : Except Error (Digest × Response) :=
  match resp.body.reader.readLimited spare resp.body.state (metadataLimit maxMetadataBytes) with
  | .error err => .error (.wrap (resp.requested texts ++ ": failed to read response body") err)
  | .ok content => .ok (fromBytes cd content, { resp with body := .ofBytes content })

/-- The digest of the `Docker-Content-Digest` header, or the empty one without it. -/
def serverDigest (resp : Response) : Except Error Digest :=
  if resp.dockerContentDigest = "" then .ok ""
  else match parseDigest texts.toTexts resp.dockerContentDigest with
    | .ok d => .ok d
    | .error err => .error (.wrap (resp.requested texts ++ ": invalid response header value: `Docker-Content-Digest: " ++
      resp.dockerContentDigest ++ "`") err)

/-- The content digest, from the header, from the client or from the body. -/
def contentDigest (resp : Response) (refDigest serverHeaderDigest : Digest) (httpMethod : Method) :
    Except Error (Digest × Response) :=
  if serverHeaderDigest = "" then
    match httpMethod with
    | .head =>
      if refDigest = "" then
        .error (.text ("HTTP " ++ httpMethod.string ++ " request missing required header " ++
          texts.quote "Docker-Content-Digest"))
      else .ok (refDigest, resp)
    | .get =>
      match calculateDigestFromResponse cd texts spare maxMetadataBytes resp with
      | .error err => .error (.wrap "failed to calculate digest on response body" err)
      | .ok calculated => .ok calculated
  else .ok (serverHeaderDigest, resp)

/-- The digest of a reference, or the empty one of a tag. -/
def refDigest (ref : Reference) : Digest :=
  match ref.digest texts.toTexts with
  | .ok d => d
  | .error _ => ""

/-- `generateDescriptor`, with the response as it leaves it. -/
def generateDescriptor (resp : Response) (ref : Reference) (httpMethod : Method) : Except Error (Descriptor × Response) :=
  match texts.parseMediaType resp.contentType with
  | .error err => .error (.wrap (resp.requested texts ++ ": invalid response `Content-Type` header") err)
  | .ok mediaType =>
    if resp.contentLength = -1 then .error (.text (resp.requested texts ++ ": unknown response Content-Length"))
    else match serverDigest texts resp with
    | .error err => .error err
    | .ok serverHeaderDigest =>
      match contentDigest cd texts spare maxMetadataBytes resp (refDigest texts ref) serverHeaderDigest httpMethod with
      | .error err => .error err
      | .ok (digest, left) =>
        if refDigest texts ref ≠ "" ∧ refDigest texts ref ≠ digest then
          .error (.text (resp.requested texts ++ ": invalid response; digest mismatch in Docker-Content-Digest: received " ++
            texts.quote digest ++ " when expecting " ++ texts.quote (refDigest texts ref)))
        else .ok ({ mediaType, digest, size := resp.contentLength }, left)

/-- The headers are those of a manifest: a media type, and a length. -/
def Response.Legible (resp : Response) : Prop :=
  (∃ mediaType, texts.parseMediaType resp.contentType = .ok mediaType) ∧ resp.contentLength ≠ -1

/-- The descriptor is that of the bytes served, and they can be read again. -/
structure Describes (desc : Descriptor) (served : Bytes) (left : Body) : Prop where
  digest : cd.verified desc.digest served = true
  size : desc.size = served.length
  bytes : left.bytes = served
  ending : left.ending = .eof

/-- What is generated from the response to a GET describes what was served, and a digest is
accepted exactly if it is that of what was served. -/
structure DescribesServed (resp : Response) (ref : Reference) : Prop where
  sound : ∀ desc left, generateDescriptor cd texts spare maxMetadataBytes resp ref .get = .ok (desc, left) →
    Describes cd desc resp.body.bytes left.body
  accepts : ∀ d, ref.digest texts.toTexts = .ok d → resp.Legible texts →
    ((∃ generated, generateDescriptor cd texts spare maxMetadataBytes resp ref .get = .ok generated) ↔
      cd.verified d resp.body.bytes = true)

/-- The body is below the limit, and as long as the header says. -/
structure Response.Fits (resp : Response) : Prop where
  limit : resp.body.bytes.length ≤ metadataLimit maxMetadataBytes
  length : resp.contentLength = resp.body.bytes.length

/-- A manifest that is asked for by a tag fits. One that has the digest it is asked for by fits as
well, and the digest is a SHA-256; any other is not taken for the digest of the bytes below the
limit. -/
def Measured (resp : Response) (ref : Reference) : Prop :=
  match ref.digest texts.toTexts with
  | .error _ => resp.Fits maxMetadataBytes
  | .ok d =>
    if cd.verified d resp.body.bytes then Digest.algorithm d = "sha256" ∧ resp.Fits maxMetadataBytes
    else resp.body.bytes.length ≤ metadataLimit maxMetadataBytes ∨
      d ≠ fromBytes cd (resp.body.bytes.take (metadataLimit maxMetadataBytes))

variable {cd texts spare maxMetadataBytes} {resp : Response} {ref : Reference} {mediaType : String} {d : Digest}
  {content : Bytes}

theorem algorithm_fromBytes : Digest.algorithm (fromBytes cd content) = "sha256" := by
  simp [Digest.algorithm, fromBytes]

theorem verified_fromBytes : cd.verified (fromBytes cd content) content = true := by
  rw [Codec.verified, algorithm_fromBytes]
  exact beq_self_eq_true _

theorem eq_fromBytes_iff : d = fromBytes cd content ↔ Digest.algorithm d = "sha256" ∧ cd.verified d content = true := by
  constructor
  · rintro rfl
    exact ⟨algorithm_fromBytes, verified_fromBytes⟩
  · rintro ⟨algorithm, verified⟩
    rw [Codec.verified, algorithm, beq_iff_eq] at verified
    exact verified

theorem refDigest_of_ok (digest : ref.digest texts.toTexts = .ok d) : refDigest texts ref = d ∧ d ≠ "" := by
  refine ⟨by rw [refDigest, digest], ?_⟩
  rintro rfl
  have valid : ref.reference = "" ∧ Digest.validate ref.reference = true := by
    unfold Reference.digest parseDigest at digest
    split at digest
    · exact ⟨Except.ok.inj digest, by assumption⟩
    · cases digest
  rw [valid.1] at valid
  exact absurd valid.2 (by decide)

theorem refDigest_of_error {err : Error} (tag : ref.digest texts.toTexts = .error err) : refDigest texts ref = "" := by
  rw [refDigest, tag]

theorem not_legible (resp : Response) (illegible : ¬ resp.Legible texts) :
    ∃ err, generateDescriptor cd texts spare maxMetadataBytes resp ref .get = .error err := by
  unfold generateDescriptor
  split
  · exact ⟨_, rfl⟩
  · rename_i mediaType parsed
    by_cases unknown : resp.contentLength = -1
    · exact ⟨_, if_pos unknown⟩
    · exact absurd ⟨⟨mediaType, parsed⟩, unknown⟩ illegible

theorem generateDescriptor_get (parsed : texts.parseMediaType resp.contentType = .ok mediaType)
    (known : resp.contentLength ≠ -1) (missing : resp.dockerContentDigest = "") (complete : resp.body.ending = .eof) :
    generateDescriptor cd texts spare maxMetadataBytes resp ref .get =
      let content := resp.body.bytes.take (metadataLimit maxMetadataBytes)
      if refDigest texts ref ≠ "" ∧ refDigest texts ref ≠ fromBytes cd content then
        .error (.text (resp.requested texts ++ ": invalid response; digest mismatch in Docker-Content-Digest: received " ++
          texts.quote (fromBytes cd content) ++ " when expecting " ++ texts.quote (refDigest texts ref)))
      else .ok ({ mediaType, digest := fromBytes cd content, size := resp.contentLength },
        { resp with body := .ofBytes content }) := by
  have read := FiniteReader.readLimited_eof spare (metadataLimit maxMetadataBytes) complete
  simp only [generateDescriptor, parsed, if_neg known, serverDigest, missing, if_true, contentDigest,
    calculateDigestFromResponse, read]
  rfl

theorem describes_iff_fits : Describes cd
      { mediaType, digest := fromBytes cd (resp.body.bytes.take (metadataLimit maxMetadataBytes)), size := resp.contentLength }
      resp.body.bytes (.ofBytes (resp.body.bytes.take (metadataLimit maxMetadataBytes))) ↔
    resp.Fits maxMetadataBytes := by
  constructor
  · intro describes
    have whole := describes.bytes
    rw [Body.ofBytes_bytes, List.take_eq_self_iff] at whole
    exact ⟨whole, describes.size⟩
  · intro fits
    rw [List.take_of_length_le fits.limit]
    exact ⟨verified_fromBytes, fits.length, Body.ofBytes_bytes _, rfl⟩

/-- A tag: the descriptor is always generated. -/
theorem describesServed_tag {err : Error} (legible : resp.Legible texts) (missing : resp.dockerContentDigest = "")
    (complete : resp.body.ending = .eof) (tag : ref.digest texts.toTexts = .error err) :
    DescribesServed cd texts spare maxMetadataBytes resp ref ↔ resp.Fits maxMetadataBytes := by
  obtain ⟨⟨mediaType, parsed⟩, known⟩ := legible
  have generated : generateDescriptor cd texts spare maxMetadataBytes resp ref .get = _ :=
    generateDescriptor_get parsed known missing complete
  simp only [refDigest_of_error tag, ne_eq, not_true_eq_false, false_and, if_false] at generated
  constructor
  · intro served
    exact describes_iff_fits.mp (served.sound _ _ generated)
  · intro fits
    refine ⟨fun desc left found => ?_, fun d digest => ?_⟩
    · rw [generated] at found
      cases found
      exact describes_iff_fits.mpr fits
    · rw [tag] at digest
      cases digest

/-- A digest: it is compared with the one of the bytes below the limit. -/
theorem describesServed_digest (legible : resp.Legible texts) (missing : resp.dockerContentDigest = "")
    (complete : resp.body.ending = .eof) (digest : ref.digest texts.toTexts = .ok d) :
    DescribesServed cd texts spare maxMetadataBytes resp ref ↔
      if d = fromBytes cd (resp.body.bytes.take (metadataLimit maxMetadataBytes)) then resp.Fits maxMetadataBytes
      else cd.verified d resp.body.bytes = false := by
  obtain ⟨⟨mediaType, parsed⟩, known⟩ := legible
  obtain ⟨refDigest, nonempty⟩ := refDigest_of_ok digest
  have generated : generateDescriptor cd texts spare maxMetadataBytes resp ref .get = _ :=
    generateDescriptor_get parsed known missing complete
  simp only [refDigest, ne_eq, nonempty, not_false_eq_true, true_and] at generated
  by_cases same : d = fromBytes cd (resp.body.bytes.take (metadataLimit maxMetadataBytes))
  · rw [if_neg (not_not_intro same)] at generated
    rw [if_pos same]
    constructor
    · intro served
      exact describes_iff_fits.mp (served.sound _ _ generated)
    · intro fits
      refine ⟨fun desc left found => ?_, fun d' digest' _ => ?_⟩
      · rw [generated] at found
        cases found
        exact describes_iff_fits.mpr fits
      · obtain rfl : d = d' := Except.ok.inj (digest.symm.trans digest')
        have verified : cd.verified d resp.body.bytes = true := by
          rw [same, List.take_of_length_le fits.limit, verified_fromBytes]
        exact iff_of_true ⟨_, generated⟩ verified
  · rw [if_pos same] at generated
    rw [if_neg same]
    constructor
    · intro served
      rw [← Bool.not_eq_true, ← served.accepts d digest ⟨⟨mediaType, parsed⟩, known⟩, generated]
      rintro ⟨_, found⟩
      cases found
    · intro unverified
      refine ⟨fun desc left found => ?_, fun d' digest' _ => ?_⟩
      · rw [generated] at found
        cases found
      · obtain rfl : d = d' := Except.ok.inj (digest.symm.trans digest')
        refine iff_of_false ?_ (Bool.not_eq_true _ ▸ unverified)
        rw [generated]
        rintro ⟨_, found⟩
        cases found

end Generate

/-- The descriptor generated from the complete body of a response without a
`Docker-Content-Digest` describes what was served exactly if the body has been measured: no more
bytes than the limit, as many as the header says, and no other algorithm than SHA-256. -/
theorem generateDescriptor_describes_iff (cd : Codec) (texts : Texts) (spare : Nat → Nat) (maxMetadataBytes : Int)
    (resp : Response) (ref : Reference) (missing : resp.dockerContentDigest = "") (complete : resp.body.ending = .eof) :
    DescribesServed cd texts spare maxMetadataBytes resp ref ↔
      (resp.Legible texts → Measured cd texts maxMetadataBytes resp ref) := by
  by_cases legible : resp.Legible texts
  · rw [forall_prop_of_true legible]
    cases digest : ref.digest texts.toTexts with
    | error err =>
      rw [describesServed_tag legible missing complete digest, Measured, digest]
    | ok d =>
      rw [describesServed_digest legible missing complete digest, Measured, digest]
      by_cases verified : cd.verified d resp.body.bytes = true
      · simp only [verified, if_true, Bool.true_eq_false]
        constructor
        · intro fits
          split at fits
          · rename_i same
            exact ⟨same ▸ algorithm_fromBytes, fits⟩
          · cases fits
        · rintro ⟨algorithm, fits⟩
          rw [List.take_of_length_le fits.limit, if_pos (eq_fromBytes_iff.mpr ⟨algorithm, verified⟩)]
          exact fits
      · simp only [verified, Bool.false_eq_true, if_false]
        constructor
        · intro fits
          split at fits
          · exact .inl fits.limit
          · exact .inr ‹_›
        · intro short
          have differs : d ≠ fromBytes cd (resp.body.bytes.take (metadataLimit maxMetadataBytes)) := by
            rcases short with short | differs
            · rw [List.take_of_length_le short]
              exact fun same => verified (eq_fromBytes_iff.mp same).2
            · exact differs
          simp only [if_neg differs]
  · have failed : ∃ err, generateDescriptor cd texts spare maxMetadataBytes resp ref .get = .error err :=
      not_legible resp legible
    obtain ⟨err, failed⟩ := failed
    refine iff_of_true ⟨fun desc left found => ?_, fun d _ good => absurd good legible⟩ (fun good => absurd good legible)
    rw [failed] at found
    cases found

namespace Served

def bytes : Bytes := [0x68, 0x65, 0x6c, 0x6c, 0x6f]

/-- Hashes of the right lengths. -/
def codec : Codec := { Sample.codec with
  hash := fun alg content =>
    String.ofList (List.replicate (2 * (algorithmSize alg).getD 0) (if content = bytes then 'a' else 'b')) }

def texts : Texts where
  parseRequestURI := some
  quote text := text
  digestError _ := "invalid checksum digest format"
  parseMediaType := .ok

/-- A response whose length is right. -/
def response : Response where
  method := .get
  url := "https://registry.example/v2/app/manifests/latest"
  contentType := "application/vnd.oci.image.manifest.v1+json"
  dockerContentDigest := ""
  contentLength := 5
  body := .ofBytes bytes

def tag : Reference := { registry := "registry.example", repository := "app", reference := "latest" }

def sha512 : Digest := "sha512" ++ ":" ++ codec.hash "sha512" bytes

/-- With a limit of four bytes the first four are described as a manifest of length five, and the
rest is lost. A manifest is refused though it has the SHA-512 that it is asked for by. -/
theorem generateDescriptor_misdescribes :
    (∃ desc left, generateDescriptor codec texts (fun _ => 511) 4 response tag .get = .ok (desc, left) ∧
      codec.verified desc.digest bytes = false ∧ desc.size = 5 ∧ left.body.bytes = bytes.take 4) ∧
    codec.verified sha512 bytes = true ∧
    Reference.digest texts.toTexts { tag with reference := sha512 } = .ok sha512 ∧
    ∃ err, generateDescriptor codec texts (fun _ => 511) 0 response { tag with reference := sha512 } .get = .error err := by
  have parsed : texts.parseMediaType response.contentType = .ok response.contentType := rfl
  have known : response.contentLength ≠ -1 := by decide
  refine ⟨⟨_, _, generateDescriptor_get parsed known rfl rfl, ?_, rfl, ?_⟩, ?_, ?_, _,
    (generateDescriptor_get parsed known rfl rfl).trans (if_pos ?_)⟩
  · decide +kernel
  · decide +kernel
  · decide +kernel
  · decide +kernel
  · decide +kernel

/-- Below the limit, a manifest is described as it was served. -/
theorem generateDescriptor_describes_tag : response.dockerContentDigest = "" ∧ response.body.ending = .eof ∧
    response.Legible texts ∧ Measured codec texts 0 response tag ∧
    DescribesServed codec texts (fun _ => 511) 0 response tag := by
  have measured : Measured codec texts 0 response tag := ⟨by decide, by decide⟩
  exact ⟨rfl, rfl, ⟨⟨_, rfl⟩, by decide⟩, measured,
    (generateDescriptor_describes_iff codec texts (fun _ => 511) 0 response tag rfl rfl).mpr fun _ => measured⟩

end Served

end OrasGo.Remote
