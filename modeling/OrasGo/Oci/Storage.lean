import Mathlib.Data.Finset.Union
import Mathlib.Tactic.Tauto
import OrasGo.Graph.Finish

/-! `oci.Storage`, the blobs of an OCI layout on a file system whose operations
fail only where the files themselves make them fail. -/

namespace OrasGo.Oci
open Graph

/-- The files below the directory `blobs`, by the digest that `NewDigestFromEncoded`
makes of the names of directory and file. -/
abbrev Blobs := Finmap (fun _ : Digest => Bytes)

namespace Storage

/-- The text before the sentinel in the errors of the storage. -/
def describe (desc : Descriptor) : String := desc.digest ++ ": " ++ desc.mediaType

/-- `ReadOnlyStorage.Fetch`. -/
def fetch (blobs : Blobs) (target : Descriptor) : Except Error Bytes :=
  if Digest.validate target.digest = false then
    .error (.wrap (describe target) .invalidDigest)
  else match blobs.lookup target.digest with
    | none => .error (.wrap (describe target) .notFound)
    | some content => .ok content

/-- `ReadOnlyStorage.Exists`. -/
def contains (blobs : Blobs) (target : Descriptor) : Except Error Bool :=
  if Digest.validate target.digest = false then
    .error (.wrap (describe target) .invalidDigest)
  else
    .ok (blobs.lookup target.digest).isSome

/-- `ioutil.CopyBuffer` from a stream that holds exactly `content` and fails at
no read: a negative size reads nothing. -/
def copyBuffer (cd : Codec) (content : Bytes) (desc : Descriptor) : Except Error Bytes :=
  if (content.length : Int) < desc.size then
    .error (.wrap "copy failed" .unexpectedEOF)
  else if desc.size.toNat < content.length then
    .error .trailingData
  else if cd.verified desc.digest content then
    .ok content
  else
    .error .mismatchedDigest

/-- `Storage.Push`, with `Storage.ingest`. -/
def push (cd : Codec) (blobs : Blobs) (expected : Descriptor) (content : Bytes) : Option Error × Blobs :=
  if Digest.validate expected.digest = false then
    (some (.wrap (describe expected) .invalidDigest), blobs)
  else if (blobs.lookup expected.digest).isSome then
    (some (.wrap (describe expected) .alreadyExists), blobs)
  else match copyBuffer cd content expected with
    | .error err => (some (.wrap "failed to ingest" err), blobs)
    | .ok ingest => (none, blobs.insert expected.digest ingest)

/-- `Storage.Delete`. -/
def delete (blobs : Blobs) (target : Descriptor) : Option Error × Blobs :=
  if Digest.validate target.digest = false then
    (some (.wrap (describe target) .invalidDigest), blobs)
  else if (blobs.lookup target.digest).isSome then
    (none, blobs.erase target.digest)
  else
    (some (.wrap (describe target) .notFound), blobs)

section
variable {cd : Codec} {blobs blobs' : Blobs} {desc : Descriptor} {content : Bytes}

theorem push_ok (pushed : push cd blobs desc content = (none, blobs')) :
    Digest.validate desc.digest = true ∧ desc.digest ∉ blobs ∧ desc.size.toNat = content.length ∧
      cd.verified desc.digest content = true ∧ blobs' = blobs.insert desc.digest content := by
  unfold push copyBuffer at pushed
  split at pushed
  · cases pushed
  split at pushed
  · cases pushed
  rename_i valid fresh
  rw [Finmap.lookup_isSome] at fresh
  split at pushed
  · cases pushed
  rename_i copied
  split at copied
  · cases copied
  split at copied
  · cases copied
  split at copied
  · cases copied
    cases pushed
    exact ⟨by simpa using valid, fresh, by omega, ‹_›, rfl⟩
  · cases copied

theorem delete_ok (deleted : delete blobs desc = (none, blobs')) :
    Digest.validate desc.digest = true ∧ desc.digest ∈ blobs ∧ blobs' = blobs.erase desc.digest := by
  unfold delete at deleted
  split at deleted
  · cases deleted
  split at deleted
  · rename_i valid found
    cases deleted
    exact ⟨by simpa using valid, Finmap.lookup_isSome.mp found, rfl⟩
  · cases deleted

theorem contains_ok (found : contains blobs desc = .ok true) :
    Digest.validate desc.digest = true ∧ desc.digest ∈ blobs := by
  unfold contains at found
  split at found
  · cases found
  · rename_i valid
    exact ⟨by simpa using valid, Finmap.lookup_isSome.mp (Except.ok.inj found)⟩

theorem fetch_ok (fetched : fetch blobs desc = .ok content) :
    Digest.validate desc.digest = true ∧ blobs.lookup desc.digest = some content := by
  unfold fetch at fetched
  split at fetched
  · cases fetched
  split at fetched
  · cases fetched
  · rename_i valid _ _ found
    cases fetched
    exact ⟨by simpa using valid, found⟩

theorem fetch_byKey (blobs : Blobs) : Fetcher.ByKey (fetch blobs) := by
  intro a b same
  obtain ⟨mediaType, digest, _⟩ := fromOCI_eq_iff.mp same
  unfold fetch describe
  rw [mediaType, digest]

theorem fetch_congr (same : blobs'.lookup desc.digest = blobs.lookup desc.digest) :
    fetch blobs' desc = fetch blobs desc := by
  unfold fetch
  rw [same]

theorem successors_of_stored (json : cd.JSONErrors) {k : Key} (stored : k.digest ∈ blobs)
    (fine : ¬ Broken cd (fetch blobs) k) : ∃ nodes, successors cd (fetch blobs) k.plain = .ok nodes := by
  rcases not_broken_cases fine with found | ⟨err, failed, absent⟩
  · exact found
  · have missing := successors_notFound json failed absent
    unfold fetch at missing
    split at missing
    · cases missing
      cases absent
    split at missing
    · rename_i none
      exact absurd stored (Finmap.lookup_eq_none.mp none)
    · cases missing

end

/-- The media types of `descriptor.IsManifest`. -/
def manifestTypes : Finset String :=
  {Docker.mediaTypeManifest, Docker.mediaTypeManifestList, Ocispec.mediaTypeImageManifest,
    Ocispec.mediaTypeImageIndex, Spec.mediaTypeArtifactManifest}

theorem mem_manifestTypes {desc : Descriptor} (manifest : isManifest desc = true) :
    desc.mediaType ∈ manifestTypes := by
  simp only [isManifest, Bool.or_eq_true, decide_eq_true_eq] at manifest
  simp only [manifestTypes, Finset.mem_insert, Finset.mem_singleton]
  tauto

/-- The keys under which a blob of the storage may be read as a manifest. -/
def manifestKeys (blobs : Blobs) : Finset Key :=
  blobs.keys.biUnion fun d => manifestTypes.image fun mediaType =>
    ⟨mediaType, d, ((blobs.lookup d).getD []).length⟩

theorem mem_manifestKeys {cd : Codec} {blobs : Blobs} {k child : Key} (edge : Edge cd (fetch blobs) k child) :
    k ∈ manifestKeys blobs := by
  obtain ⟨nodes, found, node, member, rfl⟩ := edge
  cases manifest : isManifest k.plain with
  | false =>
    rw [successors_of_not_isManifest manifest] at found
    cases found
    cases member
  | true =>
    obtain ⟨content, read⟩ := successors_of_isManifest manifest found
    unfold fetchAll at read
    split at read
    · cases read
    · rename_i stream fetched
      obtain ⟨_, size, _⟩ := readAll_ok read
      obtain ⟨_, stored⟩ := fetch_ok fetched
      simp only [manifestKeys, Finset.mem_biUnion, Finset.mem_image, Finmap.mem_keys]
      refine ⟨k.digest, Finmap.mem_of_lookup_eq_some stored, k.mediaType, mem_manifestTypes manifest, ?_⟩
      change k.size = stream.length at size
      change blobs.lookup k.digest = some stream at stored
      rw [stored, Option.getD_some, ← size]

/-- The keys of the successors of a node. -/
def childKeys (cd : Codec) (blobs : Blobs) (k : Key) : Finset Key :=
  match successors cd (fetch blobs) k.plain with
  | .ok nodes => (nodes.map fromOCI).toFinset
  | .error _ => ∅

theorem fetch_finite (cd : Codec) (blobs : Blobs) : Graph.Finite cd (fetch blobs) := by
  intro root
  refine ⟨insert root ((manifestKeys blobs).biUnion (childKeys cd blobs)), fun k _ child edge => ?_, Finset.mem_insert_self _ _⟩
  refine Finset.mem_insert_of_mem (Finset.mem_biUnion.mpr ⟨k, mem_manifestKeys edge, ?_⟩)
  obtain ⟨nodes, found, node, member, rfl⟩ := edge
  simp only [childKeys, found]
  exact List.mem_toFinset.mpr (List.mem_map_of_mem member)

end Storage

end OrasGo.Oci
