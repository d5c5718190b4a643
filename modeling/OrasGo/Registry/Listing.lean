import OrasGo.Registry.Referrers

/-! `registry.Referrers` lists exactly the manifests among the predecessors that it should. -/

namespace OrasGo.Registry

/-- What `Referrers` reads of a manifest. -/
structure Header where
  subject : Option Descriptor
  artifactType : String
  annotations : Annotations

/-- An image manifest without an artifact type has the media type of its configuration. -/
def Header.ofManifest (manifest : Manifest) : Header where
  subject := manifest.subject
  artifactType := if manifest.artifactType = "" then manifest.config.mediaType else manifest.artifactType
  annotations := manifest.annotations

def Header.ofIndex (index : Index) : Header := ⟨index.subject, index.artifactType, index.annotations⟩

def Header.ofArtifact (artifact : Artifact) : Header := ⟨artifact.subject, artifact.artifactType, artifact.annotations⟩

/-- The header of an image manifest, an image index or an artifact manifest. -/
def readHeader (cd : Codec) (fetch : Fetcher) (node : Descriptor) : Except Error (Option Header) :=
  if node.mediaType = Ocispec.mediaTypeImageManifest then
    (fetchAndUnmarshal cd cd.unmarshalManifest fetch node).map fun manifest => some (.ofManifest manifest)
  else if node.mediaType = Ocispec.mediaTypeImageIndex then
    (fetchAndUnmarshal cd cd.unmarshalIndex fetch node).map fun index => some (.ofIndex index)
  else if node.mediaType = Spec.mediaTypeArtifactManifest then
    (fetchAndUnmarshal cd cd.unmarshalArtifact fetch node).map fun artifact => some (.ofArtifact artifact)
  else
    .ok none

/-- The manifest has `desc` as its subject and the artifact type that is asked for. -/
def ReferrerOf (cd : Codec) (fetch : Fetcher) (desc : Descriptor) (artifactType : String) (node : Descriptor) : Prop :=
  ∃ header, readHeader cd fetch node = .ok (some header) ∧
    (∃ found, header.subject = some found ∧ contentEqual found desc = true) ∧
    (artifactType = "" ∨ artifactType = header.artifactType)

variable {cd : Codec} {fetch : Fetcher} {desc node : Descriptor}

theorem exceptMap_map {ε α β δ : Type} (result : Except ε α) (f : α → β) (g : β → δ) :
    (result.map f).map g = result.map fun a => g (f a) := by
  cases result <;> rfl

theorem referrer_eq : referrer cd fetch desc node = (readHeader cd fetch node).map fun header =>
    header.bind fun h => selectReferrer desc node h.subject h.artifactType h.annotations := by
  unfold referrer readHeader
  split
  · rw [exceptMap_map]
    rfl
  split
  · rw [exceptMap_map]
    rfl
  split
  · rw [exceptMap_map]
    rfl
  · rfl

theorem readHeader_cases (cd : Codec) (fetch : Fetcher) (node : Descriptor) : readHeader cd fetch node = .ok none ∨
    ∃ (α : Type) (result : Except Error α) (of : α → Header) (list : α → List Descriptor),
      readHeader cd fetch node = (result.map fun a => some (of a)) ∧ successors cd fetch node = result.map list ∧
      ∀ a found, (of a).subject = some found → found ∈ list a := by
  unfold readHeader
  split
  · rename_i image
    rw [successors, if_neg (by rw [image]; decide), if_pos image]
    refine .inr ⟨_, _, _, _, rfl, rfl, fun manifest found same => ?_⟩
    rw [show manifest.subject = some found from same]
    exact List.mem_append_left _ (by simp)
  split
  · rename_i index
    rw [successors, if_neg (by rw [index]; decide), if_neg (by rw [index]; decide), if_neg (by rw [index]; decide),
      if_pos index]
    refine .inr ⟨_, _, _, _, rfl, rfl, fun index' found same => ?_⟩
    rw [show index'.subject = some found from same]
    exact List.mem_append_left _ (by simp)
  split
  · rename_i artifact
    rw [successors, if_neg (by rw [artifact]; decide), if_neg (by rw [artifact]; decide),
      if_neg (by rw [artifact]; decide), if_neg (by rw [artifact]; decide), if_pos artifact]
    refine .inr ⟨_, _, _, _, rfl, rfl, fun artifact' found same => ?_⟩
    rw [show artifact'.subject = some found from same]
    exact List.mem_append_left _ (by simp)
  · exact .inl rfl

theorem readHeader_of_successors {nodes : List Descriptor} (found : successors cd fetch node = .ok nodes) :
    ∃ header, readHeader cd fetch node = .ok header := by
  rcases readHeader_cases cd fetch node with none | ⟨_, result, of, list, header, listed, _⟩
  · exact ⟨_, none⟩
  · rw [listed] at found
    cases result with
    | error err => cases found
    | ok a => exact ⟨_, header⟩

theorem subject_mem_successors {header : Header} {found : Descriptor}
    (read : readHeader cd fetch node = .ok (some header)) (subject : header.subject = some found) :
    ∃ nodes, successors cd fetch node = .ok nodes ∧ found ∈ nodes := by
  rcases readHeader_cases cd fetch node with none | ⟨_, result, of, list, same, listed, member⟩
  · cases none.symm.trans read
  · rw [same] at read
    cases result with
    | error err => cases read
    | ok a =>
      obtain rfl : of a = header := Option.some.inj (Except.ok.inj read)
      exact ⟨_, listed, member a found subject⟩

theorem readHeader_congr {fetch' : Fetcher} {a b : Descriptor} (same : fromOCI a = fromOCI b)
    (fetched : fetch a = fetch' b) : readHeader cd fetch a = readHeader cd fetch' b := by
  have mediaType := (fromOCI_eq_iff.mp same).1
  simp only [readHeader, mediaType, fetchAndUnmarshal_congr same fetched]

/-- The entry that `Referrers` makes for a predecessor with the header. -/
def entry (desc : Descriptor) (artifactType : String) (node : Descriptor) (header : Option Header) : Option Descriptor :=
  (header.bind fun h => selectReferrer desc node h.subject h.artifactType h.annotations).filter
    fun r => artifactType = "" || artifactType = r.artifactType

theorem entry_key {artifactType : String} {header : Option Header} {r : Descriptor}
    (made : entry desc artifactType node header = some r) : fromOCI r = fromOCI node := by
  obtain ⟨bound, _⟩ := Option.filter_eq_some_iff.mp made
  obtain ⟨h, _, selected⟩ := Option.bind_eq_some_iff.mp bound
  exact (selectReferrer_some selected).1

theorem entry_iff {artifactType : String} {header : Option Header} (read : readHeader cd fetch node = .ok header) :
    (∃ r, entry desc artifactType node header = some r) ↔ ReferrerOf cd fetch desc artifactType node := by
  constructor
  · rintro ⟨r, made⟩
    obtain ⟨bound, asked⟩ := Option.filter_eq_some_iff.mp made
    obtain ⟨h, rfl, selected⟩ := Option.bind_eq_some_iff.mp bound
    refine ⟨h, read, (selectReferrer_some selected).2, ?_⟩
    unfold selectReferrer at selected
    split at selected
    · cases selected
      simpa using asked
    · cases selected
  · rintro ⟨h, read', ⟨found, subject, same⟩, asked⟩
    cases Except.ok.inj (read.symm.trans read')
    refine ⟨_, Option.filter_eq_some_iff.mpr ⟨Option.bind_eq_some_iff.mpr ⟨h, rfl, if_pos ?_⟩, ?_⟩⟩
    · rw [subject]
      exact same
    · simpa using asked

/-- `Referrers` succeeds on predecessors that can be read, and lists those that refer to the
descriptor and have the artifact type, in the order of the predecessors. -/
theorem filterReferrers_exact (artifactType : String) {predecessors : List Descriptor}
    (readable : ∀ node ∈ predecessors, ∃ header, readHeader cd fetch node = .ok header) :
    ∃ results, filterReferrers cd fetch desc artifactType predecessors = .ok results ∧
      List.Sublist (results.map fromOCI) (predecessors.map fromOCI) ∧
      ∀ k, k ∈ results.map fromOCI ↔ ∃ node ∈ predecessors, fromOCI node = k ∧ ReferrerOf cd fetch desc artifactType node := by
  induction predecessors with
  | nil => exact ⟨[], rfl, .slnil, fun k => by simp⟩
  | cons node rest ih =>
    obtain ⟨header, read⟩ := readable node List.mem_cons_self
    obtain ⟨others, listed, sub, exact'⟩ := ih fun n member => readable n (List.mem_cons_of_mem _ member)
    refine ⟨(entry desc artifactType node header).toList ++ others, ?_, ?_, fun k => ?_⟩
    · rw [filterReferrers, referrer_eq, read, listed]
      rfl
    · cases made : entry desc artifactType node header with
      | none => exact sub.cons _
      | some r =>
        rw [Option.toList_some, List.singleton_append, List.map_cons, List.map_cons, entry_key made]
        exact sub.cons_cons _
    · rw [List.map_append, List.mem_append, exact' k]
      constructor
      · rintro (here | ⟨n, member, key, refers⟩)
        · obtain ⟨r, made, rfl⟩ := List.mem_map.mp here
          have made := Option.mem_toList.mp made
          exact ⟨node, List.mem_cons_self, (entry_key made).symm, (entry_iff read).mp ⟨r, made⟩⟩
        · exact ⟨n, List.mem_cons_of_mem _ member, key, refers⟩
      · rintro ⟨n, member, key, refers⟩
        rcases List.mem_cons.mp member with rfl | member
        · obtain ⟨r, made⟩ := (entry_iff read).mpr refers
          refine .inl (List.mem_map.mpr ⟨r, Option.mem_toList.mpr made, ?_⟩)
          rw [entry_key made, key]
        · exact .inr ⟨n, member, key, refers⟩

theorem filterReferrers_readable {artifactType : String} {predecessors results : List Descriptor}
    (listed : filterReferrers cd fetch desc artifactType predecessors = .ok results) (member : node ∈ predecessors) :
    ∃ header, readHeader cd fetch node = .ok header := by
  induction predecessors generalizing results with
  | nil => cases member
  | cons first rest ih =>
    rw [filterReferrers, referrer_eq] at listed
    cases read : readHeader cd fetch first with
    | error err =>
      rw [read] at listed
      cases listed
    | ok header =>
      rcases List.mem_cons.mp member with rfl | member
      · exact ⟨header, read⟩
      · cases others : filterReferrers cd fetch desc artifactType rest with
        | error err =>
          rw [read, others] at listed
          cases listed
        | ok results' => exact ih others member

theorem readSubject_eq : readSubject cd fetch node = (readHeader cd fetch node).map (·.bind Header.subject) := by
  unfold readSubject readHeader
  split
  · rw [exceptMap_map]
    rfl
  split
  · rw [exceptMap_map]
    rfl
  split
  · rw [exceptMap_map]
    rfl
  · rfl

/-- If `Referrers` succeeds, then it lists what refers to the descriptor, also by contents of
which it could read only a part. -/
theorem refers_listed {fetch' : Fetcher} {predecessors results : List Descriptor}
    (listed : filterReferrers cd fetch desc "" predecessors = .ok results) (member : node ∈ predecessors)
    (part : ∀ content, fetch node = .ok content → fetch' node = .ok content) (refers : Refers cd fetch' node desc) :
    ∃ r ∈ results, fromOCI r = fromOCI node := by
  obtain ⟨header, read⟩ := filterReferrers_readable listed member
  have fetched : fetch node = fetch' node := by
    cases fetched : fetch node with
    | ok content => exact (part content fetched).symm
    | error err =>
      have failed {α : Type} {unmarshal : Bytes → Except Error α} :
          fetchAndUnmarshal cd unmarshal fetch node = .error err := by
        simp only [fetchAndUnmarshal, fetchAll, fetched]
      obtain ⟨found, subject, -⟩ := refers
      simp only [readHeader, failed, Except.map] at read
      split at read
      · cases read
      split at read
      · cases read
      split at read
      · cases read
      simp only [readSubject, *, if_false] at subject
      cases subject
  obtain ⟨found, subject, same⟩ := refers
  rw [readSubject_eq, ← readHeader_congr rfl fetched, read] at subject
  obtain ⟨h, rfl, named⟩ := Option.bind_eq_some_iff.mp (Except.ok.inj subject)
  have readable n (member : n ∈ predecessors) := filterReferrers_readable listed member
  obtain ⟨results', listed', -, exact'⟩ := @filterReferrers_exact _ _ desc "" _ readable
  cases listed.symm.trans listed'
  exact List.mem_map.mp ((exact' _).mpr ⟨node, member, rfl, h, read, ⟨found, named, same⟩, .inl rfl⟩)

end OrasGo.Registry
