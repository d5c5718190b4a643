import OrasGo.Content

/-! `registry.Referrers` of a store that has no referrers API of its own. -/

namespace OrasGo.Registry

/-- The node as `Referrers` lists it, if `desc` is its subject. -/
def selectReferrer (desc node : Descriptor) (subject : Option Descriptor) (artifactType : String)
    (annotations : Annotations) : Option Descriptor :=
  if subject.any (contentEqual · desc) then some { node with artifactType, annotations } else none

/-- The body of the loop of `Referrers` for one predecessor. -/
def referrer (cd : Codec) (fetch : Fetcher) (desc node : Descriptor) : Except Error (Option Descriptor) :=
  if node.mediaType = Ocispec.mediaTypeImageManifest then
    (fetchAndUnmarshal cd cd.unmarshalManifest fetch node).map fun manifest =>
      selectReferrer desc node manifest.subject
        (if manifest.artifactType = "" then manifest.config.mediaType else manifest.artifactType)
        manifest.annotations
  else if node.mediaType = Ocispec.mediaTypeImageIndex then
    (fetchAndUnmarshal cd cd.unmarshalIndex fetch node).map fun index =>
      selectReferrer desc node index.subject index.artifactType index.annotations
  else if node.mediaType = Spec.mediaTypeArtifactManifest then
    (fetchAndUnmarshal cd cd.unmarshalArtifact fetch node).map fun artifact =>
      selectReferrer desc node artifact.subject artifact.artifactType artifact.annotations
  else
    .ok none

/-- The loop of `Referrers` over the predecessors. -/
def filterReferrers (cd : Codec) (fetch : Fetcher) (desc : Descriptor) (artifactType : String) :
    List Descriptor → Except Error (List Descriptor)
  | [] => .ok []
  | node :: rest => do
    let found ← referrer cd fetch desc node
    let others ← filterReferrers cd fetch desc artifactType rest
    return (found.filter fun r => artifactType = "" || artifactType = r.artifactType).toList ++ others

/-- `registry.Referrers`, given the predecessors of the descriptor in the store.
The text of the error is without the descriptor that it prints. -/
def referrers (cd : Codec) (fetch : Fetcher) (predecessors : List Descriptor) (desc : Descriptor)
    (artifactType : String) : Except Error (List Descriptor) :=
  if isManifest desc then filterReferrers cd fetch desc artifactType predecessors
  else .error (.wrap "the descriptor is not a manifest" .unsupported)

/-- The subject that a manifest names. -/
def readSubject (cd : Codec) (fetch : Fetcher) (node : Descriptor) : Except Error (Option Descriptor) :=
  if node.mediaType = Ocispec.mediaTypeImageManifest then
    (fetchAndUnmarshal cd cd.unmarshalManifest fetch node).map Manifest.subject
  else if node.mediaType = Ocispec.mediaTypeImageIndex then
    (fetchAndUnmarshal cd cd.unmarshalIndex fetch node).map Index.subject
  else if node.mediaType = Spec.mediaTypeArtifactManifest then
    (fetchAndUnmarshal cd cd.unmarshalArtifact fetch node).map Artifact.subject
  else
    .ok none

/-- `node` names `desc` as its subject. -/
def Refers (cd : Codec) (fetch : Fetcher) (node desc : Descriptor) : Prop :=
  ∃ found, readSubject cd fetch node = .ok (some found) ∧ contentEqual found desc = true

variable {cd : Codec} {fetch : Fetcher} {desc node : Descriptor}

theorem selectReferrer_some {subject : Option Descriptor} {artifactType : String} {annotations : Annotations}
    {found : Descriptor} (selected : selectReferrer desc node subject artifactType annotations = some found) :
    fromOCI found = fromOCI node ∧ ∃ d, subject = some d ∧ contentEqual d desc = true := by
  unfold selectReferrer at selected
  split at selected
  · rename_i same
    cases selected
    exact ⟨rfl, by simpa only [Option.any_eq_true] using same⟩
  · cases selected

theorem referrer_refers {found : Descriptor} (selected : referrer cd fetch desc node = .ok (some found)) :
    fromOCI found = fromOCI node ∧ Refers cd fetch node desc := by
  have read {α : Type} {result : Except Error α} {f : α → Option Descriptor} {subject : α → Option Descriptor}
      (mapped : result.map f = .ok (some found))
      (each : ∀ a, f a = some found → fromOCI found = fromOCI node ∧
        ∃ d, subject a = some d ∧ contentEqual d desc = true) :
      fromOCI found = fromOCI node ∧ ∃ d, result.map subject = .ok (some d) ∧ contentEqual d desc = true := by
    cases result with
    | error err => cases mapped
    | ok a =>
      obtain ⟨key, d, named, same⟩ := each a (Except.ok.inj mapped)
      exact ⟨key, d, congrArg Except.ok named, same⟩
  unfold referrer at selected
  unfold Refers readSubject
  split at selected
  · rw [if_pos ‹_›]
    exact read selected fun manifest chosen => selectReferrer_some chosen
  rw [if_neg ‹_›]
  split at selected
  · rw [if_pos ‹_›]
    exact read selected fun index chosen => selectReferrer_some chosen
  rw [if_neg ‹_›]
  split at selected
  · rw [if_pos ‹_›]
    exact read selected fun artifact chosen => selectReferrer_some chosen
  · cases selected

theorem mem_filterReferrers {artifactType : String} {predecessors results : List Descriptor} {r : Descriptor}
    (listed : filterReferrers cd fetch desc artifactType predecessors = .ok results) (member : r ∈ results) :
    ∃ node ∈ predecessors, fromOCI r = fromOCI node ∧ Refers cd fetch node desc := by
  induction predecessors generalizing results with
  | nil =>
    cases listed
    cases member
  | cons node rest ih =>
    simp only [filterReferrers] at listed
    cases found : referrer cd fetch desc node with
    | error err =>
      rw [found] at listed
      cases listed
    | ok first =>
      cases others : filterReferrers cd fetch desc artifactType rest with
      | error err =>
        rw [found, others] at listed
        cases listed
      | ok results' =>
        rw [found, others] at listed
        cases listed
        rcases List.mem_append.mp member with here | later
        · obtain ⟨same, _⟩ := Option.filter_eq_some_iff.mp (Option.mem_toList.mp here)
          subst same
          exact ⟨node, List.mem_cons_self, referrer_refers found⟩
        · obtain ⟨node', member', refers⟩ := ih others later
          exact ⟨node', List.mem_cons_of_mem _ member', refers⟩

theorem mem_referrers {artifactType : String} {predecessors results : List Descriptor} {r : Descriptor}
    (listed : referrers cd fetch predecessors desc artifactType = .ok results) (member : r ∈ results) :
    ∃ node ∈ predecessors, fromOCI r = fromOCI node ∧ Refers cd fetch node desc := by
  unfold referrers at listed
  split at listed
  · exact mem_filterReferrers listed member
  · cases listed

theorem Refers.congr {fetch' : Fetcher} {desc' node' : Descriptor} (refers : Refers cd fetch node desc)
    (sameNode : fromOCI node = fromOCI node') (sameDesc : fromOCI desc = fromOCI desc')
    (fetched : fetch node = fetch' node') : Refers cd fetch' node' desc' := by
  obtain ⟨found, read, same⟩ := refers
  have mediaType := (fromOCI_eq_iff.mp sameNode).1
  refine ⟨found, ?_, contentEqual_iff.mpr ((contentEqual_iff.mp same).trans sameDesc)⟩
  simpa only [readSubject, mediaType, fetchAndUnmarshal_congr sameNode fetched] using read

theorem Refers.fetched (refers : Refers cd fetch node desc) : ∃ content, fetch node = .ok content := by
  obtain ⟨found, read, _⟩ := refers
  cases fetched : fetch node with
  | ok content => exact ⟨content, rfl⟩
  | error err =>
    have failed {α : Type} {unmarshal : Bytes → Except Error α} :
        fetchAndUnmarshal cd unmarshal fetch node = .error err := by
      simp only [fetchAndUnmarshal, fetchAll, fetched]
    simp only [readSubject, failed, Except.map] at read
    split at read
    · cases read
    split at read
    · cases read
    split at read
    · cases read
    · cases read

end OrasGo.Registry
