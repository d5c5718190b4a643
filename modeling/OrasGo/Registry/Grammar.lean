import OrasGo.Registry.Reference

/-! The grammar that `ParseReference` documents, and the texts that it accepts outside of it. -/

namespace OrasGo.Registry
open Text Regular

/-- `<path>`: a repository and a reference, where a tag in front of a digest is dropped. -/
inductive IsPath : String → String → String → Prop
  | repository {repository} (valid : repositoryRegexp.rmatch repository.toList = true) :
      IsPath repository repository ""
  | digest {repository digest} (valid : repositoryRegexp.rmatch repository.toList = true)
      (isDigest : Digest.validate digest = true) : IsPath (repository ++ "@" ++ digest) repository digest
  | tag {repository tag} (valid : repositoryRegexp.rmatch repository.toList = true)
      (isTag : tagRegexp tag = true) : IsPath (repository ++ ":" ++ tag) repository tag
  | tagDigest {repository dropped digest} (valid : repositoryRegexp.rmatch repository.toList = true)
      (noAt : '@' ∉ dropped.toList) (isDigest : Digest.validate digest = true) :
      IsPath (repository ++ ":" ++ dropped ++ "@" ++ digest) repository digest

/-- A path that ends where its tag or its digest should begin. -/
inductive IsDangling : String → String → Prop
  | digest {repository} (valid : repositoryRegexp.rmatch repository.toList = true) :
      IsDangling (repository ++ "@") repository
  | tag {repository} (valid : repositoryRegexp.rmatch repository.toList = true) :
      IsDangling (repository ++ ":") repository
  | tagDigest {repository dropped} (valid : repositoryRegexp.rmatch repository.toList = true)
      (noAt : '@' ∉ dropped.toList) : IsDangling (repository ++ ":" ++ dropped ++ "@") repository

/-- The ways in which a path is a repository and a reference, before any of them is validated. -/
inductive Splits : String → String → String → Bool → Prop
  | repository {repository} : Splits repository repository "" false
  | digest {repository digest} : Splits (repository ++ "@" ++ digest) repository digest false
  | tag {repository tag} (noAt : '@' ∉ tag.toList) : Splits (repository ++ ":" ++ tag) repository tag true
  | tagDigest {repository dropped digest} (noAt : '@' ∉ dropped.toList) :
      Splits (repository ++ ":" ++ dropped ++ "@" ++ digest) repository digest false

variable (texts : Texts)

/-- `<socketaddr>`. -/
structure IsSocketAddr (registry : String) : Prop where
  noSlash : '/' ∉ registry.toList
  valid : texts.parseRequestURI ("dummy://" ++ registry) = some registry
  nonempty : registry ≠ ""

/-- `<artifact>`, with the reference that it stands for. -/
def IsArtifact (artifact : String) (r : Reference) : Prop :=
  ∃ path, artifact = r.registry ++ "/" ++ path ∧ IsSocketAddr texts r.registry ∧ IsPath path r.repository r.reference

/-- A valid registry and a path that ends too early. -/
def Dangles (artifact : String) : Prop :=
  ∃ registry path repository, artifact = registry ++ "/" ++ path ∧ IsSocketAddr texts registry ∧
    IsDangling path repository

/-- `ParseReference` accepts the text exactly if it is in the grammar, and returns an empty
reference only for a registry and a repository. -/
structure Conforms (artifact : String) : Prop where
  accepted : (∃ r, parseReference texts artifact = .ok r) ↔ ∃ r, IsArtifact texts artifact r
  empty : ∀ r, parseReference texts artifact = .ok r → r.reference = "" → artifact = r.registry ++ "/" ++ r.repository

variable {texts} {r : Reference}

theorem validateRegistry_iff (noSlash : '/' ∉ r.registry.toList) :
    r.validateRegistry texts = .ok () ↔ IsSocketAddr texts r.registry := by
  rw [Reference.validateRegistry]
  split
  · rename_i host found
    by_cases bad : host = "" ∨ host ≠ r.registry
    · rw [if_pos bad]
      refine iff_of_false (fun impossible => ?_) fun socket => ?_
      · cases impossible
      · cases found.symm.trans socket.valid
        exact bad.elim socket.nonempty fun differ => differ rfl
    · rw [if_neg bad]
      obtain ⟨nonempty, same⟩ := not_or.mp bad
      obtain rfl := not_ne_iff.mp same
      exact iff_of_true rfl ⟨noSlash, found, nonempty⟩
  · rename_i missing
    refine iff_of_false (fun impossible => ?_) fun socket => ?_
    · cases impossible
    · cases missing.symm.trans socket.valid

theorem validateRepository_ok : r.validateRepository texts = .ok () ↔
    repositoryRegexp.rmatch r.repository.toList = true := by
  rw [validateRepository_iff, RegularExpression.rmatch_iff_matches']

theorem validateReferenceAsTag_ok : r.validateReferenceAsTag texts = .ok () ↔ tagRegexp r.reference = true := by
  rw [Reference.validateReferenceAsTag]
  split
  · simp [*]
  · simp [*]

theorem validateReferenceAsDigest_ok : r.validateReferenceAsDigest texts = .ok () ↔
    Digest.validate r.reference = true := by
  rw [Reference.validateReferenceAsDigest]
  split
  · simp [*]
  · simp [*]

section Split
variable {path repository reference : String} {isTag : Bool}

theorem splits_of_splitPath (split : splitPath path = (repository, reference, isTag)) :
    Splits path repository reference isTag := by
  rw [splitPath] at split
  cases atSign : cut '@' path with
  | some parts =>
    obtain ⟨before, digest⟩ := parts
    obtain ⟨rfl, noAt⟩ := eq_join_of_cut atSign
    cases colon : cut ':' before with
    | some inner =>
      obtain ⟨repository', dropped⟩ := inner
      simp only [atSign, colon] at split
      cases split
      obtain ⟨rfl, _⟩ := eq_join_of_cut colon
      have noAt' : '@' ∉ dropped.toList := fun member => noAt (by simp [member])
      exact .tagDigest noAt'
    | none =>
      simp only [atSign, colon] at split
      cases split
      exact .digest
  | none =>
    have noAt := cut_eq_none.mp atSign
    cases colon : cut ':' path with
    | some parts =>
      obtain ⟨repository', tag⟩ := parts
      simp only [atSign, colon] at split
      cases split
      obtain ⟨rfl, _⟩ := eq_join_of_cut colon
      exact .tag fun member => noAt (by simp [member])
    | none =>
      simp only [atSign, colon] at split
      cases split
      exact .repository

theorem Splits.splitPath (splits : Splits path repository reference isTag) (noAt : '@' ∉ repository.toList)
    (noColon : ':' ∉ repository.toList) : splitPath path = (repository, reference, isTag) := by
  cases splits with
  | repository => exact splitPath_repository noAt noColon
  | digest => exact splitPath_join_digest noAt noColon
  | tag noAt' => exact splitPath_join_tag (by simp [noAt, noAt']) noColon
  | @tagDigest _ dropped _ noAt' =>
    have before : '@' ∉ (repository ++ ":" ++ dropped).toList := by simp [noAt, noAt']
    rw [Registry.splitPath, show "@" = String.singleton '@' from rfl, cut_join before]
    simp only [show ":" = String.singleton ':' from rfl, cut_join noColon]

/-- What `ParseReference` accepts, as it splits the text. -/
theorem parseReference_splits {artifact : String} : parseReference texts artifact = .ok r ↔
    ∃ path isTag, artifact = r.registry ++ "/" ++ path ∧ IsSocketAddr texts r.registry ∧
      Splits path r.repository r.reference isTag ∧ repositoryRegexp.rmatch r.repository.toList = true ∧
      (r.reference = "" ∨ (if isTag then tagRegexp r.reference else Digest.validate r.reference) = true) := by
  have validator {isTag : Bool} : r.validator texts isTag = .ok () ↔
      (if isTag then tagRegexp r.reference else Digest.validate r.reference) = true := by
    cases isTag
    · exact validateReferenceAsDigest_ok
    · exact validateReferenceAsTag_ok
  rw [parseReference_ok_iff]
  constructor
  · rintro ⟨path, isTag, found, split, checked⟩
    obtain ⟨joined, noSlash⟩ := eq_join_of_cut found
    exact ⟨path, isTag, joined, (validateRegistry_iff noSlash).mp checked.registry, splits_of_splitPath split,
      validateRepository_ok.mp checked.repository, checked.reference.imp_right validator.mp⟩
  · rintro ⟨path, isTag, rfl, socket, splits, valid, reference⟩
    have repository : r.validateRepository texts = .ok () := validateRepository_ok.mpr valid
    obtain ⟨_, noAt, noColon⟩ := repository_letters repository
    exact ⟨path, isTag, cut_join socket.noSlash, splits.splitPath noAt noColon,
      (validateRegistry_iff socket.noSlash).mpr socket, repository, reference.imp_right validator.mpr⟩

end Split

theorem tag_noAt {tag : String} (isTag : tagRegexp tag = true) : '@' ∉ tag.toList ∧ tag ≠ "" := by
  have valid : Reference.validateReferenceAsTag ⟨fun _ => none, id, id⟩ ⟨"", "", tag⟩ = .ok () :=
    validateReferenceAsTag_ok.mpr isTag
  obtain ⟨nonempty, noAt, _⟩ := tag_letters valid
  exact ⟨noAt, nonempty⟩

variable {artifact : String}

theorem IsArtifact.parse (inGrammar : IsArtifact texts artifact r) :
    parseReference texts artifact = .ok r := by
  obtain ⟨path, rfl, socket, isPath⟩ := inGrammar
  obtain ⟨registry, repository, reference⟩ := r
  refine parseReference_splits.mpr ?_
  cases isPath with
  | repository valid => exact ⟨_, false, rfl, socket, .repository, valid, .inl rfl⟩
  | digest valid isDigest => exact ⟨_, false, rfl, socket, .digest, valid, .inr isDigest⟩
  | tag valid isTag => exact ⟨_, true, rfl, socket, .tag (tag_noAt isTag).1, valid, .inr isTag⟩
  | tagDigest valid noAt isDigest => exact ⟨_, false, rfl, socket, .tagDigest noAt, valid, .inr isDigest⟩

theorem IsArtifact.empty (inGrammar : IsArtifact texts artifact r) (empty : r.reference = "") :
    artifact = r.registry ++ "/" ++ r.repository := by
  obtain ⟨path, same, _, isPath⟩ := inGrammar
  obtain ⟨registry, repository, reference⟩ := r
  cases isPath with
  | repository => exact same
  | digest _ isDigest | tagDigest _ _ isDigest =>
    have noDigest : Digest.validate "" = false := by decide
    cases (empty : reference = "")
    cases noDigest.symm.trans isDigest
  | tag _ isTag => exact absurd empty (tag_noAt isTag).2

/-- What is accepted is in the grammar, or ends too early. -/
theorem artifact_or_dangles (parsed : parseReference texts artifact = .ok r) :
    IsArtifact texts artifact r ∨ Dangles texts artifact := by
  obtain ⟨path, isTag, rfl, socket, splits, valid, reference⟩ := parseReference_splits.mp parsed
  obtain ⟨registry, repository, reference'⟩ := r
  cases splits with
  | repository => exact .inl ⟨_, rfl, socket, .repository valid⟩
  | digest =>
    rcases reference with rfl | isDigest
    · exact .inr ⟨registry, _, repository, rfl, socket, by simpa using IsDangling.digest valid⟩
    · exact .inl ⟨_, rfl, socket, .digest valid isDigest⟩
  | tag noAt =>
    rcases reference with rfl | isTag
    · exact .inr ⟨registry, _, repository, rfl, socket, by simpa using IsDangling.tag valid⟩
    · exact .inl ⟨_, rfl, socket, .tag valid isTag⟩
  | tagDigest noAt =>
    rcases reference with rfl | isDigest
    · exact .inr ⟨registry, _, repository, rfl, socket, by simpa using IsDangling.tagDigest valid noAt⟩
    · exact .inl ⟨_, rfl, socket, .tagDigest valid noAt isDigest⟩

/-- A text that ends too early is accepted, with an empty reference. -/
theorem Dangles.parse (dangles : Dangles texts artifact) :
    ∃ r, parseReference texts artifact = .ok r ∧ r.reference = "" ∧ artifact ≠ r.registry ++ "/" ++ r.repository := by
  obtain ⟨registry, path, repository, rfl, socket, isDangling⟩ := dangles
  have longer {rest : String} (nonempty : rest ≠ "") (same : path = repository ++ rest) :
      registry ++ "/" ++ path ≠ registry ++ "/" ++ repository := by
    intro equal
    have lengths := congrArg String.length equal
    have positive : rest.length ≠ 0 := by simpa using nonempty
    simp only [same, String.length_append] at lengths
    omega
  suffices splits : ∃ isTag, Splits path repository "" isTag ∧ repositoryRegexp.rmatch repository.toList = true ∧
      ∃ rest, rest ≠ "" ∧ path = repository ++ rest by
    obtain ⟨isTag, splits, valid, rest, nonempty, same⟩ := splits
    exact ⟨⟨registry, repository, ""⟩, parseReference_splits.mpr ⟨path, isTag, rfl, socket, splits, valid, .inl rfl⟩, rfl,
      longer nonempty same⟩
  cases isDangling with
  | digest valid =>
    have splits : Splits (repository ++ "@" ++ "") repository "" false := .digest
    exact ⟨false, by simpa using splits, valid, "@", by decide, rfl⟩
  | tag valid =>
    have splits : Splits (repository ++ ":" ++ "") repository "" true := .tag (by simp)
    exact ⟨true, by simpa using splits, valid, ":", by decide, rfl⟩
  | @tagDigest _ dropped valid noAt =>
    have splits : Splits (repository ++ ":" ++ dropped ++ "@" ++ "") repository "" false := .tagDigest noAt
    refine ⟨false, by simpa using splits, valid, ":" ++ dropped ++ "@", ?_, ?_⟩
    · intro empty
      have lengths := congrArg String.length empty
      simp at lengths
    · simp only [String.append_assoc]

/-- `ParseReference` follows its grammar on exactly the texts that do not end where a tag or a
digest should begin. -/
theorem parseReference_conforms_iff (texts : Texts) (artifact : String) : Conforms texts artifact ↔ ¬ Dangles texts artifact := by
  constructor
  · intro conforms dangles
    obtain ⟨r, parsed, empty, differ⟩ := dangles.parse
    exact differ (conforms.empty r parsed empty)
  · intro complete
    refine ⟨⟨?_, ?_⟩, ?_⟩
    · rintro ⟨r, parsed⟩
      exact ⟨r, (artifact_or_dangles parsed).resolve_right complete⟩
    · rintro ⟨r, inGrammar⟩
      exact ⟨r, inGrammar.parse⟩
    · intro r parsed empty
      exact ((artifact_or_dangles parsed).resolve_right complete).empty empty

namespace Tagged

/-- The digest is missing. -/
def dangling : String := "localhost:5000/lib/app@"

end Tagged

/-- The grammar has no such text, and yet it is accepted. -/
theorem parseReference_accepts_dangling :
    parseReference Tagged.localTexts Tagged.dangling = .ok ⟨"localhost:5000", "lib/app", ""⟩ ∧
    ¬ ∃ r, IsArtifact Tagged.localTexts Tagged.dangling r := by
  have parsed : parseReference Tagged.localTexts Tagged.dangling = .ok ⟨"localhost:5000", "lib/app", ""⟩ := by
    decide +kernel
  refine ⟨parsed, ?_⟩
  rintro ⟨r, inGrammar⟩
  cases inGrammar.parse.symm.trans parsed
  exact absurd (inGrammar.empty rfl) (by decide)

end OrasGo.Registry
