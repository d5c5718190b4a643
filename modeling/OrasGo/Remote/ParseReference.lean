import OrasGo.Registry.Grammar

/-! `Repository.ParseReference`, and the tags under which the referrers of a manifest are listed. -/

namespace OrasGo.Remote
open Text Registry

/-- How `Repository.ParseReference` reads what is not fully qualified: a digest after the first `@`,
or a digest or a tag. -/
def readUnqualified (texts : Registry.Texts) (base : Reference) (reference : String) : Except Error Reference :=
  match cut '@' reference with
  | some (_, digest) => do
    let ref : Reference := { base with reference := digest }
    ref.validateReferenceAsDigest texts
    return ref
  | none => do
    let ref : Reference := { base with reference }
    ref.validateReference texts
    return ref

/-- How `Repository.ParseReference` takes a reference that is fully qualified. -/
def checkBase (texts : Registry.Texts) (base ref : Reference) : Except Error Reference :=
  if ref.registry ≠ base.registry ∨ ref.repository ≠ base.repository then
    .error (.wrap ("mismatch between received " ++ texts.quote ref.string ++ " and expected " ++
      texts.quote base.string) .invalidReference)
  else .ok ref

/-- `Repository.ParseReference`; `base` is the reference of the repository. -/
def parseReference (texts : Registry.Texts) (base : Reference) (reference : String) : Except Error Reference := do
  let ref ← match Registry.parseReference texts reference with
    | .error _ => readUnqualified texts base reference
    | .ok ref => checkBase texts base ref
  if ref.reference = "" then .error .invalidReference else return ref

variable (texts : Registry.Texts) (base : Reference)

/-- The texts that name something in the repository, with the tag or the digest that they name. -/
inductive Names : String → String → Prop
  | tag {tag} (isTag : tagRegexp tag = true) : Names tag tag
  | digest {digest} (isDigest : Digest.validate digest = true) : Names digest digest
  | atDigest {text digest} (noSlash : '/' ∉ text.toList) (isDigest : Digest.validate digest = true) :
      Names (text ++ "@" ++ digest) digest
  | qualified {artifact r} (inGrammar : IsArtifact texts artifact r) (registry : r.registry = base.registry)
      (repository : r.repository = base.repository) : Names artifact r.reference

/-- What is returned for the text is in the repository, and the text names it. -/
structure Own (reference : String) (r : Reference) : Prop where
  registry : r.registry = base.registry
  repository : r.repository = base.repository
  nonempty : r.reference ≠ ""
  valid : tagRegexp r.reference = true ∨ Digest.validate r.reference = true
  named : Names texts base reference r.reference

/-- A text with a path and a digest that is not a reference. -/
def Strays (reference : String) : Prop :=
  ∃ text digest, reference = text ++ "@" ++ digest ∧ '@' ∉ text.toList ∧ '/' ∈ text.toList ∧
    Digest.validate digest = true ∧ ∀ r, Registry.parseReference texts reference ≠ .ok r

variable {texts base} {reference : String} {r : Reference}

theorem digest_nonempty {digest : Digest} (isDigest : Digest.validate digest = true) : digest ≠ "" := by
  rintro rfl
  exact absurd isDigest (by decide)

theorem checkBase_ok {ref : Reference} : checkBase texts base ref = .ok r ↔
    ref = r ∧ r.registry = base.registry ∧ r.repository = base.repository := by
  rw [checkBase]
  split
  · rename_i differ
    refine iff_of_false (fun impossible => ?_) ?_
    · cases impossible
    · rintro ⟨rfl, registry, repository⟩
      exact differ.elim (· registry) (· repository)
  · rename_i same
    obtain ⟨registry, repository⟩ := not_or.mp same
    constructor
    · rintro ⟨⟩
      exact ⟨rfl, not_ne_iff.mp registry, not_ne_iff.mp repository⟩
    · rintro ⟨rfl, _⟩
      rfl

theorem validateReference_ok (nonempty : r.reference ≠ "") : r.validateReference texts = .ok () ↔
    Digest.validate r.reference = true ∨ ':' ∉ r.reference.toList ∧ tagRegexp r.reference = true := by
  rw [Reference.validateReference, if_neg nonempty]
  by_cases colon : ':' ∈ r.reference.toList
  · rw [if_pos colon, validateReferenceAsDigest_ok]
    exact (or_iff_left fun tag => tag.1 colon).symm
  · rw [if_neg colon, validateReferenceAsTag_ok]
    exact ⟨fun isTag => .inr ⟨colon, isTag⟩, fun valid => (valid.resolve_left fun isDigest =>
      colon (colon_of_validate isDigest)).2⟩

theorem readUnqualified_ok (nonempty : r.reference ≠ "") : readUnqualified texts base reference = .ok r ↔
    { base with reference := r.reference } = r ∧
      ((∃ text, reference = text ++ "@" ++ r.reference ∧ '@' ∉ text.toList ∧ Digest.validate r.reference = true) ∨
        reference = r.reference ∧ '@' ∉ reference.toList ∧
          (Digest.validate r.reference = true ∨ ':' ∉ r.reference.toList ∧ tagRegexp r.reference = true)) := by
  have result {text : String} : Except.ok { base with reference := text } = (.ok r : Except Error Reference) ↔
      text = r.reference ∧ { base with reference := r.reference } = r := by
    constructor
    · rintro ⟨⟩
      exact ⟨rfl, rfl⟩
    · rintro ⟨rfl, same⟩
      exact congrArg _ same
  rw [readUnqualified]
  cases found : cut '@' reference with
  | some parts =>
    obtain ⟨text, digest⟩ := parts
    obtain ⟨joined, noAt⟩ := eq_join_of_cut found
    have atSign : '@' ∈ reference.toList := by simp [joined]
    change (_ >>= fun _ => Except.ok _) = _ ↔ _
    rw [bind_eq_ok, validateReferenceAsDigest_ok, result]
    constructor
    · rintro ⟨isDigest, rfl, same⟩
      exact ⟨same, .inl ⟨text, joined, noAt, isDigest⟩⟩
    · rintro ⟨same, ⟨text', joined', noAt', isDigest⟩ | ⟨_, none, _⟩⟩
      · cases (cut_join noAt').symm.trans (joined' ▸ found)
        exact ⟨isDigest, rfl, same⟩
      · exact absurd atSign none
  | none =>
    have none := cut_eq_none.mp found
    change (_ >>= fun _ => Except.ok _) = _ ↔ _
    rw [bind_eq_ok, result]
    constructor
    · rintro ⟨valid, rfl, same⟩
      exact ⟨same, .inr ⟨rfl, none, (validateReference_ok nonempty).mp valid⟩⟩
    · rintro ⟨same, ⟨text, joined, _, _⟩ | ⟨rfl, _, valid⟩⟩
      · exact absurd (by simp [joined]) none
      · exact ⟨(validateReference_ok nonempty).mpr valid, rfl, same⟩

/-- What is accepted is fully qualified, or it is not and is read as a part of a reference. -/
theorem parseReference_ok : parseReference texts base reference = .ok r ↔ r.reference ≠ "" ∧
    (Registry.parseReference texts reference = .ok r ∧ r.registry = base.registry ∧ r.repository = base.repository ∨
      (∀ r', Registry.parseReference texts reference ≠ .ok r') ∧ readUnqualified texts base reference = .ok r) := by
  have last {read : Except Error Reference} :
      (read >>= fun ref => if ref.reference = "" then .error .invalidReference else .ok ref) = .ok r ↔
        r.reference ≠ "" ∧ read = .ok r := by
    cases read with
    | error err =>
      refine iff_of_false (fun impossible => ?_) fun both => ?_
      · cases impossible
      · cases both.2
    | ok ref =>
      change (if ref.reference = "" then _ else _) = _ ↔ _
      split
      · rename_i empty
        refine iff_of_false (fun impossible => ?_) ?_
        · cases impossible
        · rintro ⟨nonempty, ⟨⟩⟩
          exact nonempty empty
      · rename_i nonempty
        constructor
        · rintro ⟨⟩
          exact ⟨nonempty, rfl⟩
        · exact And.right
  rw [parseReference]
  cases parsed : Registry.parseReference texts reference with
  | error err =>
    refine last.trans (and_congr_right fun _ => ?_)
    simp
  | ok ref =>
    refine last.trans (and_congr_right fun _ => ?_)
    simp [checkBase_ok]

/-- A text that strays is accepted, and does not name what is returned for it. -/
theorem Strays.parse (strays : Strays texts reference) : ∃ digest,
    parseReference texts base reference = .ok { base with reference := digest } ∧ ¬ Names texts base reference digest := by
  obtain ⟨text, digest, joined, noAt, slash, isDigest, unqualified⟩ := strays
  have nonempty := digest_nonempty isDigest
  have longer : reference ≠ digest := by
    intro same
    have lengths := congrArg String.length (joined.symm.trans same)
    have one : "@".length = 1 := by decide
    simp only [String.length_append] at lengths
    omega
  refine ⟨digest, parseReference_ok.mpr ⟨nonempty, .inr ⟨unqualified, (readUnqualified_ok nonempty).mpr ?_⟩⟩, fun named => ?_⟩
  · exact ⟨rfl, .inl ⟨text, joined, noAt, isDigest⟩⟩
  · cases named with
    | tag | digest => exact longer rfl
    | @atDigest text' _ noSlash =>
      have texts : text' = text := by simpa [String.append_left_inj] using joined
      exact noSlash (texts ▸ slash)
    | qualified inGrammar => exact unqualified _ inGrammar.parse

/-- The repository reads as its own only what names something in it, unless a text with a path and
a digest is not a reference. -/
theorem parseReference_own_iff (texts : Registry.Texts) (base : Reference) (reference : String) :
    (∀ r, parseReference texts base reference = .ok r → Own texts base reference r) ↔ ¬ Strays texts reference := by
  constructor
  · intro owned strays
    obtain ⟨digest, parsed, unnamed⟩ := strays.parse
    exact unnamed (owned _ parsed).named
  · intro stays r parsed
    obtain ⟨nonempty, ⟨qualified, registry, repository⟩ | ⟨unqualified, read⟩⟩ := parseReference_ok.mp parsed
    · obtain ⟨_, isTag, _, _, _, _, valid⟩ := parseReference_splits.mp qualified
      have inGrammar : IsArtifact texts reference r := by
        refine (artifact_or_dangles qualified).resolve_right fun dangles => ?_
        obtain ⟨r', parsed', empty, _⟩ := dangles.parse
        cases qualified.symm.trans parsed'
        exact nonempty empty
      refine ⟨registry, repository, nonempty, ?_, .qualified inGrammar registry repository⟩
      cases isTag with
      | false => exact .inr (valid.resolve_left nonempty)
      | true => exact .inl (valid.resolve_left nonempty)
    · obtain ⟨same, ⟨text, rfl, noAt, isDigest⟩ | ⟨rfl, _, valid⟩⟩ := (readUnqualified_ok nonempty).mp read
      · have noSlash : '/' ∉ text.toList := fun slash => stays ⟨text, r.reference, rfl, noAt, slash, isDigest, unqualified⟩
        exact ⟨by rw [← same], by rw [← same], nonempty, .inr isDigest, .atDigest noSlash isDigest⟩
      · refine ⟨by rw [← same], by rw [← same], nonempty, ?_, ?_⟩
        · exact valid.symm.imp_left And.right
        · exact valid.elim .digest fun tag => .tag tag.2

namespace Foreign

def app : Reference := ⟨"localhost:5000", "lib/app", ""⟩

/-- A digest of a repository whose name is not valid. -/
def text : String :=
  "localhost:5000/lib/Other@sha256:44136fa355b3678a1146ad16f7e8649e94fb4fc21fe77e8310c060f61caaff8a"

theorem strays : Strays Tagged.localTexts text := by
  refine ⟨"localhost:5000/lib/Other", "sha256:44136fa355b3678a1146ad16f7e8649e94fb4fc21fe77e8310c060f61caaff8a",
    by decide +kernel, by decide +kernel, by decide +kernel, by decide +kernel, fun r parsed => ?_⟩
  have refused : (Registry.parseReference Tagged.localTexts text).isOk = false := by decide +kernel
  rw [parsed] at refused
  cases refused

def manifest : Descriptor where
  mediaType := Ocispec.mediaTypeImageManifest
  digest := "sha256:44136fa355b3678a1146ad16f7e8649e94fb4fc21fe77e8310c060f61caaff8a"
  size := 2

end Foreign

/-- The digest is taken for one of the repository. -/
theorem parseReference_reinterprets : Foreign.app.validateRegistry Tagged.localTexts = .ok () ∧
    Foreign.app.validateRepository Tagged.localTexts = .ok () ∧
    ∃ r, parseReference Tagged.localTexts Foreign.app Foreign.text = .ok r ∧
      ¬ Own Tagged.localTexts Foreign.app Foreign.text r := by
  obtain ⟨digest, parsed, unnamed⟩ := Foreign.strays.parse
  exact ⟨by decide +kernel, by decide +kernel, _, parsed, fun own => unnamed own.named⟩

section ReferrersTag

/-- `buildReferrersTag`. -/
def buildReferrersTag (desc : Descriptor) : String :=
  Digest.algorithm desc.digest ++ "-" ++ Digest.encoded desc.digest

/-- The repository takes the text for one of its tags. -/
structure IsTagOf (texts : Registry.Texts) (base : Reference) (tag : String) : Prop where
  parsed : parseReference texts base tag = .ok { base with reference := tag }
  isTag : tagRegexp tag = true

theorem cut_digest {d : Digest} (valid : Digest.validate d = true) :
    cut ':' d = some (Digest.algorithm d, Digest.encoded d) := by
  have colon := colon_of_validate valid
  rw [cut, if_pos colon, Digest.algorithm, if_pos (by simpa using colon), Digest.encoded, List.drop_one]

theorem algorithm_cases {d : Digest} (valid : Digest.validate d = true) :
    Digest.algorithm d = "sha256" ∧ (Digest.encoded d).toList.length = 64 ∨
    Digest.algorithm d = "sha384" ∧ (Digest.encoded d).toList.length = 96 ∨
    Digest.algorithm d = "sha512" ∧ (Digest.encoded d).toList.length = 128 := by
  rw [Digest.validate, algorithmSize] at valid
  by_cases first : Digest.algorithm d = "sha256"
  · simp only [if_pos first, Bool.and_eq_true, beq_iff_eq] at valid
    exact .inl ⟨first, valid.1⟩
  by_cases second : Digest.algorithm d = "sha384"
  · simp only [if_neg first, if_pos second, Bool.and_eq_true, beq_iff_eq] at valid
    exact .inr (.inl ⟨second, valid.1⟩)
  by_cases third : Digest.algorithm d = "sha512"
  · simp only [if_neg first, if_neg second, if_pos third, Bool.and_eq_true, beq_iff_eq] at valid
    exact .inr (.inr ⟨third, valid.1⟩)
  · simp [first, second, third] at valid

theorem encoded_word {d : Digest} (valid : Digest.validate d = true) {c : Char} (member : c ∈ (Digest.encoded d).toList) :
    isWordChar c = true := by
  have hexadecimal : c.isDigit = true ∨ 'a' ≤ c ∧ c ≤ 'f' := by
    rw [Digest.validate] at valid
    split at valid
    · cases valid
    · simp only [Bool.and_eq_true, List.all_eq_true] at valid
      simpa using valid.2 c member
  rcases hexadecimal with digit | ⟨lower, upper⟩
  · simp [isWordChar, Char.isAlphanum, digit]
  · have letter : c.isLower = true := by
      have below : c ≤ 'z' := Char.le_trans upper (by decide : 'f' ≤ 'z')
      exact Bool.and_eq_true_iff.mpr ⟨decide_eq_true lower, decide_eq_true below⟩
    have alpha : c.isAlpha = true := (Bool.or_eq_true _ _).mpr (.inr letter)
    simp [isWordChar, Char.isAlphanum, alpha]

theorem buildReferrersTag_toList {desc : Descriptor} (valid : Digest.validate desc.digest = true) : ∃ rest,
    (buildReferrersTag desc).toList = 's' :: rest ∧ rest.length = (Digest.encoded desc.digest).toList.length + 6 ∧
    ∀ c ∈ rest, isWordChar c = true ∨ c = '-' := by
  have joined : (buildReferrersTag desc).toList =
      (Digest.algorithm desc.digest).toList ++ '-' :: (Digest.encoded desc.digest).toList := by simp [buildReferrersTag]
  have named : ∃ rest, (Digest.algorithm desc.digest).toList = 's' :: rest ∧ rest.length = 5 ∧
      ∀ c ∈ rest, isWordChar c = true := by
    rcases algorithm_cases valid with ⟨same, _⟩ | ⟨same, _⟩ | ⟨same, _⟩ <;> rw [same]
    · exact ⟨['h', 'a', '2', '5', '6'], by decide, by decide, List.all_eq_true.mp (by decide)⟩
    · exact ⟨['h', 'a', '3', '8', '4'], by decide, by decide, List.all_eq_true.mp (by decide)⟩
    · exact ⟨['h', 'a', '5', '1', '2'], by decide, by decide, List.all_eq_true.mp (by decide)⟩
  obtain ⟨rest, letters, length, words⟩ := named
  refine ⟨rest ++ '-' :: (Digest.encoded desc.digest).toList, by rw [joined, letters, List.cons_append], ?_, ?_⟩
  · simp only [List.length_append, List.length_cons, length]
    omega
  · intro c member
    rcases List.mem_append.mp member with inName | later
    · exact .inl (words c inName)
    · rcases List.mem_cons.mp later with hyphen | inHash
      · exact .inr hyphen
      · exact .inl (encoded_word valid inHash)

theorem tagRegexp_buildReferrersTag {desc : Descriptor} (valid : Digest.validate desc.digest = true) :
    tagRegexp (buildReferrersTag desc) = true ↔ Digest.algorithm desc.digest ≠ "sha512" := by
  obtain ⟨rest, letters, length, words⟩ := buildReferrersTag_toList valid
  have all : (rest.all fun c => isWordChar c || c == '.' || c == '-') = true := by
    refine List.all_eq_true.mpr fun c member => ?_
    rcases words c member with word | hyphen
    · simp [word]
    · simp [hyphen]
  have first : isWordChar 's' = true := by decide
  simp only [tagRegexp, letters, first, all, Bool.true_and, Bool.and_true, decide_eq_true_eq]
  rcases algorithm_cases valid with ⟨same, size⟩ | ⟨same, size⟩ | ⟨same, size⟩ <;> rw [same, length, size] <;> decide

/-- The referrers tag of a manifest is a tag of the repository unless its digest is of `sha512`, whose
hash is too long, and different digests have different tags. -/
theorem buildReferrersTag_usable_iff (texts : Registry.Texts) (base : Reference) (desc : Descriptor)
    (valid : Digest.validate desc.digest = true) :
    (IsTagOf texts base (buildReferrersTag desc) ↔ Digest.algorithm desc.digest ≠ "sha512") ∧
    ∀ desc', Digest.validate desc'.digest = true → buildReferrersTag desc' = buildReferrersTag desc →
      desc'.digest = desc.digest := by
  obtain ⟨rest, letters, length, words⟩ := buildReferrersTag_toList valid
  have absent {c : Char} (notWord : isWordChar c = false) (hyphen : c ≠ '-') : c ∉ (buildReferrersTag desc).toList := by
    rw [letters]
    intro member
    rcases List.mem_cons.mp member with rfl | later
    · exact absurd notWord (by decide)
    · exact (words c later).elim (fun word => Bool.false_ne_true (notWord.symm.trans word)) hyphen
  refine ⟨⟨fun tag => (tagRegexp_buildReferrersTag valid).mp tag.isTag, fun other => ?_⟩, ?_⟩
  · have isTag := (tagRegexp_buildReferrersTag valid).mpr other
    have unqualified r : Registry.parseReference texts (buildReferrersTag desc) ≠ .ok r := by
      intro parsed
      obtain ⟨path, _, joined, _⟩ := parseReference_splits.mp parsed
      exact absent (c := '/') (by decide) (by decide) (by simp [joined])
    refine ⟨parseReference_ok.mpr ⟨(tag_noAt isTag).2, .inr ⟨unqualified, ?_⟩⟩, isTag⟩
    exact (readUnqualified_ok (tag_noAt isTag).2).mpr
      ⟨rfl, .inr ⟨rfl, (tag_noAt isTag).1, .inr ⟨absent (by decide) (by decide), isTag⟩⟩⟩
  · intro desc' valid' same
    have parts {desc : Descriptor} (valid : Digest.validate desc.digest = true) :
        cut '-' (buildReferrersTag desc) = some (Digest.algorithm desc.digest, Digest.encoded desc.digest) := by
      refine (cut_join ?_ : cut '-' (_ ++ String.singleton '-' ++ _) = _)
      rcases algorithm_cases valid with ⟨same, _⟩ | ⟨same, _⟩ | ⟨same, _⟩ <;> rw [same] <;> decide
    have equal := (parts valid').symm.trans ((congrArg (cut '-') same).trans (parts valid))
    obtain ⟨algorithm, encoded⟩ := Prod.mk.inj (Option.some.inj equal)
    calc desc'.digest = Digest.algorithm desc'.digest ++ ":" ++ Digest.encoded desc'.digest :=
          (eq_join_of_cut (cut_digest valid')).1
      _ = Digest.algorithm desc.digest ++ ":" ++ Digest.encoded desc.digest := by rw [algorithm, encoded]
      _ = desc.digest := (eq_join_of_cut (cut_digest valid)).1.symm

namespace Long

/-- The empty object under `sha512`. -/
def subject : Descriptor where
  mediaType := Ocispec.mediaTypeImageManifest
  digest := "sha512:27c74670adb75075fad058d5ceaf7b20c4e7786c83bae8a32f626f9782af34c9a33c2046ef60fd2a7878d378e29fec851806bbd9a67878f3a9f1cda4830763fd"
  size := 2

end Long

/-- The tag has 135 characters, and the repository refuses it. -/
theorem buildReferrersTag_too_long : Digest.validate Long.subject.digest = true ∧
    parseReference Tagged.localTexts Foreign.app (buildReferrersTag Long.subject) =
      .error (.wrap ("invalid tag " ++ buildReferrersTag Long.subject) .invalidReference) := by
  decide +kernel

theorem buildReferrersTag_usable_image : Digest.validate Foreign.manifest.digest = true ∧
    IsTagOf Tagged.localTexts Foreign.app (buildReferrersTag Foreign.manifest) := by
  have valid : Digest.validate Foreign.manifest.digest = true := by decide +kernel
  exact ⟨valid, (buildReferrersTag_usable_iff _ _ _ valid).1.mpr (by decide +kernel)⟩

end ReferrersTag

end OrasGo.Remote
