import OrasGo.Base.Regular
import OrasGo.Base.Text
import OrasGo.Descriptor

/-! `registry.Reference`: parsing, validation and printing of artifact references. -/

namespace OrasGo.Registry
open Text Regular

/-- `registry.Reference`. -/
structure Reference where
  registry : String
  repository : String
  reference : String
  deriving DecidableEq, Repr

/-- What the code asks `net/url`, `strconv` and `go-digest` for: the host of a
URI that parses, the quoted text and the error of a digest that does not parse. -/
structure Texts where
  parseRequestURI : String → Option String
  quote : String → String
  digestError : String → String

/-- `[a-z0-9]`. -/
def alphanumeric : RegularExpression Char := anyOf "abcdefghijklmnopqrstuvwxyz0123456789".toList

/-- `[a-z0-9]+(?:(?:[._]|__|[-]*)[a-z0-9]+)*`. -/
def pathComponent : RegularExpression Char :=
  plus alphanumeric *
    ((anyOf ['.', '_'] + .char '_' * .char '_' + (RegularExpression.char '-').star) * plus alphanumeric).star

/-- `repositoryRegexp`, which matches the whole text. -/
def repositoryRegexp : RegularExpression Char := pathComponent * (.char '/' * pathComponent).star

/-- `\w` of a regular expression. -/
def isWordChar (c : Char) : Bool := c.isAlphanum || c == '_'

/-- `tagRegexp`: a word character and at most 127 word characters, dots and hyphens. -/
def tagRegexp (tag : String) : Bool :=
  match tag.toList with
  | [] => false
  | first :: rest => isWordChar first && rest.length ≤ 127 && rest.all fun c => isWordChar c || c == '.' || c == '-'

/-- `digest.Parse`. -/
def parseDigest (texts : Texts) (text : String) : Except Error Digest :=
  if Digest.validate text then .ok text else .error (.text (texts.digestError text))

namespace Reference
variable (texts : Texts) (r : Reference)

/-- `Reference.ValidateRegistry`. -/
def validateRegistry : Except Error Unit :=
  match texts.parseRequestURI ("dummy://" ++ r.registry) with
  | some host =>
    if host = "" ∨ host ≠ r.registry then
      .error (.wrap ("invalid registry " ++ texts.quote r.registry) .invalidReference)
    else .ok ()
  | none => .error (.wrap ("invalid registry " ++ texts.quote r.registry) .invalidReference)

/-- `Reference.ValidateRepository`. -/
def validateRepository : Except Error Unit :=
  if repositoryRegexp.rmatch r.repository.toList then .ok ()
  else .error (.wrap ("invalid repository " ++ texts.quote r.repository) .invalidReference)

/-- `Reference.ValidateReferenceAsTag`. -/
def validateReferenceAsTag : Except Error Unit :=
  if tagRegexp r.reference then .ok ()
  else .error (.wrap ("invalid tag " ++ texts.quote r.reference) .invalidReference)

/-- `Reference.ValidateReferenceAsDigest`. -/
def validateReferenceAsDigest : Except Error Unit :=
  if Digest.validate r.reference then .ok ()
  else .error (.wrap ("invalid digest " ++ texts.quote r.reference ++ ": " ++ texts.digestError r.reference)
    .invalidReference)

/-- `Reference.ValidateReference`. -/
def validateReference : Except Error Unit :=
  if r.reference = "" then .ok ()
  else if ':' ∈ r.reference.toList then r.validateReferenceAsDigest texts
  else r.validateReferenceAsTag texts

/-- `Reference.Digest`. -/
def digest : Except Error Digest := parseDigest texts r.reference

/-- `Reference.String`. -/
def string : String :=
  if r.repository = "" then r.registry
  else
    let ref := r.registry ++ "/" ++ r.repository
    if r.reference = "" then ref
    else if Digest.validate r.reference then ref ++ "@" ++ r.reference
    else ref ++ ":" ++ r.reference

end Reference

/-- The repository and the reference of a path, and whether the latter is a tag. -/
def splitPath (path : String) : String × String × Bool :=
  match cut '@' path with
  | some (repository, reference) =>
    match cut ':' repository with
    | some (repository, _) => (repository, reference, false)
    | none => (repository, reference, false)
  | none =>
    match cut ':' path with
    | some (repository, reference) => (repository, reference, true)
    | none => (path, "", false)

/-- The `validator` that `ParseReference` chooses. -/
def Reference.validator (texts : Texts) (ref : Reference) (isTag : Bool) : Except Error Unit :=
  if isTag then ref.validateReferenceAsTag texts else ref.validateReferenceAsDigest texts

/-- The checks at the end of `ParseReference`. -/
def checkReference (texts : Texts) (ref : Reference) (isTag : Bool) : Except Error Reference := do
  ref.validateRegistry texts
  ref.validateRepository texts
  if ref.reference = "" then
    return ref
  else
    ref.validator texts isTag
    return ref

/-- `registry.ParseReference`. -/
def parseReference (texts : Texts) (artifact : String) : Except Error Reference :=
  match cut '/' artifact with
  | none => .error (.wrap "missing registry or repository" .invalidReference)
  | some (registry, path) =>
    let (repository, reference, isTag) := splitPath path
    checkReference texts ⟨registry, repository, reference⟩ isTag

variable {texts : Texts} {r : Reference}

section Characters

theorem validateRepository_iff : r.validateRepository texts = .ok () ↔
    r.repository.toList ∈ repositoryRegexp.matches' := by
  rw [← RegularExpression.rmatch_iff_matches', Reference.validateRepository]
  split
  · simp [*]
  · simp [*]

theorem repository_letters (valid : r.validateRepository texts = .ok ()) :
    r.repository ≠ "" ∧ '@' ∉ r.repository.toList ∧ ':' ∉ r.repository.toList := by
  have matched := validateRepository_iff.mp valid
  refine ⟨fun empty => ?_, fun member => ?_, fun member => ?_⟩
  · rw [empty, ← RegularExpression.rmatch_iff_matches'] at matched
    revert matched
    decide
  · exact absurd (mem_letters matched _ member) (by decide)
  · exact absurd (mem_letters matched _ member) (by decide)

theorem tag_letters (valid : r.validateReferenceAsTag texts = .ok ()) :
    r.reference ≠ "" ∧ '@' ∉ r.reference.toList ∧ ':' ∉ r.reference.toList := by
  have matched : tagRegexp r.reference = true := by
    rw [Reference.validateReferenceAsTag] at valid
    split at valid
    · assumption
    · cases valid
  rw [tagRegexp] at matched
  cases listed : r.reference.toList with
  | nil =>
    rw [listed] at matched
    cases matched
  | cons first rest =>
    simp only [listed, Bool.and_eq_true, List.all_eq_true] at matched
    obtain ⟨⟨word, _⟩, others⟩ := matched
    have none {c : Char} (notWord : isWordChar c = false) (dot : c ≠ '.') (hyphen : c ≠ '-') : c ∉ first :: rest := by
      intro member
      rcases List.mem_cons.mp member with rfl | later
      · exact Bool.false_ne_true (notWord.symm.trans word)
      · simpa [notWord, dot, hyphen] using others c later
    refine ⟨fun empty => ?_, none (by decide) (by decide) (by decide), none (by decide) (by decide) (by decide)⟩
    rw [empty] at listed
    cases listed

theorem digest_valid (valid : r.validateReferenceAsDigest texts = .ok ()) : Digest.validate r.reference = true := by
  rw [Reference.validateReferenceAsDigest] at valid
  split at valid
  · assumption
  · cases valid

theorem colon_of_validate {d : Digest} (valid : Digest.validate d = true) : ':' ∈ d.toList := by
  by_contra absent
  have noAlgorithm : Digest.algorithm d = "" := by simp [Digest.algorithm, absent]
  exact available_of_validate valid (by rw [noAlgorithm]; decide)

end Characters

section Parse

theorem splitPath_join_digest {repository reference : String} (at_ : '@' ∉ repository.toList)
    (colon : ':' ∉ repository.toList) :
    splitPath (repository ++ "@" ++ reference) = (repository, reference, false) := by
  rw [splitPath, show "@" = String.singleton '@' from rfl, cut_join at_]
  simp only [cut_eq_none.mpr colon]

theorem splitPath_join_tag {repository reference : String} (at_ : '@' ∉ (repository ++ ":" ++ reference).toList)
    (colon : ':' ∉ repository.toList) :
    splitPath (repository ++ ":" ++ reference) = (repository, reference, true) := by
  rw [splitPath, cut_eq_none.mpr at_, show ":" = String.singleton ':' from rfl, cut_join colon]

theorem splitPath_repository {repository : String} (at_ : '@' ∉ repository.toList) (colon : ':' ∉ repository.toList) :
    splitPath repository = (repository, "", false) := by
  rw [splitPath, cut_eq_none.mpr at_]
  simp only [cut_eq_none.mpr colon]

/-- The reference passes the checks. -/
structure Checked (texts : Texts) (r : Reference) (isTag : Bool) : Prop where
  registry : r.validateRegistry texts = .ok ()
  repository : r.validateRepository texts = .ok ()
  reference : r.reference = "" ∨ r.validator texts isTag = .ok ()

theorem bind_eq_ok {β : Type} {check : Except Error Unit} {next : Unit → Except Error β} {result : β} :
    (check >>= next) = .ok result ↔ check = .ok () ∧ next () = .ok result := by
  cases check with
  | error err =>
    refine iff_of_false (fun impossible => ?_) fun both => ?_
    · cases impossible
    · cases both.1
  | ok _ => exact (and_iff_right rfl).symm

theorem checkReference_ok_iff {ref : Reference} {isTag : Bool} :
    checkReference texts ref isTag = .ok r ↔ ref = r ∧ Checked texts r isTag := by
  rw [checkReference, bind_eq_ok, bind_eq_ok]
  by_cases empty : ref.reference = ""
  · rw [if_pos empty]
    constructor
    · rintro ⟨registry, repository, done⟩
      obtain rfl : ref = r := Except.ok.inj done
      exact ⟨rfl, registry, repository, .inl empty⟩
    · rintro ⟨rfl, registry, repository, _⟩
      exact ⟨registry, repository, rfl⟩
  · rw [if_neg empty, bind_eq_ok]
    constructor
    · rintro ⟨registry, repository, reference, done⟩
      obtain rfl : ref = r := Except.ok.inj done
      exact ⟨rfl, registry, repository, .inr reference⟩
    · rintro ⟨rfl, registry, repository, reference⟩
      exact ⟨registry, repository, reference.resolve_left empty, rfl⟩

theorem parseReference_ok_iff {artifact : String} : parseReference texts artifact = .ok r ↔
    ∃ path isTag, cut '/' artifact = some (r.registry, path) ∧ splitPath path = (r.repository, r.reference, isTag) ∧
      Checked texts r isTag := by
  rw [parseReference]
  constructor
  · intro parsed
    cases found : cut '/' artifact with
    | none => rw [found] at parsed; cases parsed
    | some parts =>
      obtain ⟨registry, path⟩ := parts
      rcases split : splitPath path with ⟨repository, reference, isTag⟩
      simp only [found, split] at parsed
      obtain ⟨rfl, checked⟩ := checkReference_ok_iff.mp parsed
      exact ⟨path, isTag, rfl, split, checked⟩
  · rintro ⟨path, isTag, found, split, checked⟩
    simp only [found, split]
    exact checkReference_ok_iff.mpr ⟨rfl, checked⟩

/-- A reference that passes the checks is parsed from its own text, if there is
no slash in the registry. -/
theorem Checked.parse_string {isTag : Bool} (checked : Checked texts r isTag) (noSlash : '/' ∉ r.registry.toList) :
    parseReference texts r.string = .ok r := by
  obtain ⟨nonempty, noAt, noColon⟩ := repository_letters checked.repository
  have atSlash (path : String) : cut '/' (r.registry ++ "/" ++ path) = some (r.registry, path) := cut_join noSlash
  rw [parseReference_ok_iff, Reference.string, if_neg nonempty]
  by_cases empty : r.reference = ""
  · refine ⟨r.repository, false, ?_, ?_, checked.registry, checked.repository, .inl empty⟩
    · rw [if_pos empty, atSlash]
    · rw [splitPath_repository noAt noColon, empty]
  rw [if_neg empty]
  have reference := checked.reference.resolve_left empty
  cases isTag with
  | false =>
    have valid := digest_valid reference
    refine ⟨r.repository ++ "@" ++ r.reference, false, ?_, splitPath_join_digest noAt noColon, checked⟩
    rw [if_pos valid, ← atSlash]
    simp only [String.append_assoc]
  | true =>
    obtain ⟨_, tagAt, tagColon⟩ := tag_letters reference
    have noDigest : ¬ Digest.validate r.reference = true := fun valid => tagColon (colon_of_validate valid)
    refine ⟨r.repository ++ ":" ++ r.reference, true, ?_, splitPath_join_tag ?_ noColon, checked⟩
    · rw [if_neg noDigest, ← atSlash]
      simp only [String.append_assoc]
    · simp [noAt, tagAt]

end Parse

/-- Printing a parsed reference and parsing it again gives the same reference, and
different references print differently. -/
theorem parseReference_string {artifact : String} (parsed : parseReference texts artifact = .ok r) :
    parseReference texts r.string = .ok r ∧
    ∀ artifact' r', parseReference texts artifact' = .ok r' → r'.string = r.string → r' = r := by
  have again {a : String} {q : Reference} (parsed : parseReference texts a = .ok q) :
      parseReference texts q.string = .ok q := by
    obtain ⟨path, isTag, found, _, checked⟩ := parseReference_ok_iff.mp parsed
    exact checked.parse_string (eq_join_of_cut found).2
  refine ⟨again parsed, fun artifact' r' parsed' same => ?_⟩
  have first := again parsed'
  rw [same] at first
  exact Except.ok.inj (first.symm.trans (again parsed))

namespace Tagged

/-- A library that knows one host. -/
def localTexts : Texts where
  parseRequestURI uri := if uri = "dummy://localhost:5000" then some "localhost:5000" else none
  quote text := text
  digestError _ := "invalid checksum digest format"

def artifact : String :=
  "localhost:5000/lib/app:v1@sha256:44136fa355b3678a1146ad16f7e8649e94fb4fc21fe77e8310c060f61caaff8a"

def reference : Reference where
  registry := "localhost:5000"
  repository := "lib/app"
  reference := "sha256:44136fa355b3678a1146ad16f7e8649e94fb4fc21fe77e8310c060f61caaff8a"

theorem parsed : parseReference localTexts artifact = .ok reference := by
  decide +kernel

end Tagged

/-- The tag is dropped and the rest is kept. -/
theorem parseReference_string_tagged : parseReference Tagged.localTexts Tagged.artifact = .ok Tagged.reference ∧
    parseReference Tagged.localTexts Tagged.reference.string = .ok Tagged.reference :=
  ⟨Tagged.parsed, (parseReference_string Tagged.parsed).1⟩

end OrasGo.Registry
