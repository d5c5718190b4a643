import OrasGo.Auth.Cache
import OrasGo.Auth.Scope

/-! The challenge of the header `WWW-Authenticate`: `parseChallenge`. -/

namespace OrasGo.Auth

/-- A character of the text of a quoted string that stands for itself. -/
def isPlain (c : Char) : Bool := ' ' ≤ c && c ≤ '~' && c != '"' && c != '\\'

/-- `strconv.QuotedPrefix` and `strconv.Unquote`, with what the parser relies on: a quoted prefix
is the beginning of the text, and a quoted string of plain characters means these. -/
structure Quoting where
  quotedPrefix : Str → Option Str
  unquote : Str → Option Str
  begins : ∀ s quoted, quotedPrefix s = some quoted → 0 < quoted.length ∧ ∃ rest, s = quoted ++ rest
  quotedPrefix_plain : ∀ text rest : Str, text.all isPlain = true →
    quotedPrefix ('"' :: text ++ '"' :: rest) = some ('"' :: text ++ ['"'])
  unquote_plain : ∀ text : Str, text.all isPlain = true → unquote ('"' :: text ++ ['"']) = some text

/-- `parseScheme`, on a token. -/
def parseScheme (scheme : Str) : Scheme :=
  if scheme.map Char.toLower = "basic".toList then .basic
  else if scheme.map Char.toLower = "bearer".toList then .bearer
  else .unknown

def isNotTokenChar (r : Char) : Bool :=
  (r < 'A' || 'Z' < r) && (r < 'a' || 'z' < r) && (r < '0' || '9' < r) && !("!#$%&'*+-.^_`|~".toList.contains r)

def parseToken (s : Str) : Str × Str :=
  match s.findIdx? isNotTokenChar with
  | some i => (s.take i, s.drop i)
  | none => (s, [])

/-- `skipSpace`. It leaves a text of nothing but space alone. -/
def skipSpace (s : Str) : Str :=
  match s.findIdx? fun r => r != ' ' && r != '\t' with
  | some i => s.drop i
  | none => s

section Parser
variable (q : Quoting)

/-- The value of a parameter and the rest; `none` when the parser returns. -/
def parseValue : Str → Option (Str × Str)
  | [] => none
  | c :: rest =>
    if c = '"' then do
      let quoted ← q.quotedPrefix (c :: rest)
      let value ← q.unquote quoted
      return (value, (c :: rest).drop quoted.length)
    else
      let parsed := parseToken (c :: rest)
      if parsed.1 = [] then none else some parsed

/-- One parameter and the rest; `none` when the parser returns. -/
def parseParam (rest : Str) : Option (Str × Str × Str) :=
  let parsed := parseToken (skipSpace rest)
  if parsed.1 = [] then none
  else match skipSpace parsed.2 with
    | '=' :: rest => (parseValue q (skipSpace rest)).map fun value => (parsed.1, value)
    | _ => none

abbrev Params := Finmap fun _ : Str => Str

/-- The loop of `parseChallenge`; `none` when the fuel is used up. -/
def parseParams : Nat → Str → Params → Option Params
  | 0, _, _ => none
  | fuel + 1, rest, params =>
    match parseParam q rest with
    | none => some params
    | some (key, value, rest) =>
      match skipSpace rest with
      | ',' :: rest => parseParams fuel rest (params.insert key value)
      | _ => some (params.insert key value)

/-- `parseChallenge`. -/
def parseChallenge (fuel : Nat) (header : Str) : Option (Scheme × Params) :=
  let parsed := parseToken header
  let scheme := parseScheme parsed.1
  if scheme ≠ .bearer then some (scheme, ∅)
  else (parseParams q fuel parsed.2 ∅).map fun params => (scheme, params)

end Parser

/-- Optional or bad white space. -/
def Spaces (s : Str) : Prop := ∀ c ∈ s, c = ' ' ∨ c = '\t'

def TokenChars (s : Str) : Prop := ∀ c ∈ s, isNotTokenChar c = false

def IsToken (s : Str) : Prop := s ≠ [] ∧ TokenChars s

section Scan
variable {a s rest : Str}

/-- The index of the first character after some that do not count. -/
theorem findIdx?_append_stop {p : Char → Bool} (before : ∀ c ∈ a, p c = false) (stop : ∀ c, rest.head? = some c → p c = true) :
    (a ++ rest).findIdx? p = if rest = [] then none else some a.length := by
  have none : a.findIdx? p = none := List.findIdx?_eq_none_iff.mpr before
  rw [List.findIdx?_append, none]
  cases rest with
  | nil => simp
  | cons c rest =>
    have first : List.findIdx? p (c :: rest) = some 0 := by simp [List.findIdx?_cons, stop c rfl]
    simp [first]

theorem parseToken_append (token : TokenChars a) (stop : ∀ c, rest.head? = some c → isNotTokenChar c = true) :
    parseToken (a ++ rest) = (a, rest) := by
  rw [parseToken, findIdx?_append_stop token stop]
  cases rest <;> simp

theorem skipSpace_append (spaces : Spaces a) {c : Char} (other : c ≠ ' ' ∧ c ≠ '\t') : skipSpace (a ++ c :: rest) = c :: rest := by
  have before : ∀ c ∈ a, (c != ' ' && c != '\t') = false := by
    intro c member
    rcases spaces c member with rfl | rfl <;> rfl
  have stop : ∀ c', (c :: rest).head? = some c' → (c' != ' ' && c' != '\t') = true := by
    rintro _ ⟨⟩
    simp [other]
  rw [skipSpace, findIdx?_append_stop before stop]
  simp

theorem skipSpace_spaces (spaces : Spaces s) : skipSpace s = s := by
  have before : ∀ c ∈ s, (c != ' ' && c != '\t') = false := by
    intro c member
    rcases spaces c member with rfl | rfl <;> rfl
  rw [skipSpace, List.findIdx?_eq_none_iff.mpr before]

theorem before_findIdx? {p : Char → Bool} {i : Nat} (found : s.findIdx? p = some i) : ∀ c ∈ s.take i, p c = false := by
  obtain ⟨inside, _, before⟩ := List.findIdx?_eq_some_iff_getElem.mp found
  intro c member
  obtain ⟨j, bound, rfl⟩ := List.mem_take_iff_getElem.mp member
  exact Bool.eq_false_iff.mpr (before j (by omega))

theorem skipSpace_spec (s : Str) : ∃ spaces, Spaces spaces ∧ s = spaces ++ skipSpace s := by
  rw [skipSpace]
  cases found : s.findIdx? fun r => r != ' ' && r != '\t' with
  | none => exact ⟨[], (fun c impossible => by cases impossible), rfl⟩
  | some i =>
    refine ⟨s.take i, fun c member => ?_, (List.take_append_drop i s).symm⟩
    simpa [Decidable.or_iff_not_imp_left] using before_findIdx? found c member

theorem parseToken_spec (s : Str) : s = (parseToken s).1 ++ (parseToken s).2 ∧ TokenChars (parseToken s).1 := by
  rw [parseToken]
  cases found : s.findIdx? isNotTokenChar with
  | none => exact ⟨(List.append_nil s).symm, List.findIdx?_eq_none_iff.mp found⟩
  | some i => exact ⟨(List.take_append_drop i s).symm, before_findIdx? found⟩

end Scan

/-- The ways to write a value: as a token, or as a quoted string of plain characters. -/
inductive RendersValue : Str → Str → Prop
  | token {value : Str} : IsToken value → RendersValue value value
  | quoted {value : Str} : value.all isPlain = true → RendersValue value ('"' :: value ++ ['"'])

/-- The ways to write a parameter: `key BWS = BWS value`. -/
inductive RendersParam : Str → Str → Str → Prop
  | mk {key value before after text : Str} : IsToken key → Spaces before → Spaces after → RendersValue value text →
      RendersParam key value (key ++ before ++ '=' :: after ++ text)

/-- The ways to write a list of parameters, separated by `OWS , OWS`. -/
inductive Renders : List (Str × Str) → Str → Prop
  | nil : Renders [] []
  | last {key value text : Str} : RendersParam key value text → Renders [(key, value)] text
  | next {key value text before after rest : Str} {params : List (Str × Str)} : RendersParam key value text →
      Spaces before → Spaces after → params ≠ [] → Renders params rest →
      Renders ((key, value) :: params) (text ++ before ++ ',' :: after ++ rest)

/-- The text begins like a parameter: with `BWS token BWS =`. -/
def BeginsParam (text : Str) : Prop :=
  ∃ before key after rest, Spaces before ∧ IsToken key ∧ Spaces after ∧ text = before ++ key ++ after ++ '=' :: rest

/-- What may follow the parameters: space, or a comma and a text that does not begin like a
parameter. -/
inductive Tail : Str → Prop
  | spaces {text : Str} : Spaces text → Tail text
  | comma {spaces text : Str} : Spaces spaces → ¬ BeginsParam text → Tail (spaces ++ ',' :: text)

/-- The last value that the list gives to the key. -/
def lastValue (params : List (Str × Str)) (key : Str) : Option Str :=
  (params.reverse.find? fun param => param.1 = key).map Prod.snd

section Params
variable {q : Quoting} {rest text key value : Str}

/-- What stands after a value is not part of it. -/
def Stops (rest : Str) : Prop := ∀ c, rest.head? = some c → c = ' ' ∨ c = '\t' ∨ c = ','

theorem Stops.token (stops : Stops rest) (c : Char) (first : rest.head? = some c) : isNotTokenChar c = true := by
  rcases stops c first with rfl | rfl | rfl <;> decide

theorem stops_spaces {spaces : Str} (all : Spaces spaces) (more : Stops rest) : Stops (spaces ++ rest) := by
  cases spaces with
  | nil => exact more
  | cons c spaces =>
    rintro _ ⟨⟩
    rcases all c List.mem_cons_self with same | same
    · exact .inl same
    · exact .inr (.inl same)

theorem stops_comma (rest : Str) : Stops (',' :: rest) := by
  rintro _ ⟨⟩
  exact .inr (.inr rfl)

theorem Tail.stops (tail : Tail rest) : Stops rest := by
  cases tail with
  | spaces all =>
    have none : Stops ([] : Str) := fun c impossible => by cases impossible
    have stops := stops_spaces all none
    rwa [List.append_nil] at stops
  | comma all _ => exact stops_spaces all (stops_comma _)

theorem token_first {s : Str} (token : IsToken s) : ∃ c r, s = c :: r ∧ isNotTokenChar c = false := by
  obtain ⟨some, chars⟩ := token
  cases s with
  | nil => exact absurd rfl some
  | cons c r => exact ⟨c, r, rfl, chars c List.mem_cons_self⟩

theorem not_space_of_token {c : Char} (token : isNotTokenChar c = false) : c ≠ ' ' ∧ c ≠ '\t' ∧ c ≠ '"' := by
  refine ⟨?_, ?_, ?_⟩ <;>
  · rintro rfl
    revert token
    decide

theorem parseValue_renders (renders : RendersValue value text) (stops : Stops rest) :
    parseValue q (text ++ rest) = some (value, rest) := by
  cases renders with
  | token token =>
    have parsed := parseToken_append token.2 stops.token
    obtain ⟨c, r, rfl, first⟩ := token_first token
    rw [List.cons_append] at parsed ⊢
    rw [parseValue, if_neg (not_space_of_token first).2.2, parsed]
    simp
  | quoted plain =>
    have whole : '"' :: value ++ ['"'] ++ rest = '"' :: (value ++ '"' :: rest) := by simp
    have quoted : q.quotedPrefix ('"' :: (value ++ '"' :: rest)) = some ('"' :: value ++ ['"']) :=
      q.quotedPrefix_plain value rest plain
    have after : ('"' :: (value ++ '"' :: rest)).drop ('"' :: value ++ ['"']).length = rest := by
      rw [← whole, List.drop_left]
    rw [whole, parseValue, if_pos rfl, quoted, Option.bind_eq_bind, Option.bind_some, q.unquote_plain value plain]
    exact congrArg (fun r => some (value, r)) after

theorem RendersValue.first (renders : RendersValue value text) : ∃ c r, text = c :: r ∧ c ≠ ' ' ∧ c ≠ '\t' := by
  cases renders with
  | token token =>
    obtain ⟨c, r, same, first⟩ := token_first token
    exact ⟨c, r, same, (not_space_of_token first).1, (not_space_of_token first).2.1⟩
  | quoted plain => exact ⟨'"', value ++ ['"'], rfl, by decide, by decide⟩

/-- Space and the sign that comes after it end a token. -/
theorem spaces_stop {spaces : Str} {sign : Char} (all : Spaces spaces) (other : isNotTokenChar sign = true) (c : Char)
    (first : (spaces ++ sign :: rest).head? = some c) : isNotTokenChar c = true := by
  cases spaces with
  | nil =>
    cases first
    exact other
  | cons space spaces =>
    cases first
    rcases all c List.mem_cons_self with rfl | rfl <;> decide

theorem parseParam_renders {lead : Str} (spaces : Spaces lead) (renders : RendersParam key value text) (stops : Stops rest) :
    parseParam q (lead ++ text ++ rest) = some (key, value, rest) := by
  cases renders with
  | @mk before after written token allBefore allAfter renders =>
    have whole : lead ++ (key ++ before ++ '=' :: after ++ written) ++ rest =
        lead ++ (key ++ (before ++ '=' :: (after ++ (written ++ rest)))) := by simp
    have parsed : parseToken (key ++ (before ++ '=' :: (after ++ (written ++ rest)))) =
        (key, before ++ '=' :: (after ++ (written ++ rest))) :=
      parseToken_append token.2 (spaces_stop allBefore (by decide))
    have skipped : skipSpace (lead ++ (key ++ (before ++ '=' :: (after ++ (written ++ rest))))) =
        key ++ (before ++ '=' :: (after ++ (written ++ rest))) := by
      obtain ⟨c, r, rfl, first⟩ := token_first token
      exact skipSpace_append spaces ⟨(not_space_of_token first).1, (not_space_of_token first).2.1⟩
    have sign : skipSpace (before ++ '=' :: (after ++ (written ++ rest))) = '=' :: (after ++ (written ++ rest)) :=
      skipSpace_append allBefore (by decide)
    have reached : skipSpace (after ++ (written ++ rest)) = written ++ rest := by
      obtain ⟨c, r, rfl, other⟩ := renders.first
      exact skipSpace_append allAfter other
    rw [whole, parseParam, skipped, parsed]
    simp only [token.1, if_false, sign, reached, parseValue_renders renders stops, Option.map_some]

theorem parseParam_eq_some {parsed : Str × Str × Str} (found : parseParam q text = some parsed) :
    ∃ before after rest, Spaces before ∧ IsToken parsed.1 ∧ Spaces after ∧
      text = before ++ parsed.1 ++ after ++ '=' :: rest ∧ parseValue q (skipSpace rest) = some parsed.2 := by
  obtain ⟨before, allBefore, whole⟩ := skipSpace_spec text
  obtain ⟨split, token⟩ := parseToken_spec (skipSpace text)
  obtain ⟨after, allAfter, sign⟩ := skipSpace_spec (parseToken (skipSpace text)).2
  simp only [parseParam] at found
  split at found
  · cases found
  next some =>
    split at found
    next rest equals =>
      obtain ⟨value, valued, rfl⟩ := Option.map_eq_some_iff.mp found
      refine ⟨before, after, rest, allBefore, ⟨some, token⟩, allAfter, ?_, valued⟩
      rw [equals] at sign
      rw [sign] at split
      rw [split] at whole
      simpa using whole
    next => cases found

theorem parseParam_eq_none (other : ¬ BeginsParam text) : parseParam q text = none := by
  cases found : parseParam q text with
  | none => rfl
  | some parsed =>
    obtain ⟨before, after, rest, allBefore, token, allAfter, whole, _⟩ := parseParam_eq_some found
    exact absurd ⟨before, parsed.1, after, rest, allBefore, token, allAfter, whole⟩ other

theorem parseValue_shorter {parsed : Str × Str} (found : parseValue q text = some parsed) :
    parsed.2.length < text.length := by
  cases text with
  | nil => cases found
  | cons c text =>
    rw [parseValue] at found
    split at found
    · obtain ⟨quoted, isQuoted, found⟩ := Option.bind_eq_some_iff.mp found
      obtain ⟨value, _, found⟩ := Option.bind_eq_some_iff.mp found
      cases found
      have positive := (q.begins _ _ isQuoted).1
      simp only [List.length_drop, List.length_cons]
      omega
    · simp only at found
      split at found
      · cases found
      next some =>
        cases found
        obtain ⟨whole, _⟩ := parseToken_spec (c :: text)
        have lengths := congrArg List.length whole
        have positive := List.length_pos_iff.mpr some
        rw [List.length_append] at lengths
        omega

theorem skipSpace_length (s : Str) : (skipSpace s).length ≤ s.length := by
  obtain ⟨spaces, _, whole⟩ := skipSpace_spec s
  have lengths := congrArg List.length whole
  rw [List.length_append] at lengths
  omega

theorem parseParam_shorter {parsed : Str × Str × Str} (found : parseParam q text = some parsed) :
    parsed.2.2.length < text.length := by
  obtain ⟨before, after, rest, _, _, _, whole, valued⟩ := parseParam_eq_some found
  have shorter := parseValue_shorter valued
  have skipped := skipSpace_length rest
  have lengths := congrArg List.length whole
  simp only [List.length_append, List.length_cons] at lengths
  omega

/-- The loop ends: each parameter takes some of the text. -/
theorem parseParams_isSome {fuel : Nat} {params : Params} (enough : text.length < fuel) :
    (parseParams q fuel text params).isSome = true := by
  induction fuel generalizing text params with
  | zero => omega
  | succ fuel ih =>
    rw [parseParams]
    cases found : parseParam q text with
    | none => rfl
    | some parsed =>
      have shorter := parseParam_shorter found
      have skipped := skipSpace_length parsed.2.2
      simp only
      split
      next rest comma =>
        rw [comma, List.length_cons] at skipped
        exact ih (by omega)
      next => rfl

/-- Nothing is parsed from space, nor from what comes before a comma. -/
theorem parseParam_tail {lead tail : Str} (spaces : Spaces lead) (ends : Tail tail) : parseParam q (lead ++ tail) = none := by
  cases ends with
  | spaces all =>
    refine parseParam_eq_none ?_
    rintro ⟨before, key, after, rest, _, _, _, whole⟩
    have inside : '=' ∈ lead ++ tail := by rw [whole]; simp
    rcases List.mem_append.mp inside with inside | inside
    · rcases spaces _ inside with impossible | impossible <;> cases impossible
    · rcases all _ inside with impossible | impossible <;> cases impossible
  | @comma more text all other =>
    have both : Spaces (lead ++ more) := by
      intro c member
      exact (List.mem_append.mp member).elim (spaces c) (all c)
    have parsed : parseToken ([] ++ ',' :: text) = ([], ',' :: text) := by
      refine parseToken_append (fun c impossible => by cases impossible) ?_
      rintro _ ⟨⟩
      decide
    rw [← List.append_assoc, parseParam, skipSpace_append both (by decide)]
    rw [List.nil_append] at parsed
    rw [parsed, if_pos rfl]

theorem parseParams_none {fuel : Nat} {params result : Params} (none : parseParam q text = none)
    (found : parseParams q fuel text params = some result) : result = params := by
  cases fuel with
  | zero => cases found
  | succ fuel =>
    rw [parseParams, none] at found
    exact (Option.some.inj found).symm

def insertAll (params : Params) (list : List (Str × Str)) : Params :=
  list.foldl (fun params param => params.insert param.1 param.2) params

theorem parseParams_renders {list : List (Str × Str)} {lead tail : Str} (renders : Renders list text) (spaces : Spaces lead)
    (ends : Tail tail) {fuel : Nat} {params result : Params}
    (found : parseParams q fuel (lead ++ text ++ tail) params = some result) : result = insertAll params list := by
  induction renders generalizing lead fuel params with
  | nil =>
    rw [List.append_nil] at found
    exact parseParams_none (parseParam_tail spaces ends) found
  | last renders =>
    cases fuel with
    | zero => cases found
    | succ fuel =>
      rw [parseParams, parseParam_renders spaces renders ends.stops] at found
      simp only at found
      cases ends with
      | spaces all =>
        rw [skipSpace_spaces all] at found
        split at found
        next comma => rcases all ',' List.mem_cons_self with impossible | impossible <;> cases impossible
        next => exact (Option.some.inj found).symm
      | comma all other =>
        rw [skipSpace_append all (by decide)] at found
        exact parseParams_none (parseParam_eq_none other) found
  | @next key value text before after rest list renders allBefore allAfter _ _ ih =>
    cases fuel with
    | zero => cases found
    | succ fuel =>
      have whole : lead ++ (text ++ before ++ ',' :: after ++ rest) ++ tail =
          lead ++ text ++ (before ++ ',' :: (after ++ rest ++ tail)) := by simp
      rw [whole, parseParams, parseParam_renders spaces renders (stops_spaces allBefore (stops_comma _))] at found
      simp only [skipSpace_append allBefore (by decide : ',' ≠ ' ' ∧ ',' ≠ '\t')] at found
      exact ih allAfter found

theorem lookup_insertAll (params : Params) (list : List (Str × Str)) (key : Str) :
    (insertAll params list).lookup key = (lastValue list key).or (params.lookup key) := by
  induction list generalizing params with
  | nil => rfl
  | cons param list ih =>
    rw [insertAll, List.foldl_cons]
    change (insertAll _ list).lookup key = _
    rw [ih, lastValue, lastValue, List.reverse_cons, List.find?_append]
    cases found : list.reverse.find? fun param => param.1 = key with
    | some last => simp
    | none =>
      by_cases same : param.1 = key
      · subst same
        simp [Finmap.lookup_insert]
      · simp [same, Finmap.lookup_insert_of_ne _ (Ne.symm same)]

end Params

section Scheme
variable {scheme : Str}

/-- A letter is a character of a token in either case. -/
theorem tokenChar_of_toLower {c : Char} (token : isNotTokenChar c.toLower = false) : isNotTokenChar c = false := by
  by_cases upper : c.val ≥ 65 ∧ c.val ≤ 90
  · have above : ¬ c < 'A' := fun below => absurd below (not_lt.mpr upper.1)
    have below : ¬ 'Z' < c := fun above => absurd above (not_lt.mpr upper.2)
    simp [isNotTokenChar, above, below]
  · have same : c.toLower = c := dif_neg upper
    rwa [same] at token

theorem tokenChars_scheme (bearer : scheme.map Char.toLower = "bearer".toList) : TokenChars scheme := by
  intro c member
  have lower : c.toLower ∈ "bearer".toList := bearer ▸ List.mem_map_of_mem member
  have letters : ("bearer".toList.all fun c => isNotTokenChar c = false) = true := by decide
  exact tokenChar_of_toLower (of_decide_eq_true (List.all_eq_true.mp letters _ lower))

theorem parseScheme_eq_bearer : parseScheme scheme = .bearer ↔ scheme.map Char.toLower = "bearer".toList := by
  rw [parseScheme]
  constructor
  · intro found
    split at found
    · cases found
    · split at found
      next bearer => exact bearer
      next => cases found
  · intro bearer
    rw [bearer, if_neg (by decide), if_pos rfl]

end Scheme

/-- `parseChallenge` inverts the grammar of Bearer challenges, and it ends on every header. -/
theorem parseChallenge_bearer (q : Quoting) :
    (∀ scheme gap list text tail, scheme.map Char.toLower = "bearer".toList → gap ≠ [] → Spaces gap → Renders list text →
      Tail tail → ∀ fuel, (scheme ++ gap ++ text ++ tail).length ≤ fuel →
      ∃ params, parseChallenge q fuel (scheme ++ gap ++ text ++ tail) = some (.bearer, params) ∧
        ∀ key, params.lookup key = lastValue list key) ∧
    ∀ header fuel, header.length ≤ fuel → (parseChallenge q fuel header).isSome = true := by
  have ends : ∀ header fuel, parseScheme (parseToken header).1 = .bearer → header.length ≤ fuel →
      (parseParams q fuel (parseToken header).2 ∅).isSome = true := by
    intro header fuel bearer enough
    obtain ⟨whole, _⟩ := parseToken_spec header
    have letters := congrArg List.length (parseScheme_eq_bearer.mp bearer)
    have lengths := congrArg List.length whole
    rw [List.length_append] at lengths
    rw [List.length_map] at letters
    exact parseParams_isSome (by simp at letters; omega)
  constructor
  · intro scheme gap list text tail bearer some spaces renders tails fuel enough
    have parsed : parseToken (scheme ++ gap ++ text ++ tail) = (scheme, gap ++ text ++ tail) := by
      rw [List.append_assoc, List.append_assoc, ← List.append_assoc gap]
      refine parseToken_append (tokenChars_scheme bearer) ?_
      cases gap with
      | nil => exact absurd rfl some
      | cons c gap =>
        rintro _ ⟨⟩
        rcases spaces c List.mem_cons_self with rfl | rfl <;> decide
    have isBearer := parseScheme_eq_bearer.mpr bearer
    have returns := ends _ fuel (by rw [parsed]; exact isBearer) enough
    rw [parsed] at returns
    obtain ⟨params, found⟩ := Option.isSome_iff_exists.mp returns
    refine ⟨params, ?_, fun key => ?_⟩
    · simp only [parseChallenge, parsed, isBearer, ne_eq, not_true_eq_false, if_false, found, Option.map_some]
    · rw [parseParams_renders renders spaces tails found, lookup_insertAll]
      simp
  · intro header fuel enough
    rw [parseChallenge]
    split
    · rfl
    next bearer =>
      rw [Option.isSome_map]
      exact ends header fuel (not_not.mp bearer) enough

/-- The text up to the next quote, if all of it is plain. -/
def plainText (s : Str) : Option (Str × Str) :=
  match s with
  | '"' :: rest => (Words.cutFirst '"' rest).filter fun parts => parts.1.all isPlain
  | _ => none

theorem plainText_plain {text rest : Str} (plain : text.all isPlain = true) :
    plainText ('"' :: text ++ '"' :: rest) = some (text, rest) := by
  have outside : '"' ∉ text := fun inside => absurd (List.all_eq_true.mp plain _ inside) (by decide)
  rw [List.cons_append, plainText, Words.cutFirst_eq_some.mpr ⟨rfl, outside⟩, Option.filter_some]
  simp only [plain, if_true]

/-- Quoted strings without escapes. -/
def Quoting.plain : Quoting where
  quotedPrefix s := (plainText s).map fun parts => '"' :: parts.1 ++ ['"']
  unquote s := (plainText s).map Prod.fst
  begins := by
    intro s quoted found
    obtain ⟨⟨text, rest⟩, isPlain, rfl⟩ := Option.map_eq_some_iff.mp found
    refine ⟨Nat.succ_pos _, rest, ?_⟩
    unfold plainText at isPlain
    split at isPlain
    · obtain ⟨cut, _⟩ := Option.filter_eq_some_iff.mp isPlain
      obtain ⟨rfl, _⟩ := Words.cutFirst_eq_some.mp cut
      simp
    · cases isPlain
  quotedPrefix_plain text rest plain := by rw [plainText_plain plain, Option.map_some]
  unquote_plain text plain := by rw [plainText_plain plain, Option.map_some]

/-- A challenge with a token, a quoted string, and a text after the last comma. -/
theorem parseChallenge_bearer_realm : ∃ params,
    parseChallenge .plain 99 ("BeareR".toList ++ " ".toList ++ ("service".toList ++ [] ++ '=' :: [] ++ "a".toList ++
      " ".toList ++ ',' :: "\t".toList ++ ("realm".toList ++ " ".toList ++ '=' :: " ".toList ++ ('"' :: "b c".toList ++ ['"']))) ++
      ([] ++ ',' :: " x".toList)) = some (.bearer, params) ∧
    ∀ key, params.lookup key =
      lastValue [("service".toList, "a".toList), ("realm".toList, "b c".toList)] key := by
  have token : ∀ s : Str, s ≠ [] → (s.all fun c => !isNotTokenChar c) = true → IsToken s := by
    intro s some all
    exact ⟨some, fun c member => by simpa using List.all_eq_true.mp all c member⟩
  have spaces : ∀ s : Str, (s.all fun c => c = ' ' || c = '\t') = true → Spaces s := by
    intro s all c member
    simpa using List.all_eq_true.mp all c member
  have service : RendersParam "service".toList "a".toList ("service".toList ++ [] ++ '=' :: [] ++ "a".toList) :=
    .mk (token _ (by decide) (by decide)) (spaces _ rfl) (spaces _ rfl) (.token (token _ (by decide) (by decide)))
  have realm : RendersParam "realm".toList "b c".toList
      ("realm".toList ++ " ".toList ++ '=' :: " ".toList ++ ('"' :: "b c".toList ++ ['"'])) :=
    .mk (token _ (by decide) (by decide)) (spaces _ rfl) (spaces _ rfl) (.quoted rfl)
  have other : ¬ BeginsParam " x".toList := by
    rintro ⟨before, key, after, rest, _, _, _, whole⟩
    have inside : '=' ∈ " x".toList := by rw [whole]; simp
    revert inside
    decide
  exact (parseChallenge_bearer .plain).1 _ _ _ _ _ (by decide) (by decide) (spaces _ rfl)
    (.next service (spaces _ rfl) (spaces _ rfl) (by simp) (.last realm)) (.comma (spaces _ rfl) other) 99 (by decide)

end OrasGo.Auth
