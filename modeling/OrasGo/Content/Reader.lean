import OrasGo.Base.Program
import OrasGo.Content

/-! `content.ReadAll` read by read, on readers that may end early or late, deliver
their bytes in any pieces, and fail. -/

namespace OrasGo
open Interleaving

/-- Why there is no more to read. -/
inductive End
  | eof
  | failed (err : Error)
  deriving DecidableEq

/-- What one `Read` returns. One that returns neither bytes nor an error is left out:
its caller reads again. -/
abbrev Chunk := Bytes × Option End

/-- A program that reads from an `io.Reader`; each operation is the length of its buffer. -/
abbrev Consumer (α : Type) := Prog Nat (fun _ => Chunk) α

/-- `io.ReadFull` for the `want` bytes that are missing, which takes at most as many reads. -/
def readFull : Nat → Nat → Bytes → Consumer Chunk
  | 0, _, acc => .ret (acc, none)
  | fuel + 1, want, acc =>
    if want = 0 then .ret (acc, none)
    else .call want fun chunk =>
      match chunk.2 with
      | some ending => .ret (acc ++ chunk.1, some ending)
      | none => readFull fuel (want - chunk.1.length) (acc ++ chunk.1)

section
variable (cd : Codec) (desc : Descriptor)

/-- The error of a read that came to an end too early. -/
def readError (got : Nat) (cause : Error) : Error :=
  if Error.is .unexpectedEOF cause then
    .wrap ("read failed: expected content size of " ++ toString desc.size ++ ", got " ++ toString got ++
      ", for digest " ++ desc.digest) cause
  else .wrap "read failed" cause

/-- `ensureEOF` and the rest of `VerifyReader.Verify`. -/
def verify (buf : Bytes) : Consumer (Except Error Bytes) :=
  .call 1 fun peek =>
    if peek = ([], some .eof) then
      if cd.verified desc.digest buf then .ret (.ok buf) else .ret (.error .mismatchedDigest)
    else .ret (.error .trailingData)

/-- What `ReadAll` does with what `io.ReadFull` has read. -/
def checkRead (read : Chunk) : Consumer (Except Error Bytes) :=
  match read.2 with
  | some (.failed err) =>
    if read.1.length < desc.size.toNat then .ret (.error (readError desc read.1.length err)) else .ret (.error err)
  | _ =>
    if read.1.length < desc.size.toNat then .ret (.error (readError desc read.1.length .unexpectedEOF))
    else verify cd desc read.1

/-- `content.ReadAll`. -/
def readAllFrom : Consumer (Except Error Bytes) :=
  if desc.size < 0 then .ret (.error .invalidDescriptorSize)
  else if maxAlloc < desc.size then .ret (.error (.panicked "makeslice: len out of range"))
  else if algorithmSize (Digest.algorithm desc.digest) = none then
    .ret (.error (.panicked "digest algorithm not available"))
  else readFull desc.size.toNat desc.size.toNat [] >>= checkRead cd desc

/-- The bytes are the content that the descriptor describes. -/
structure Matches (content : Bytes) : Prop where
  size : (content.length : Int) = desc.size
  allocated : desc.size ≤ maxAlloc
  algorithm : algorithmSize (Digest.algorithm desc.digest) ≠ none
  verified : cd.verified desc.digest content = true

end

theorem Matches.of_prefix {cd : Codec} {desc : Descriptor} {part content : Bytes} (whole : Matches cd desc content)
    (begins : part <+: content) (matching : Matches cd desc part) : part = content := by
  have size := whole.size
  have size' := matching.size
  exact begins.eq_of_length (by omega)

/-- What a consumer has been given so far. -/
structure Taken where
  bytes : Bytes := []
  ended : Option End := none
  deriving DecidableEq

/-- A read returns some bytes, no more than fit, or says why there are none. -/
def takenGhost : Ghost Nat (fun _ => Chunk) Taken where
  pre k _ := 0 < k
  next k chunk l l' := chunk.1.length ≤ k ∧ (chunk.1 = [] → chunk.2 ≠ none) ∧
    l' = ⟨l.bytes ++ chunk.1, chunk.2.or l.ended⟩

section ReadAll
variable {cd : Codec} {desc : Descriptor}

theorem wp_readFull {fuel want : Nat} (enough : want ≤ fuel) (l : Taken) :
    wp takenGhost (readFull fuel want l.bytes)
      (fun read l' => read.1 = l'.bytes ∧ l'.bytes.length ≤ l.bytes.length + want ∧
        (read.2 = none → l'.bytes.length = l.bytes.length + want ∧ l'.ended = l.ended) ∧
        ∀ ending, read.2 = some ending → l'.ended = some ending) l := by
  induction fuel generalizing want l with
  | zero =>
    obtain rfl : want = 0 := by omega
    exact ⟨rfl, le_rfl, fun _ => ⟨rfl, rfl⟩, nofun⟩
  | succ fuel ih =>
    unfold readFull
    by_cases done : want = 0
    · subst done
      exact ⟨rfl, le_rfl, fun _ => ⟨rfl, rfl⟩, nofun⟩
    · rw [if_neg done]
      refine ⟨Nat.pos_of_ne_zero done, ?_⟩
      rintro ⟨bytes, ending⟩ _ ⟨fits, progress, rfl⟩
      change bytes.length ≤ want at fits
      cases ending with
      | some ending =>
        refine ⟨rfl, ?_, nofun, fun _ same => same⟩
        simp only [List.length_append]
        omega
      | none =>
        have some : 0 < bytes.length := List.length_pos_iff.mpr fun empty => progress empty rfl
        have smaller : want - bytes.length ≤ fuel := by omega
        refine wp_mono _ (fun read l' read' => ?_) (ih smaller ⟨l.bytes ++ bytes, l.ended⟩)
        simp only [List.length_append] at read'
        obtain ⟨same, bound, full, ended⟩ := read'
        exact ⟨same, by omega, fun none => ⟨by have := (full none).1; omega, (full none).2⟩, ended⟩

/-- What `ReadAll` returns: the content if it got all of it and then the end, and an
error if the reader failed, ended without having delivered the content, or delivered
something that does not begin it. -/
def ReadOutcome (cd : Codec) (desc : Descriptor) (result : Except Error Bytes) (l : Taken) : Prop :=
  match result with
  | .ok content => content = l.bytes ∧ Matches cd desc content ∧ l.ended = some .eof
  | .error _ => (∃ err, l.ended = some (.failed err)) ∨ (l.ended = some .eof ∧ ¬ Matches cd desc l.bytes) ∨
      ∀ rest, ¬ Matches cd desc (l.bytes ++ rest)

theorem wp_verify {l : Taken} (full : (l.bytes.length : Int) = desc.size) (allocated : desc.size ≤ maxAlloc)
    (algorithm : algorithmSize (Digest.algorithm desc.digest) ≠ none) :
    wp takenGhost (verify cd desc l.bytes) (ReadOutcome cd desc) l := by
  refine ⟨Nat.one_pos, ?_⟩
  rintro ⟨bytes, ending⟩ _ ⟨fits, progress, rfl⟩
  change wp _ (if (bytes, ending) = ([], some End.eof) then _ else _) _ _
  by_cases ended : (bytes, ending) = ([], some .eof)
  · cases ended
    rw [if_pos rfl]
    by_cases verified : cd.verified desc.digest l.bytes = true
    · rw [if_pos verified]
      exact ⟨(List.append_nil _).symm, ⟨full, allocated, algorithm, verified⟩, rfl⟩
    · rw [if_neg verified]
      refine .inr (.inl ⟨rfl, fun matching => verified ?_⟩)
      have same := matching.verified
      rwa [List.append_nil] at same
  · rw [if_neg ended]
    cases bytes with
    | cons byte rest =>
      refine .inr (.inr fun more matching => ?_)
      have size := matching.size
      simp only [List.length_append, List.length_cons] at size
      omega
    | nil =>
      cases ending with
      | none => exact absurd rfl (progress rfl)
      | some ending =>
        cases ending with
        | eof => exact absurd rfl ended
        | failed err => exact .inl ⟨err, rfl⟩

theorem wp_readAllFrom : wp takenGhost (readAllFrom cd desc) (ReadOutcome cd desc) {} := by
  unfold readAllFrom
  by_cases negative : desc.size < 0
  · rw [if_pos negative]
    refine .inr (.inr fun rest matching => ?_)
    have size := matching.size
    omega
  rw [if_neg negative]
  by_cases large : maxAlloc < desc.size
  · rw [if_pos large]
    exact .inr (.inr fun rest matching => absurd matching.allocated (by omega))
  rw [if_neg large]
  by_cases unknown : algorithmSize (Digest.algorithm desc.digest) = none
  · rw [if_pos unknown]
    exact .inr (.inr fun rest matching => matching.algorithm unknown)
  rw [if_neg unknown]
  refine wp_seq _ (wp_readFull le_rfl {}) fun read l ⟨same, bound, full, ended⟩ => ?_
  obtain ⟨bytes, ending⟩ := read
  obtain rfl : bytes = l.bytes := same
  have short (less : l.bytes.length < desc.size.toNat) : ¬ Matches cd desc l.bytes := by
    intro matching
    have size := matching.size
    omega
  simp only [List.length_nil, Nat.zero_add] at bound full
  unfold checkRead
  split
  · rename_i err failed
    have failure : ∃ err, l.ended = some (.failed err) := ⟨err, ended _ failed⟩
    split <;> exact .inl failure
  · rename_i unbroken
    split
    · rename_i less
      change l.bytes.length < _ at less
      cases ending with
      | none =>
        have := (full rfl).1
        omega
      | some ending =>
        cases ending with
        | eof => exact .inr (.inl ⟨ended _ rfl, short less⟩)
        | failed err => exact absurd rfl (unbroken err)
    · rename_i enough
      exact wp_verify (by change ¬ l.bytes.length < _ at enough; omega) (by omega) unknown

end ReadAll

/-- The program with `io.LimitReader` for `n` bytes in front of its reader. -/
def limitReader {α : Type} : Nat → Consumer α → Consumer α
  | _, .ret value => .ret value
  | n, .call k next =>
    if n = 0 then limitReader 0 (next ([], some .eof))
    else .call (min k n) fun chunk => limitReader (n - chunk.1.length) (next chunk)

/-- The program sees what is read, and an end once the limit is reached. -/
theorem wp_limitReader {α : Type} {program : Consumer α} {post : α → Taken → Prop} {n limit : Nat} {l inner : Taken}
    (outline : wp takenGhost program post l) (same : l.bytes = inner.bytes) (left : inner.bytes.length + n = limit)
    (ended : l.ended = inner.ended ∨ inner.bytes.length = limit ∧ l.ended = some .eof) :
    wp takenGhost (limitReader n program) (fun value inner' => ∃ l', post value l' ∧ l'.bytes = inner'.bytes ∧
      (l'.ended = inner'.ended ∨ inner'.bytes.length = limit ∧ l'.ended = some .eof)) inner := by
  induction program generalizing n l inner with
  | ret value => exact ⟨l, outline, same, ended⟩
  | call k next ih =>
    obtain ⟨positive, follows⟩ := outline
    unfold limitReader
    by_cases reached : n = 0
    · subst reached
      rw [if_pos rfl]
      have moved : takenGhost.next k ([], some .eof) l ⟨l.bytes ++ [], some .eof⟩ :=
        ⟨Nat.zero_le k, fun _ => Option.some_ne_none _, rfl⟩
      exact ih _ (follows _ _ moved) (by rw [List.append_nil, same]) left (.inr ⟨left, rfl⟩)
    · rw [if_neg reached]
      change 0 < k at positive
      refine ⟨by change 0 < min k n; omega, ?_⟩
      rintro ⟨bytes, ending⟩ _ ⟨fits, progress, rfl⟩
      change bytes.length ≤ min k n at fits
      have moved : takenGhost.next k (bytes, ending) l ⟨l.bytes ++ bytes, ending.or l.ended⟩ :=
        ⟨by change bytes.length ≤ k; omega, progress, rfl⟩
      have short : inner.bytes.length < limit := by omega
      have before : l.ended = inner.ended := ended.resolve_right fun full => by omega
      refine ih _ (follows _ _ moved) (by rw [same]) ?_ (.inl (by rw [before]))
      change (inner.bytes ++ bytes).length + (n - bytes.length) = limit
      rw [List.length_append]
      omega

/-- The program, which also returns what it has been given. -/
def observe {α : Type} : Consumer α → Taken → Consumer (α × Taken)
  | .ret value, l => .ret (value, l)
  | .call k next, l => .call k fun chunk => observe (next chunk) ⟨l.bytes ++ chunk.1, chunk.2.or l.ended⟩

/-- A reader that delivers its bytes in the given pieces. `together` says whether it
returns the last bytes and its end at once. Every read before the end returns a byte at
least: a reader that returns none and no error, as `io.Reader` allows, is not among these. -/
structure Stream where
  chunks : List Bytes
  ending : End := .eof
  together : Bool := false

namespace Stream
variable {α : Type}

def bytes (s : Stream) : Bytes := s.chunks.flatten

/-- `Read` with a buffer of length `k`. -/
def read (k : Nat) (s : Stream) : Chunk × Stream :=
  match s.chunks.dropWhile List.isEmpty with
  | [] => (([], some s.ending), { s with chunks := [] })
  | chunk :: rest =>
    if k < chunk.length then ((chunk.take k, none), { s with chunks := chunk.drop k :: rest })
    else if s.together && rest.flatten.isEmpty then ((chunk, some s.ending), { s with chunks := [] })
    else ((chunk, none), { s with chunks := rest })

/-- What the program makes of the stream. -/
def run : Consumer α → Stream → α
  | .ret value, _ => value
  | .call k next, s => run (next (s.read k).1) (s.read k).2

theorem flatten_dropWhile_isEmpty (chunks : List Bytes) : (chunks.dropWhile List.isEmpty).flatten = chunks.flatten := by
  induction chunks with
  | nil => rfl
  | cons chunk rest ih =>
    cases chunk with
    | nil => simpa using ih
    | cons byte more => rfl

theorem dropWhile_isEmpty_head {chunks : List Bytes} {chunk : Bytes} {rest : List Bytes}
    (found : chunks.dropWhile List.isEmpty = chunk :: rest) : chunk ≠ [] := by
  rintro rfl
  have head := List.head?_dropWhile_not List.isEmpty chunks
  rw [found] at head
  simp at head

theorem read_spec (k : Nat) (s : Stream) :
    (s.read k).1.1 ++ (s.read k).2.bytes = s.bytes ∧ (s.read k).1.1.length ≤ k ∧
      (0 < k → (s.read k).1.1 = [] → s.bytes = [] ∧ (s.read k).1.2 = some s.ending) ∧
      (∀ ending, (s.read k).1.2 = some ending → ending = s.ending ∧ (s.read k).2.bytes = []) ∧
      (s.read k).2.ending = s.ending := by
  have flat := flatten_dropWhile_isEmpty s.chunks
  unfold read
  split
  · rename_i nothing
    rw [nothing] at flat
    exact ⟨flat, Nat.zero_le k, fun _ _ => ⟨flat.symm, rfl⟩, fun ending same => ⟨(Option.some.inj same).symm, rfl⟩, rfl⟩
  · rename_i chunk rest found
    have nonempty := dropWhile_isEmpty_head found
    rw [found, List.flatten_cons] at flat
    by_cases partly : k < chunk.length
    · rw [if_pos partly]
      refine ⟨?_, ?_, fun positive empty => ?_, nofun, rfl⟩
      · change chunk.take k ++ (chunk.drop k ++ rest.flatten) = s.bytes
        rw [← List.append_assoc, List.take_append_drop, flat]
        rfl
      · exact (List.length_take_le k chunk)
      · rcases List.take_eq_nil_iff.mp empty with zero | empty
        · omega
        · exact absurd empty nonempty
    · rw [if_neg partly]
      by_cases last : (s.together && rest.flatten.isEmpty) = true
      · rw [if_pos last]
        have nothing : rest.flatten = [] := by
          simp only [Bool.and_eq_true, List.isEmpty_iff] at last
          exact last.2
        rw [nothing] at flat
        exact ⟨flat, Nat.le_of_not_lt partly, fun _ empty => absurd empty nonempty,
          fun ending same => ⟨(Option.some.inj same).symm, rfl⟩, rfl⟩
      · rw [if_neg last]
        exact ⟨flat, Nat.le_of_not_lt partly, fun _ empty => absurd empty nonempty,
          nofun, rfl⟩

/-- The stream is what is left of `whole` for a consumer that has taken `l`. -/
structure Follows (whole : Bytes) (final : End) (l : Taken) (s : Stream) : Prop where
  bytes : l.bytes ++ s.bytes = whole
  ending : s.ending = final
  ended : ∀ reason, l.ended = some reason → reason = final ∧ s.bytes = []

theorem follows (s : Stream) : s.Follows s.bytes s.ending {} := ⟨rfl, rfl, nofun⟩

variable {whole : Bytes} {final : End} {l : Taken} {s : Stream}

theorem Follows.read (follows : s.Follows whole final l) (k : Nat) :
    (s.read k).2.Follows whole final ⟨l.bytes ++ (s.read k).1.1, (s.read k).1.2.or l.ended⟩ := by
  obtain ⟨whole', _, _, last, same⟩ := s.read_spec k
  refine ⟨?_, same.trans follows.ending, fun reason ended => ?_⟩
  · rw [List.append_assoc, whole', follows.bytes]
  · rcases Option.or_eq_some_iff.mp ended with now | ⟨_, before⟩
    · rw [(last reason now).1]
      exact ⟨follows.ending, (last reason now).2⟩
    · have nothing := (follows.ended reason before).2
      rw [nothing] at whole'
      exact ⟨(follows.ended reason before).1, (List.append_eq_nil_iff.mp whole').2⟩

theorem Follows.complete {taken : Taken} (follows : s.Follows whole .eof taken) (ended : taken.ended ≠ none) :
    taken = ⟨whole, some .eof⟩ := by
  obtain ⟨bytes, reason⟩ := taken
  cases reason with
  | none => exact absurd rfl ended
  | some reason =>
    obtain ⟨rfl, nothing⟩ := follows.ended reason rfl
    have all : bytes ++ s.bytes = whole := follows.bytes
    rw [nothing, List.append_nil] at all
    rw [all]

theorem read_next {k : Nat} (positive : 0 < k) (s : Stream) (l : Taken) :
    takenGhost.next k (s.read k).1 l ⟨l.bytes ++ (s.read k).1.1, (s.read k).1.2.or l.ended⟩ := by
  obtain ⟨_, fits, progress, _⟩ := s.read_spec k
  refine ⟨fits, fun empty => ?_, rfl⟩
  rw [(progress positive empty).2]
  exact Option.some_ne_none _

theorem run_post {program : Consumer α} {post : α → Taken → Prop} (outline : wp takenGhost program post l)
    (follows : s.Follows whole final l) :
    ∃ (l' : Taken) (s' : Stream), post (s.run program) l' ∧ s'.Follows whole final l' := by
  induction program generalizing l s with
  | ret value => exact ⟨l, s, outline, follows⟩
  | call k next ih =>
    obtain ⟨positive, rest⟩ := outline
    exact ih _ (rest _ _ (s.read_next positive l)) (follows.read k)

theorem run_observe (program : Consumer α) (follows : s.Follows whole final l) :
    (s.run (observe program l)).1 = s.run program ∧ ∃ s' : Stream, s'.Follows whole final (s.run (observe program l)).2 := by
  induction program generalizing l s with
  | ret value => exact ⟨rfl, s, follows⟩
  | call k next ih => exact ih _ (follows.read k)

/-- The reader delivers the content that the descriptor describes, and ends. -/
structure Delivers (cd : Codec) (desc : Descriptor) (s : Stream) : Prop where
  content : Matches cd desc s.bytes
  ending : s.ending = .eof

/-- `ReadAll` succeeds on exactly the readers that deliver the content. -/
theorem run_readAllFrom (cd : Codec) (desc : Descriptor) (s : Stream) :
    (s.Delivers cd desc → s.run (readAllFrom cd desc) = .ok s.bytes) ∧
      ∀ content, s.run (readAllFrom cd desc) = .ok content → s.Delivers cd desc ∧ content = s.bytes := by
  obtain ⟨l, s', outcome, follows⟩ := run_post wp_readAllFrom s.follows
  cases result : s.run (readAllFrom cd desc) with
  | ok content =>
    rw [result] at outcome
    obtain ⟨rfl, matching, ended⟩ := outcome
    obtain ⟨ending, nothing⟩ := follows.ended _ ended
    have all : l.bytes = s.bytes := by rw [← follows.bytes, nothing, List.append_nil]
    refine ⟨fun _ => by rw [all], ?_⟩
    rintro _ ⟨⟩
    exact ⟨⟨all ▸ matching, ending.symm⟩, all⟩
  | error err =>
    rw [result] at outcome
    refine ⟨fun delivers => ?_, nofun⟩
    exfalso
    rcases outcome with ⟨err, failed⟩ | ⟨ended, other⟩ | other
    · have same := (follows.ended _ failed).1
      rw [delivers.ending] at same
      cases same
    · have all : l.bytes = s.bytes := by rw [← follows.bytes, (follows.ended _ ended).2, List.append_nil]
      exact other (all ▸ delivers.content)
    · exact other s'.bytes (follows.bytes ▸ delivers.content)

end Stream

end OrasGo
