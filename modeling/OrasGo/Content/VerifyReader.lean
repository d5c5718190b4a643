import OrasGo.Content.Reader

/-! `content.VerifyReader` and `content.ReadAll` on every reader over a finite stream. -/

namespace OrasGo

/-- An `io.Reader`, with the state that its reads change. -/
structure Reader where
  State : Type
  read : State → Nat → Chunk × State

/-- An `io.Reader` over a finite stream. It delivers the bytes in pieces of any length, with
some reads that return nothing in between, and then the end, on its own or together with the
last bytes. After `io.EOF` it returns `io.EOF` again. -/
structure FiniteReader extends Reader where
  /-- The bytes that are still to come, and how the stream ends. -/
  bytes : State → Bytes
  ending : State → End
  /-- How many reads may still return nothing. -/
  idle : State → Nat
  fits : ∀ s k, 0 < k → (read s k).1.1.length ≤ k
  delivers : ∀ s k, 0 < k → (read s k).1.2 = none →
    bytes s = (read s k).1.1 ++ bytes (read s k).2 ∧ ending (read s k).2 = ending s
  idles : ∀ s k, 0 < k → (read s k).1.2 = none →
    idle (read s k).2 ≤ idle s ∧ ((read s k).1.1 = [] → idle (read s k).2 < idle s)
  ends : ∀ s k e, 0 < k → (read s k).1.2 = some e → bytes s = (read s k).1.1 ∧ ending s = e
  repeats : ∀ s k, 0 < k → (read s k).1.2 = some .eof →
    bytes (read s k).2 = [] ∧ ending (read s k).2 = .eof ∧ idle (read s k).2 ≤ idle s

instance : Coe FiniteReader Reader := ⟨FiniteReader.toReader⟩

/-- `io.ReadFull` for `want` more bytes; `none` when the fuel is used up. -/
def ioReadFull {σ : Type} (read : σ → Nat → Chunk × σ) : Nat → σ → Nat → Bytes → Option (Chunk × σ)
  | _, s, 0, acc => some ((acc, none), s)
  | 0, _, _ + 1, _ => none
  | fuel + 1, s, want + 1, acc =>
    let r := read s (want + 1)
    match r.1.2 with
    | none => ioReadFull read fuel r.2 (want + 1 - r.1.1.length) (acc ++ r.1.1)
    | some e =>
      if want + 1 ≤ r.1.1.length then some ((acc ++ r.1.1, none), r.2)
      else if !(acc ++ r.1.1).isEmpty && e == .eof then some ((acc ++ r.1.1, some (.failed .unexpectedEOF)), r.2)
      else some ((acc ++ r.1.1, some e), r.2)

/-- Whatever a read keeps, `io.ReadFull` keeps. -/
theorem ioReadFull_keeps {σ : Type} {read : σ → Nat → Chunk × σ} {P : σ → Prop} (step : ∀ s k, P s → P (read s k).2)
    {fuel want : Nat} {s : σ} {acc : Bytes} {r : Chunk × σ} (found : ioReadFull read fuel s want acc = some r)
    (start : P s) : P r.2 := by
  fun_induction ioReadFull read fuel s want acc with
  | case1 => cases found; exact start
  | case2 => cases found
  | case3 fuel s want acc out more ih => exact ih found (step s (want + 1) start)
  | case4 fuel s want | case5 fuel s want | case6 fuel s want => cases found; exact step s (want + 1) start

/-- `VerifyReader`: the state of the reader below, the `N` of the limited reader, and what has
been written to the verifier. -/
structure VerifyReader (R : Reader) where
  source : R.State
  limit : Int
  hashed : Bytes := []
  verified : Bool := false
  err : Option End := none

namespace VerifyReader
variable {R : Reader}

/-- `Read` of the tee reader. -/
def teeRead (vr : VerifyReader R) (k : Nat) : Chunk × VerifyReader R :=
  let r := R.read vr.source k
  (r.1, { vr with source := r.2, hashed := vr.hashed ++ r.1.1 })

/-- `Read` of the limited reader. -/
def limitedRead (vr : VerifyReader R) (k : Nat) : Chunk × VerifyReader R :=
  if vr.limit ≤ 0 then (([], some .eof), vr)
  else
    let r := vr.teeRead (min k vr.limit.toNat)
    (r.1, { r.2 with limit := vr.limit - r.1.1.length })

/-- `VerifyReader.Read`. -/
def read (vr : VerifyReader R) (k : Nat) : Chunk × VerifyReader R :=
  match vr.err with
  | some e => (([], some e), vr)
  | none =>
    let r := vr.limitedRead k
    match r.1.2 with
    | none => r
    | some e =>
      let err := if e == .eof && decide (0 < r.2.limit) then .failed .unexpectedEOF else e
      ((r.1.1, some err), { r.2 with err := some err })

/-- What a read makes of the end of the source when `left` bytes are still missing. -/
def lastSeen (left : Int) (e : End) : End := if e == .eof && decide (0 < left) then .failed .unexpectedEOF else e

theorem read_eq (vr : VerifyReader R) {k : Nat} {bytes : Bytes} {ending : Option End} {source : R.State}
    (fine : vr.err = none) (more : 0 < vr.limit)
    (below : R.read vr.source (min k vr.limit.toNat) = ((bytes, ending), source)) :
    vr.read k = ((bytes, ending.map (lastSeen (vr.limit - bytes.length))), { vr with
      source := source
      hashed := vr.hashed ++ bytes
      limit := vr.limit - bytes.length
      err := ending.map (lastSeen (vr.limit - bytes.length)) }) := by
  have left : ¬ vr.limit ≤ 0 := by omega
  cases ending with
  | none => simp only [read, fine, limitedRead, if_neg left, teeRead, below, Option.map_none]
  | some e => simp only [read, fine, limitedRead, if_neg left, teeRead, below, Option.map_some, lastSeen]

/-- `ensureEOF` on the tee reader. -/
def ensureEOF (fuel : Nat) (vr : VerifyReader R) : Option (Except Error Unit × VerifyReader R) :=
  (ioReadFull teeRead fuel vr 1 []).map fun r => (if r.1.2 = some .eof then .ok () else .error .trailingData, r.2)

theorem ensureEOF_succ (fuel : Nat) (vr : VerifyReader R) :
    vr.ensureEOF (fuel + 1) = match (R.read vr.source 1).1 with
      | ([], none) => (vr.teeRead 1).2.ensureEOF fuel
      | ([], some .eof) => some (.ok (), (vr.teeRead 1).2)
      | _ => some (.error .trailingData, (vr.teeRead 1).2) := by
  obtain ⟨⟨⟨bytes, ending⟩, source⟩, read⟩ : ∃ out, R.read vr.source 1 = out := ⟨_, rfl⟩
  cases bytes with
  | nil =>
    cases ending with
    | none => simp [ensureEOF, ioReadFull, teeRead, read]
    | some e => cases e <;> simp [ensureEOF, ioReadFull, teeRead, read]
  | cons byte more => cases ending <;> simp [ensureEOF, ioReadFull, teeRead, read]

/-- The part of `VerifyReader.Verify` after the look for trailing data. -/
def checkDigest (cd : Codec) (desc : Descriptor) : Except Error Unit × VerifyReader R → Except Error Unit × VerifyReader R
  | (.error err, vr) => (.error err, { vr with err := some (.failed err) })
  | (.ok (), vr) =>
    if cd.verified desc.digest vr.hashed then (.ok (), { vr with verified := true, err := some .eof })
    else (.error .mismatchedDigest, { vr with err := some (.failed .mismatchedDigest) })

/-- `VerifyReader.Verify`. -/
def verify (cd : Codec) (desc : Descriptor) (fuel : Nat) (vr : VerifyReader R) :
    Option (Except Error Unit × VerifyReader R) :=
  if vr.verified then some (.ok (), vr)
  else if vr.err = none ∧ 0 < vr.limit then some (.error (.text "early verify"), vr)
  else match vr.err with
    | some (.failed err) => some (.error err, vr)
    | _ => (vr.ensureEOF fuel).map (checkDigest cd desc)

end VerifyReader

/-- `NewVerifyReader`: the verifier of an algorithm that is not available panics. -/
def newVerifyReader {R : Reader} (s : R.State) (desc : Descriptor) : Except Error (VerifyReader R) :=
  if algorithmSize (Digest.algorithm desc.digest) = none then .error (.panicked "digest algorithm not available")
  else .ok { source := s, limit := desc.size }

/-- `ReadAll` after the allocation of the buffer. -/
def readInto (cd : Codec) {R : Reader} (fuel : Nat) (desc : Descriptor) (vr : VerifyReader R) :
    Option (Except Error Bytes) :=
  (ioReadFull VerifyReader.read fuel vr desc.size.toNat []).bind fun r =>
    match r.1.2 with
    | some .eof => some (.error (.wrap "read failed" (.text "EOF")))
    | some (.failed err) => some (.error (readError desc r.1.1.length err))
    | none => (r.2.verify cd desc fuel).map fun v => v.1.map fun _ => r.1.1

/-- `content.ReadAll`; `none` when the fuel is used up. -/
def readAllOn (cd : Codec) {R : Reader} (fuel : Nat) (s : R.State) (desc : Descriptor) :
    Option (Except Error Bytes) :=
  if desc.size < 0 then some (.error .invalidDescriptorSize)
  else if maxAlloc < desc.size then some (.error (.panicked "makeslice: len out of range"))
  else match newVerifyReader s desc with
    | .error err => some (.error err)
    | .ok vr => readInto cd fuel desc vr

/-- A descriptor for which `ReadAll` reads at all. -/
structure Admissible (desc : Descriptor) : Prop where
  natural : 0 ≤ desc.size
  allocated : desc.size ≤ maxAlloc
  available : algorithmSize (Digest.algorithm desc.digest) ≠ none

theorem readAllOn_cases (cd : Codec) (desc : Descriptor) :
    (Admissible desc ∧ ∀ {R : Reader} (fuel : Nat) (s : R.State),
      readAllOn cd fuel s desc = readInto cd fuel desc { source := s, limit := desc.size : VerifyReader R }) ∨
    ¬ Admissible desc ∧ ∃ err, (∀ {R : Reader} (fuel : Nat) (s : R.State), readAllOn cd fuel s desc = some (.error err)) ∧
      (∀ bytes, readAll cd bytes desc = .error err) ∧ readAllFrom cd desc = .ret (.error err) := by
  by_cases negative : desc.size < 0
  · refine .inr ⟨fun readable => absurd readable.natural (by omega), _, fun _ _ => if_pos negative, ?_, if_pos negative⟩
    exact fun _ => if_pos negative
  by_cases large : maxAlloc < desc.size
  · refine .inr ⟨fun readable => absurd readable.allocated (by omega), .panicked "makeslice: len out of range", ?_⟩
    simp only [readAllOn, readAll, readAllFrom, if_neg negative, if_pos large, implies_true, and_self]
  by_cases unknown : algorithmSize (Digest.algorithm desc.digest) = none
  · refine .inr ⟨fun readable => readable.available unknown, .panicked "digest algorithm not available", ?_⟩
    simp only [readAllOn, readAll, readAllFrom, newVerifyReader, if_neg negative, if_neg large, if_pos unknown, implies_true,
      and_self]
  · refine .inl ⟨⟨by omega, by omega, unknown⟩, ?_⟩
    simp only [readAllOn, newVerifyReader, if_neg negative, if_neg large, if_neg unknown, implies_true]

namespace VerifyReader
variable {R : FiniteReader} {s : R.State} {size : Nat} {vr : VerifyReader R}

/-- The reader is somewhere in the stream that began at `s`. -/
structure Live (s : R.State) (size : Nat) (vr : VerifyReader R) : Prop where
  err : vr.err = none
  verified : vr.verified = false
  bytes : vr.hashed ++ R.bytes vr.source = R.bytes s
  ending : R.ending vr.source = R.ending s
  limit : vr.limit = size - vr.hashed.length
  idle : R.idle vr.source ≤ R.idle s

/-- How a reader for `size` bytes sees the end of the stream. -/
def lastErr (s : R.State) (size : Nat) : End :=
  if R.ending s = .eof ∧ (R.bytes s).length < size then .failed .unexpectedEOF else R.ending s

theorem lastErr_of_short (short : (R.bytes s).length < size) : ∃ err, lastErr s size = .failed err := by
  cases final : R.ending s with
  | eof => exact ⟨.unexpectedEOF, by rw [lastErr, final, if_pos ⟨rfl, short⟩]⟩
  | failed err => exact ⟨err, by rw [lastErr, final, if_neg (by simp)]⟩

/-- The reader has seen the end of the stream that began at `s`. -/
structure Ended (s : R.State) (size : Nat) (vr : VerifyReader R) : Prop where
  err : vr.err = some (lastErr s size)
  verified : vr.verified = false
  hashed : vr.hashed = R.bytes s
  silent : R.ending s = .eof → R.bytes vr.source = [] ∧ R.ending vr.source = .eof ∧ R.idle vr.source ≤ R.idle s

theorem live_new (s : R.State) (size : Nat) : Live s size { source := s, limit := size } where
  err := rfl
  verified := rfl
  bytes := rfl
  ending := rfl
  limit := by simp
  idle := le_rfl

theorem Live.read (live : Live s size vr) {k : Nat} (positive : 0 < k) (more : 0 < vr.limit) {r : Chunk × VerifyReader R}
    (read : vr.read k = r) :
    r.2.hashed = vr.hashed ++ r.1.1 ∧ r.1.1.length ≤ min k vr.limit.toNat ∧
    (r.1.2 = none ∧ Live s size r.2 ∧ R.idle r.2.source ≤ R.idle vr.source ∧
        (r.1.1 = [] → R.idle r.2.source < R.idle vr.source) ∨
      r.1.2 = some (lastErr s size) ∧ Ended s size r.2) := by
  have asked : 0 < min k vr.limit.toNat := by omega
  have fits := R.fits vr.source _ asked
  have delivers := R.delivers vr.source _ asked
  have idles := R.idles vr.source _ asked
  have ends := fun e => R.ends vr.source _ e asked
  have repeats := R.repeats vr.source _ asked
  obtain ⟨⟨⟨bytes, ending⟩, source⟩, below⟩ : ∃ out, R.read vr.source (min k vr.limit.toNat) = out := ⟨_, rfl⟩
  simp only [below] at fits delivers idles ends repeats
  have limit := live.limit
  rw [read_eq _ live.err more below] at read
  subst read
  cases ending with
  | none =>
    obtain ⟨taken, sameEnding⟩ := delivers rfl
    obtain ⟨noMore, fewer⟩ := idles rfl
    refine ⟨rfl, fits, .inl ⟨rfl, ⟨rfl, live.verified, ?_, sameEnding.trans live.ending, ?_, noMore.trans live.idle⟩,
      noMore, fewer⟩⟩
    · rw [List.append_assoc, ← taken, live.bytes]
    · simp only [List.length_append, limit]
      omega
  | some e =>
    obtain ⟨taken, same⟩ := ends e rfl
    have whole : vr.hashed ++ bytes = R.bytes s := by rw [← taken, live.bytes]
    have last : lastSeen (vr.limit - bytes.length) e = lastErr s size := by
      rw [lastSeen, lastErr, ← live.ending, same, ← whole, List.length_append]
      have missing : 0 < vr.limit - bytes.length ↔ vr.hashed.length + bytes.length < size := by omega
      simp only [Bool.and_eq_true, beq_iff_eq, decide_eq_true_eq, missing]
    rw [Option.map_some, last]
    refine ⟨rfl, fits, .inr ⟨rfl, rfl, live.verified, whole, fun eof => ?_⟩⟩
    rw [← live.ending, same] at eof
    subst eof
    obtain ⟨empty, again, noMore⟩ := repeats rfl
    exact ⟨empty, again, noMore.trans live.idle⟩

variable {fuel : Nat} {cd : Codec} {desc : Descriptor}

/-- What `io.ReadFull` gets out of a reader for `size` bytes: all of them, or an error. -/
def FullRead (s : R.State) (size : Nat) (r : Chunk × VerifyReader R) : Prop :=
  r.1 = (r.2.hashed, none) ∧ r.2.hashed.length = size ∧ (Live s size r.2 ∨ Ended s size r.2) ∨
    ∃ err, r.1 = (R.bytes s, some (.failed err)) ∧ (R.bytes s).length < size ∧ lastErr s size = .failed err

theorem Live.readFull (live : Live s size vr) {want : Nat} (missing : vr.limit = want)
    (enough : want + R.idle vr.source ≤ fuel) :
    ∃ r, ioReadFull VerifyReader.read fuel vr want vr.hashed = some r ∧ FullRead s size r := by
  have done {fuel : Nat} {vr : VerifyReader R} (live : Live s size vr) (spent : vr.limit = 0) :
      ∃ r, ioReadFull VerifyReader.read fuel vr 0 vr.hashed = some r ∧ FullRead s size r := by
    have limit := live.limit
    exact ⟨_, by rw [ioReadFull], .inl ⟨rfl, (by omega : vr.hashed.length = size), .inl live⟩⟩
  induction fuel generalizing vr want with
  | zero =>
    obtain rfl : want = 0 := by omega
    exact done live missing
  | succ fuel ih =>
    cases want with
    | zero => exact done live missing
    | succ want =>
      have limit := live.limit
      obtain ⟨out, read⟩ : ∃ out, vr.read (want + 1) = out := ⟨_, rfl⟩
      obtain ⟨hashed, fits, next⟩ := live.read (Nat.succ_pos want) (by omega) read
      have length := congrArg List.length hashed
      rw [List.length_append] at length
      simp only [ioReadFull, read]
      rcases next with ⟨none, live', noMore, fewer⟩ | ⟨some, ended⟩
      · have limit' := live'.limit
        have progress : out.1.1.length = 0 → R.idle out.2.source < R.idle vr.source :=
          fun empty => fewer (List.length_eq_zero_iff.mp empty)
        have left : out.2.limit = ((want + 1 - out.1.1.length : Nat) : Int) := by omega
        have rest := ih live' left (by omega)
        simp only [none]
        rwa [hashed] at rest
      · have whole := hashed.symm.trans ended.hashed
        simp only [some]
        by_cases full : want + 1 ≤ out.1.1.length
        · rw [if_pos full]
          exact ⟨_, rfl, .inl ⟨by rw [hashed], (by omega : out.2.hashed.length = size), .inr ended⟩⟩
        · rw [if_neg full]
          have short : (R.bytes s).length < size := by
            rw [← whole, List.length_append]
            omega
          obtain ⟨err, failed⟩ := lastErr_of_short short
          rw [if_neg (by simp [failed])]
          exact ⟨_, rfl, .inr ⟨err, by rw [failed, whole], short, failed⟩⟩

/-- A new reader for the content of the descriptor. -/
theorem readFull_new (natural : 0 ≤ desc.size) (enough : desc.size.toNat + R.idle s ≤ fuel) :
    ∃ r, ioReadFull VerifyReader.read fuel { source := s, limit := desc.size : VerifyReader R } desc.size.toNat [] = some r ∧
      FullRead s desc.size.toNat r := by
  have live := live_new s desc.size.toNat
  rw [Int.toNat_of_nonneg natural] at live
  exact live.readFull (Int.toNat_of_nonneg natural).symm enough

theorem ensureEOF_spec (enough : 1 + R.idle vr.source ≤ fuel) :
    ∃ r, vr.ensureEOF fuel = some r ∧
      (R.bytes vr.source = [] ∧ R.ending vr.source = .eof ∧ r.1 = .ok () ∧ r.2.hashed = vr.hashed ∨
        ¬ (R.bytes vr.source = [] ∧ R.ending vr.source = .eof) ∧ r.1 = .error .trailingData) := by
  induction fuel generalizing vr with
  | zero => omega
  | succ fuel ih =>
    have delivers := R.delivers vr.source 1 Nat.one_pos
    have idles := R.idles vr.source 1 Nat.one_pos
    have ends := fun e => R.ends vr.source 1 e Nat.one_pos
    rw [ensureEOF_succ, teeRead]
    obtain ⟨⟨⟨bytes, ending⟩, source⟩, read⟩ : ∃ out, R.read vr.source 1 = out := ⟨_, rfl⟩
    simp only [read] at delivers idles ends ⊢
    cases bytes with
    | cons byte more =>
      have some : R.bytes vr.source ≠ [] := by
        cases ending with
        | none => rw [(delivers rfl).1]; exact List.cons_ne_nil _ _
        | some e => rw [(ends e rfl).1]; exact List.cons_ne_nil _ _
      exact ⟨_, rfl, .inr ⟨fun impossible => some impossible.1, rfl⟩⟩
    | nil =>
      rw [List.append_nil]
      cases ending with
      | none =>
        obtain ⟨taken, same⟩ := delivers rfl
        have fewer := (idles rfl).2 rfl
        rw [taken, ← same]
        exact @ih { vr with source := source } (by change 1 + R.idle source ≤ fuel; omega)
      | some e =>
        obtain ⟨taken, same⟩ := ends e rfl
        cases e with
        | eof => exact ⟨_, rfl, .inl ⟨taken, same, rfl, rfl⟩⟩
        | failed err => exact ⟨_, rfl, .inr ⟨(fun impossible => by cases same.symm.trans impossible.2), rfl⟩⟩

/-- The outcome of `Verify` once all the content has been read. -/
inductive Verdict (cd : Codec) (desc : Descriptor) (s : R.State) (read : Bytes) : Except Error Unit → Prop
  | accepted : R.bytes s = read → R.ending s = .eof → cd.verified desc.digest read = true → Verdict cd desc s read (.ok ())
  | mismatched : R.bytes s = read → R.ending s = .eof → cd.verified desc.digest read = false →
      Verdict cd desc s read (.error .mismatchedDigest)
  | trailing : read.length < (R.bytes s).length → Verdict cd desc s read (.error .trailingData)
  | failed (err : Error) : R.bytes s = read → R.ending s = .failed err → Verdict cd desc s read (.error err)
  | failedLater (err : Error) : R.bytes s = read → R.ending s = .failed err → Verdict cd desc s read (.error .trailingData)

theorem Verdict.digest {read : Bytes} (whole : R.bytes s = read) (eof : R.ending s = .eof) (same : vr.hashed = read) :
    Verdict cd desc s read (checkDigest cd desc (.ok (), vr)).1 := by
  subst same
  rw [checkDigest]
  cases verified : cd.verified desc.digest vr.hashed with
  | true => exact .accepted whole eof verified
  | false => exact .mismatched whole eof verified

theorem verify_eq (unverified : vr.verified = false) (read : vr.err = none ∧ vr.limit ≤ 0 ∨ vr.err = some .eof) :
    vr.verify cd desc fuel = (vr.ensureEOF fuel).map (checkDigest cd desc) := by
  rcases read with ⟨none, limit⟩ | eof
  · have reached : ¬ 0 < vr.limit := by omega
    simp [verify, unverified, none, reached]
  · simp [verify, unverified, eof]

theorem verify_probe (cd : Codec) (unverified : vr.verified = false)
    (reached : vr.err = none ∧ vr.limit ≤ 0 ∨ vr.err = some .eof) (bytes : vr.hashed ++ R.bytes vr.source = R.bytes s)
    (ending : R.ending vr.source = R.ending s) (enough : 1 + R.idle vr.source ≤ fuel) :
    ∃ r, vr.verify cd desc fuel = some r ∧ Verdict cd desc s vr.hashed r.1 := by
  rw [verify_eq unverified reached]
  obtain ⟨⟨result, vr'⟩, found, outcome⟩ := ensureEOF_spec enough
  refine ⟨_, by rw [found]; rfl, ?_⟩
  rcases outcome with ⟨empty, eof, rfl, same⟩ | ⟨more, rfl⟩
  · rw [empty, List.append_nil] at bytes
    exact .digest bytes.symm (ending.symm.trans eof) same
  · cases left : R.bytes vr.source with
    | cons byte rest =>
      refine .trailing ?_
      rw [← bytes, left]
      simp
    | nil =>
      rw [left, List.append_nil] at bytes
      cases final : R.ending s with
      | eof => exact absurd ⟨left, ending.trans final⟩ more
      | failed err => exact .failedLater err bytes.symm final

theorem Ended.verify (cd : Codec) (ended : Ended s size vr) (read : vr.hashed.length = size)
    (enough : 1 + R.idle s ≤ fuel) :
    ∃ r, vr.verify cd desc fuel = some r ∧ Verdict cd desc s vr.hashed r.1 := by
  have whole := ended.hashed.symm
  have full : ¬ (R.bytes s).length < size := by
    rw [whole]
    omega
  cases final : R.ending s with
  | failed err =>
    have last : vr.err = some (.failed err) := by
      rw [ended.err, lastErr, final]
      simp
    exact ⟨_, by simp [VerifyReader.verify, ended.verified, last]; rfl, .failed err whole final⟩
  | eof =>
    have last : vr.err = some .eof := by
      rw [ended.err, lastErr, final, if_neg fun short => full short.2]
    obtain ⟨empty, again, idle⟩ := ended.silent final
    refine verify_probe cd ended.verified (.inr last) ?_ (again.trans final.symm) (by omega)
    rw [empty, List.append_nil, ended.hashed]

theorem verify_spec (cd : Codec) (read : vr.hashed.length = size) (state : Live s size vr ∨ Ended s size vr)
    (enough : 1 + R.idle s ≤ fuel) :
    ∃ r, vr.verify cd desc fuel = some r ∧ Verdict cd desc s vr.hashed r.1 := by
  rcases state with live | ended
  · have reached : vr.limit ≤ 0 := by
      have limit := live.limit
      omega
    have idle := live.idle
    exact verify_probe cd live.verified (.inl ⟨live.err, reached⟩) live.bytes live.ending (by omega)
  · exact ended.verify cd read enough

theorem ioReadFull_mono {σ : Type} {read : σ → Nat → Chunk × σ} {more want : Nat} {state : σ} {acc : Bytes}
    {r : Chunk × σ} (found : ioReadFull read fuel state want acc = some r) (le : fuel ≤ more) :
    ioReadFull read more state want acc = some r := by
  induction fuel generalizing more want state acc with
  | zero =>
    cases want with
    | zero => rwa [ioReadFull] at found ⊢
    | succ want => cases found
  | succ fuel ih =>
    obtain ⟨more, rfl⟩ : ∃ n, more = n + 1 := ⟨more - 1, by omega⟩
    cases want with
    | zero => rwa [ioReadFull] at found ⊢
    | succ want =>
      rw [ioReadFull] at found ⊢
      cases ending : (read state (want + 1)).1.2 with
      | none =>
        simp only [ending] at found ⊢
        exact ih found (by omega)
      | some e =>
        simp only [ending] at found ⊢
        exact found

theorem verify_mono {more : Nat} {r : Except Error Unit × VerifyReader R} (found : vr.verify cd desc fuel = some r)
    (le : fuel ≤ more) : vr.verify cd desc more = some r := by
  have probe {r} (found : (vr.ensureEOF fuel).map (checkDigest cd desc) = some r) :
      (vr.ensureEOF more).map (checkDigest cd desc) = some r := by
    simp only [ensureEOF, Option.map_map, Option.map_eq_some_iff] at found ⊢
    obtain ⟨peeked, read, same⟩ := found
    exact ⟨peeked, ioReadFull_mono read le, same⟩
  unfold verify at found ⊢
  split
  · rwa [if_pos ‹_›] at found
  · rw [if_neg ‹_›] at found
    split
    · rwa [if_pos ‹_›] at found
    · rw [if_neg ‹_›] at found
      split at found
      · exact found
      · exact probe found

end VerifyReader

section ReadAll
variable {cd : Codec} {R : FiniteReader} {s : R.State} {desc : Descriptor}

variable {fuel : Nat}

theorem readAllOn_mono {more : Nat} {result : Except Error Bytes} (found : readAllOn cd fuel s desc = some result)
    (le : fuel ≤ more) : readAllOn cd more s desc = some result := by
  rcases readAllOn_cases cd desc with ⟨_, reads⟩ | ⟨_, err, fails, _⟩
  · rw [reads, readInto, Option.bind_eq_some_iff] at found ⊢
    obtain ⟨r, read, rest⟩ := found
    refine ⟨r, VerifyReader.ioReadFull_mono read le, ?_⟩
    split at rest
    · exact rest
    · exact rest
    · obtain ⟨v, verified, same⟩ := Option.map_eq_some_iff.mp rest
      exact Option.map_eq_some_iff.mpr ⟨v, VerifyReader.verify_mono verified le, same⟩
  · rwa [fails] at found ⊢

/-- What `ReadAll` does with a reader, once it has a buffer and a verifier. -/
inductive ReadResult (cd : Codec) (desc : Descriptor) (s : R.State) : Except Error Bytes → Prop
  | short (err : Error) : (R.bytes s).length < desc.size.toNat → VerifyReader.lastErr s desc.size.toNat = .failed err →
      ReadResult cd desc s (.error (readError desc (R.bytes s).length err))
  | read (content : Bytes) (verdict : Except Error Unit) : content.length = desc.size.toNat →
      VerifyReader.Verdict cd desc s content verdict → ReadResult cd desc s (verdict.map fun _ => content)

theorem readInto_result (enough : desc.size.toNat + R.idle s + 1 ≤ fuel) (natural : 0 ≤ desc.size) :
    ∃ result, readInto cd fuel desc { source := s, limit := desc.size : VerifyReader R } = some result ∧
      ReadResult cd desc s result := by
  obtain ⟨⟨⟨bytes, ending⟩, vr⟩, found, outcome⟩ :=
    VerifyReader.readFull_new natural (by omega : desc.size.toNat + R.idle s ≤ fuel)
  unfold readInto
  rw [found, Option.bind_some]
  rcases outcome with ⟨read, full, state⟩ | ⟨err, read, short, last⟩
  · obtain ⟨rfl, rfl⟩ : bytes = vr.hashed ∧ ending = none := Prod.mk.inj read
    obtain ⟨v, verified, verdict⟩ := VerifyReader.verify_spec cd full state (by omega : 1 + R.idle s ≤ fuel)
    refine ⟨_, by simp only [verified]; rfl, .read _ _ full verdict⟩
  · cases read
    exact ⟨_, rfl, .short err short last⟩

theorem readAllOn_result (cd : Codec) (enough : desc.size.toNat + R.idle s + 1 ≤ fuel) (readable : Admissible desc) :
    ∃ result, readAllOn cd fuel s desc = some result ∧ ReadResult cd desc s result := by
  obtain ⟨_, reads⟩ := (readAllOn_cases cd desc).resolve_right fun unreadable => unreadable.1 readable
  rw [reads]
  exact readInto_result enough readable.natural

theorem VerifyReader.Verdict.ok_iff {bytes : Bytes} {verdict : Except Error Unit}
    (verified : VerifyReader.Verdict cd desc s bytes verdict) (full : bytes.length = desc.size.toNat) (content : Bytes) :
    (verdict.map fun _ => bytes) = .ok content ↔ R.bytes s = content ∧ R.ending s = .eof ∧
      content.length = desc.size.toNat ∧ cd.verified desc.digest content = true := by
  constructor
  · intro same
    cases verified with
    | accepted whole eof digest =>
      obtain rfl : bytes = content := Except.ok.inj same
      exact ⟨whole, eof, full, digest⟩
    | _ => cases same
  · rintro ⟨whole, eof, size, digest⟩
    cases verified with
    | accepted same =>
      rw [← whole, same]
      rfl
    | mismatched same _ other => rw [← same, whole, digest] at other; cases other
    | trailing longer =>
      rw [whole] at longer
      omega
    | failed _ _ failed => rw [eof] at failed; cases failed
    | failedLater _ _ failed => rw [eof] at failed; cases failed

section

variable {result : Except Error Bytes} (outcome : ReadResult cd desc s result)
include outcome

theorem ReadResult.ok_iff (natural : 0 ≤ desc.size) (content : Bytes) : result = .ok content ↔
      R.bytes s = content ∧ R.ending s = .eof ∧ content.length = desc.size ∧ cd.verified desc.digest content = true := by
  have sized : content.length = desc.size ↔ content.length = desc.size.toNat := by omega
  cases outcome with
  | short err less =>
    refine iff_of_false (fun same => by cases same) ?_
    rintro ⟨whole, _, size, _⟩
    rw [whole] at less
    omega
  | read bytes verdict full verified =>
    rw [sized]
    exact verified.ok_iff full content

theorem ReadResult.unexpectedEOF (eof : R.ending s = .eof) (short : (R.bytes s).length < desc.size) :
    ∃ err, result = .error err ∧ Error.is .unexpectedEOF err = true := by
  cases outcome with
  | short err less last =>
    rw [VerifyReader.lastErr, if_pos ⟨eof, less⟩] at last
    cases last
    exact ⟨_, rfl, by simp [readError, Error.is]⟩
  | read bytes verdict full verified =>
    exfalso
    cases verified with
    | accepted same => rw [same] at short; omega
    | mismatched same => rw [same] at short; omega
    | trailing longer => omega
    | failed _ same => rw [same] at short; omega
    | failedLater _ same => rw [same] at short; omega

theorem ReadResult.trailingData (long : desc.size < (R.bytes s).length) (natural : 0 ≤ desc.size) :
    result = .error .trailingData := by
  cases outcome with
  | short err less => omega
  | read bytes verdict full verified =>
    cases verified with
    | trailing => rfl
    | accepted same => rw [same] at long; omega
    | mismatched same => rw [same] at long; omega
    | failed _ same => rw [same] at long; omega
    | failedLater _ same => rw [same] at long; omega

end

theorem readAllOn_isSome (enough : desc.size.toNat + R.idle s + 1 ≤ fuel) :
    (readAllOn cd fuel s desc).isSome = true := by
  rcases readAllOn_cases cd desc with ⟨readable, _⟩ | ⟨_, err, fails, _⟩
  · obtain ⟨result, found, _⟩ := readAllOn_result cd enough readable
    rw [found, Option.isSome_some]
  · rw [fails, Option.isSome_some]

/-- `content.ReadAll`, with as much fuel as the reads of the stream can need. -/
def FiniteReader.readAll (cd : Codec) (R : FiniteReader) (s : R.State) (desc : Descriptor) : Except Error Bytes :=
  (readAllOn cd (desc.size.toNat + R.idle s + 1) s desc).get (readAllOn_isSome le_rfl)

theorem readAllOn_eq (enough : desc.size.toNat + R.idle s + 1 ≤ fuel) :
    readAllOn cd fuel s desc = some (R.readAll cd s desc) :=
  readAllOn_mono (Option.some_get _).symm enough

theorem readAllOn_eof (enough : desc.size.toNat + R.idle s + 1 ≤ fuel) (eof : R.ending s = .eof) :
    readAllOn cd fuel s desc = some (readAll cd (R.bytes s) desc) := by
  rcases (readAllOn_cases cd desc).symm with ⟨_, err, fails, fails', _⟩ | ⟨readable, _⟩
  · rw [fails, fails']
  obtain ⟨natural, allocated, available⟩ := readable
  obtain ⟨result, found, outcome⟩ := readAllOn_result cd enough ⟨natural, allocated, available⟩
  rw [found, readAll, if_neg (by omega), if_neg (by omega), if_neg available]
  congr 1
  cases outcome with
  | short err less last =>
    rw [VerifyReader.lastErr, if_pos ⟨eof, less⟩] at last
    cases last
    rw [if_pos (by omega)]
    rfl
  | read content verdict full verified =>
    cases verified with
    | accepted same _ digest =>
      subst same
      rw [if_neg (by omega), if_neg (by omega), if_pos digest]
      rfl
    | mismatched same _ digest =>
      subst same
      rw [if_neg (by omega), if_neg (by omega), if_neg (by simp [digest])]
      rfl
    | trailing longer =>
      rw [if_neg (by omega), if_pos (by omega)]
      rfl
    | failed _ _ failed => rw [eof] at failed; cases failed
    | failedLater _ _ failed => rw [eof] at failed; cases failed

/-- `ReadAll` accepts exactly the described content, whatever pieces the reader delivers
its stream in; the fuel is what the reads of the stream can need. -/
theorem readAll_accepts (cd : Codec) (R : FiniteReader) (s : R.State) (desc : Descriptor) (natural : 0 ≤ desc.size)
    (allocated : desc.size ≤ maxAlloc) (valid : Digest.validate desc.digest = true) :
    ∃ result, (∀ fuel, desc.size.toNat + R.idle s + 1 ≤ fuel → readAllOn cd fuel s desc = some result) ∧
      (∀ content, result = .ok content ↔ R.bytes s = content ∧ R.ending s = .eof ∧ content.length = desc.size ∧
        cd.verified desc.digest content = true) ∧
      (R.ending s = .eof → (R.bytes s).length < desc.size →
        ∃ err, result = .error err ∧ Error.is .unexpectedEOF err = true) ∧
      (desc.size < (R.bytes s).length → result = .error .trailingData) := by
  obtain ⟨result, found, outcome⟩ := readAllOn_result cd (s := s) le_rfl
    ⟨natural, allocated, available_of_validate valid⟩
  exact ⟨result, fun fuel enough => readAllOn_mono found enough, outcome.ok_iff natural, outcome.unexpectedEOF,
    fun long => outcome.trailingData long natural⟩

/-- One read of the pieces that are left; the end comes with the last piece or after it. -/
def readPiece (final : End) (together : Bool) (k : Nat) : List Bytes → Chunk × List Bytes
  | [] => (([], some final), [])
  | piece :: rest =>
    if k < piece.length then ((piece.take k, none), piece.drop k :: rest)
    else if together && rest.isEmpty then ((piece, some final), [])
    else ((piece, none), rest)

theorem readPiece_cases (final : End) (together : Bool) (k : Nat) (pieces : List Bytes) :
    pieces = [] ∧ readPiece final together k pieces = (([], some final), []) ∨
      ∃ piece rest, pieces = piece :: rest ∧
        (k < piece.length ∧ readPiece final together k pieces = ((piece.take k, none), piece.drop k :: rest) ∨
          piece.length ≤ k ∧ rest = [] ∧ readPiece final together k pieces = ((piece, some final), []) ∨
          piece.length ≤ k ∧ readPiece final together k pieces = ((piece, none), rest)) := by
  cases pieces with
  | nil => exact .inl ⟨rfl, rfl⟩
  | cons piece rest =>
    refine .inr ⟨piece, rest, rfl, ?_⟩
    simp only [readPiece]
    by_cases large : k < piece.length
    · exact .inl ⟨large, if_pos large⟩
    · rw [if_neg large]
      by_cases last : (together && rest.isEmpty) = true
      · have none : rest = [] := List.isEmpty_iff.mp (Bool.and_eq_true_iff.mp last).2
        exact .inr (.inl ⟨by omega, none, if_pos last⟩)
      · exact .inr (.inr ⟨by omega, if_neg last⟩)

theorem readPiece_length_le (final : End) (together : Bool) (k : Nat) (pieces : List Bytes) :
    (readPiece final together k pieces).1.1.length ≤ k := by
  rcases readPiece_cases final together k pieces with
    ⟨_, read⟩ | ⟨piece, rest, _, ⟨_, read⟩ | ⟨fits, _, read⟩ | ⟨fits, read⟩⟩ <;> rw [read]
  · exact Nat.zero_le k
  · exact List.length_take_le k piece
  · exact fits
  · exact fits

/-- A reader that returns the given pieces, empty ones included. -/
def pieceReader (final : End) (together : Bool) : FiniteReader where
  State := List Bytes
  read pieces k := readPiece final together k pieces
  bytes := List.flatten
  ending _ := final
  idle pieces := pieces.countP List.isEmpty
  fits pieces k _ := readPiece_length_le final together k pieces
  delivers := by
    intro pieces k positive more
    rcases readPiece_cases final together k pieces with
      ⟨_, read⟩ | ⟨piece, rest, rfl, ⟨_, read⟩ | ⟨_, _, read⟩ | ⟨_, read⟩⟩ <;> rw [read] at more ⊢
    · cases more
    · simp [← List.append_assoc]
    · cases more
    · exact ⟨rfl, rfl⟩
  idles := by
    intro pieces k positive more
    rcases readPiece_cases final together k pieces with
      ⟨_, read⟩ | ⟨piece, rest, rfl, ⟨large, read⟩ | ⟨_, _, read⟩ | ⟨_, read⟩⟩ <;> rw [read] at more ⊢
    · cases more
    · have left : (piece.drop k).isEmpty = false := by
        rw [List.isEmpty_eq_false_iff, ← List.length_pos_iff, List.length_drop]
        omega
      have taken : piece.take k ≠ [] := by
        rw [← List.length_pos_iff, List.length_take]
        omega
      refine ⟨?_, fun empty => absurd empty taken⟩
      simp only [List.countP_cons, left, Bool.false_eq_true, if_false]
      omega
    · cases more
    · refine ⟨?_, fun empty => ?_⟩
      · simp only [List.countP_cons]
        omega
      · obtain rfl : piece = [] := empty
        simp
  ends := by
    intro pieces k e positive last
    rcases readPiece_cases final together k pieces with
      ⟨rfl, read⟩ | ⟨piece, rest, rfl, ⟨_, read⟩ | ⟨_, rfl, read⟩ | ⟨_, read⟩⟩ <;> rw [read] at last ⊢
    · exact ⟨rfl, Option.some.inj last⟩
    · cases last
    · exact ⟨List.append_nil piece, Option.some.inj last⟩
    · cases last
  repeats := by
    intro pieces k positive last
    rcases readPiece_cases final together k pieces with
      ⟨rfl, read⟩ | ⟨piece, rest, rfl, ⟨_, read⟩ | ⟨_, rfl, read⟩ | ⟨_, read⟩⟩ <;> rw [read] at last ⊢
    · exact ⟨rfl, Option.some.inj last, le_rfl⟩
    · cases last
    · exact ⟨rfl, Option.some.inj last, Nat.zero_le _⟩
    · cases last

/-- Three pieces, one of them empty, and the end together with the last bytes. -/
theorem readAll_accepts_hello :
    ∃ result, (∀ fuel, 7 ≤ fuel → readAllOn (R := pieceReader .eof true) Sample.codec fuel
        [Sample.helloBytes.take 2, [], Sample.helloBytes.drop 2] Sample.hello = some result) ∧
      result = .ok Sample.helloBytes := by
  obtain ⟨result, found, accepts, _⟩ := readAll_accepts Sample.codec (pieceReader .eof true)
    [Sample.helloBytes.take 2, [], Sample.helloBytes.drop 2] Sample.hello (by decide) (by decide) (by decide +kernel)
  exact ⟨result, found, (accepts _).mpr (by decide +kernel)⟩

theorem readAllOn_eof_hello : readAllOn (R := pieceReader .eof true) Sample.codec 6
    [Sample.helloBytes.take 2, Sample.helloBytes.drop 2] Sample.hello =
      some (readAll Sample.codec Sample.helloBytes Sample.hello) :=
  readAllOn_eof (by decide) rfl

end ReadAll

end OrasGo
