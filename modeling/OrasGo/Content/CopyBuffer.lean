import OrasGo.Content.VerifyReader

/-! `ioutil.CopyBuffer` on every reader over a finite stream, to a writer that does not fail. -/

namespace OrasGo

/-- `io.CopyBuffer` out of a verifying reader, with a buffer of length `buf`; `none` when the
fuel is used up. -/
def ioCopy {R : FiniteReader} (buf : Nat) : Nat → VerifyReader R → Bytes → Option ((Bytes × Option Error) × VerifyReader R)
  | 0, _, _ => none
  | fuel + 1, vr, written =>
    let r := vr.read buf
    match r.1.2 with
    | none => ioCopy buf fuel r.2 (written ++ r.1.1)
    | some .eof => some ((written ++ r.1.1, none), r.2)
    | some (.failed err) => some ((written ++ r.1.1, some err), r.2)

/-- `ioutil.CopyBuffer`, with what it has written. -/
def copyBufferOn (cd : Codec) {R : FiniteReader} (buf fuel : Nat) (s : R.State) (desc : Descriptor) :
    Option (Except Error Bytes) :=
  match newVerifyReader s desc with
  | .error err => some (.error err)
  | .ok vr => (ioCopy buf fuel vr []).bind fun r =>
    match r.1.2 with
    | some err => some (.error (.wrap "copy failed" err))
    | none => (r.2.verify cd desc fuel).map fun v => v.1.map fun _ => r.1.1

section
variable {cd : Codec} {R : FiniteReader} {s : R.State} {desc : Descriptor} {vr : VerifyReader R} {size buf : Nat}

/-- The reader has delivered all its content, and said so. -/
structure Drained (s : R.State) (vr : VerifyReader R) : Prop where
  err : vr.err = some .eof
  verified : vr.verified = false
  bytes : vr.hashed ++ R.bytes vr.source = R.bytes s
  ending : R.ending vr.source = R.ending s
  idle : R.idle vr.source ≤ R.idle s

theorem read_limit (none : vr.err = none) (limit : vr.limit ≤ 0) :
    vr.read buf = (([], some .eof), { vr with err := some .eof }) := by
  have spent : ¬ 0 < vr.limit := by omega
  simp [VerifyReader.read, none, VerifyReader.limitedRead, limit, spent]

/-- What `io.CopyBuffer` gets out of the reader: all the content, or an error. -/
theorem ioCopy_spec (live : VerifyReader.Live s size vr) (natural : 0 ≤ vr.limit) (positive : 0 < buf) {fuel : Nat}
    (enough : vr.limit.toNat + R.idle vr.source + 1 ≤ fuel) :
    ∃ r, ioCopy buf fuel vr vr.hashed = some r ∧
      (r.1 = (r.2.hashed, none) ∧ r.2.hashed.length = size ∧ (Drained s r.2 ∨ VerifyReader.Ended s size r.2) ∨
        ∃ err, r.1 = (R.bytes s, some err) ∧ VerifyReader.lastErr s size = .failed err) := by
  induction fuel generalizing vr with
  | zero => omega
  | succ fuel ih =>
    by_cases more : 0 < vr.limit
    · obtain ⟨out, read⟩ : ∃ out, vr.read buf = out := ⟨_, rfl⟩
      obtain ⟨hashed, fits, next⟩ := live.read positive more read
      have limit := live.limit
      have length := congrArg List.length hashed
      rw [List.length_append] at length
      simp only [ioCopy, read]
      rcases next with ⟨none, live', noMore, fewer⟩ | ⟨some, ended⟩
      · have limit' := live'.limit
        have progress : out.1.1.length = 0 → R.idle out.2.source < R.idle vr.source :=
          fun empty => fewer (List.length_eq_zero_iff.mp empty)
        have rest := ih live' (by omega) (by omega)
        simp only [none]
        rwa [hashed] at rest
      · have whole := hashed.symm.trans ended.hashed
        cases last : VerifyReader.lastErr s size with
        | failed err =>
          simp only [some, last]
          exact ⟨_, rfl, .inr ⟨err, by rw [whole], rfl⟩⟩
        | eof =>
          simp only [some, last]
          refine ⟨_, rfl, .inl ⟨by rw [hashed], ?_, .inr ended⟩⟩
          have enough : ¬ (R.bytes s).length < size := by
            intro short
            obtain ⟨err, failed⟩ := VerifyReader.lastErr_of_short short
            cases last.symm.trans failed
          rw [← whole, List.length_append] at enough
          rw [hashed, List.length_append]
          omega
    · have full : vr.hashed.length = size := by
        have limit := live.limit
        omega
      simp only [ioCopy, read_limit live.err (by omega : vr.limit ≤ 0), List.append_nil]
      exact ⟨_, rfl, .inl ⟨rfl, full, .inl ⟨rfl, live.verified, live.bytes, live.ending, live.idle⟩⟩⟩

theorem Drained.verify (cd : Codec) (desc : Descriptor) (drained : Drained s vr) {fuel : Nat} (enough : 1 + R.idle s ≤ fuel) :
    ∃ r, vr.verify cd desc fuel = some r ∧ VerifyReader.Verdict cd desc s vr.hashed r.1 := by
  have idle := drained.idle
  exact VerifyReader.verify_probe cd drained.verified (.inr drained.err) drained.bytes drained.ending (by omega)

/-- What `CopyBuffer` does with a reader, once it has a verifier. -/
inductive CopyResult (cd : Codec) (desc : Descriptor) (s : R.State) : Except Error Bytes → Prop
  | failed (err : Error) : VerifyReader.lastErr s desc.size.toNat = .failed err →
      CopyResult cd desc s (.error (.wrap "copy failed" err))
  | copied (content : Bytes) (verdict : Except Error Unit) : content.length = desc.size.toNat →
      VerifyReader.Verdict cd desc s content verdict → CopyResult cd desc s (verdict.map fun _ => content)

theorem copyBufferOn_result (cd : Codec) (positive : 0 < buf) {fuel : Nat} (enough : desc.size.toNat + R.idle s + 1 ≤ fuel)
    (available : algorithmSize (Digest.algorithm desc.digest) ≠ none) :
    ∃ result, copyBufferOn cd buf fuel s desc = some result ∧ CopyResult cd desc s result := by
  unfold copyBufferOn
  rw [newVerifyReader, if_neg available]
  simp only
  by_cases negative : desc.size < 0
  · -- A negative limit lets nothing through.
    obtain ⟨fuel, rfl⟩ : ∃ n, fuel = n + 1 := ⟨fuel - 1, by omega⟩
    have drained : Drained s { source := s, limit := desc.size, err := some .eof : VerifyReader R } :=
      ⟨rfl, rfl, rfl, rfl, le_rfl⟩
    obtain ⟨v, verified, verdict⟩ := drained.verify cd desc (by omega : 1 + R.idle s ≤ fuel + 1)
    have read : VerifyReader.read { source := s, limit := desc.size : VerifyReader R } buf =
        (([], some .eof), { source := s, limit := desc.size, err := some .eof }) :=
      read_limit rfl (Int.le_of_lt negative)
    simp only [ioCopy, read, Option.bind_some, verified]
    exact ⟨_, rfl, .copied [] _ (by simp; omega) verdict⟩
  · have sized : desc.size = (desc.size.toNat : Int) := by omega
    have live := VerifyReader.live_new s desc.size.toNat
    rw [← sized] at live
    obtain ⟨⟨⟨written, failure⟩, vr⟩, found, outcome⟩ := ioCopy_spec live (by simp; omega) positive enough
    rw [found, Option.bind_some]
    rcases outcome with ⟨read, full, state⟩ | ⟨err, read, last⟩
    · obtain ⟨rfl, rfl⟩ : written = vr.hashed ∧ failure = none := Prod.mk.inj read
      obtain ⟨v, verified, verdict⟩ : ∃ r, vr.verify cd desc fuel = some r ∧
          VerifyReader.Verdict cd desc s vr.hashed r.1 := by
        rcases state with drained | ended
        · exact drained.verify cd desc (by omega)
        · exact ended.verify cd full (by omega)
      exact ⟨_, by simp only [verified]; rfl, .copied _ _ full verdict⟩
    · obtain ⟨rfl, rfl⟩ : written = R.bytes s ∧ failure = some err := Prod.mk.inj read
      exact ⟨_, rfl, .failed err last⟩

theorem copyBufferOn_isSome (positive : 0 < buf) {fuel : Nat} (enough : desc.size.toNat + R.idle s + 1 ≤ fuel) :
    (copyBufferOn cd buf fuel s desc).isSome = true := by
  by_cases unknown : algorithmSize (Digest.algorithm desc.digest) = none
  · simp only [copyBufferOn, newVerifyReader, if_pos unknown, Option.isSome_some]
  · obtain ⟨result, found, _⟩ := copyBufferOn_result cd positive enough unknown
    rw [found, Option.isSome_some]

/-- The buffer that `io.Copy` allocates: a file is written with its own `ReadFrom`, which does
not use the buffer of the caller. -/
def ioCopySize : Nat := 32 * 1024

/-- `ioutil.CopyBuffer` to a file, with as much fuel as the reads of the stream can need. -/
def FiniteReader.copyBuffer (cd : Codec) (R : FiniteReader) (s : R.State) (desc : Descriptor) : Except Error Bytes :=
  (copyBufferOn cd ioCopySize (desc.size.toNat + R.idle s + 1) s desc).get (copyBufferOn_isSome (by decide) le_rfl)

theorem FiniteReader.copyBuffer_result (cd : Codec) (s : R.State)
    (available : algorithmSize (Digest.algorithm desc.digest) ≠ none) :
    CopyResult cd desc s (R.copyBuffer cd s desc) := by
  obtain ⟨result, found, outcome⟩ := copyBufferOn_result cd (s := s) (by decide : 0 < ioCopySize) le_rfl available
  have same : R.copyBuffer cd s desc = result := Option.get_of_eq_some _ found
  rwa [same]

/-- `CopyBuffer` succeeds exactly if the reader delivers the content and ends. A negative size
stands for no bytes at all. -/
theorem CopyResult.ok_iff {result : Except Error Bytes} (outcome : CopyResult cd desc s result) (content : Bytes) :
    result = .ok content ↔ R.bytes s = content ∧ R.ending s = .eof ∧ content.length = desc.size.toNat ∧
      cd.verified desc.digest content = true := by
  cases outcome with
  | failed err last =>
    refine iff_of_false (fun same => by cases same) ?_
    rintro ⟨whole, eof, size, _⟩
    rw [VerifyReader.lastErr, if_neg (by rw [whole]; omega), eof] at last
    cases last
  | copied bytes verdict full verified => exact verified.ok_iff full content

/-- `ioutil.CopyBuffer` through a buffer of the caller, with as much fuel as the reads of the stream
can need. -/
def FiniteReader.copyThrough (cd : Codec) (R : FiniteReader) (buf : Nat) (positive : 0 < buf) (s : R.State)
    (desc : Descriptor) : Except Error Bytes :=
  (copyBufferOn cd buf (desc.size.toNat + R.idle s + 1) s desc).get (copyBufferOn_isSome positive le_rfl)

theorem FiniteReader.copyThrough_result (cd : Codec) (positive : 0 < buf) (s : R.State)
    (available : algorithmSize (Digest.algorithm desc.digest) ≠ none) :
    CopyResult cd desc s (R.copyThrough cd buf positive s desc) := by
  obtain ⟨result, found, outcome⟩ := copyBufferOn_result cd (s := s) positive le_rfl available
  have same : R.copyThrough cd buf positive s desc = result := Option.get_of_eq_some _ found
  rwa [same]

/-- `ReadAll` refuses the sizes for which it has no buffer. -/
theorem FiniteReader.readAll_ok_iff (cd : Codec) (s : R.State)
    (available : algorithmSize (Digest.algorithm desc.digest) ≠ none) (content : Bytes) :
    R.readAll cd s desc = .ok content ↔ (0 ≤ desc.size ∧ desc.size ≤ maxAlloc) ∧ R.bytes s = content ∧
      R.ending s = .eof ∧ content.length = desc.size.toNat ∧ cd.verified desc.digest content = true := by
  by_cases sized : 0 ≤ desc.size ∧ desc.size ≤ maxAlloc
  · obtain ⟨result, found, outcome⟩ := readAllOn_result cd (s := s) le_rfl ⟨sized.1, sized.2, available⟩
    have same : R.readAll cd s desc = result := Option.get_of_eq_some _ found
    have length : (content.length : Int) = desc.size ↔ content.length = desc.size.toNat := by omega
    rw [same, outcome.ok_iff sized.1, length, and_iff_right sized]
  · refine iff_of_false (fun accepted => ?_) fun both => sized both.1
    have read : readAllOn cd (desc.size.toNat + R.idle s + 1) s desc = some (.ok content) := by
      rw [← accepted]
      exact readAllOn_eq le_rfl
    rcases readAllOn_cases cd desc with ⟨readable, _⟩ | ⟨_, err, fails, _⟩
    · exact sized ⟨readable.natural, readable.allocated⟩
    · cases (fails _ s).symm.trans read

end

/-- `CopyBuffer` and `ReadAll` accept the same streams and get the same bytes out of them, unless a
size for which `ReadAll` has no buffer stands for a stream that `CopyBuffer` accepts. -/
theorem copyBuffer_readAll_iff (cd : Codec) (R : FiniteReader) (s : R.State) (desc : Descriptor) (buf : Nat)
    (positive : 0 < buf) (available : algorithmSize (Digest.algorithm desc.digest) ≠ none) :
    (∀ content, R.copyThrough cd buf positive s desc = .ok content ↔ R.readAll cd s desc = .ok content) ↔
      ¬ ((desc.size < 0 ∨ maxAlloc < desc.size) ∧ R.ending s = .eof ∧ (R.bytes s).length = desc.size.toNat ∧
        cd.verified desc.digest (R.bytes s) = true) := by
  have copied content := (R.copyThrough_result cd positive s available).ok_iff content
  have read content := R.readAll_ok_iff cd s available content
  constructor
  · rintro agree ⟨unsized, eof, length, verified⟩
    have accepted := (agree _).mp ((copied _).mpr ⟨rfl, eof, length, verified⟩)
    obtain ⟨natural, allocated⟩ := ((read _).mp accepted).1
    omega
  · intro sized content
    rw [copied, read]
    refine ⟨?_, And.right⟩
    rintro ⟨rfl, eof, length, verified⟩
    have fits : 0 ≤ desc.size ∧ desc.size ≤ maxAlloc := by
      by_contra outside
      exact sized ⟨by omega, eof, length, verified⟩
    exact ⟨fits, rfl, eof, length, verified⟩

namespace Sample

def emptyCodec : Codec := .ofTable [([], "e3b0c44298fc1c149afbf4c8996fb92427ae41e4649b934ca495991b7852b855")] [] []

/-- No content, and less than that. -/
def negative : Descriptor where
  mediaType := "application/octet-stream"
  digest := "sha256:e3b0c44298fc1c149afbf4c8996fb92427ae41e4649b934ca495991b7852b855"
  size := -1

end Sample

theorem copyBuffer_negative : Digest.validate Sample.negative.digest = true ∧
    (pieceReader .eof false).copyThrough Sample.emptyCodec 1 Nat.one_pos [] Sample.negative = .ok [] ∧
    (pieceReader .eof false).readAll Sample.emptyCodec [] Sample.negative = .error .invalidDescriptorSize := by
  decide +kernel

theorem copyBuffer_readAll_hello :
    (pieceReader .eof true).readAll Sample.codec [Sample.helloBytes] Sample.hello = .ok Sample.helloBytes ∧
    (pieceReader .eof true).copyThrough Sample.codec 3 (by decide) [Sample.helloBytes] Sample.hello = .ok Sample.helloBytes := by
  have read : (pieceReader .eof true).readAll Sample.codec [Sample.helloBytes] Sample.hello = .ok Sample.helloBytes := by
    decide +kernel
  have agree := (copyBuffer_readAll_iff Sample.codec (pieceReader .eof true) [Sample.helloBytes] Sample.hello 3 (by decide)
    (by decide +kernel)).mpr (by decide +kernel)
  exact ⟨read, (agree _).mpr read⟩

end OrasGo
