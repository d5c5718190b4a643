import OrasGo.Cas.Proxy
import OrasGo.Content.CopyBuffer
import OrasGo.Content.LimitReader

/-! `content.LimitedStorage`, which hands a limited reader to the storage below. -/

namespace OrasGo

/-- `io.LimitReader` as a reader of its own. -/
def LimitedReader.reader (R : Reader) : Reader where
  State := LimitedReader R
  read := LimitedReader.read

/-- Reads for the bytes that are still missing return `want` bytes, and none of them an error. -/
inductive Reader.Unbroken (R : Reader) : R.State → Nat → Prop
  | done (s : R.State) : R.Unbroken s 0
  | read {s : R.State} {want : Nat} : (R.read s (want + 1)).1.2 = none →
      R.Unbroken (R.read s (want + 1)).2 (want + 1 - (R.read s (want + 1)).1.1.length) → R.Unbroken s (want + 1)

namespace VerifyReader
variable {R : Reader} (vr : VerifyReader R)

/-- The reader as it is when the source below has the same limit. -/
def limited : VerifyReader (LimitedReader.reader R) where
  source := ⟨vr.source, vr.limit.toNat⟩
  limit := vr.limit
  hashed := vr.hashed
  verified := vr.verified
  err := vr.err

theorem limited_read (k : Nat) : vr.limited.read k = ((vr.read k).1, (vr.read k).2.limited) := by
  have limitedRead_eq : vr.limited.limitedRead k = ((vr.limitedRead k).1, (vr.limitedRead k).2.limited) := by
    by_cases spent : vr.limit ≤ 0
    · simp [limitedRead, limited, spent]
    · have positive : vr.limit.toNat ≠ 0 := by omega
      simp [limitedRead, limited, spent, teeRead, LimitedReader.reader, LimitedReader.read, positive]
  cases failed : vr.err with
  | some e => simp [VerifyReader.read, limited, failed]
  | none =>
    have same : vr.limited.err = none := failed
    simp only [VerifyReader.read, same, failed, limitedRead_eq]
    cases (vr.limitedRead k).1.2 <;> rfl

theorem limited_readFull (fuel want : Nat) (acc : Bytes) :
    ioReadFull VerifyReader.read fuel vr.limited want acc =
      (ioReadFull VerifyReader.read fuel vr want acc).map fun r => (r.1, r.2.limited) := by
  induction fuel generalizing vr want acc with
  | zero => cases want <;> rfl
  | succ fuel ih =>
    cases want with
    | zero => rfl
    | succ want =>
      simp only [ioReadFull, limited_read]
      cases (vr.read (want + 1)).1.2 with
      | none => exact ih _ _ _
      | some e =>
        simp only
        split
        · rfl
        · split <;> rfl

theorem read_limit_add (k : Nat) : (vr.read k).2.limit + (vr.read k).2.hashed.length = vr.limit + vr.hashed.length := by
  have limitedRead_add : (vr.limitedRead k).2.limit + (vr.limitedRead k).2.hashed.length = vr.limit + vr.hashed.length := by
    by_cases spent : vr.limit ≤ 0
    · simp only [limitedRead, if_pos spent]
    · simp only [limitedRead, if_neg spent, teeRead, List.length_append]
      omega
  cases failed : vr.err with
  | some e => simp only [VerifyReader.read, failed]
  | none =>
    simp only [VerifyReader.read, failed]
    cases (vr.limitedRead k).1.2 <;> exact limitedRead_add

theorem readFull_limit_add {fuel want : Nat} {acc : Bytes} {r : Chunk × VerifyReader R}
    (found : ioReadFull VerifyReader.read fuel vr want acc = some r) :
    r.2.limit + r.2.hashed.length = vr.limit + vr.hashed.length :=
  ioReadFull_keeps (P := fun state => state.limit + state.hashed.length = vr.limit + vr.hashed.length)
    (fun state k same => (state.read_limit_add k).trans same) found rfl

/-- The verifying reader has met an error exactly if a read of the source returned one. -/
theorem readFull_err_iff {R : FiniteReader} {vr : VerifyReader R} {fuel want : Nat} {acc : Bytes}
    {r : Chunk × VerifyReader R} (fine : vr.err = none) (missing : vr.limit = want)
    (found : ioReadFull VerifyReader.read fuel vr want acc = some r) : r.2.err = none ↔ R.Unbroken vr.source want := by
  induction fuel generalizing vr want acc with
  | zero =>
    cases want with
    | zero => cases found; exact iff_of_true fine (.done _)
    | succ want => cases found
  | succ fuel ih =>
    cases want with
    | zero => cases found; exact iff_of_true fine (.done _)
    | succ want =>
      have fits := R.fits vr.source (want + 1) (by omega)
      have asked : min (want + 1) vr.limit.toNat = want + 1 := by omega
      obtain ⟨⟨⟨bytes, ending⟩, source⟩, below⟩ : ∃ out, R.read vr.source (want + 1) = out := ⟨_, rfl⟩
      rw [below] at fits
      have next := read_eq _ fine (by omega) (asked.symm ▸ below)
      cases ending with
      | none =>
        simp only [ioReadFull, next, Option.map_none] at found
        have left : vr.limit - bytes.length = ((want + 1 - bytes.length : Nat) : Int) := by
          change bytes.length ≤ want + 1 at fits
          omega
        have rest := (ih · left found) rfl
        refine ⟨fun none => .read (by rw [below]) (by rw [below]; exact rest.mp none), fun unbroken => ?_⟩
        cases unbroken with
        | read _ more =>
          rw [below] at more
          exact rest.mpr more
      | some e =>
        refine iff_of_false (fun none => ?_) fun unbroken => ?_
        · simp only [ioReadFull, next, Option.map_some] at found
          split_ifs at found <;> (cases found; cases none)
        · cases unbroken with
          | read none _ =>
            rw [below] at none
            cases none

/-- Behind the limit there is nothing more to be seen. -/
theorem limited_verify (cd : Codec) (desc : Descriptor) (unverified : vr.verified = false) (spent : vr.limit ≤ 0)
    (reached : vr.err = none ∨ vr.err = some .eof) {fuel : Nat} (positive : 0 < fuel) :
    ∃ r, vr.limited.verify cd desc fuel = some r ∧ r.1 = (checkDigest cd desc (.ok (), vr)).1 := by
  obtain ⟨fuel, rfl⟩ : ∃ n, fuel = n + 1 := ⟨fuel - 1, by omega⟩
  have none : vr.limit.toNat = 0 := by omega
  have peeked : vr.limited.ensureEOF (fuel + 1) = some (.ok (), vr.limited) := by
    simp [ensureEOF, ioReadFull, teeRead, limited, LimitedReader.reader, LimitedReader.read, none]
  have probes : vr.limited.verify cd desc (fuel + 1) = some (checkDigest cd desc (.ok (), vr.limited)) := by
    have below : ¬ 0 < vr.limited.limit := by
      change ¬ 0 < vr.limit
      omega
    have same : vr.limited.err = vr.err := rfl
    rcases reached with fine | eof
    · simp [verify, show vr.limited.verified = false from unverified, same, fine, below, peeked]
    · simp [verify, show vr.limited.verified = false from unverified, same, eof, peeked]
  refine ⟨_, probes, ?_⟩
  by_cases verified : cd.verified desc.digest vr.hashed = true
  · simp [checkDigest, limited, verified]
  · simp [checkDigest, limited, verified]

end VerifyReader

section Both
variable {cd : Codec} {R : FiniteReader} {s : R.State} {desc : Descriptor}

/-- The stream fails in a read of its own after the last byte of the content: the reads that
deliver the content return no error. -/
def FailsLate (R : FiniteReader) (s : R.State) (desc : Descriptor) : Prop :=
  R.ending s ≠ .eof ∧ ((R.bytes s).length : Int) = desc.size ∧ R.Unbroken s desc.size.toNat

/-- There is more in the stream than the content and its end. -/
def Overruns (R : FiniteReader) (s : R.State) (desc : Descriptor) : Prop :=
  desc.size < (R.bytes s).length ∨ FailsLate R s desc

/-- What is left to decide on content that is read to its end. -/
def decideDigest (cd : Codec) (desc : Descriptor) (content : Bytes) : Except Error Bytes :=
  if cd.verified desc.digest content then .ok content else .error .mismatchedDigest

theorem checkDigest_map {R : Reader} (vr : VerifyReader R) :
    (VerifyReader.checkDigest cd desc (.ok (), vr)).1.map (fun _ => vr.hashed) = decideDigest cd desc vr.hashed := by
  rw [VerifyReader.checkDigest, decideDigest]
  split <;> rfl

/-- What `Verify` can tell apart, and what it cannot once the source is limited. -/
theorem VerifyReader.verify_both (cd : Codec) (desc : Descriptor) {vr : VerifyReader R} {size : Nat}
    (read : vr.hashed.length = size) (spent : vr.limit ≤ 0) (state : Live s size vr ∨ Ended s size vr) {fuel : Nat}
    (enough : 1 + R.idle s ≤ fuel) :
    ∃ plain limited, vr.verify cd desc fuel = some plain ∧ vr.limited.verify cd desc fuel = some limited ∧
      (R.bytes s = vr.hashed ∧ (R.ending s = .eof ∨ vr.err ≠ none) ∧ limited.1 = plain.1 ∨
        vr.err = none ∧ (R.bytes s).take size = vr.hashed ∧
          (vr.hashed.length < (R.bytes s).length ∨ R.bytes s = vr.hashed ∧ R.ending s ≠ .eof) ∧
          plain.1 = .error .trailingData ∧ limited.1 = (checkDigest cd desc (.ok (), vr)).1) := by
  have digests {vr' : VerifyReader R} (same : vr'.hashed = vr.hashed) :
      (checkDigest cd desc (.ok (), vr')).1 = (checkDigest cd desc (.ok (), vr)).1 := by
    simp only [checkDigest, same]
    split <;> rfl
  rcases state with live | ended
  · obtain ⟨limited, verified, digest⟩ := limited_verify vr cd desc live.verified spent (.inl live.err)
      (by omega : 0 < fuel)
    have idle := live.idle
    obtain ⟨⟨result, vr'⟩, peeked, outcome⟩ := ensureEOF_spec (by omega : 1 + R.idle vr.source ≤ fuel)
    refine ⟨_, limited, by rw [verify_eq live.verified (.inl ⟨live.err, spent⟩), peeked, Option.map_some], verified, ?_⟩
    have bytes := live.bytes
    rcases outcome with ⟨empty, eof, rfl, same⟩ | ⟨more, rfl⟩
    · rw [empty, List.append_nil] at bytes
      exact .inl ⟨bytes.symm, .inl (live.ending.symm.trans eof), digest.trans (digests same).symm⟩
    · refine .inr ⟨live.err, by rw [← bytes, ← read, List.take_left], ?_, rfl, digest⟩
      cases left : R.bytes vr.source with
      | cons byte rest =>
        rw [← bytes, left]
        simp
      | nil =>
        rw [left, List.append_nil] at bytes
        exact .inr ⟨bytes.symm, fun eof => more ⟨left, live.ending.trans eof⟩⟩
  · have whole := ended.hashed.symm
    have failing : vr.err ≠ none := by simp [ended.err]
    cases final : R.ending s with
    | failed err =>
      have last : vr.err = some (.failed err) := by
        rw [ended.err, lastErr, final]
        simp
      have same : vr.limited.err = some (.failed err) := last
      have unverified : vr.limited.verified = false := ended.verified
      exact ⟨(.error err, vr), (.error err, vr.limited), by simp [verify, ended.verified, last],
        by simp [verify, unverified, same], .inl ⟨whole, .inr failing, rfl⟩⟩
    | eof =>
      have last : vr.err = some .eof := by
        rw [ended.err, lastErr, final, if_neg fun short => by rw [whole] at short; omega]
      obtain ⟨limited, verified, digest⟩ := limited_verify vr cd desc ended.verified spent (.inr last)
        (by omega : 0 < fuel)
      obtain ⟨empty, again, idle⟩ := ended.silent final
      obtain ⟨⟨result, vr'⟩, peeked, outcome⟩ := ensureEOF_spec (by omega : 1 + R.idle vr.source ≤ fuel)
      refine ⟨_, limited, by rw [verify_eq ended.verified (.inr last), peeked, Option.map_some], verified, ?_⟩
      rcases outcome with ⟨_, _, rfl, same⟩ | ⟨more, _⟩
      · exact .inl ⟨whole, .inl rfl, digest.trans (digests same).symm⟩
      · exact absurd ⟨empty, again⟩ more

/-- `ReadAll` on the reader and on the limited one: the limit hides what overruns the content. -/
theorem readInto_both (cd : Codec) {fuel : Nat} (enough : desc.size.toNat + R.idle s + 1 ≤ fuel) (natural : 0 ≤ desc.size) :
    ∃ plain limited, readInto cd fuel desc { source := s, limit := desc.size : VerifyReader R } = some plain ∧
      readInto cd fuel desc { source := s, limit := desc.size : VerifyReader R }.limited = some limited ∧
      (¬ Overruns R s desc ∧ limited = plain ∨
        Overruns R s desc ∧ plain = .error .trailingData ∧
          limited = decideDigest cd desc ((R.bytes s).take desc.size.toNat)) := by
  have sized : desc.size = (desc.size.toNat : Int) := by omega
  obtain ⟨⟨⟨bytes, ending⟩, vr⟩, found, outcome⟩ :=
    VerifyReader.readFull_new natural (by omega : desc.size.toNat + R.idle s ≤ fuel)
  unfold readInto
  rw [VerifyReader.limited_readFull, found, Option.map_some, Option.bind_some, Option.bind_some]
  rcases outcome with ⟨read, full, state⟩ | ⟨err, read, short, last⟩
  · obtain ⟨rfl, rfl⟩ : bytes = vr.hashed ∧ ending = none := Prod.mk.inj read
    have length : vr.hashed.length = desc.size.toNat := full
    have spent : vr.limit ≤ 0 := by
      have sum : vr.limit + vr.hashed.length = desc.size + 0 := VerifyReader.readFull_limit_add _ found
      omega
    obtain ⟨plain, limited, verified, verified', outcome⟩ :=
      VerifyReader.verify_both cd desc full spent state (by omega : 1 + R.idle s ≤ fuel)
    refine ⟨plain.1.map fun _ => vr.hashed, limited.1.map fun _ => vr.hashed, by simp only [verified]; rfl,
      by simp only [verified']; rfl, ?_⟩
    have fine : vr.err = none ↔ R.Unbroken s desc.size.toNat := VerifyReader.readFull_err_iff rfl sized found
    rcases outcome with ⟨whole, ended, same⟩ | ⟨none, taken, more, trailing, digest⟩
    · refine .inl ⟨?_, by rw [same]⟩
      rintro (longer | ⟨notEof, _, unbroken⟩)
      · rw [whole] at longer
        omega
      · exact ended.elim notEof fun failing => failing (fine.mpr unbroken)
    · refine .inr ⟨?_, by rw [trailing]; rfl, by rw [digest, taken]; exact checkDigest_map vr⟩
      rcases more with longer | ⟨whole, notEof⟩
      · exact .inl (by omega)
      · exact .inr ⟨notEof, by rw [whole]; omega, fine.mp none⟩
  · cases read
    refine ⟨_, _, rfl, rfl, .inl ⟨?_, rfl⟩⟩
    rintro (longer | ⟨_, exactly, _⟩) <;> omega

/-- What `ReadAll` makes of a reader, and of the same with a limit. -/
inductive BothRead (cd : Codec) (R : FiniteReader) (s : R.State) (desc : Descriptor) :
    Except Error Bytes → Except Error Bytes → Prop
  | unreadable (err : Error) : ¬ Admissible desc → BothRead cd R s desc (.error err) (.error err)
  | same (result : Except Error Bytes) : Admissible desc → ¬ Overruns R s desc → BothRead cd R s desc result result
  | hidden : Admissible desc → Overruns R s desc →
      BothRead cd R s desc (.error .trailingData) (decideDigest cd desc ((R.bytes s).take desc.size.toNat))

theorem readAllOn_both (cd : Codec) {fuel : Nat} (enough : desc.size.toNat + R.idle s + 1 ≤ fuel) :
    ∃ plain limited, readAllOn cd fuel s desc = some plain ∧
      readAllOn (R := LimitedReader.reader R) cd fuel ⟨s, desc.size.toNat⟩ desc = some limited ∧
      BothRead cd R s desc plain limited := by
  rcases readAllOn_cases cd desc with ⟨readable, reads⟩ | ⟨unreadable, err, fails, _⟩
  · obtain ⟨plain, limited, read, read', outcome⟩ := readInto_both cd enough readable.natural
    refine ⟨plain, limited, (reads fuel s).trans read, (reads fuel _).trans read', ?_⟩
    rcases outcome with ⟨stays, rfl⟩ | ⟨overruns, rfl, rfl⟩
    · exact .same limited readable stays
    · exact .hidden readable overruns
  · exact ⟨_, _, fails fuel s, fails fuel _, .unreadable err unreadable⟩

/-- `ReadAll` on `io.LimitReader` for the size of the descriptor. -/
def FiniteReader.readAllLimited (cd : Codec) (R : FiniteReader) (s : R.State) (desc : Descriptor) : Except Error Bytes :=
  (readAllOn (R := LimitedReader.reader R) cd (desc.size.toNat + R.idle s + 1) ⟨s, desc.size.toNat⟩ desc).get (by
    obtain ⟨_, _, _, read, _⟩ := readAllOn_both (R := R) (s := s) cd le_rfl
    exact Option.isSome_of_eq_some read)

theorem FiniteReader.readAll_both (cd : Codec) (R : FiniteReader) (s : R.State) (desc : Descriptor) :
    BothRead cd R s desc (R.readAll cd s desc) (R.readAllLimited cd s desc) := by
  obtain ⟨plain, limited, read, read', both⟩ := readAllOn_both (R := R) (s := s) cd le_rfl
  have same : R.readAll cd s desc = plain := Option.get_of_eq_some _ read
  have same' : R.readAllLimited cd s desc = limited := Option.get_of_eq_some _ read'
  rwa [same, same']

end Both

/-- A storage whose `Push` may refuse the descriptor, reads the content with `ReadAll` and then
stores it. Only `ReadAll` reports trailing data. -/
structure VerifyingStorage where
  State : Type
  refuses : State → Descriptor → Option Error
  store : State → Descriptor → Bytes → Option Error × State
  stores : ∀ m desc content, (store m desc content).1 ≠ some .trailingData

namespace VerifyingStorage
variable (V : VerifyingStorage) (cd : Codec)

/-- `Push`, where `read` is what `ReadAll` makes of the reader. -/
def push (m : V.State) (expected : Descriptor) (read : Except Error Bytes) : Option Error × V.State :=
  match V.refuses m expected with
  | some err => (some err, m)
  | none => match read with
    | .error err => (some err, m)
    | .ok content => V.store m expected content

/-- `LimitedStorage.Push` with the limit `PushLimit`. -/
def limitedPush (pushLimit : Int) (m : V.State) (expected : Descriptor) (R : FiniteReader) (content : R.State) :
    Option Error × V.State :=
  if expected.size > pushLimit then
    (some (.wrap ("content size " ++ toString expected.size ++ " exceeds push size limit " ++ toString pushLimit)
      Cas.errSizeExceedsLimit), m)
  else V.push m expected (R.readAllLimited cd content expected)

/-- The limited push does what the push does, and both reject a stream that is too long. -/
structure Faithful (pushLimit : Int) (m : V.State) (desc : Descriptor) (R : FiniteReader) (s : R.State) : Prop where
  nil : (V.limitedPush cd pushLimit m desc R s).1 = none ↔ (V.push m desc (R.readAll cd s desc)).1 = none
  stored : (V.limitedPush cd pushLimit m desc R s).1 = none →
    (V.limitedPush cd pushLimit m desc R s).2 = (V.push m desc (R.readAll cd s desc)).2
  trailing : V.refuses m desc = none → Admissible desc → desc.size < (R.bytes s).length →
    (V.limitedPush cd pushLimit m desc R s).1 = some .trailingData ∧
      (V.push m desc (R.readAll cd s desc)).1 = some .trailingData

end VerifyingStorage

section Memory
open Interleaving Cas

/-- The operations of `sync.Map`, one after the other. -/
def mapReply (m : Contents) : (op : MapOp) → MapAns op × Contents
  | .load key => (m.lookup key, m)
  | .loadOrStore key value => if key ∈ m then (true, m) else (false, m.insert key value)

/-- `cas.Memory` with nobody else at work. -/
def memoryStorage : VerifyingStorage where
  State := Contents
  refuses m desc := if fromOCI desc ∈ m then some (alreadyExists (fromOCI desc)) else none
  store m desc content :=
    if fromOCI desc ∈ m then (some (alreadyExists (fromOCI desc)), m) else (none, m.insert (fromOCI desc) content)
  stores m desc content := by
    split
    · exact fun impossible => by cases impossible
    · exact (Option.some_ne_none _).symm

theorem memoryStorage_push (m : Contents) (desc : Descriptor) (read : Except Error Bytes) :
    (Cas.push Cas.load Cas.loadOrStore desc (Prog.ret read)).run mapReply m = memoryStorage.push m desc read := by
  by_cases present : fromOCI desc ∈ m
  · obtain ⟨content, found⟩ := Finmap.mem_iff.mp present
    simp [Cas.push, Cas.load, mapReply, found, VerifyingStorage.push, memoryStorage, present]
  · have missing : m.lookup (fromOCI desc) = none := Finmap.lookup_eq_none.mpr present
    cases read with
    | error err => simp [Cas.push, Cas.load, Cas.store, mapReply, missing, VerifyingStorage.push, memoryStorage, present]
    | ok content =>
      simp [Cas.push, Cas.load, Cas.loadOrStore, Cas.store, mapReply, missing, VerifyingStorage.push, memoryStorage, present]

end Memory

/-- The limited push is faithful exactly if the storage does not get to read a stream that is too
long, and none whose failure after the content goes unnoticed. -/
theorem limitedPush_faithful_iff (V : VerifyingStorage) (cd : Codec) (pushLimit : Int) (m : V.State) (desc : Descriptor)
    (R : FiniteReader) (s : R.State) (within : desc.size ≤ pushLimit) :
    V.Faithful cd pushLimit m desc R s ↔ ¬ (V.refuses m desc = none ∧ Admissible desc ∧
      (desc.size < (R.bytes s).length ∨ FailsLate R s desc ∧ cd.verified desc.digest (R.bytes s) = true ∧
        (V.store m desc (R.bytes s)).1 = none)) := by
  have below : V.limitedPush cd pushLimit m desc R s = V.push m desc (R.readAllLimited cd s desc) :=
    if_neg (by omega)
  cases refused : V.refuses m desc with
  | some err =>
    refine iff_of_true ?_ fun impossible => by cases impossible.1
    have refuses read : V.push m desc read = (some err, m) := by simp only [VerifyingStorage.push, refused]
    exact ⟨by simp only [below, refuses], by simp only [below, refuses, implies_true],
      fun impossible => by cases refused.symm.trans impossible⟩
  | none =>
    have fails err : V.push m desc (.error err) = (some err, m) := by simp only [VerifyingStorage.push, refused]
    have succeeds content : V.push m desc (.ok content) = V.store m desc content := by
      simp only [VerifyingStorage.push, refused]
    have both := R.readAll_both cd s desc
    generalize read : R.readAll cd s desc = plain at both
    generalize limitedRead : R.readAllLimited cd s desc = limited at both
    rw [limitedRead] at below
    cases both with
    | unreadable err unreadable =>
      refine iff_of_true ?_ fun impossible => unreadable impossible.2.1
      rw [← read] at below
      exact ⟨by rw [below], fun _ => by rw [below], fun _ readable => absurd readable unreadable⟩
    | same result readable stays =>
      refine iff_of_true ?_ fun impossible => stays (impossible.2.2.imp_right And.left)
      rw [← read] at below
      exact ⟨by rw [below], fun _ => by rw [below], fun _ _ longer => absurd (.inl longer) stays⟩
    | hidden readable overruns =>
      by_cases longer : desc.size < (R.bytes s).length
      · refine iff_of_false (fun faithful => ?_) fun impossible => impossible ⟨rfl, readable, .inl longer⟩
        have rejected := (faithful.trailing refused readable longer).1
        rw [below, decideDigest] at rejected
        split at rejected
        · rw [succeeds] at rejected
          exact V.stores m desc _ rejected
        · rw [fails] at rejected
          cases rejected
      · have late := overruns.resolve_left longer
        have whole : (R.bytes s).take desc.size.toNat = R.bytes s := List.take_of_length_le (by omega)
        rw [whole, decideDigest] at below
        by_cases accepted : cd.verified desc.digest (R.bytes s) = true ∧ (V.store m desc (R.bytes s)).1 = none
        · refine iff_of_false (fun faithful => ?_) fun impossible => impossible ⟨rfl, readable, .inr ⟨late, accepted⟩⟩
          rw [if_pos accepted.1, succeeds] at below
          have nil := faithful.nil.mp (by rw [below]; exact accepted.2)
          rw [read, fails] at nil
          cases nil
        · refine iff_of_true ?_ fun impossible => impossible.2.2.elim longer fun late => accepted late.2
          have failed : (V.limitedPush cd pushLimit m desc R s).1 ≠ none := by
            rw [below]
            split
            · rename_i verified
              rw [succeeds]
              exact fun stored => accepted ⟨verified, stored⟩
            · rw [fails]
              exact Option.some_ne_none _
          refine ⟨iff_of_false failed ?_, fun nil => absurd nil failed, fun _ _ long => absurd long longer⟩
          rw [read, fails]
          exact Option.some_ne_none _

/-- One byte too many: the memory rejects it, and with the limit it does not. -/
theorem limitedPush_hides_trailing :
    memoryStorage.limitedPush Sample.codec 10 (∅ : Cas.Contents) Sample.hello (pieceReader .eof false)
      [Sample.helloBytes, [33]] = (none, (∅ : Cas.Contents).insert (fromOCI Sample.hello) Sample.helloBytes) ∧
    memoryStorage.push (∅ : Cas.Contents) Sample.hello
      ((pieceReader .eof false).readAll Sample.codec [Sample.helloBytes, [33]] Sample.hello) =
        (some .trailingData, (∅ : Cas.Contents)) := by
  have limited : (pieceReader .eof false).readAllLimited Sample.codec [Sample.helloBytes, [33]] Sample.hello =
      .ok Sample.helloBytes := by decide +kernel
  have plain : (pieceReader .eof false).readAll Sample.codec [Sample.helloBytes, [33]] Sample.hello =
      .error .trailingData := by decide +kernel
  have within : ¬ Sample.hello.size > 10 := by decide
  have below : memoryStorage.limitedPush Sample.codec 10 (∅ : Cas.Contents) Sample.hello (pieceReader .eof false)
      [Sample.helloBytes, [33]] = memoryStorage.push (∅ : Cas.Contents) Sample.hello
        ((pieceReader .eof false).readAllLimited Sample.codec [Sample.helloBytes, [33]] Sample.hello) := if_neg within
  have absent : fromOCI Sample.hello ∉ (∅ : Cas.Contents) := Finmap.notMem_empty
  rw [plain, below, limited]
  simp only [VerifyingStorage.push, memoryStorage, if_neg absent]
  exact ⟨trivial, trivial⟩

theorem limitedPush_faithful_hello : Sample.hello.size ≤ 10 ∧
    memoryStorage.Faithful Sample.codec 10 (∅ : Cas.Contents) Sample.hello (pieceReader .eof false) [Sample.helloBytes] := by
  refine ⟨by decide, (limitedPush_faithful_iff memoryStorage Sample.codec 10 (∅ : Cas.Contents) Sample.hello
    (pieceReader .eof false) [Sample.helloBytes] (by decide)).mpr ?_⟩
  rintro ⟨_, _, longer | ⟨late, _⟩⟩
  · exact absurd longer (by decide +kernel)
  · exact late.1 rfl

end OrasGo
