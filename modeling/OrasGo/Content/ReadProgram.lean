import OrasGo.Content.VerifyReader

/-! `content.ReadAll` as a program and as a loop over a reader: on a reader without idle reads,
such as a `Stream`, both return the same. -/

namespace OrasGo
open Interleaving

section Program
variable {cd : Codec} {R : FiniteReader} {s : R.State} {desc : Descriptor} {fuel : Nat}

/-- The error that a `VerifyReader` for `size` bytes keeps of what has been read. -/
def VerifyReader.seen (size : Nat) (read : Chunk) : Option End :=
  read.2.map fun e => if e == .eof && decide (read.1.length < size) then .failed .unexpectedEOF else e

theorem run_readFull_zero (acc : Bytes) : (readFull fuel 0 acc).run R.read s = ((acc, none), s) := by
  cases fuel <;> rfl

/-- By induction on the fuel: every read but the last delivers a byte. -/
theorem ioReadFull_run {want : Nat} (enough : want ≤ fuel) (busy : R.idle s = 0) (acc : Bytes) :
    ∃ read s', (readFull fuel want acc).run R.read s = (read, s') ∧
      ((∀ err, read.2 ≠ some (.failed err)) → R.idle s' = 0) ∧ (read.2 = none → read.1.length = acc.length + want) ∧
      ioReadFull VerifyReader.read fuel { source := s, limit := want, hashed := acc : VerifyReader R } want acc =
        some ((read.1, if read.1.length < acc.length + want then VerifyReader.seen (acc.length + want) read else none),
          { source := s', limit := (acc.length + want : Nat) - read.1.length, hashed := read.1
            err := VerifyReader.seen (acc.length + want) read }) := by
  induction fuel generalizing want s acc with
  | zero =>
    obtain rfl : want = 0 := by omega
    exact ⟨_, _, run_readFull_zero acc, fun _ => busy, fun _ => rfl, by simp [ioReadFull, VerifyReader.seen]⟩
  | succ fuel ih =>
    cases want with
    | zero => exact ⟨_, _, run_readFull_zero acc, fun _ => busy, fun _ => rfl, by simp [ioReadFull, VerifyReader.seen]⟩
    | succ want =>
      have fits := R.fits s (want + 1) (by omega)
      have idles := R.idles s (want + 1) (by omega)
      have repeats := R.repeats s (want + 1) (by omega)
      obtain ⟨⟨⟨bytes, ending⟩, s₁⟩, below⟩ : ∃ out, R.read s (want + 1) = out := ⟨_, rfl⟩
      simp only [below] at fits idles repeats
      have asked : min (want + 1) ((want + 1 : Nat) : Int).toNat = want + 1 := by omega
      have next := VerifyReader.read_eq { source := s, limit := (want + 1 : Nat), hashed := acc : VerifyReader R }
        rfl (Int.natCast_pos.mpr (Nat.succ_pos want)) (asked.symm ▸ below)
      simp only [readFull, Nat.add_one_ne_zero, if_false, Prog.run_call, ioReadFull, next, below]
      cases ending with
      | none =>
        obtain ⟨noMore, fewer⟩ := idles rfl
        have some : bytes.length ≠ 0 := fun empty => by
          have := fewer (List.length_eq_zero_iff.mp empty)
          omega
        obtain ⟨read, s', ran, idle, full, found⟩ := @ih s₁ (want + 1 - bytes.length) (by omega) (by omega) (acc ++ bytes)
        have total : (acc ++ bytes).length + (want + 1 - bytes.length) = acc.length + (want + 1) := by
          rw [List.length_append]
          omega
        have left : ((want + 1 : Nat) : Int) - bytes.length = (want + 1 - bytes.length : Nat) := by omega
        rw [total, ← left] at found
        exact ⟨read, s', ran, idle, total ▸ full, found⟩
      | some e =>
        refine ⟨_, _, rfl, fun fine => ?_, (fun full => by cases full), ?_⟩
        · cases e with
          | eof => exact Nat.le_zero.mp ((repeats rfl).2.2.trans busy.le)
          | failed err => exact absurd rfl (fine err)
        · have short : (acc ++ bytes).length < acc.length + (want + 1) ↔ ¬ want + 1 ≤ bytes.length := by
            rw [List.length_append]
            omega
          have left : ((want + 1 : Nat) : Int) - bytes.length = (acc.length + (want + 1) : Nat) - (acc ++ bytes).length := by
            rw [List.length_append]
            omega
          have missing : 0 < ((want + 1 : Nat) : Int) - bytes.length ↔ ¬ want + 1 ≤ bytes.length := by omega
          simp only [VerifyReader.seen, VerifyReader.lastSeen, Option.map_some, short, missing]
          rw [left]
          by_cases full : want + 1 ≤ bytes.length
          · simp [full]
          · cases e <;> simp [full]

theorem read_one_eq_eof (busy : R.idle s = 0) : (R.read s 1).1 = ([], some .eof) ↔ R.bytes s = [] ∧ R.ending s = .eof := by
  constructor
  · intro peeked
    obtain ⟨bytes, ending⟩ := R.ends s 1 .eof Nat.one_pos (by rw [peeked])
    exact ⟨by rw [bytes, peeked], ending⟩
  · rintro ⟨empty, eof⟩
    cases last : (R.read s 1).1.2 with
    | none =>
      obtain ⟨taken, _⟩ := R.delivers s 1 Nat.one_pos last
      have fewer := (R.idles s 1 Nat.one_pos last).2 (List.append_eq_nil_iff.mp (taken.symm.trans empty)).1
      omega
    | some e =>
      obtain ⟨bytes, ending⟩ := R.ends s 1 e Nat.one_pos last
      exact Prod.ext (bytes.symm.trans empty) (last.trans (by rw [← ending, eof]))

theorem VerifyReader.verify_run {vr : VerifyReader R} (unverified : vr.verified = false) (busy : R.idle vr.source = 0)
    (read : vr.err = none ∧ vr.limit ≤ 0 ∨ vr.err = some .eof) (positive : 1 ≤ fuel) :
    ((vr.verify cd desc fuel).map fun v => v.1.map fun _ => vr.hashed) =
      some ((OrasGo.verify cd desc vr.hashed).run R.read vr.source).1 := by
  obtain ⟨⟨result, vr'⟩, probed, outcome⟩ := ensureEOF_spec (by omega : 1 + R.idle vr.source ≤ fuel)
  rw [verify_eq unverified read, probed]
  simp only [OrasGo.verify, Prog.run_call, read_one_eq_eof busy, Option.map_some]
  rcases outcome with ⟨empty, eof, rfl, same⟩ | ⟨more, rfl⟩
  · rw [if_pos ⟨empty, eof⟩, checkDigest, same]
    split <;> rfl
  · rw [if_neg more]
    rfl

/-- The program and the loop, error for error. -/
theorem readAllOn_run (busy : R.idle s = 0) (enough : desc.size.toNat + 1 ≤ fuel) :
    readAllOn cd fuel s desc = some ((readAllFrom cd desc).run R.read s).1 := by
  rcases (readAllOn_cases cd desc).symm with ⟨_, err, fails, _, fails'⟩ | ⟨⟨natural, allocated, available⟩, reads⟩
  · rw [fails, fails', Prog.run_ret]
  rw [reads, readAllFrom, if_neg (by omega), if_neg (by omega), if_neg available, Prog.run_bind]
  obtain ⟨read, s', ran, idle, full, found⟩ := ioReadFull_run (le_refl desc.size.toNat) busy []
  rw [List.length_nil, Nat.zero_add, show ((desc.size.toNat : Nat) : Int) = desc.size by omega] at found
  simp only [readInto, ran, VerifyReader.ioReadFull_mono found (by omega : _ ≤ fuel), Option.bind_some]
  obtain ⟨bytes, ending⟩ := read
  by_cases short : bytes.length < desc.size.toNat
  · cases ending with
    | none => exact absurd (full rfl) (by simpa using short.ne)
    | some e => cases e <;> simp [checkRead, VerifyReader.seen, short]
  · have spent : desc.size - bytes.length ≤ 0 := by omega
    cases ending with
    | none =>
      rw [if_neg short]
      simp only [checkRead, if_neg short]
      exact VerifyReader.verify_run rfl (idle fun err failed => by cases failed) (.inl ⟨rfl, spent⟩) (by omega)
    | some e =>
      cases e with
      | eof =>
        rw [if_neg short]
        simp only [checkRead, if_neg short]
        exact VerifyReader.verify_run rfl (idle fun err failed => by cases failed) (.inr (by simp [VerifyReader.seen, short])) (by omega)
      | failed err => simp [checkRead, VerifyReader.seen, short, VerifyReader.verify, Except.map]

end Program

/-- The streams are readers. -/
def Stream.reader : FiniteReader where
  State := Stream
  read s k := s.read k
  bytes := Stream.bytes
  ending := Stream.ending
  idle _ := 0
  fits s k _ := (s.read_spec k).2.1
  delivers s k _ _ := ⟨(s.read_spec k).1.symm, (s.read_spec k).2.2.2.2⟩
  idles s k positive more := by
    refine ⟨le_rfl, fun empty => ?_⟩
    cases more.symm.trans ((s.read_spec k).2.2.1 positive empty).2
  ends s k e _ ended := by
    obtain ⟨whole, _, _, last, _⟩ := s.read_spec k
    obtain ⟨rfl, nothing⟩ := last e ended
    rw [nothing, List.append_nil] at whole
    exact ⟨whole.symm, rfl⟩
  repeats s k _ ended := by
    obtain ⟨_, _, _, last, same⟩ := s.read_spec k
    obtain ⟨eof, nothing⟩ := last .eof ended
    exact ⟨nothing, same.trans eof.symm, le_rfl⟩

theorem Stream.run_eq {α : Type} (program : Consumer α) (s : Stream) : s.run program = (program.run reader.read s).1 := by
  induction program generalizing s with
  | ret value => rfl
  | call k next ih => exact ih _ _

theorem Stream.readAllOn_eq (cd : Codec) (desc : Descriptor) (s : Stream) {fuel : Nat} (enough : desc.size.toNat + 1 ≤ fuel) :
    readAllOn (R := reader) cd fuel s desc = some (s.run (readAllFrom cd desc)) := by
  rw [run_eq]
  exact readAllOn_run rfl enough

end OrasGo
