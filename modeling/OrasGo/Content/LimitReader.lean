import OrasGo.Content.VerifyReader

/-! `io.ReadAll` on an `io.LimitReader`. -/

namespace OrasGo

/-- `io.LimitedReader`: a reader, and how many bytes it may still deliver. -/
structure LimitedReader (R : Reader) where
  source : R.State
  n : Nat

def LimitedReader.read {R : Reader} (lr : LimitedReader R) (k : Nat) : Chunk × LimitedReader R :=
  if lr.n = 0 then (([], some .eof), lr)
  else
    let r := R.read lr.source (min k lr.n)
    (r.1, { source := r.2, n := lr.n - r.1.1.length })

/-- `io.ReadAll`; `none` when the fuel is used up. The buffer has always room for one byte, and
for `spare` more than that as the allocator leaves it. -/
def ioReadAll {σ : Type} (read : σ → Nat → Chunk × σ) (spare : Nat → Nat) : Nat → σ → Bytes → Option (Except Error Bytes)
  | 0, _, _ => none
  | fuel + 1, s, acc =>
    let r := read s (spare acc.length + 1)
    match r.1.2 with
    | none => ioReadAll read spare fuel r.2 (acc ++ r.1.1)
    | some .eof => some (.ok (acc ++ r.1.1))
    | some (.failed err) => some (.error err)

variable {R : FiniteReader}

/-- What can be read of a stream up to a limit. A failure of the stream is seen only if the limit
leaves room for all its bytes. -/
inductive LimitedResult (R : FiniteReader) (s : R.State) (n : Nat) (acc : Bytes) : Except Error Bytes → Prop
  | ok : n ≤ (R.bytes s).length ∨ R.ending s = .eof → LimitedResult R s n acc (.ok (acc ++ (R.bytes s).take n))
  | error (err : Error) : (R.bytes s).length ≤ n → R.ending s = .failed err → LimitedResult R s n acc (.error err)

theorem LimitedResult.piece {s s' : R.State} {n : Nat} {acc piece : Bytes} {result : Except Error Bytes}
    (fits : piece.length ≤ n) (bytes : R.bytes s = piece ++ R.bytes s') (ending : R.ending s' = R.ending s)
    (rest : LimitedResult R s' (n - piece.length) (acc ++ piece) result) : LimitedResult R s n acc result := by
  have length : (R.bytes s).length = piece.length + (R.bytes s').length := by rw [bytes, List.length_append]
  cases rest with
  | ok last =>
    have whole : acc ++ piece ++ (R.bytes s').take (n - piece.length) = acc ++ (R.bytes s).take n := by
      rw [bytes, List.take_append, List.take_of_length_le fits, List.append_assoc]
    rw [whole]
    refine .ok (last.imp (fun enough => ?_) ending.symm.trans)
    omega
  | error err less failed => exact .error err (by omega) (ending.symm.trans failed)

/-- By induction on the fuel: a read that does not end the stream delivers a byte or is one of the
finitely many that deliver nothing. -/
theorem ioReadAll_limited (spare : Nat → Nat) {fuel : Nat} (s : R.State) (n : Nat) (acc : Bytes)
    (enough : (R.bytes s).length + R.idle s + 1 ≤ fuel) :
    ∃ result, ioReadAll LimitedReader.read spare fuel (⟨s, n⟩ : LimitedReader R) acc = some result ∧
      LimitedResult R s n acc result := by
  induction fuel generalizing s n acc with
  | zero => omega
  | succ fuel ih =>
    by_cases spent : n = 0
    · refine ⟨.ok acc, by simp [ioReadAll, LimitedReader.read, spent], ?_⟩
      have result : LimitedResult R s n acc (.ok (acc ++ (R.bytes s).take n)) := .ok (.inl (by omega))
      simpa [spent] using result
    · have positive : 0 < min (spare acc.length + 1) n := by omega
      have fits := R.fits s _ positive
      cases last : (R.read s (min (spare acc.length + 1) n)).1.2 with
      | none =>
        obtain ⟨bytes, ending⟩ := R.delivers s _ positive last
        obtain ⟨idle, fewer⟩ := R.idles s _ positive last
        have length := congrArg List.length bytes
        rw [List.length_append] at length
        have progress : (R.read s (min (spare acc.length + 1) n)).1.1.length = 0 →
            R.idle (R.read s (min (spare acc.length + 1) n)).2 < R.idle s :=
          fun empty => fewer (List.length_eq_zero_iff.mp empty)
        obtain ⟨result, found, rest⟩ := ih (R.read s (min (spare acc.length + 1) n)).2
          (n - (R.read s (min (spare acc.length + 1) n)).1.1.length)
          (acc ++ (R.read s (min (spare acc.length + 1) n)).1.1) (by omega)
        refine ⟨result, ?_, rest.piece (by omega) bytes ending⟩
        simpa only [ioReadAll, LimitedReader.read, if_neg spent, last] using found
      | some e =>
        obtain ⟨bytes, ending⟩ := R.ends s _ e positive last
        have length : (R.bytes s).length ≤ n := by
          rw [bytes]
          omega
        cases e with
        | eof =>
          refine ⟨.ok (acc ++ R.bytes s), by simp only [ioReadAll, LimitedReader.read, if_neg spent, last, bytes], ?_⟩
          have result : LimitedResult R s n acc (.ok (acc ++ (R.bytes s).take n)) := .ok (.inr ending)
          rwa [List.take_of_length_le length] at result
        | failed err =>
          exact ⟨.error err, by simp only [ioReadAll, LimitedReader.read, if_neg spent, last], .error err length ending⟩

/-- `io.ReadAll` of at most `n` bytes, with as much fuel as the reads of the stream can need. -/
def FiniteReader.readLimited (R : FiniteReader) (spare : Nat → Nat) (s : R.State) (n : Nat) : Except Error Bytes :=
  (ioReadAll LimitedReader.read spare ((R.bytes s).length + R.idle s + 1) (⟨s, n⟩ : LimitedReader R) []).get
    (Option.isSome_iff_exists.mpr ((ioReadAll_limited spare s n [] le_rfl).imp fun _ found => found.1))

theorem FiniteReader.readLimited_result (spare : Nat → Nat) (s : R.State) (n : Nat) :
    LimitedResult R s n [] (R.readLimited spare s n) := by
  obtain ⟨result, found, limited⟩ := ioReadAll_limited spare s n [] le_rfl
  have same : R.readLimited spare s n = result := Option.get_of_eq_some _ found
  rwa [same]

theorem FiniteReader.readLimited_eof (spare : Nat → Nat) {s : R.State} (n : Nat) (eof : R.ending s = .eof) :
    R.readLimited spare s n = .ok ((R.bytes s).take n) := by
  generalize read : R.readLimited spare s n = result
  have limited := R.readLimited_result spare s n
  rw [read] at limited
  cases limited with
  | ok => rfl
  | error err _ failed => cases eof.symm.trans failed

end OrasGo
