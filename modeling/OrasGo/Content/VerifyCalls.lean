import OrasGo.Content.VerifyReader

/-! `content.VerifyReader` on any reader, under any sequence of `Read` and `Verify`. -/

namespace OrasGo

/-- A reader that never returns more bytes than it was asked for. -/
structure BoundedReader extends Reader where
  fits : ∀ s k, (read s k).1.1.length ≤ k

instance : Coe BoundedReader Reader := ⟨BoundedReader.toReader⟩

/-- The calls of a user of a `VerifyReader`. A `Verify` that returns does so within some number
of reads. -/
inductive ReaderCall
  | read (k : Nat)
  | verify (fuel : Nat)

inductive ReaderResult
  | read (chunk : Chunk)
  | verify (result : Except Error Unit)
deriving DecidableEq

/-- The bytes that a call returns. -/
def ReaderResult.bytes : ReaderResult → Bytes
  | .read chunk => chunk.1
  | .verify _ => []

/-- The bytes that a sequence of calls returns. -/
def bytesRead (results : List ReaderResult) : Bytes := results.flatMap ReaderResult.bytes

namespace VerifyReader

def call {R : Reader} (cd : Codec) (desc : Descriptor) (vr : VerifyReader R) :
    ReaderCall → Option (ReaderResult × VerifyReader R)
  | .read k => some (.read (vr.read k).1, (vr.read k).2)
  | .verify fuel => (vr.verify cd desc fuel).map fun r => (.verify r.1, r.2)

/-- The results of a sequence of calls all of which return. -/
def calls {R : Reader} (cd : Codec) (desc : Descriptor) :
    VerifyReader R → List ReaderCall → Option (List ReaderResult × VerifyReader R)
  | vr, [] => some ([], vr)
  | vr, c :: cs =>
    (vr.call cd desc c).bind fun r => (r.2.calls cd desc cs).map fun rest => (r.1 :: rest.1, rest.2)

variable {R : BoundedReader} {cd : Codec} {desc : Descriptor} {vr vr' : VerifyReader R} {seen : Bytes}

/-- The last read of the reader below has returned `io.EOF` and no data. -/
def AtEOF {R : Reader} (vr : VerifyReader R) : Prop := ∃ s, R.read s 1 = (([], some .eof), vr.source)

/-- So much was read, nothing was verified and nothing has failed. -/
structure Reading (desc : Descriptor) (seen : Bytes) (vr : VerifyReader R) : Prop where
  unverified : vr.verified = false
  err : vr.err = none ∨ vr.err = some .eof ∧ vr.limit = 0
  hashed : vr.hashed = seen
  limit : vr.limit = desc.size - seen.length
  natural : 0 ≤ vr.limit

structure Failed (err : Error) (vr : VerifyReader R) : Prop where
  unverified : vr.verified = false
  err : vr.err = some (.failed err)

/-- What was read is the content of the descriptor. -/
structure Verified (cd : Codec) (desc : Descriptor) (seen : Bytes) (vr : VerifyReader R) : Prop where
  verified : vr.verified = true
  err : vr.err = some .eof
  size : (seen.length : Int) = desc.size
  digest : cd.verified desc.digest seen = true
  ended : vr.AtEOF

variable {fuel : Nat} {c : ReaderCall} {cs : List ReaderCall} {results : List ReaderResult} {vr₁ : VerifyReader R}

theorem ensureEOF_ok (found : vr.ensureEOF fuel = some (.ok (), vr')) :
    vr'.hashed = vr.hashed ∧ vr'.AtEOF := by
  induction fuel generalizing vr with
  | zero => cases found
  | succ fuel ih =>
    rw [ensureEOF_succ, teeRead] at found
    obtain ⟨⟨⟨bytes, ending⟩, source⟩, read⟩ : ∃ out, R.read vr.source 1 = out := ⟨_, rfl⟩
    simp only [read] at found
    split at found
    · -- a read of nothing changes the source and leaves the verifier alone
      rename_i nothing
      cases nothing
      rw [List.append_nil] at found
      have rest := ih found
      exact rest
    · rename_i nothing
      cases nothing
      cases found
      exact ⟨List.append_nil _, vr.source, read⟩
    · cases found

theorem ensureEOF_verified {result : Except Error Unit} (found : vr.ensureEOF fuel = some (result, vr')) :
    vr'.verified = vr.verified := by
  obtain ⟨peeked, probe, same⟩ := Option.map_eq_some_iff.mp found
  cases same
  exact ioReadFull_keeps (P := fun state => state.verified = vr.verified) (fun _ _ kept => kept) probe rfl

theorem Reading.read (reading : Reading desc seen vr) (k : Nat) :
    Reading desc (seen ++ (vr.read k).1.1) (vr.read k).2 ∨ ∃ err, Failed err (vr.read k).2 := by
  rcases reading.err with live | ⟨eof, atLimit⟩
  · by_cases full : vr.limit ≤ 0
    · have next : vr.read k = (([], some .eof), { vr with err := some .eof }) := by
        have zero : ¬ 0 < vr.limit := by omega
        simp [VerifyReader.read, live, limitedRead, full, zero]
      rw [next]
      refine .inl ⟨reading.unverified, .inr ⟨rfl, ?_⟩, ?_, ?_, reading.natural⟩
      · exact le_antisymm full reading.natural
      · simpa using reading.hashed
      · simpa using reading.limit
    · have fits := R.fits vr.source (min k vr.limit.toNat)
      obtain ⟨⟨⟨bytes, ending⟩, source⟩, below⟩ : ∃ out, R.read vr.source (min k vr.limit.toNat) = out := ⟨_, rfl⟩
      simp only [below] at fits
      rw [read_eq _ live (by omega) below]
      have hashed : vr.hashed ++ bytes = seen ++ bytes := by rw [reading.hashed]
      have natural : 0 ≤ vr.limit - bytes.length := by omega
      have limit : vr.limit - bytes.length = desc.size - (seen ++ bytes).length := by
        rw [reading.limit, List.length_append]
        omega
      cases ending with
      | none => exact .inl ⟨reading.unverified, .inl rfl, hashed, limit, natural⟩
      | some e =>
        rw [Option.map_some, lastSeen]
        cases e with
        | failed err => exact .inr ⟨err, reading.unverified, rfl⟩
        | eof =>
          by_cases missing : 0 < vr.limit - bytes.length
          · refine .inr ⟨.unexpectedEOF, reading.unverified, ?_⟩
            simp only [beq_self_eq_true, missing, decide_true, Bool.and_self, if_true]
          · refine .inl ⟨reading.unverified, .inr ⟨?_, ?_⟩, hashed, limit, natural⟩
            · simp only [beq_self_eq_true, missing, decide_false, Bool.and_false, Bool.false_eq_true, if_false]
            · exact le_antisymm (not_lt.mp missing) natural
  · have next : vr.read k = (([], some .eof), vr) := by simp only [VerifyReader.read, eof]
    rw [next]
    simpa using Or.inl reading

/-- A `Verify` before anything has failed: it accepts what was read, it fails for good, or it is
too early and changes nothing. -/
theorem Reading.verify (reading : Reading desc seen vr) {result : Except Error Unit}
    (found : vr.verify cd desc fuel = some (result, vr')) :
    result = .ok () ∧ Verified cd desc seen vr' ∨ (∃ err, result = .error err ∧ Failed err vr') ∨
      result = .error (.text "early verify") ∧ vr' = vr := by
  rw [VerifyReader.verify, if_neg (by simp [reading.unverified])] at found
  by_cases early : vr.err = none ∧ 0 < vr.limit
  · rw [if_pos early] at found
    cases found
    exact .inr (.inr ⟨rfl, rfl⟩)
  · rw [if_neg early] at found
    have full : vr.limit = 0 := by
      rcases reading.err with live | ⟨_, zero⟩
      · exact le_antisymm (not_lt.mp fun more => early ⟨live, more⟩) reading.natural
      · exact zero
    have probed : (vr.ensureEOF fuel).map (checkDigest cd desc) = some (result, vr') := by
      rcases reading.err with live | ⟨eof, _⟩
      · rw [live] at found
        exact found
      · rw [eof] at found
        exact found
    obtain ⟨⟨outcome, after⟩, probe, checked⟩ := Option.map_eq_some_iff.mp probed
    have unverified := (ensureEOF_verified probe).trans reading.unverified
    cases outcome with
    | error err =>
      cases checked
      exact .inr (.inl ⟨err, rfl, unverified, rfl⟩)
    | ok =>
      obtain ⟨same, ended⟩ := ensureEOF_ok probe
      rw [checkDigest] at checked
      split at checked
      next digest =>
        cases checked
        rw [same, reading.hashed] at digest
        have size : (seen.length : Int) = desc.size := by
          have limit := reading.limit
          omega
        exact .inl ⟨rfl, rfl, rfl, size, digest, ended⟩
      next =>
        cases checked
        exact .inr (.inl ⟨_, rfl, unverified, rfl⟩)

theorem Verified.call (verified : Verified cd desc seen vr) {result : ReaderResult}
    (found : vr.call cd desc c = some (result, vr')) :
    (result = .verify (.ok ()) ∨ result = .read ([], some .eof)) ∧ vr' = vr := by
  cases c with
  | read k =>
    have next : vr.read k = (([], some .eof), vr) := by simp only [VerifyReader.read, verified.err]
    rw [VerifyReader.call, next] at found
    cases found
    exact ⟨.inr rfl, rfl⟩
  | verify fuel =>
    rw [VerifyReader.call, VerifyReader.verify, if_pos verified.verified] at found
    cases found
    exact ⟨.inl rfl, rfl⟩

theorem Failed.call {err : Error} (failed : Failed err vr) {result : ReaderResult}
    (found : vr.call cd desc c = some (result, vr')) : result ≠ .verify (.ok ()) ∧ vr' = vr := by
  cases c with
  | read k =>
    have next : vr.read k = (([], some (.failed err)), vr) := by simp only [VerifyReader.read, failed.err]
    rw [VerifyReader.call, next] at found
    cases found
    exact ⟨ReaderResult.noConfusion, rfl⟩
  | verify fuel =>
    have next : vr.verify cd desc fuel = some (.error err, vr) := by
      simp [VerifyReader.verify, failed.unverified, failed.err]
    rw [VerifyReader.call, next] at found
    cases found
    exact ⟨by simp, rfl⟩

/-- How a call can end before anything has failed. -/
inductive Answered (cd : Codec) (desc : Descriptor) (seen : Bytes) (vr' : VerifyReader R) : ReaderResult → Prop
  | read {chunk : Chunk} : Reading desc (seen ++ chunk.1) vr' → Answered cd desc seen vr' (.read chunk)
  | early : Reading desc seen vr' → Answered cd desc seen vr' (.verify (.error (.text "early verify")))
  | failed {err : Error} {result : ReaderResult} : Failed err vr' → result ≠ .verify (.ok ()) →
      Answered cd desc seen vr' result
  | verified : Verified cd desc seen vr' → Answered cd desc seen vr' (.verify (.ok ()))

theorem Reading.call (reading : Reading desc seen vr) {result : ReaderResult}
    (found : vr.call cd desc c = some (result, vr')) : Answered cd desc seen vr' result := by
  cases c with
  | read k =>
    cases found
    rcases reading.read k with next | ⟨err, failed⟩
    · exact .read next
    · exact .failed failed ReaderResult.noConfusion
  | verify fuel =>
    obtain ⟨⟨outcome, after⟩, verified, same⟩ := Option.map_eq_some_iff.mp found
    cases same
    rcases reading.verify verified with ⟨rfl, accepted⟩ | ⟨err, rfl, failed⟩ | ⟨rfl, rfl⟩
    · exact .verified accepted
    · exact .failed failed (by simp)
    · exact .early reading

/-- What a sequence of results says after `seen` was read from `vr₀`. -/
structure CallsSound (cd : Codec) (desc : Descriptor) (seen : Bytes) (vr₀ : VerifyReader R) (calls : List ReaderCall)
    (results : List ReaderResult) : Prop where
  accepted : ∀ i : Nat, results[i]? = some (.verify (.ok ())) →
    ((seen ++ bytesRead (results.take i)).length : Int) = desc.size ∧
    cd.verified desc.digest (seen ++ bytesRead (results.take i)) = true ∧
    ∃ vr, vr₀.calls cd desc (calls.take (i + 1)) = some (results.take (i + 1), vr) ∧ vr.AtEOF
  stays : ∀ (i j : Nat) (result : ReaderResult), i < j → results[i]? = some (.verify (.ok ())) → results[j]? = some result →
    result = .verify (.ok ()) ∨ result = .read ([], some .eof)
  rejected : ∀ (i j : Nat) (err : Error), i < j → err = .trailingData ∨ err = .mismatchedDigest →
    results[i]? = some (.verify (.error err)) → results[j]? ≠ some (.verify (.ok ()))

theorem calls_cons (found : vr.calls cd desc (c :: cs) = some (results, vr₁)) :
    ∃ result rest vr', vr.call cd desc c = some (result, vr') ∧ vr'.calls cd desc cs = some (rest, vr₁) ∧
      results = result :: rest := by
  obtain ⟨⟨result, vr'⟩, called, next⟩ := Option.bind_eq_some_iff.mp found
  obtain ⟨⟨rest, last⟩, more, same⟩ := Option.map_eq_some_iff.mp next
  cases same
  exact ⟨result, rest, vr', called, more, rfl⟩

theorem calls_prepend {result : ReaderResult} {rest : List ReaderResult}
    (called : vr.call cd desc c = some (result, vr')) (more : vr'.calls cd desc cs = some (rest, vr₁)) :
    vr.calls cd desc (c :: cs) = some (result :: rest, vr₁) := by
  simp only [VerifyReader.calls, called, more, Option.bind_some, Option.map_some]

/-- What holds of every call on a reader that no call moves. -/
theorem calls_forall {P : ReaderResult → Prop}
    (fixed : ∀ c result vr', vr.call cd desc c = some (result, vr') → P result ∧ vr' = vr)
    (found : vr.calls cd desc cs = some (results, vr₁)) : ∀ result ∈ results, P result := by
  induction cs generalizing results with
  | nil =>
    cases found
    intro result impossible
    cases impossible
  | cons c cs ih =>
    obtain ⟨first, rest, vr', called, more, rfl⟩ := calls_cons found
    obtain ⟨holds, rfl⟩ := fixed c first vr' called
    exact List.forall_mem_cons.mpr ⟨holds, ih more⟩

theorem Verified.calls (verified : Verified cd desc seen vr) (found : vr.calls cd desc cs = some (results, vr₁)) :
    ∀ result ∈ results, result = .verify (.ok ()) ∨ result = .read ([], some .eof) :=
  calls_forall (fun _ _ _ called => verified.call called) found

theorem Verified.calls_take (verified : Verified cd desc seen vr) (found : vr.calls cd desc cs = some (results, vr₁))
    (n : Nat) :
    vr.calls cd desc (cs.take n) = some (results.take n, vr) ∧ bytesRead (results.take n) = [] := by
  induction cs generalizing results n with
  | nil =>
    cases found
    exact ⟨by simp [VerifyReader.calls], by simp [bytesRead]⟩
  | cons c cs ih =>
    obtain ⟨first, rest, vr', called, more, rfl⟩ := calls_cons found
    obtain ⟨kind, rfl⟩ := verified.call called
    cases n with
    | zero => exact ⟨rfl, rfl⟩
    | succ n =>
      obtain ⟨run, silent⟩ := ih more n
      refine ⟨calls_prepend called run, ?_⟩
      have nothing : first.bytes = [] := by rcases kind with rfl | rfl <;> rfl
      change first.bytes ++ bytesRead (rest.take n) = []
      rw [nothing, silent, List.append_nil]

theorem Failed.calls {err : Error} (failed : Failed err vr) (found : vr.calls cd desc cs = some (results, vr₁)) :
    ∀ result ∈ results, result ≠ .verify (.ok ()) :=
  calls_forall (fun _ _ _ called => failed.call called) found

/-- A result that decides nothing goes before results that are sound for what was read with it. -/
theorem CallsSound.cons {result : ReaderResult} {rest : List ReaderResult}
    (called : vr.call cd desc c = some (result, vr')) (sound : CallsSound cd desc (seen ++ result.bytes) vr' cs rest)
    (open_ : result ≠ .verify (.ok ()))
    (unfailed : ∀ err, err = .trailingData ∨ err = .mismatchedDigest → result ≠ .verify (.error err)) :
    CallsSound cd desc seen vr (c :: cs) (result :: rest) where
  accepted := by
    intro i at_i
    cases i with
    | zero => exact absurd (Option.some.inj at_i) open_
    | succ i =>
      obtain ⟨size, digest, last, run, ended⟩ := sound.accepted i at_i
      have same : seen ++ result.bytes ++ bytesRead (rest.take i) = seen ++ bytesRead ((result :: rest).take (i + 1)) := by
        simp [bytesRead]
      rw [same] at size digest
      exact ⟨size, digest, last, calls_prepend called run, ended⟩
  stays := by
    intro i j later less at_i at_j
    cases i with
    | zero => exact absurd (Option.some.inj at_i) open_
    | succ i =>
      cases j with
      | zero => omega
      | succ j => exact sound.stays i j later (by omega) at_i at_j
  rejected := by
    intro i j err less kind at_i
    cases i with
    | zero => exact absurd (Option.some.inj at_i) (unfailed err kind)
    | succ i =>
      cases j with
      | zero => omega
      | succ j => exact sound.rejected i j err (by omega) kind at_i

theorem Reading.calls (reading : Reading desc seen vr) (found : vr.calls cd desc cs = some (results, vr₁)) :
    CallsSound cd desc seen vr cs results := by
  -- the phase carries the induction: it says what was read so far and what the next call may return
  induction cs generalizing vr seen results with
  | nil =>
    cases found
    exact ⟨fun _ impossible => by simp at impossible, fun _ _ _ _ impossible => by simp at impossible,
      fun _ _ _ _ _ impossible => by simp at impossible⟩
  | cons c cs ih =>
    obtain ⟨first, rest, vr', called, more, rfl⟩ := calls_cons found
    cases reading.call called with
    | read next => exact CallsSound.cons called (ih next more) (by simp) (by simp)
    | early next =>
      refine CallsSound.cons called (ih (by simpa [ReaderResult.bytes] using next) more) (by simp) ?_
      rintro err (rfl | rfl) <;> simp
    | failed failed other =>
      have never := failed.calls more
      have never' : ∀ j : Nat, (first :: rest)[j]? ≠ some (.verify (.ok ())) := by
        intro j at_j
        rcases List.mem_cons.mp (List.mem_of_getElem? at_j) with same | member
        · exact other same.symm
        · exact never _ member rfl
      exact ⟨fun i at_i => absurd at_i (never' i), fun i _ _ _ at_i => absurd at_i (never' i), fun _ j _ _ _ _ => never' j⟩
    | verified accepted =>
      have later := accepted.calls more
      have tail : ∀ (i : Nat) (result : ReaderResult), (.verify (.ok ()) :: rest : List ReaderResult)[i]? = some result →
          result = .verify (.ok ()) ∨ result = .read ([], some .eof) := by
        intro i result at_i
        rcases List.mem_cons.mp (List.mem_of_getElem? at_i) with same | member
        · exact .inl same
        · exact later _ member
      refine ⟨fun i at_i => ?_, fun _ j result _ _ at_j => tail j result at_j, fun i _ err _ _ at_i => ?_⟩
      · cases i with
        | zero =>
          refine ⟨?_, ?_, vr', calls_prepend called rfl, accepted.ended⟩
          · simpa [bytesRead] using accepted.size
          · simpa [bytesRead] using accepted.digest
        | succ i =>
          obtain ⟨run, _⟩ := accepted.calls_take more (i + 1)
          obtain ⟨_, silent⟩ := accepted.calls_take more i
          have same : seen ++ bytesRead ((ReaderResult.verify (.ok ()) :: rest).take (i + 1)) = seen := by
            change seen ++ ([] ++ bytesRead (rest.take i)) = seen
            rw [silent, List.append_nil, List.append_nil]
          rw [same]
          exact ⟨accepted.size, accepted.digest, vr', calls_prepend called run, accepted.ended⟩
      · rcases tail i _ at_i with impossible | impossible <;> cases impossible

end VerifyReader

open VerifyReader in
/-- Whatever a user calls on a new `VerifyReader`, on any reader below: `Verify` returns nil only
for the content of the descriptor at the end of the stream, it then stays verified and nothing
more is read, and after trailing data or a wrong digest it never succeeds. -/
theorem verifyReader_calls (cd : Codec) (R : BoundedReader) (s : R.State) (desc : Descriptor) (natural : 0 ≤ desc.size)
    {vr₀ vr : VerifyReader R} (new : newVerifyReader s desc = .ok vr₀) {calls : List ReaderCall}
    {results : List ReaderResult} (run : vr₀.calls cd desc calls = some (results, vr)) :
    CallsSound cd desc [] vr₀ calls results := by
  have start : vr₀ = { source := s, limit := desc.size } := by
    rw [newVerifyReader] at new
    split at new
    · cases new
    · exact (Except.ok.inj new).symm
  subst start
  exact Reading.calls ⟨rfl, .inl rfl, rfl, by simp, natural⟩ run

/-- A reader that hands out its pieces one after the other, and then `io.EOF`. -/
def boundedPieces : BoundedReader where
  toReader := (pieceReader .eof false).toReader
  fits pieces k := readPiece_length_le .eof false k pieces

namespace Sample

def helloReader : VerifyReader boundedPieces where
  source := [helloBytes.take 2, [], helloBytes.drop 2]
  limit := hello.size

/-- Early, repeated and late calls. -/
def helloCalls : List ReaderCall := [.verify 1, .read 3, .read 0, .read 9, .read 9, .verify 3, .read 4, .verify 0]

end Sample

theorem verifyReader_calls_hello :
    ∃ results vr, Sample.helloReader.calls Sample.codec Sample.hello Sample.helloCalls = some (results, vr) ∧
      results[5]? = some (.verify (.ok ())) ∧
      VerifyReader.CallsSound Sample.codec Sample.hello [] Sample.helloReader Sample.helloCalls results := by
  have run : (Sample.helloReader.calls Sample.codec Sample.hello Sample.helloCalls).map (fun r => r.1[5]?) =
      some (some (.verify (.ok ()))) := by decide +kernel
  obtain ⟨⟨results, vr⟩, found, accepted⟩ := Option.map_eq_some_iff.mp run
  exact ⟨results, vr, found, accepted,
    verifyReader_calls Sample.codec boundedPieces Sample.helloReader.source Sample.hello (by decide) rfl found⟩

end OrasGo
