import OrasGo.Content.Reader

/-! `httputil.readSeekCloser`: an HTTP response body that is sought by new requests. -/

namespace OrasGo.Httputil

/-- What is used of a response; `request` is the `%s %q` text of its method and URL. -/
structure Response where
  statusCode : Nat
  request : String
  body : Stream

/-- The client answers a request for the bytes between two positions, both included. -/
abbrev Client := Int → Int → Except Error Response

/-- `readSeekCloser`. Bodies are numbered as they arrive; `body` is the number of `rc`, unless
that is `http.NoBody`. `Close`, which sets `closed`, ends a run. -/
structure ReadSeekCloser where
  request : String
  rc : Stream
  size : Int
  offset : Int := 0
  closed : Bool := false
  body : Option Nat := some 0
  bodies : Nat := 1
  closedBodies : List Nat := []

/-- Where a seek leads from `position` in `size` bytes, with `io.SeekCurrent`, `io.SeekStart` and
`io.SeekEnd`. The sums are taken to fit in `int64`. -/
def target (position size offset whence : Int) : Option Int :=
  if whence = 1 then some (offset + position)
  else if whence = 0 then some offset
  else if whence = 2 then some (offset + size)
  else none

namespace ReadSeekCloser

/-- `Read` into a buffer of length `k`. -/
def read (s : ReadSeekCloser) (k : Nat) : Chunk × ReadSeekCloser :=
  if s.closed then (([], some (.failed (.text "read: already closed"))), s)
  else ((s.rc.read k).1, { s with rc := (s.rc.read k).2, offset := s.offset + (s.rc.read k).1.1.length })

/-- `rc.Close`, and `rc` becomes another body. -/
def replace (s : ReadSeekCloser) (rc : Stream) (body : Option Nat) (offset : Int) : ReadSeekCloser :=
  { s with rc, body, offset, closedBodies := s.closedBodies ++ s.body.toList }

/-- `Seek`. -/
def seek (client : Client) (s : ReadSeekCloser) (offset whence : Int) : Except Error Int × ReadSeekCloser :=
  if s.closed then (.error (.text "seek: already closed"), s) else
  match target s.offset s.size offset whence with
  | none => (.error (.text "seek: invalid whence"), s)
  | some offset =>
    if offset < 0 then
      (.error (.text "seek: an attempt was made to move the pointer before the beginning of the content"), s)
    else if offset = s.offset then (.ok offset, s)
    else if s.size ≤ offset then (.ok offset, s.replace { chunks := [] } none offset)
    else match client offset (s.size - 1) with
    | .error err => (.error (.wrap ("seek: " ++ s.request) err), s)
    | .ok resp =>
      if resp.statusCode = 206 then
        (.ok offset, { s.replace resp.body (some s.bodies) offset with bodies := s.bodies + 1 })
      else (.error (.text ("seek: " ++ resp.request ++ ": unexpected status code " ++ toString resp.statusCode)),
        { s with bodies := s.bodies + 1, closedBodies := s.closedBodies ++ [s.bodies] })

end ReadSeekCloser

section
variable {content : Bytes}

/-- A partial response has exactly the bytes asked for. -/
def Honest (content : Bytes) (client : Client) : Prop :=
  ∀ first last resp, client first last = .ok resp → resp.statusCode = 206 →
    resp.body.bytes = (content.take (last + 1).toNat).drop first.toNat ∧ resp.body.ending = .eof

/-- The seeker beside a reader over the content in memory, of which the position is shown: it
reads as many bytes as the seeker returns, and makes the seeks that succeed. -/
inductive Lockstep (content : Bytes) : ReadSeekCloser → Nat → Prop
  | new (request : String) (rc : Stream) (whole : rc.bytes = content) (eof : rc.ending = .eof) :
    Lockstep content { request, rc, size := content.length } 0
  | read {s : ReadSeekCloser} {pos : Nat} (before : Lockstep content s pos) (k : Nat) :
    Lockstep content (s.read k).2 (pos + (s.read k).1.1.length)
  | sought {s : ReadSeekCloser} {pos : Nat} (before : Lockstep content s pos) {client : Client}
    (honest : Honest content client) (offset whence p : Int) (done : (s.seek client offset whence).1 = .ok p) :
    Lockstep content (s.seek client offset whence).2 ((target pos content.length offset whence).getD pos).toNat
  | failed {s : ReadSeekCloser} {pos : Nat} (before : Lockstep content s pos) {client : Client}
    (honest : Honest content client) (offset whence : Int) (err : Error)
    (failed : (s.seek client offset whence).1 = .error err) :
    Lockstep content (s.seek client offset whence).2 pos

structure At (content : Bytes) (s : ReadSeekCloser) (pos : Nat) : Prop where
  closed : s.closed = false
  size : s.size = content.length
  offset : s.offset = pos
  rest : s.rc.bytes = content.drop pos
  eof : s.rc.ending = .eof
  bodies : ∀ id < s.bodies, s.body = some id ∨ id ∈ s.closedBodies

variable {s : ReadSeekCloser} {pos : Nat} (here : At content s pos)
include here

theorem At.read (k : Nat) : At content (s.read k).2 (pos + (s.read k).1.1.length) := by
  obtain ⟨closed, size, offset, rest, eof, bodies⟩ := here
  obtain ⟨split, -, -, -, ending⟩ := s.rc.read_spec k
  unfold ReadSeekCloser.read
  rw [closed]
  refine ⟨rfl, size, by simp [offset], ?_, ending.trans eof, bodies⟩
  change (s.rc.read k).2.bytes = content.drop (pos + (s.rc.read k).1.1.length)
  rw [← List.drop_drop, ← rest, ← split]
  simp

theorem At.replace (rc : Stream) (eof : rc.ending = .eof) {p : Nat} (rest : rc.bytes = content.drop p) (body : Option Nat)
    (more : Nat) (new : ∀ id < s.bodies + more, id < s.bodies ∨ body = some id) :
    At content { s.replace rc body p with bodies := s.bodies + more } p := by
  refine ⟨here.closed, here.size, rfl, rest, eof, ?_⟩
  intro id known
  rcases new id known with old | current
  · rcases here.bodies id old with current | closed
    · exact .inr (List.mem_append_right _ (by simp [current]))
    · exact .inr (List.mem_append_left _ closed)
  · exact .inl current

theorem At.seek {client : Client} (honest : Honest content client) (offset whence : Int) :
    (∃ p : Nat, (s.seek client offset whence).1 = .ok (p : Int) ∧
      target pos content.length offset whence = some (p : Int) ∧ At content (s.seek client offset whence).2 p) ∨
    (∃ err, (s.seek client offset whence).1 = .error err) ∧ At content (s.seek client offset whence).2 pos := by
  unfold ReadSeekCloser.seek
  rw [here.closed, here.size, here.offset]
  cases target pos content.length offset whence with
  | none => exact .inr ⟨⟨_, rfl⟩, here⟩
  | some p =>
    simp only [Bool.false_eq_true, if_false]
    split
    · exact .inr ⟨⟨_, rfl⟩, here⟩
    rename_i natural
    obtain ⟨p, rfl⟩ := Int.eq_ofNat_of_zero_le (Int.not_lt.mp natural)
    split
    · rename_i unmoved
      exact .inl ⟨p, rfl, rfl, Int.ofNat.inj unmoved ▸ here⟩
    split
    · rename_i beyond
      have beyondEnd := List.drop_of_length_le (Int.ofNat_le.mp beyond)
      exact .inl ⟨p, rfl, rfl, here.replace { chunks := [] } rfl beyondEnd.symm none 0 fun id old => .inl old⟩
    cases answer : client p (content.length - 1) with
    | error err => exact .inr ⟨⟨_, rfl⟩, here⟩
    | ok resp =>
      simp only
      split
      · rename_i part
        obtain ⟨bytes, eof⟩ := honest _ _ resp answer part
        refine .inl ⟨p, rfl, rfl, here.replace _ eof ?_ _ 1 fun id known => ?_⟩
        · simpa using bytes
        · rw [Option.some.injEq]
          omega
      · refine .inr ⟨⟨_, rfl⟩, rfl, rfl, rfl, here.rest, here.eof, ?_⟩
        intro id known
        rcases Nat.lt_succ_iff_lt_or_eq.mp known with old | rfl
        · exact (here.bodies id old).imp_right (List.mem_append_left _)
        · exact .inr (by simp)

end

/-- In every run the seeker reads and seeks as the reader in memory does, except that a seek may
fail, and only the body that it reads from is not closed. -/
theorem readSeekCloser_refines {content : Bytes} {s : ReadSeekCloser} {pos : Nat} (run : Lockstep content s pos) :
    s.offset = pos ∧
      (∀ k, (s.read k).1.1.length ≤ k ∧ (s.read k).1.1 <+: content.drop pos ∧
        (0 < k → (s.read k).1.1 = [] → (s.read k).1.2 = some .eof) ∧
        ∀ ending, (s.read k).1.2 = some ending → ending = .eof ∧ (s.read k).1.1 = content.drop pos) ∧
      (∀ client offset whence p, Honest content client → (s.seek client offset whence).1 = .ok p →
        target pos content.length offset whence = some p ∧ 0 ≤ p) ∧
      ∀ id < s.bodies, s.body = some id ∨ id ∈ s.closedBodies := by
  have here : At content s pos := by
    induction run with
    | new request rc whole eof => exact ⟨rfl, rfl, rfl, whole, eof, by simp⟩
    | read _ k here => exact here.read k
    | sought _ honest offset whence p done here =>
      rcases here.seek honest offset whence with ⟨p', -, moved, there⟩ | ⟨⟨err, failed⟩, -⟩
      · simpa [moved] using there
      · rw [done] at failed
        cases failed
    | failed _ honest offset whence err failed here =>
      rcases here.seek honest offset whence with ⟨p', done, -⟩ | ⟨-, there⟩
      · rw [done] at failed
        cases failed
      · exact there
  refine ⟨here.offset, ?_, ?_, here.bodies⟩
  · intro k
    obtain ⟨split, fits, progress, last, -⟩ := s.rc.read_spec k
    have read : (s.read k).1 = (s.rc.read k).1 := by simp [ReadSeekCloser.read, here.closed]
    rw [here.rest] at split
    rw [read]
    refine ⟨fits, ⟨_, split⟩, fun some none => here.eof ▸ (progress some none).2, ?_⟩
    intro ending ended
    obtain ⟨same, nothing⟩ := last ending ended
    exact ⟨same.trans here.eof, by simpa [nothing] using split⟩
  · intro client offset whence p honest done
    rcases here.seek honest offset whence with ⟨p', done', moved, -⟩ | ⟨⟨err, failed⟩, -⟩
    · cases done.symm.trans done'
      exact ⟨moved, Int.natCast_nonneg p'⟩
    · rw [done] at failed
      cases failed

namespace Sought

def content : Bytes := [7, 8, 9]

/-- Answers with the bytes asked for. -/
def serving : Client := fun first last =>
  .ok ⟨206, "GET \"/v2/\"", { chunks := [(content.take (last + 1).toNat).drop first.toNat] }⟩

/-- Answers with an error page. -/
def refusing : Client := fun _ _ => .ok ⟨500, "GET \"/v2/\"", { chunks := [[0]] }⟩

theorem serving_honest : Honest content serving := by
  intro first last resp answer _
  cases answer
  exact ⟨List.flatten_singleton, rfl⟩

theorem refusing_honest : Honest content refusing := by
  intro first last resp answer part
  cases answer
  cases part

def start : ReadSeekCloser := { request := "GET \"/v2/\"", rc := { chunks := [[7, 8], [9]] }, size := 3 }

/-- Two bytes are read, one of them again after a seek, and a seek to the start is refused. -/
def refused : ReadSeekCloser :=
  ((((start.read 2).2.seek serving 1 0).2.read 1).2.seek refusing (-2) 1).2

/-- Then the seeker goes beyond the end, and fails to leave the content at its beginning. -/
def beyond : ReadSeekCloser := ((refused.seek serving 2 2).2.seek serving (-6) 1).2

theorem refused_run : Lockstep content refused 2 := by
  have opened : Lockstep content start 0 := .new _ _ rfl rfl
  have sought := (opened.read 2).sought serving_honest 1 0 1 rfl
  exact (sought.read 1).failed refusing_honest (-2) 1 _ rfl

theorem beyond_run : Lockstep content beyond 5 :=
  (refused_run.sought serving_honest 2 2 5 rfl).failed serving_honest (-6) 1 _ rfl

end Sought

open Sought in
theorem readSeekCloser_refines_sought :
    (Lockstep content refused 2 ∧ refused.offset = 2 ∧ (refused.read 4).1.1 <+: [9] ∧ refused.closedBodies = [0, 2]) ∧
      Lockstep content beyond 5 ∧ beyond.offset = 5 ∧ (beyond.read 4).1 = ([], some .eof) ∧
        ∀ id < 3, beyond.body = some id ∨ id ∈ beyond.closedBodies := by
  obtain ⟨offset, reads, -, -⟩ := readSeekCloser_refines refused_run
  obtain ⟨offset', -, -, bodies⟩ := readSeekCloser_refines beyond_run
  exact ⟨⟨refused_run, offset, (reads 4).2.1, rfl⟩, beyond_run, offset', rfl, bodies⟩

end OrasGo.Httputil
