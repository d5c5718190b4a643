import OrasGo.Base.Trace
import OrasGo.Cas.Proxy

/-! What passes through the pipe between a caller of `Proxy.Fetch` and the goroutine that
pushes to the cache. -/

namespace OrasGo.Cas
open Interleaving

/-- How far a caller has come. `missed` is a caller that did not find its content cached;
it is `reading` once it has a pipe, but for the time in which it is `writing` to it. -/
inductive Stage
  | idle
  | hit (content : Bytes)
  | missed
  | reading
  | writing
  | closed
  | ended (pushErr : Option Error)

/-- The caller has a pipe. -/
def Stage.opened : Stage → Bool
  | .reading | .writing | .closed | .ended _ => true
  | _ => false

/-- The caller has closed its pipe. -/
def Stage.shut : Stage → Bool
  | .closed | .ended _ => true
  | _ => false

/-- `drawn` is what the caller has read from the base storage, and `broken` says that one of
its writes failed. -/
structure Flow where
  stage : Stage := .idle
  drawn : Bytes := []
  broken : Bool := false

/-- How far the goroutine that pushes has come; `met` says that it has met its content in the
cache. -/
inductive PushStage
  | reading (met : Bool)
  | closing (met : Bool) (err : Error)
  | finished (met : Bool) (pushErr : Option Error)

def PushStage.met : PushStage → Bool
  | .reading met | .closing met _ | .finished met _ => met

inductive Local
  | caller (flow : Flow)
  | pusher (taken : Taken) (stage : PushStage)

/-- What a goroutine knows after an operation. -/
def Local.after : (op : ProxyOp) → ProxyAns op → Local → Local
  | .load _, some content, .caller flow => .caller { flow with stage := .hit content }
  | .load _, none, .caller flow => .caller { flow with stage := .missed }
  | .goPush _, _, .caller flow => .caller { flow with stage := .reading }
  | .offer bytes, _, .caller flow => .caller { flow with stage := .writing, drawn := flow.drawn ++ bytes }
  | .await _, none, .caller flow => .caller { flow with stage := .reading }
  | .await _, some _, .caller flow => .caller { flow with stage := .reading, broken := true }
  | .closeWriter, _, .caller flow => .caller { flow with stage := .closed }
  | .wait, pushErr, .caller flow => .caller { flow with stage := .ended pushErr }
  | .load _, some _, .pusher taken _ => .pusher taken (.reading true)
  | .loadOrStore _ _, true, .pusher taken _ => .pusher taken (.reading true)
  | .readPipe _ _, chunk, .pusher taken stage => .pusher ⟨taken.bytes ++ chunk.1, chunk.2.or taken.ended⟩ stage
  | .closeWithError _ err, _, .pusher taken stage => .pusher taken (.closing stage.met err)
  | .done _ pushErr, _, .pusher taken stage => .pusher taken (.finished stage.met pushErr)
  | _, _, l => l

/-- The goroutine that an operation of goroutine `t` starts. -/
def started (t : Nat) : ProxyOp → List (Role × Local)
  | .goPush target => [(.pusher t target, .pusher {} (.reading false))]
  | _ => []

/-- The operation looks for a key that is cached. -/
def ProxyOp.finds (s : ProxyState) : ProxyOp → Bool
  | .load key | .loadOrStore key _ => key ∈ s.cache
  | _ => false

section
variable (p : Proxy) (cd : Codec)

/-- The callers and the goroutines that push, with a list of those that have looked for a key while
it was cached. -/
def proxyMachine : Machine ProxyOp ProxyAns (ProxyState × List Nat) Role ProxyResult :=
  (proxyReply p cd).machine.recorded fun s t op _ found => if op.finds s then t :: found else found

/-- The cache does not take contents of this size. -/
def Proxy.TooLarge (target : Descriptor) : Prop := ∃ limit, p.pushLimit = some limit ∧ limit < target.size

/-- What the result of `Cache.Push` says about the bytes that it has taken from the pipe. -/
def PushVerdict (target : Descriptor) (met : Bool) (taken : Taken) : Option Error → Prop
  | none => met = false ∧ ¬ p.TooLarge target ∧ Matches cd target taken.bytes ∧
      (p.pushLimit = none → taken.ended = some .eof)
  | some _ => met = true ∨ p.TooLarge target ∨ (∃ cause, taken.ended = some (.failed cause)) ∨
      (taken.ended = some .eof ∧ ¬ Matches cd target taken.bytes) ∨ ∀ rest, ¬ Matches cd target (taken.bytes ++ rest)

def callerPre (call : FetchCall) (flow : Flow) : ProxyOp → Prop
  | .load key => key = fromOCI call.target ∧ flow.stage.opened = false ∧ flow.drawn = [] ∧ flow.broken = false
  | .goPush target => target = call.target ∧ flow = { stage := .missed } ∧ p.stopCaching = false ∧
      ∃ blob, call.base = .ok blob
  | .offer bytes => flow.stage = .reading ∧ (flow.broken = false →
      ∃ blob, call.base = .ok blob ∧ flow.drawn ++ bytes <+: blob.content.bytes)
  | .await _ => flow.stage = .writing
  | .closeWriter => flow.stage = .reading
  | .wait => flow.stage = .closed
  | _ => False

def pusherPre (t : Nat) (target : Descriptor) (taken : Taken) : PushStage → ProxyOp → Prop
  | .reading met, .load _ => met = false
  | .reading met, .loadOrStore key value =>
    key = fromOCI target ∧ value = taken.bytes ∧ PushVerdict p cd target met taken none
  | .reading _, .readPipe t' k => t' = t ∧ 0 < k
  | .reading met, .closeWithError t' err => t' = t ∧ PushVerdict p cd target met taken (some err)
  | .reading met, .done t' none => t' = t ∧ PushVerdict p cd target met taken none
  | .closing _ err', .done t' (some err) => t' = t ∧ err = err'
  | _, _ => False

def proxyPre : Role → Local → ProxyOp → Prop
  | .caller call, .caller flow, op => callerPre p call flow op
  | .pusher t target, .pusher taken stage, op => pusherPre p cd t target taken stage op
  | _, _, _ => False

/-- A read from the pipe returns no more than fits, and something. -/
def pipeAnswer : (op : ProxyOp) → ProxyAns op → Prop
  | .readPipe _ k, chunk => chunk.1.length ≤ k ∧ (chunk.1 = [] → chunk.2 ≠ none)
  | _, _ => True

def proxyGhost (role : Role) : Ghost ProxyOp ProxyAns Local where
  pre op l := proxyPre p cd role l op
  next op a l l' := pipeAnswer op a ∧ l' = l.after op a

/-- What the caller has been given, and the error of `Close`. -/
def CallerPost (call : FetchCall) (flow : Flow) (taken : Taken) (err : Option Error) : Prop :=
  (∃ content s, flow.stage = .hit content ∧ Stream.Follows content .eof taken s ∧ err = none) ∨
  (p.stopCaching = true ∧ flow.stage = .missed ∧ ∃ blob s, call.base = .ok blob ∧
    Stream.Follows blob.content.bytes blob.content.ending taken s ∧ err = blob.closing) ∨
  ∃ blob pushErr, call.base = .ok blob ∧ flow.stage = .ended pushErr ∧ err = pushErr.or blob.closing ∧
    (flow.broken = false → flow.drawn = taken.bytes ∧
      ∃ s, Stream.Follows blob.content.bytes blob.content.ending taken s)

def proxyPost : Role → ProxyResult → Local → Prop
  | .caller _, .failed _, .caller flow => flow.stage.opened = false
  | .caller call, .closed _ taken err, .caller flow => CallerPost p call flow taken err
  | .pusher _ _, .pushed err, .pusher _ stage => ∃ met, stage = .finished met err
  | _, _, _ => False

end

section Caller
variable {p : Proxy} {cd : Codec} {call : FetchCall} {α : Type}

/-- As long as its writes succeed, the caller is given what it draws. -/
structure Flow.Gives (blob : Blob) (flow : Flow) (taken : Taken) (s : Stream) : Prop where
  stage : flow.stage = .reading
  drawn : flow.broken = false → flow.drawn = taken.bytes
  follows : flow.broken = false → s.Follows blob.content.bytes blob.content.ending taken

theorem wp_tee {blob : Blob} (base : call.base = .ok blob) (program : Consumer α) {s : Stream} {flow : Flow} {taken : Taken}
    (gives : flow.Gives blob taken s) :
    wp (proxyGhost p cd (.caller call)) (ProxyCode.tee (observe program taken) s)
      (fun read l => ∃ flow' s', l = .caller flow' ∧ flow'.Gives blob read.2 s') (.caller flow) := by
  induction program generalizing s flow taken with
  | ret value => exact ⟨flow, s, rfl, gives⟩
  | call k next ih =>
    obtain ⟨stage, drawn, follows⟩ := gives
    unfold observe ProxyCode.tee
    by_cases nothing : (s.read k).1.1 = []
    · rw [if_pos nothing]
      refine ih _ ⟨stage, fun whole => ?_, fun whole => (follows whole).read k⟩
      rw [nothing, List.append_nil]
      exact drawn whole
    rw [if_neg nothing]
    refine ⟨⟨stage, fun whole => ⟨blob, base, (s.read k).2.bytes, ?_⟩⟩, ?_⟩
    · have same := (follows whole).bytes
      rw [drawn whole, List.append_assoc, (s.read_spec k).1]
      exact same
    rintro _ _ ⟨_, rfl⟩
    refine ⟨rfl, ?_⟩
    rintro answer _ ⟨_, rfl⟩
    cases answer with
    | none =>
      refine ih _ ⟨rfl, fun whole => ?_, fun whole => (follows whole).read k⟩
      change flow.drawn ++ _ = taken.bytes ++ _
      rw [drawn whole]
    | some failure => exact ih _ ⟨rfl, nofun, nofun⟩

theorem wp_readTee {blob : Blob} (base : call.base = .ok blob) (caching : p.stopCaching = false) :
    wp (proxyGhost p cd (.caller call)) (readTee call blob) (proxyPost p (.caller call)) (.caller { stage := .missed }) := by
  refine ⟨⟨rfl, rfl, caching, blob, base⟩, ?_⟩
  rintro _ _ ⟨_, rfl⟩
  have gives : Flow.Gives blob { stage := .reading } {} blob.content := ⟨rfl, fun _ => rfl, fun _ => blob.content.follows⟩
  refine wp_seq (p := ProxyCode.tee (observe call.consumer {}) blob.content) _ (wp_tee base call.consumer gives)
    fun read l given => ?_
  obtain ⟨flow, s, rfl, stage, drawn, follows⟩ := given
  refine ⟨stage, ?_⟩
  rintro _ _ ⟨_, rfl⟩
  refine ⟨rfl, ?_⟩
  rintro pushErr _ ⟨_, rfl⟩
  have post : CallerPost p call { flow with stage := .ended pushErr } read.2 (pushErr.or blob.closing) :=
    .inr (.inr ⟨blob, pushErr, base, rfl, rfl, fun whole => ⟨drawn whole, s, follows whole⟩⟩)
  cases pushErr <;> exact post

theorem post_readCached {flow : Flow} {content : Bytes} (stage : flow.stage = .hit content) :
    proxyPost p (.caller call) (call.readCached (.ok content)) (.caller flow) := by
  obtain ⟨s, follows⟩ := (Stream.run_observe call.consumer (Stream.follows { chunks := [content] })).2
  rw [Stream.bytes, List.flatten_singleton] at follows
  exact .inl ⟨content, s, stage, follows, rfl⟩

theorem wp_fetchCached (stopped : p.stopCaching = true) :
    wp (proxyGhost p cd (.caller call)) (fetchCached call) (proxyPost p (.caller call)) (.caller {}) := by
  refine ⟨⟨rfl, rfl, rfl, rfl⟩, ?_⟩
  rintro found _ ⟨_, rfl⟩
  cases found with
  | some content =>
    refine ⟨⟨rfl, rfl, rfl, rfl⟩, ?_⟩
    rintro found _ ⟨_, rfl⟩
    cases found with
    | some content => exact post_readCached rfl
    | none => exact rfl
  | none =>
    change proxyPost p (.caller call) call.readBase _
    unfold FetchCall.readBase
    split
    · rename_i blob base
      obtain ⟨s, follows⟩ := (Stream.run_observe call.consumer blob.content.follows).2
      exact .inr (.inl ⟨stopped, rfl, blob, s, base, follows, rfl⟩)
    · exact rfl

theorem wp_fetchThrough : wp (proxyGhost p cd (.caller call)) (fetchThrough p call) (proxyPost p (.caller call)) (.caller {}) := by
  unfold fetchThrough
  cases stopped : p.stopCaching with
  | true => exact wp_fetchCached stopped
  | false =>
    refine ⟨⟨rfl, rfl, rfl, rfl⟩, ?_⟩
    rintro found _ ⟨_, rfl⟩
    cases found with
    | some content => exact post_readCached rfl
    | none =>
      change wp _ (fetchFound call (.error _)) _ _
      rw [fetchFound]
      split
      · exact rfl
      · rename_i blob base
        exact wp_readTee base stopped

end Caller

section Pusher
variable {p : Proxy} {cd : Codec} {t : Nat} {target : Descriptor} {α : Type}

/-- A program that reads from the pipe knows of its bytes what it knows of a reader's. -/
theorem wp_fromPipe {program : Consumer α} {post : α → Taken → Prop} {taken : Taken}
    (outline : wp takenGhost program post taken) :
    wp (proxyGhost p cd (.pusher t target)) (ProxyCode.fromPipe t program)
      (fun value l => ∃ taken', l = .pusher taken' (.reading false) ∧ post value taken') (.pusher taken (.reading false)) := by
  induction program generalizing taken with
  | ret value => exact ⟨taken, rfl, outline⟩
  | call k next ih =>
    obtain ⟨positive, follows⟩ := outline
    refine ⟨⟨rfl, positive⟩, ?_⟩
    rintro chunk _ ⟨⟨fits, progress⟩, rfl⟩
    exact ih chunk (follows _ _ ⟨fits, progress, rfl⟩)

/-- What `ReadAll` says about what it has taken, with a limit in front of it or not. -/
def ReadVerdict (p : Proxy) (cd : Codec) (target : Descriptor) (taken : Taken) : Except Error Bytes → Prop
  | .ok content => content = taken.bytes ∧ PushVerdict p cd target false taken none
  | .error err => PushVerdict p cd target false taken (some err)

theorem wp_push {read : ProxyCode (Except Error Bytes)}
    (outline : wp (proxyGhost p cd (.pusher t target)) read
      (fun value l => ∃ taken, l = .pusher taken (.reading false) ∧ ReadVerdict p cd target taken value)
      (.pusher {} (.reading false))) :
    wp (proxyGhost p cd (.pusher t target)) (push ProxyCode.load ProxyCode.loadOrStore target read)
      (fun err l => ∃ taken met, l = .pusher taken (.reading met) ∧ PushVerdict p cd target met taken err)
      (.pusher {} (.reading false)) := by
  refine ⟨rfl, ?_⟩
  rintro found _ ⟨_, rfl⟩
  cases found with
  | some content => exact ⟨{}, true, rfl, .inl rfl⟩
  | none =>
    refine wp_seq (p := read) _ outline fun value l given => ?_
    obtain ⟨taken, rfl, verdict⟩ := given
    cases value with
    | error err => exact ⟨taken, false, rfl, verdict⟩
    | ok content =>
      obtain ⟨rfl, fine⟩ := verdict
      refine ⟨⟨rfl, rfl, fine⟩, ?_⟩
      rintro loaded _ ⟨_, rfl⟩
      cases loaded with
      | true => exact ⟨taken, true, rfl, .inl rfl⟩
      | false => exact ⟨taken, false, rfl, fine⟩

theorem readVerdict_unlimited (unlimited : p.pushLimit = none) {result : Except Error Bytes} {taken : Taken}
    (outcome : ReadOutcome cd target result taken) : ReadVerdict p cd target taken result := by
  cases result with
  | error err => exact .inr (.inr outcome)
  | ok content =>
    obtain ⟨rfl, matching, ended⟩ := outcome
    refine ⟨rfl, rfl, ?_, matching, fun _ => ended⟩
    rintro ⟨limit, limited, _⟩
    cases unlimited.symm.trans limited

/-- The end that the limit makes comes when all bytes of the content would have been read. -/
theorem readVerdict_limited {limit : Int} (limited : p.pushLimit = some limit) (fits : target.size ≤ limit)
    {result : Except Error Bytes} {seen taken : Taken} (outcome : ReadOutcome cd target result seen)
    (same : seen.bytes = taken.bytes)
    (ended : seen.ended = taken.ended ∨ taken.bytes.length = target.size.toNat ∧ seen.ended = some .eof) :
    ReadVerdict p cd target taken result := by
  cases result with
  | ok content =>
    obtain ⟨rfl, matching, _⟩ := outcome
    refine ⟨same, rfl, ?_, same ▸ matching, fun unlimited => nomatch unlimited.symm.trans limited⟩
    rintro ⟨limit', limited', large⟩
    cases limited.symm.trans limited'
    omega
  | error err =>
    rcases outcome with ⟨cause, failed⟩ | ⟨atEnd, other⟩ | other
    · refine .inr (.inr (.inl ⟨cause, ?_⟩))
      rcases ended with real | ⟨_, virtual⟩
      · rw [← real, failed]
      · cases failed.symm.trans virtual
    · rw [same] at other
      rcases ended with real | ⟨full, _⟩
      · exact .inr (.inr (.inr (.inl ⟨real ▸ atEnd, other⟩)))
      · refine .inr (.inr (.inr (.inr fun rest matching => ?_)))
        have size := matching.size
        rw [List.length_append] at size
        have nothing : rest = [] := List.length_eq_zero_iff.mp (by omega)
        rw [nothing, List.append_nil] at matching
        exact other matching
    · rw [same] at other
      exact .inr (.inr (.inr (.inr other)))

theorem wp_cachePush : wp (proxyGhost p cd (.pusher t target)) (cachePush p cd t target)
    (fun err l => ∃ taken met, l = .pusher taken (.reading met) ∧ PushVerdict p cd target met taken err)
    (.pusher {} (.reading false)) := by
  unfold cachePush
  split
  · rename_i unlimited
    refine wp_push (wp_mono _ (fun value l given => ?_) (wp_fromPipe wp_readAllFrom))
    obtain ⟨taken, rfl, outcome⟩ := given
    exact ⟨taken, rfl, readVerdict_unlimited unlimited outcome⟩
  · rename_i limit limited
    split
    · rename_i large
      exact ⟨{}, false, rfl, .inr (.inl ⟨limit, limited, large⟩)⟩
    · rename_i fits
      have read : wp takenGhost (readAllFrom cd target) (ReadOutcome cd target) {} := wp_readAllFrom
      have outline := wp_limitReader (n := target.size.toNat) read rfl (Nat.zero_add _) (.inl rfl)
      refine wp_push (wp_mono _ (fun value l given => ?_) (wp_fromPipe outline))
      obtain ⟨taken, rfl, seen, outcome, same, ended⟩ := given
      exact ⟨taken, rfl, readVerdict_limited limited (by omega) outcome same ended⟩

theorem wp_goPush : wp (proxyGhost p cd (.pusher t target)) (goPush p cd t target) (proxyPost p (.pusher t target))
    (.pusher {} (.reading false)) := by
  refine wp_seq _ wp_cachePush fun err l given => ?_
  obtain ⟨taken, met, rfl, verdict⟩ := given
  cases err with
  | none =>
    refine ⟨⟨rfl, verdict⟩, ?_⟩
    rintro _ _ ⟨_, rfl⟩
    exact ⟨met, rfl⟩
  | some err =>
    refine ⟨⟨rfl, verdict⟩, ?_⟩
    rintro _ _ ⟨_, rfl⟩
    refine ⟨⟨rfl, rfl⟩, ?_⟩
    rintro _ _ ⟨_, rfl⟩
    exact ⟨met, rfl⟩

end Pusher

def PushStage.readerErr : PushStage → Option Error
  | .reading _ => none
  | .closing _ err => some err
  | .finished _ pushErr => pushErr

def PushStage.pushErr : PushStage → Option (Option Error)
  | .finished _ pushErr => some pushErr
  | _ => none

/-- The result of `Cache.Push`, once it is known. -/
def PushStage.result : PushStage → Option (Option Error)
  | .reading _ => none
  | .closing _ err => some (some err)
  | .finished _ pushErr => some pushErr

section Invariant
variable (p : Proxy) (cd : Codec)

/-- The two sides of a pipe. -/
structure TransferInv (call : FetchCall) (pipe : Pipe) (flow : Flow) (taken : Taken) (stage : PushStage) : Prop where
  opened : flow.stage.opened = true
  flows : flow.broken = false → flow.drawn = taken.bytes ++ pipe.offered
  quiet : flow.stage ≠ .writing → flow.broken = false → pipe.offered = []
  source : ∃ blob, call.base = .ok blob ∧ taken.bytes <+: blob.content.bytes ∧
    (flow.broken = false → flow.drawn <+: blob.content.bytes)
  writer : pipe.writerClosed = flow.stage.shut
  reader : pipe.readerErr = stage.readerErr
  pushErr : pipe.pushErr = stage.pushErr
  broken : flow.broken = true → pipe.readerErr ≠ none
  ended : ∀ reason, taken.ended = some reason → reason = .eof ∧ pipe.writerClosed = true ∧ flow.broken = false
  waited : ∀ err, flow.stage = .ended err → pipe.pushErr = some err
  verdict : ∀ err, stage.result = some err → PushVerdict p cd call.target stage.met taken err

/-- A caller, its call, its pipe, and the cache that it has looked into. -/
structure CallerInv (cache₀ cache : Contents) (pipe : Pipe) (call : FetchCall) (flow : Flow) : Prop where
  hit : ∀ content, flow.stage = .hit content → cache.lookup (fromOCI call.target) = some content
  missed : flow.stage = .missed ∨ flow.stage.opened = true → cache₀.lookup (fromOCI call.target) = none
  caching : flow.stage.opened = true → p.stopCaching = false
  fresh : flow.stage.opened = false → pipe = {}

/-- The cache has its first contents and what pushes have added; a caller that is past its
first look has one goroutine that pushes, at the other end of its pipe. -/
structure ProxyInv (cache₀ : Contents) (calls : List FetchCall) (s : ProxyState) (ghosts : List (Role × Local)) : Prop where
  kept : ∀ key value, cache₀.lookup key = some value → s.cache.lookup key = some value
  origin : ∀ key value, s.cache.lookup key = some value → cache₀.lookup key = some value ∨
    ∃ call blob, call ∈ calls ∧ call.base = .ok blob ∧ fromOCI call.target = key ∧ value <+: blob.content.bytes ∧
      Matches cd call.target value ∧ ¬ p.TooLarge call.target
  caller : ∀ (t : Nat) (call : FetchCall) (l : Local), ghosts[t]? = some (.caller call, l) →
    call ∈ calls ∧ ∃ flow, l = .caller flow ∧ CallerInv p cache₀ s.cache (s.pipes t) call flow ∧
      (flow.stage.opened = true → .pusher t call.target ∈ ghosts.map Prod.fst)
  pusher : ∀ (i t : Nat) (target : Descriptor) (l : Local), ghosts[i]? = some (.pusher t target, l) →
    ∃ call flow taken stage, ghosts[t]? = some (.caller call, .caller flow) ∧ l = .pusher taken stage ∧
      call.target = target ∧ TransferInv p cd call (s.pipes t) flow taken stage
  alone : ∀ (i j t : Nat) (target target' : Descriptor), (ghosts.map Prod.fst)[i]? = some (.pusher t target) →
    (ghosts.map Prod.fst)[j]? = some (.pusher t target') → i = j

end Invariant

section Steps
variable {p : Proxy} {cd : Codec} {cache₀ : Contents} {calls : List FetchCall} {s s' : ProxyState}
  {ghosts : List (Role × Local)} {t : Nat} {call : FetchCall} {flow : Flow}

section

variable (inv : ProxyInv p cd cache₀ calls s ghosts)
include inv

theorem ProxyInv.caller_moves {flow' : Flow} {pipe : Pipe} (found : ghosts[t]? = some (.caller call, .caller flow))
    (state : s' = s.update t pipe) (cached : CallerInv p cache₀ s.cache pipe call flow')
    (opened : flow'.stage.opened = flow.stage.opened)
    (moved : ∀ taken stage, TransferInv p cd call (s.pipes t) flow taken stage →
      TransferInv p cd call pipe flow' taken stage) :
    ProxyInv p cd cache₀ calls s' (ghosts.set t (.caller call, .caller flow')) := by
  subst state
  obtain ⟨known, _, ⟨⟩, _, served⟩ := inv.caller t call _ found
  have roles := map_set_same Prod.fst found (y := (.caller call, .caller flow')) rfl
  refine { kept := inv.kept, origin := inv.origin, caller := ?_, pusher := ?_, alone := roles.symm ▸ inv.alone }
  · intro i call' l atI
    rw [roles]
    rcases getElem?_set_cases atI with ⟨rfl, same⟩ | ⟨other, old⟩
    · cases same
      rw [ProxyState.update_pipes]
      exact ⟨known, flow', rfl, cached, opened ▸ served⟩
    · rw [s.update_pipes_of_ne t pipe other]
      exact inv.caller i call' l old
  · intro i t' target l atI
    obtain ⟨_, old⟩ := (getElem?_set_cases atI).resolve_left fun ⟨_, same⟩ => nomatch same
    obtain ⟨call', flow₁, taken, stage, atT, rfl, same, transfer⟩ := inv.pusher i t' target l old
    by_cases own : t' = t
    · subst own
      cases found.symm.trans atT
      refine ⟨call, flow', taken, stage, ?_, rfl, same, ?_⟩
      · rw [List.getElem?_set_self (List.getElem?_eq_some_iff.mp found).1]
      · rw [ProxyState.update_pipes]
        exact moved taken stage transfer
    · refine ⟨call', flow₁, taken, stage, ?_, rfl, same, ?_⟩
      · rw [List.getElem?_set_ne (Ne.symm own)]
        exact atT
      · rw [s.update_pipes_of_ne t pipe own]
        exact transfer

theorem ProxyInv.pusher_moves {i : Nat} {target : Descriptor} {taken taken' : Taken} {stage stage' : PushStage}
    {pipe : Pipe} (found : ghosts[i]? = some (.pusher t target, .pusher taken stage)) (state : s' = s.update t pipe)
    (moved : ∀ call flow, call.target = target → TransferInv p cd call (s.pipes t) flow taken stage →
      TransferInv p cd call pipe flow taken' stage') :
    ProxyInv p cd cache₀ calls s' (ghosts.set i (.pusher t target, .pusher taken' stage')) := by
  subst state
  obtain ⟨call, flow, _, _, atT, ⟨⟩, target_eq, transfer⟩ := inv.pusher i t target _ found
  have roles := map_set_same Prod.fst found (y := (.pusher t target, .pusher taken' stage')) rfl
  have callers {j : Nat} {call' : FetchCall} {l : Local} (atJ : ghosts[j]? = some (.caller call', l)) :
      (ghosts.set i (.pusher t target, .pusher taken' stage'))[j]? = some (.caller call', l) := by
    rw [List.getElem?_set_ne]
    · exact atJ
    · rintro rfl
      cases found.symm.trans atJ
  refine { kept := inv.kept, origin := inv.origin, caller := ?_, pusher := ?_, alone := roles.symm ▸ inv.alone }
  · intro j call' l atJ
    obtain ⟨_, old⟩ := (getElem?_set_cases atJ).resolve_left fun ⟨_, same⟩ => nomatch same
    obtain ⟨known, flow₁, rfl, cached, served⟩ := inv.caller j call' l old
    refine ⟨known, flow₁, rfl, { cached with fresh := fun closed => ?_ }, roles.symm ▸ served⟩
    have other : j ≠ t := by
      rintro rfl
      cases old.symm.trans atT
      cases closed.symm.trans transfer.opened
    rw [s.update_pipes_of_ne t pipe other]
    exact cached.fresh closed
  · intro j t' target' l atJ
    rcases getElem?_set_cases atJ with ⟨rfl, same⟩ | ⟨other, old⟩
    · cases same
      refine ⟨call, flow, taken', stage', callers atT, rfl, target_eq, ?_⟩
      rw [ProxyState.update_pipes]
      exact moved call flow target_eq transfer
    · obtain ⟨call', flow₁, taken₁, stage₁, atT', rfl, same, transfer'⟩ := inv.pusher j t' target' l old
      refine ⟨call', flow₁, taken₁, stage₁, callers atT', rfl, same, ?_⟩
      have distinct : t' ≠ t := by
        rintro rfl
        exact other (inv.alone j i t' target' target (label_of_ghost old) (label_of_ghost found))
      rw [s.update_pipes_of_ne t pipe distinct]
      exact transfer'

/-- A caller that has missed its content gets a pipe, and a goroutine at its other end. -/
theorem ProxyInv.goPush (found : ghosts[t]? = some (.caller call, .caller { stage := .missed }))
    (caching : p.stopCaching = false) {blob : Blob} (base : call.base = .ok blob) :
    ProxyInv p cd cache₀ calls s (ghosts.set t (.caller call, .caller { stage := .reading }) ++
      [(.pusher t call.target, .pusher {} (.reading false))]) := by
  obtain ⟨known, _, ⟨⟩, cached, _⟩ := inv.caller t call _ found
  have inside : t < ghosts.length := (List.getElem?_eq_some_iff.mp found).1
  have nobody (i : Nat) (target : Descriptor) (l : Local) : ghosts[i]? ≠ some (.pusher t target, l) := by
    intro atI
    obtain ⟨_, _, _, _, atT, _, _, transfer⟩ := inv.pusher i t target l atI
    cases found.symm.trans atT
    cases transfer.opened
  -- A goroutine of the new list is the caller, the new one, or one of the others.
  have either {i : Nat} {g : Role × Local}
      (atI : (ghosts.set t (.caller call, .caller { stage := .reading }) ++
        [(.pusher t call.target, .pusher {} (.reading false))])[i]? = some g) :
      (i = t ∧ g = (.caller call, .caller { stage := .reading }) ∨ i ≠ t ∧ ghosts[i]? = some g) ∨
        g = (.pusher t call.target, .pusher {} (.reading false)) :=
    (getElem?_concat_cases atI).imp getElem?_set_cases And.right
  have roles : (ghosts.set t (.caller call, .caller { stage := .reading }) ++
      [(Role.pusher t call.target, Local.pusher {} (.reading false))]).map Prod.fst =
        ghosts.map Prod.fst ++ [.pusher t call.target] := by
    rw [List.map_append, map_set_same Prod.fst found (y := (.caller call, .caller { stage := .reading })) rfl]
    rfl
  refine { kept := inv.kept, origin := inv.origin, caller := ?_, pusher := ?_, alone := ?_ }
  · intro i call' l atI
    rw [roles, List.mem_append, List.mem_singleton]
    obtain (⟨rfl, ⟨⟩⟩ | ⟨_, old⟩) | ⟨⟨⟩⟩ := either atI
    · exact ⟨known, _, rfl, ⟨nofun, fun _ => cached.missed (.inl rfl), fun _ => caching, nofun⟩, fun _ => .inr rfl⟩
    · obtain ⟨known', flow', rfl, cached', served⟩ := inv.caller i call' l old
      exact ⟨known', flow', rfl, cached', fun opened => .inl (served opened)⟩
  · intro i t' target l atI
    obtain (⟨_, ⟨⟩⟩ | ⟨_, old⟩) | ⟨⟨⟩⟩ := either atI
    · obtain ⟨call', flow', taken, stage, atT', rest⟩ := inv.pusher i t' target l old
      refine ⟨call', flow', taken, stage, ?_, rest⟩
      have other : t ≠ t' := by
        rintro rfl
        exact nobody i target l old
      rw [List.getElem?_append_left (by simpa using (List.getElem?_eq_some_iff.mp atT').1), List.getElem?_set_ne other]
      exact atT'
    · refine ⟨call, { stage := .reading }, {}, .reading false, ?_, rfl, rfl, ?_⟩
      · rw [List.getElem?_append_left (by simpa using inside), List.getElem?_set_self inside]
      rw [cached.fresh rfl]
      exact ⟨rfl, fun _ => rfl, fun _ _ => rfl, ⟨blob, base, List.nil_prefix, fun _ => List.nil_prefix⟩, rfl, rfl, rfl,
        nofun, nofun, nofun, nofun⟩
  · rw [roles]
    intro i j t' target target' atI atJ
    have old {i : Nat} {target : Descriptor} (atI : (ghosts.map Prod.fst)[i]? = some (.pusher t target)) : False := by
      obtain ⟨_, l, atI⟩ := ghost_of_label (List.mem_of_getElem? atI)
      exact nobody _ target l atI
    rcases getElem?_concat_cases atI with oldI | ⟨lastI, sameI⟩ <;>
      rcases getElem?_concat_cases atJ with oldJ | ⟨lastJ, sameJ⟩
    · exact inv.alone i j t' target target' oldI oldJ
    · cases sameJ
      exact absurd oldI old
    · cases sameI
      exact absurd oldJ old
    · exact lastI.trans lastJ.symm

theorem ProxyInv.store {i : Nat} {target : Descriptor} {taken : Taken} {stage : PushStage}
    (found : ghosts[i]? = some (.pusher t target, .pusher taken stage)) (absent : fromOCI target ∉ s.cache)
    (matching : Matches cd target taken.bytes) (fits : ¬ p.TooLarge target) :
    ProxyInv p cd cache₀ calls { s with cache := s.cache.insert (fromOCI target) taken.bytes } ghosts := by
  obtain ⟨call, flow, _, _, atT, ⟨⟩, rfl, transfer⟩ := inv.pusher i t target _ found
  obtain ⟨blob, base, begins, _⟩ := transfer.source
  have kept {key : Key} {value : Bytes} (stored : s.cache.lookup key = some value) :
      (s.cache.insert (fromOCI call.target) taken.bytes).lookup key = some value := by
    have other : key ≠ fromOCI call.target := by
      rintro rfl
      exact absent (Finmap.mem_iff.mpr ⟨value, stored⟩)
    rw [Finmap.lookup_insert_of_ne _ other]
    exact stored
  refine { inv with kept := fun key value stored => kept (inv.kept key value stored), origin := ?_, caller := ?_ }
  · intro key value stored
    obtain ⟨rfl, rfl⟩ | ⟨_, stored⟩ := lookup_insert_cases stored
    · exact .inr ⟨call, blob, (inv.caller t call _ atT).1, base, rfl, begins, matching, fits⟩
    · exact inv.origin key value stored
  · intro t' call' l atT'
    obtain ⟨known, flow', rfl, cached, served⟩ := inv.caller t' call' l atT'
    exact ⟨known, flow', rfl, { cached with hit := fun content hit => kept (cached.hit content hit) }, served⟩

end

end Steps

section Sound
variable {p : Proxy} {cd : Codec} {cache₀ : Contents} {calls : List FetchCall} {s s' : ProxyState}
  {ghosts : List (Role × Local)} {t n : Nat} {spawned : List (Thread ProxyOp ProxyAns Role ProxyResult)}

/-- What a caller that has a pipe knows of the cache stays true. -/
theorem CallerInv.stays {cache : Contents} {call : FetchCall} {pipe pipe' : Pipe} {flow flow' : Flow}
    (cached : CallerInv p cache₀ cache pipe call flow)
    (before : flow.stage.opened = true) (after : flow'.stage.opened = true) : CallerInv p cache₀ cache pipe' call flow' := by
  refine ⟨fun content hit => ?_, fun _ => cached.missed (.inr before), fun _ => cached.caching before, fun closed => ?_⟩
  · rw [hit] at after
    cases after
  · cases closed.symm.trans after

section Transfers
variable {call : FetchCall} {pipe : Pipe} {flow : Flow} {taken : Taken} {stage : PushStage}

section

variable (transfer : TransferInv p cd call pipe flow taken stage)
include transfer

theorem TransferInv.not_ended (isOpen : flow.stage.shut = false) (reason : End) : taken.ended ≠ some reason := by
  intro ended
  cases (transfer.writer.trans isOpen).symm.trans (transfer.ended reason ended).2.1

theorem TransferInv.offer (reading : flow.stage = .reading) {bytes : Bytes}
    (more : flow.broken = false → ∃ blob, call.base = .ok blob ∧ flow.drawn ++ bytes <+: blob.content.bytes) :
    TransferInv p cd call { pipe with offered := bytes } { flow with stage := .writing, drawn := flow.drawn ++ bytes }
      taken stage := by
  obtain ⟨blob, base, begins, _⟩ := transfer.source
  refine { transfer with
    opened := rfl, flows := fun whole => ?_, quiet := fun impossible => absurd rfl impossible
    source := ⟨blob, base, begins, fun whole => ?_⟩, writer := transfer.writer.trans (by rw [reading]; rfl), waited := nofun }
  · have nothing := transfer.quiet (by rw [reading]; exact nofun) whole
    have drawn := transfer.flows whole
    rw [nothing, List.append_nil] at drawn
    change flow.drawn ++ bytes = taken.bytes ++ bytes
    rw [drawn]
  · obtain ⟨blob', base', longer⟩ := more whole
    cases base.symm.trans base'
    exact longer

theorem TransferInv.written (writing : flow.stage = .writing) (taken' : pipe.offered = []) :
    TransferInv p cd call pipe { flow with stage := .reading } taken stage :=
  { transfer with
    opened := rfl, quiet := fun _ _ => taken', writer := transfer.writer.trans (by rw [writing]; rfl), waited := nofun }

theorem TransferInv.refused (writing : flow.stage = .writing) (closed : pipe.readerErr ≠ none) :
    TransferInv p cd call { pipe with offered := [] } { flow with stage := .reading, broken := true } taken stage := by
  have isOpen : flow.stage.shut = false := by rw [writing]; rfl
  obtain ⟨blob, base, begins, _⟩ := transfer.source
  exact { transfer with
    opened := rfl, flows := nofun, quiet := fun _ _ => rfl, source := ⟨blob, base, begins, nofun⟩
    writer := transfer.writer.trans isOpen, broken := fun _ => closed
    ended := fun reason ended => absurd ended (transfer.not_ended isOpen reason), waited := nofun }

theorem TransferInv.closeWriter (reading : flow.stage = .reading) :
    TransferInv p cd call { pipe with writerClosed := true } { flow with stage := .closed } taken stage :=
  { transfer with
    opened := rfl, quiet := fun _ => transfer.quiet (by rw [reading]; exact nofun), writer := rfl
    ended := fun reason ended => (transfer.ended reason ended).imp_right fun known => ⟨rfl, known.2⟩, waited := nofun }

theorem TransferInv.wait (closed : flow.stage = .closed) {err : Option Error} (pushed : pipe.pushErr = some err) :
    TransferInv p cd call pipe { flow with stage := .ended err } taken stage :=
  { transfer with
    opened := rfl, quiet := fun _ => transfer.quiet (by rw [closed]; exact nofun)
    writer := transfer.writer.trans (by rw [closed]; rfl), waited := fun err' same => by cases same; exact pushed }

end

section

variable {met : Bool} (transfer : TransferInv p cd call pipe flow taken (.reading met))
include transfer

/-- While the push goes on, all writes have succeeded. -/
theorem TransferInv.whole : flow.broken = false := by
  cases broken : flow.broken with
  | false => rfl
  | true => exact absurd transfer.reader (transfer.broken broken)

theorem TransferInv.readSome (k : Nat) :
    TransferInv p cd call { pipe with offered := pipe.offered.drop k } flow
      ⟨taken.bytes ++ pipe.offered.take k, taken.ended⟩ (.reading met) := by
  have split : (taken.bytes ++ pipe.offered.take k) ++ pipe.offered.drop k = taken.bytes ++ pipe.offered := by
    rw [List.append_assoc, List.take_append_drop]
  obtain ⟨blob, base, _, begins⟩ := transfer.source
  refine { transfer with
    flows := fun whole => (transfer.flows whole).trans split.symm, quiet := fun idle whole => ?_
    source := ⟨blob, base, ?_, begins⟩, verdict := nofun }
  · change pipe.offered.drop k = []
    rw [transfer.quiet idle whole, List.drop_nil]
  · have drawn := begins transfer.whole
    rw [transfer.flows transfer.whole, ← split] at drawn
    exact (List.prefix_append _ _).trans drawn

theorem TransferInv.readEnd (closed : pipe.writerClosed = true) :
    TransferInv p cd call pipe flow ⟨taken.bytes ++ [], some .eof⟩ (.reading met) := by
  rw [List.append_nil]
  refine { transfer with ended := fun reason ended => ?_, verdict := nofun }
  cases ended
  exact ⟨rfl, closed, transfer.whole⟩

theorem TransferInv.meet : TransferInv p cd call pipe flow taken (.reading true) :=
  { transfer with verdict := nofun }

theorem TransferInv.closeWithError {err : Error} (verdict : PushVerdict p cd call.target met taken (some err)) :
    TransferInv p cd call { pipe with readerErr := some err } flow taken (.closing met err) :=
  { transfer with
    reader := rfl, broken := fun _ => Option.some_ne_none err, verdict := fun err' same => by cases same; exact verdict }

end

theorem TransferInv.done (transfer : TransferInv p cd call pipe flow taken stage) (unfinished : stage.pushErr = none)
    {err : Option Error} (same : stage.readerErr = err) (verdict : PushVerdict p cd call.target stage.met taken err) :
    TransferInv p cd call { pipe with pushErr := some err } flow taken (.finished stage.met err) := by
  refine { transfer with
    reader := transfer.reader.trans same, pushErr := rfl, waited := fun err' ended => ?_, verdict := fun err' known => ?_ }
  · have waited := transfer.waited err' ended
    rw [transfer.pushErr, unfinished] at waited
    cases waited
  · cases known
    exact verdict

end Transfers

theorem ProxyInv.caller_step {call : FetchCall} {flow : Flow} {op : ProxyOp} {a : ProxyAns op}
    (inv : ProxyInv p cd cache₀ calls s ghosts) (found : ghosts[t]? = some (.caller call, .caller flow))
    (pre : callerPre p call flow op) (replied : proxyReply p cd s t n op = some (a, s', spawned)) :
    List.Forall₂ (Fits (proxyGhost p cd) (proxyPost p)) spawned (started t op) ∧
      ProxyInv p cd cache₀ calls s' (ghosts.set t (.caller call, (Local.caller flow).after op a) ++ started t op) := by
  obtain ⟨_, _, ⟨⟩, cached, _⟩ := inv.caller t call _ found
  have alone {s : ProxyState} {g : Role × Local} (kept : ProxyInv p cd cache₀ calls s (ghosts.set t g)) :
      List.Forall₂ (Fits (proxyGhost p cd) (proxyPost p)) [] [] ∧ ProxyInv p cd cache₀ calls s (ghosts.set t g ++ []) :=
    ⟨.nil, by rwa [List.append_nil]⟩
  cases op with
  | load key =>
    obtain ⟨rfl, closed, _⟩ := pre
    cases replied
    have moved (flow' : Flow) (taken : Taken) (stage : PushStage)
        (transfer : TransferInv p cd call (s.pipes t) flow taken stage) :
        TransferInv p cd call (s.pipes t) flow' taken stage := by
      cases closed.symm.trans transfer.opened
    have fresh := fun (_ : false = false) => cached.fresh closed
    cases looked : s.cache.lookup (fromOCI call.target) with
    | some content =>
      refine alone (inv.caller_moves found (s.update_self t).symm ⟨fun content' hit => ?_, ?_, nofun, fresh⟩
        closed.symm (moved _))
      · cases hit
        exact looked
      · rintro (impossible | impossible) <;> cases impossible
    | none =>
      refine alone (inv.caller_moves found (s.update_self t).symm ⟨nofun, fun _ => ?_, nofun, fresh⟩
        closed.symm (moved _))
      cases before : cache₀.lookup (fromOCI call.target) with
      | none => rfl
      | some content => cases looked.symm.trans (inv.kept _ _ before)
  | goPush target =>
    obtain ⟨rfl, rfl, caching, blob, base⟩ := pre
    cases replied
    exact ⟨.cons ⟨rfl, wp_goPush⟩ .nil, inv.goPush found caching base⟩
  | offer bytes =>
    obtain ⟨reading, more⟩ := pre
    have opened : flow.stage.opened = true := by rw [reading]; rfl
    cases replied
    exact alone (inv.caller_moves found rfl (cached.stays opened rfl) opened.symm
      fun taken stage transfer => transfer.offer reading more)
  | await bytes =>
    have opened : flow.stage.opened = true := by rw [show flow.stage = .writing from pre]; rfl
    simp only [proxyReply] at replied
    split at replied
    · rename_i nothing
      cases replied
      exact alone (inv.caller_moves found (s.update_self t).symm (cached.stays opened rfl) opened.symm
        fun taken stage transfer => transfer.written pre nothing)
    · obtain ⟨err, closed, same⟩ := Option.map_eq_some_iff.mp replied
      cases same
      refine alone (inv.caller_moves found rfl (cached.stays opened rfl) opened.symm
        fun taken stage transfer => transfer.refused pre ?_)
      rw [closed]
      exact Option.some_ne_none err
  | closeWriter =>
    have opened : flow.stage.opened = true := by rw [show flow.stage = .reading from pre]; rfl
    cases replied
    exact alone (inv.caller_moves found rfl (cached.stays opened rfl) opened.symm
      fun taken stage transfer => transfer.closeWriter pre)
  | wait =>
    have opened : flow.stage.opened = true := by rw [show flow.stage = .closed from pre]; rfl
    obtain ⟨err, pushed, same⟩ := Option.map_eq_some_iff.mp replied
    cases same
    exact alone (inv.caller_moves found (s.update_self t).symm (cached.stays opened rfl) opened.symm
      fun taken stage transfer => transfer.wait pre pushed)
  | loadOrStore | readPipe | closeWithError | done => exact absurd pre id

theorem ProxyInv.pusher_step {i : Nat} {target : Descriptor} {taken : Taken} {stage : PushStage} {op : ProxyOp}
    {a : ProxyAns op} (inv : ProxyInv p cd cache₀ calls s ghosts)
    (found : ghosts[i]? = some (.pusher t target, .pusher taken stage)) (pre : pusherPre p cd t target taken stage op)
    (replied : proxyReply p cd s i n op = some (a, s', spawned)) :
    spawned = [] ∧ started i op = [] ∧ pipeAnswer op a ∧
      ProxyInv p cd cache₀ calls s' (ghosts.set i (.pusher t target, (Local.pusher taken stage).after op a)) := by
  cases stage with
  | finished met err => cases op <;> exact absurd pre id
  | closing met err =>
    cases op with
    | done t' pushErr =>
      cases pushErr with
      | none => exact absurd pre id
      | some err' =>
        obtain ⟨rfl, rfl⟩ := pre
        cases replied
        refine ⟨rfl, rfl, trivial, inv.pusher_moves found rfl fun call flow same transfer => ?_⟩
        exact transfer.done rfl rfl (transfer.verdict _ rfl)
    | _ => exact absurd pre id
  | reading met =>
    have meet : ProxyInv p cd cache₀ calls s (ghosts.set i (.pusher t target, .pusher taken (.reading true))) :=
      inv.pusher_moves found (s.update_self t).symm fun call flow same transfer => transfer.meet
    cases op with
    | load key =>
      cases replied
      refine ⟨rfl, rfl, trivial, ?_⟩
      cases looked : s.cache.lookup key with
      | none =>
        change ProxyInv p cd cache₀ calls s (ghosts.set i (.pusher t target, .pusher taken (.reading met)))
        rw [set_same found]
        exact inv
      | some content => exact meet
    | loadOrStore key value =>
      obtain ⟨rfl, rfl, _, fits, matching, _⟩ := pre
      simp only [proxyReply] at replied
      split at replied
      · cases replied
        exact ⟨rfl, rfl, trivial, meet⟩
      · rename_i absent
        cases replied
        refine ⟨rfl, rfl, trivial, ?_⟩
        change ProxyInv p cd cache₀ calls _ (ghosts.set i (.pusher t target, .pusher taken (.reading met)))
        rw [set_same found]
        exact inv.store found absent matching fits
    | readPipe t' k =>
      obtain ⟨rfl, positive⟩ := pre
      simp only [proxyReply] at replied
      split at replied
      · obtain ⟨closed, same⟩ := of_ite_some replied
        cases same
        refine ⟨rfl, rfl, ⟨Nat.zero_le k, fun _ => Option.some_ne_none _⟩, ?_⟩
        exact inv.pusher_moves found (s.update_self t').symm fun call flow same transfer => transfer.readEnd closed
      · rename_i some
        cases replied
        refine ⟨rfl, rfl, ⟨List.length_take_le k _, fun empty => ?_⟩, ?_⟩
        · rcases List.take_eq_nil_iff.mp empty with zero | nothing
          · omega
          · exact absurd nothing some
        · exact inv.pusher_moves found rfl fun call flow same transfer => transfer.readSome k
    | closeWithError t' err =>
      obtain ⟨rfl, verdict⟩ := pre
      cases replied
      refine ⟨rfl, rfl, trivial, inv.pusher_moves found rfl fun call flow same transfer => ?_⟩
      exact transfer.closeWithError (same ▸ verdict)
    | done t' pushErr =>
      cases pushErr with
      | some err => exact absurd pre id
      | none =>
        obtain ⟨rfl, verdict⟩ := pre
        cases replied
        refine ⟨rfl, rfl, trivial, inv.pusher_moves found rfl fun call flow same transfer => ?_⟩
        exact transfer.done rfl rfl (same ▸ verdict)
    | _ => exact absurd pre id

/-- Which goroutines have looked for a key while it was cached, for those that push. -/
structure MetInv (found : List Nat) (ghosts : List (Role × Local)) : Prop where
  inside : ∀ i ∈ found, i < ghosts.length
  pusher : ∀ (i t : Nat) (target : Descriptor) (taken : Taken) (stage : PushStage),
    ghosts[i]? = some (.pusher t target, .pusher taken stage) → (i ∈ found ↔ stage.met = true)

/-- A goroutine that pushes knows of each look whether it has met its content. -/
theorem after_met {taken taken' : Taken} {stage stage' : PushStage} {target : Descriptor} {i : Nat} {op : ProxyOp}
    {a : ProxyAns op} {found : List Nat} (pre : pusherPre p cd t target taken stage op)
    (replied : proxyReply p cd s i n op = some (a, s', spawned))
    (after : (Local.pusher taken stage).after op a = .pusher taken' stage') (known : i ∈ found ↔ stage.met = true) :
    i ∈ (if op.finds s then i :: found else found) ↔ stage'.met = true := by
  cases op with
  | load key =>
    cases replied
    rw [ProxyOp.finds]
    cases looked : s.cache.lookup key with
    | none =>
      rw [looked] at after
      cases after
      rw [decide_eq_false (Finmap.lookup_eq_none.mp looked)]
      exact known
    | some content =>
      rw [looked] at after
      cases after
      have cached : key ∈ s.cache := Finmap.mem_iff.mpr ⟨content, looked⟩
      rw [decide_eq_true cached, if_pos rfl]
      exact iff_of_true List.mem_cons_self rfl
  | loadOrStore key value =>
    simp only [proxyReply] at replied
    rw [ProxyOp.finds]
    split at replied
    · rename_i cached
      cases replied
      cases after
      rw [decide_eq_true cached, if_pos rfl]
      exact iff_of_true List.mem_cons_self rfl
    · rename_i absent
      cases replied
      cases after
      rw [decide_eq_false absent]
      exact known
  | readPipe | closeWithError | done =>
    cases after
    exact known
  | _ => cases stage <;> exact absurd pre id

theorem MetInv.step {found : List Nat} {role : Role} {l : Local} {op : ProxyOp} {a : ProxyAns op}
    (met : MetInv found ghosts) (atGhost : ghosts[t]? = some (role, l)) (pre : proxyPre p cd role l op)
    (replied : proxyReply p cd s t n op = some (a, s', spawned)) :
    MetInv (if op.finds s then t :: found else found) (ghosts.set t (role, l.after op a) ++ started t op) := by
  have inside {i : Nat} (member : i ∈ if op.finds s then t :: found else found) : i < ghosts.length := by
    split at member
    · rcases List.mem_cons.mp member with rfl | old
      · exact (List.getElem?_eq_some_iff.mp atGhost).1
      · exact met.inside i old
    · exact met.inside i member
  refine ⟨fun i member => ?_, fun i t' target taken stage atI => ?_⟩
  · rw [List.length_append, List.length_set]
    exact Nat.lt_add_right _ (inside member)
  rw [List.getElem?_append, List.length_set] at atI
  split at atI
  · rcases getElem?_set_cases atI with ⟨rfl, same⟩ | ⟨other, old⟩
    · obtain ⟨rfl, after⟩ := Prod.mk.inj same
      cases l with
      | caller flow => exact absurd pre id
      | pusher taken₀ stage₀ => exact after_met pre replied after.symm (met.pusher i t' target taken₀ stage₀ atGhost)
    · rw [← met.pusher i t' target taken stage old]
      split
      · rw [List.mem_cons, or_iff_right other]
      · exact Iff.rfl
  · rename_i beyond
    refine iff_of_false (fun member => beyond (inside member)) ?_
    cases op with
    | goPush target' =>
      cases List.mem_singleton.mp (List.mem_of_getElem? atI)
      exact Bool.false_ne_true
    | _ => cases List.mem_of_getElem? atI

theorem proxy_sound : Sound (proxyGhost p cd) (proxyPost p) (proxyMachine p cd)
    (fun s ghosts => ProxyInv p cd cache₀ calls s.1 ghosts ∧ MetInv s.2 ghosts) := by
  intro s ghosts t role l op a s' spawned ⟨inv, met⟩ found pre performed
  obtain ⟨performed, noted⟩ := recorded_perform.mp performed
  have replied := Reply.perform_eq_some.mp performed
  have stillMet := met.step found pre replied
  rw [← noted] at stillMet
  refine ⟨l.after op a, started t op, ?_⟩
  cases role with
  | caller call =>
    cases l with
    | pusher taken stage => exact absurd pre id
    | caller flow =>
      obtain ⟨spawns, kept⟩ := inv.caller_step found pre replied
      refine ⟨⟨?_, rfl⟩, spawns, kept, stillMet⟩
      cases op with
      | readPipe t' k => exact absurd pre id
      | _ => exact trivial
  | pusher t' target =>
    cases l with
    | caller flow => exact absurd pre id
    | pusher taken stage =>
      obtain ⟨rfl, nobody, answered, kept⟩ := inv.pusher_step found pre replied
      rw [nobody, List.append_nil] at stillMet ⊢
      exact ⟨⟨answered, rfl⟩, .nil, kept, stillMet⟩

theorem proxyMachine_reach {σ : Pool ProxyOp ProxyAns (ProxyState × List Nat) Role ProxyResult}
    (reach : Reach (proxyMachine p cd) ((proxyStart p cache₀ calls).traced []) σ) :
    Outline (proxyGhost p cd) (proxyPost p) (fun s ghosts => ProxyInv p cd cache₀ calls s.1 ghosts ∧ MetInv s.2 ghosts) σ := by
  have isCaller {t : Nat} {role : Role} {l : Local}
      (found : (calls.map fun call => (Role.caller call, Local.caller {}))[t]? = some (role, l)) :
      ∃ call ∈ calls, role = .caller call ∧ l = .caller {} := by
    rw [List.getElem?_map] at found
    obtain ⟨call, atT, same⟩ := Option.map_eq_some_iff.mp found
    cases same
    exact ⟨call, List.mem_of_getElem? atT, rfl, rfl⟩
  have initially : Outline (proxyGhost p cd) (proxyPost p)
      (fun s ghosts => ProxyInv p cd cache₀ calls s.1 ghosts ∧ MetInv s.2 ghosts) ((proxyStart p cache₀ calls).traced []) := by
    refine ⟨calls.map fun call => (.caller call, .caller {}), ?_, ⟨fun _ _ stored => stored, fun _ _ stored => .inl stored,
      ?_, ?_, ?_⟩, nofun, ?_⟩
    · rw [Pool.traced, proxyStart, List.forall₂_map_left_iff, List.forall₂_map_right_iff, List.forall₂_same]
      exact fun call _ => ⟨rfl, wp_fetchThrough⟩
    · intro t call l found
      obtain ⟨_, known, ⟨⟩, rfl⟩ := isCaller found
      refine ⟨known, {}, rfl, ⟨nofun, ?_, nofun, fun _ => rfl⟩, nofun⟩
      rintro (impossible | impossible) <;> cases impossible
    · intro i t target l found
      obtain ⟨_, _, ⟨⟩, _⟩ := isCaller found
    · intro i j t target target' found
      obtain ⟨_, l, found⟩ := ghost_of_label (List.mem_of_getElem? found)
      obtain ⟨_, _, ⟨⟩, _⟩ := isCaller found
    · intro i t target taken stage found
      obtain ⟨_, _, ⟨⟩, _⟩ := isCaller found
  exact initially.reach proxy_sound (fun _ _ _ _ impossible => absurd impossible.1 id) reach

theorem proxy_reach {σ : ProxyRun} (reach : Reach (proxyReply p cd).machine (proxyStart p cache₀ calls) σ) :
    Outline (proxyGhost p cd) (proxyPost p) (ProxyInv p cd cache₀ calls) σ := by
  obtain ⟨_, recorded⟩ := reach.recorded []
  obtain ⟨ghosts, fits, inv, _⟩ := proxyMachine_reach recorded
  exact ⟨ghosts, fits, inv⟩

end Sound

end OrasGo.Cas
