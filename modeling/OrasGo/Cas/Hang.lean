import OrasGo.Cas.Transfer

/-! When the reader that `Proxy.Fetch` returns blocks forever. -/

namespace OrasGo.Cas
open Interleaving

section Blocked
variable {p : Proxy} {cd : Codec} {s : ProxyState} {t n : Nat} {op : ProxyOp}

theorem blocked_caller {call : FetchCall} {flow : Flow} (pre : callerPre p call flow op)
    (blocked : proxyReply p cd s t n op = none) :
    (flow.stage = .writing ∧ (s.pipes t).offered ≠ [] ∧ (s.pipes t).readerErr = none) ∨
      (flow.stage = .closed ∧ (s.pipes t).pushErr = none) := by
  cases op with
  | await bytes =>
    simp only [proxyReply] at blocked
    split at blocked
    · cases blocked
    · rename_i some
      exact .inl ⟨pre, some, Option.map_eq_none_iff.mp blocked⟩
  | wait => exact .inr ⟨pre, Option.map_eq_none_iff.mp blocked⟩
  | load | goPush | offer | closeWriter => cases blocked
  | loadOrStore | readPipe | closeWithError | done => exact absurd pre id

theorem blocked_pusher {i : Nat} {target : Descriptor} {taken : Taken} {stage : PushStage}
    (pre : pusherPre p cd t target taken stage op) (blocked : proxyReply p cd s i n op = none) :
    (s.pipes t).offered = [] ∧ (s.pipes t).writerClosed = false := by
  cases op with
  | readPipe t' k =>
    cases stage with
    | reading =>
      obtain ⟨rfl, _⟩ := pre
      simp only [proxyReply] at blocked
      split at blocked
      · rename_i nothing
        split at blocked
        · cases blocked
        · rename_i isOpen
          exact ⟨nothing, Bool.eq_false_iff.mpr isOpen⟩
      · cases blocked
    | closing | finished => exact absurd pre id
  | loadOrStore key value =>
    simp only [proxyReply] at blocked
    split at blocked <;> cases blocked
  | load | closeWithError | done | goPush | offer | closeWriter => cases blocked
  | await | wait => cases stage <;> exact absurd pre id

end Blocked

/-- The base storage has more than the content: the bytes that the descriptor describes, and
further ones. -/
structure Trap (p : Proxy) (cd : Codec) (cache : Contents) (call : FetchCall) : Prop where
  caching : p.stopCaching = false
  missing : cache.lookup (fromOCI call.target) = none
  limited : ∃ limit, p.pushLimit = some limit ∧ call.target.size ≤ limit
  longer : ∃ blob, call.base = .ok blob ∧ Matches cd call.target (blob.content.bytes.take call.target.size.toNat) ∧
    call.target.size < blob.content.bytes.length

section Safe
variable {p : Proxy} {cd : Codec} {cache₀ : Contents} {calls : List FetchCall} {σ : ProxyRun}

/-- A caller that writes to a pipe whose push has succeeded is in the trap. -/
theorem TransferInv.trap {call : FetchCall} {pipe : Pipe} {flow : Flow} {taken : Taken} {stage : PushStage} {met : Bool}
    (transfer : TransferInv p cd call pipe flow taken stage) (cached : CallerInv p cache₀ σ.shared.cache pipe call flow)
    (writing : flow.stage = .writing) (more : pipe.offered ≠ []) (unbroken : pipe.readerErr = none)
    (finished : stage = .finished met none) : Trap p cd cache₀ call := by
  subst finished
  obtain ⟨-, fits, matching, unlimited⟩ := transfer.verdict none rfl
  have whole : flow.broken = false := by
    cases broken : flow.broken with
    | false => rfl
    | true => exact absurd unbroken (transfer.broken broken)
  obtain ⟨blob, base, _, begins⟩ := transfer.source
  have isOpen : flow.stage.shut = false := by rw [writing]; rfl
  have limited : ∃ limit, p.pushLimit = some limit ∧ call.target.size ≤ limit := by
    cases limit : p.pushLimit with
    | none => exact absurd (unlimited limit) (transfer.not_ended isOpen _)
    | some limit' =>
      refine ⟨limit', rfl, Int.not_lt.mp fun large => ?_⟩
      exact fits ⟨limit', limit, large⟩
  have opened : flow.stage.opened = true := by rw [writing]; rfl
  obtain ⟨rest, same⟩ := begins whole
  rw [transfer.flows whole, List.append_assoc] at same
  have size := matching.size
  refine ⟨cached.caching opened, cached.missed (.inr opened), limited, blob, base, ?_, ?_⟩
  · rw [← same, ← size, Int.toNat_natCast, List.take_left]
    exact matching
  · have positive : 0 < pipe.offered.length := List.length_pos_iff.mpr more
    rw [← same, List.length_append, List.length_append]
    omega

theorem trap_of_stuck (reach : Reach (proxyReply p cd).machine (proxyStart p cache₀ calls) σ)
    (stuck : σ.Stuck (proxyReply p cd)) : ∃ call ∈ calls, Trap p cd cache₀ call := by
  obtain ⟨ghosts, fits, inv⟩ := proxy_reach reach
  -- A goroutine that pushes has returned or has nothing to read.
  have pusher {i t : Nat} {target : Descriptor} {taken : Taken} {stage : PushStage}
      (atI : ghosts[i]? = some (.pusher t target, .pusher taken stage)) :
      (∃ met err, stage = .finished met err) ∨ (σ.shared.pipes t).offered = [] ∧ (σ.shared.pipes t).writerClosed = false := by
    obtain ⟨prog, found, outline⟩ := thread_of_ghost fits atI
    cases prog with
    | ret result =>
      cases result with
      | pushed err =>
        obtain ⟨met, finished⟩ := outline
        exact .inl ⟨met, err, finished⟩
      | failed | closed => exact absurd outline id
    | call op next => exact .inr (blocked_pusher outline.1 (stuck.blocked found))
  -- A caller that waits for such a goroutine is in the trap.
  have caller {t : Nat} {call : FetchCall} {flow : Flow} {op : ProxyOp} {next : ProxyAns op → ProxyCode ProxyResult}
      (atT : ghosts[t]? = some (.caller call, .caller flow))
      (found : σ.threads[t]? = some ⟨.caller call, .call op next⟩) (pre : callerPre p call flow op) :
      ∃ call ∈ calls, Trap p cd cache₀ call := by
    obtain ⟨member, _, ⟨⟩, cached, served⟩ := inv.caller t call _ atT
    have blocked := blocked_caller pre (stuck.blocked found)
    have opened : flow.stage.opened = true := by
      rcases blocked with ⟨writing, _⟩ | ⟨closed, _⟩
      · rw [writing]; rfl
      · rw [closed]; rfl
    obtain ⟨i, l, atI⟩ := ghost_of_label (served opened)
    obtain ⟨_, _, taken, stage, atT', rfl, _, transfer⟩ := inv.pusher i t call.target l atI
    cases atT.symm.trans atT'
    rcases blocked with ⟨writing, more, unbroken⟩ | ⟨closed, waiting⟩
    · rcases pusher atI with ⟨met, err, rfl⟩ | ⟨nothing, _⟩
      · have same : err = none := transfer.reader.symm.trans unbroken
        subst same
        exact ⟨call, member, transfer.trap cached writing more unbroken rfl⟩
      · exact absurd nothing more
    · rcases pusher atI with ⟨met, err, rfl⟩ | ⟨_, isOpen⟩
      · cases waiting.symm.trans transfer.pushErr
      · have shut := transfer.writer
        rw [isOpen, closed] at shut
        cases shut
  obtain ⟨t, role, op, next, found⟩ := stuck.1
  obtain ⟨l, atT, pre, _⟩ := ghost_of_thread fits found
  cases role with
  | caller call =>
    obtain ⟨_, flow, rfl, _⟩ := inv.caller t call l atT
    exact caller atT found pre
  | pusher t' target =>
    obtain ⟨call, flow, taken, stage, atCaller, rfl, _, transfer⟩ := inv.pusher t t' target l atT
    obtain ⟨nothing, isOpen⟩ := blocked_pusher pre (stuck.blocked found)
    obtain ⟨prog, foundCaller, outline⟩ := thread_of_ghost fits atCaller
    cases prog with
    | call op' next' => exact caller atCaller foundCaller outline.1
    | ret result =>
      have unshut : flow.stage.shut = false := transfer.writer.symm.trans isOpen
      have opened := transfer.opened
      cases result with
      | pushed err => exact absurd outline id
      | failed err => cases opened.symm.trans outline
      | closed value given err =>
        rcases outline with ⟨_, _, hit, _⟩ | ⟨_, missed, _⟩ | ⟨_, _, _, ended, _⟩
        · rw [hit] at opened
          cases opened
        · rw [missed] at opened
          cases opened
        · rw [ended] at unshut
          cases unshut

end Safe

section Hangs
variable {p : Proxy} {cd : Codec} {cache : Contents} {call : FetchCall}

/-- The caller and the goroutine that pushes. -/
def pair (call : FetchCall) (s : ProxyState) (caller pusher : ProxyCode ProxyResult) : ProxyRun :=
  ⟨s, [⟨.caller call, caller⟩, ⟨.pusher 0 call.target, pusher⟩]⟩

theorem pair_caller {s s' : ProxyState} {op : ProxyOp} {a : ProxyAns op} {next : ProxyAns op → ProxyCode ProxyResult}
    {pusher : ProxyCode ProxyResult} (replied : proxyReply p cd s 0 2 op = some (a, s', [])) :
    Reach (proxyReply p cd).machine (pair call s (.call op next) pusher) (pair call s' (next a) pusher) :=
  .single (.thread 0 (.answer rfl (Reply.perform_eq_some.mpr replied)))

theorem pair_pusher {s s' : ProxyState} {op : ProxyOp} {a : ProxyAns op} {next : ProxyAns op → ProxyCode ProxyResult}
    {caller : ProxyCode ProxyResult} (replied : proxyReply p cd s 1 2 op = some (a, s', [])) :
    Reach (proxyReply p cd).machine (pair call s caller (.call op next)) (pair call s' caller (next a)) :=
  .single (.thread 1 (.answer rfl (Reply.perform_eq_some.mpr replied)))

/-- One `Write` of the caller that the goroutine takes with one `Read`. -/
theorem pair_transfer {bytes : Bytes} (nonempty : bytes ≠ []) {k : Nat} (fits : bytes.length ≤ k)
    {after : ProxyAns (.await bytes) → ProxyCode ProxyResult} {rest : Chunk → ProxyCode ProxyResult} :
    Reach (proxyReply p cd).machine
      (pair call { cache } (.call (.offer bytes) fun _ => .call (.await bytes) after) (.call (.readPipe 0 k) rest))
      (pair call { cache } (after none) (rest (bytes, none))) := by
  have taken : proxyReply p cd (({ cache } : ProxyState).update 0 { offered := bytes }) 1 2 (.readPipe 0 k) =
      some ((bytes, none), { cache }, []) := by
    simp [proxyReply, ProxyState.update, nonempty, List.take_of_length_le fits, List.drop_of_length_le fits]
  have written : proxyReply p cd { cache } 0 2 (.await bytes) = some (none, { cache }, []) := by simp [proxyReply]
  exact (pair_caller (a := ()) rfl).trans ((pair_pusher taken).trans (pair_caller written))

theorem read_of_longer {k : Nat} (positive : 0 < k) {s : Stream} (longer : k < s.bytes.length) :
    (s.read k).1.1 ≠ [] ∧ (s.read k).1.1.length ≤ k ∧ (s.read k).1.2 = none ∧
      (s.read k).1.1 ++ (s.read k).2.bytes = s.bytes := by
  obtain ⟨whole, fits, progress, last, _⟩ := s.read_spec k
  have length := congrArg List.length whole
  rw [List.length_append] at length
  refine ⟨fun nothing => ?_, fits, ?_, whole⟩
  · rw [(progress positive nothing).1, List.length_nil] at longer
    omega
  · cases ended : (s.read k).1.2 with
    | none => rfl
    | some reason =>
      rw [(last reason ended).2, List.length_nil] at length
      omega

variable (cd) in
/-- The caller reads the content, and the goroutine that pushes takes each piece of it. -/
theorem pair_readFull (callerRest : Except Error Bytes × Taken → ProxyCode ProxyResult)
    (pusherRest : Except Error Bytes → ProxyCode ProxyResult) (rest : Chunk → Consumer (Except Error Bytes)) {fuel want : Nat}
    (enough : want ≤ fuel) (acc : Bytes) (taken : Taken) {s : Stream} (longer : want < s.bytes.length) :
    ∃ taken' s', s'.bytes = s.bytes.drop want ∧ Reach (proxyReply p cd).machine
      (pair call { cache } (ProxyCode.tee (observe (readFull fuel want acc >>= rest) taken) s >>= callerRest)
        (ProxyCode.fromPipe 0 (limitReader want (readFull fuel want acc >>= rest)) >>= pusherRest))
      (pair call { cache } (ProxyCode.tee (observe (rest (acc ++ s.bytes.take want, none)) taken') s' >>= callerRest)
        (ProxyCode.fromPipe 0 (limitReader 0 (rest (acc ++ s.bytes.take want, none))) >>= pusherRest)) := by
  induction fuel generalizing want acc taken s with
  | zero =>
    obtain rfl : want = 0 := by omega
    rw [List.take_zero, List.append_nil]
    exact ⟨taken, s, rfl, .refl⟩
  | succ fuel ih =>
    by_cases done : want = 0
    · subst done
      rw [List.take_zero, List.append_nil]
      exact ⟨taken, s, rfl, .refl⟩
    have positive : 0 < want := Nat.pos_of_ne_zero done
    obtain ⟨nonempty, fits, more, whole⟩ := read_of_longer positive longer
    obtain ⟨⟨⟨bytes, ending⟩, s'⟩, read⟩ : ∃ r, s.read want = r := ⟨_, rfl⟩
    rw [read] at nonempty fits more whole
    change ending = none at more
    subst more
    change bytes ++ s'.bytes = s.bytes at whole
    change bytes.length ≤ want at fits
    have length := congrArg List.length whole
    rw [List.length_append] at length
    have some : 0 < bytes.length := List.length_pos_iff.mpr nonempty
    have smaller : want - bytes.length ≤ fuel := by omega
    obtain ⟨taken', s'', left, follows⟩ := ih smaller (acc ++ bytes) ⟨taken.bytes ++ bytes, none.or taken.ended⟩
      (s := s') (by omega)
    refine ⟨taken', s'', ?_, ?_⟩
    · rw [left, ← whole, List.drop_append, List.drop_of_length_le fits, List.nil_append]
    have split : acc ++ s.bytes.take want = acc ++ bytes ++ s'.bytes.take (want - bytes.length) := by
      rw [← whole, List.take_append, List.take_of_length_le fits, List.append_assoc]
    rw [split]
    refine Relation.ReflTransGen.trans ?_ follows
    rw [readFull, if_neg done, Prog.call_bind, observe, ProxyCode.tee, limitReader, if_neg done, min_self, read, if_neg nonempty]
    exact pair_transfer nonempty fits

theorem readAllFrom_eq {desc : Descriptor} {content : Bytes} (matching : Matches cd desc content) :
    readAllFrom cd desc = readFull desc.size.toNat desc.size.toNat [] >>= checkRead cd desc := by
  have size := matching.size
  rw [readAllFrom, if_neg (by omega), if_neg (by have := matching.allocated; omega), if_neg matching.algorithm]

variable (cd) in
/-- The caller does not find its content cached, and starts the goroutine that pushes. -/
theorem reach_pair {blob : Blob} (caching : p.stopCaching = false)
    (missing : cache.lookup (fromOCI call.target) = none) (base : call.base = .ok blob) :
    Reach (proxyReply p cd).machine (proxyStart p cache [call])
      (pair call { cache } (ProxyCode.tee (observe call.consumer {}) blob.content >>= closeTee blob)
        (goPush p cd 0 call.target)) := by
  have looked : proxyReply p cd { cache } 0 1 (.load (fromOCI call.target)) = some (none, { cache }, []) := by
    rw [proxyReply, missing]
  have performed : (proxyReply p cd).machine.perform { cache } 0 1 (.load (fromOCI call.target)) none = some ({ cache }, []) :=
    Reply.perform_eq_some.mpr looked
  have step := StepBy.answer (t := 0)
    (σ := (⟨{ cache }, [⟨.caller call, fetch ProxyCode.load call.target >>= fetchFound call⟩]⟩ : ProxyRun)) rfl performed
  have missed : StepBy (proxyReply p cd).machine 0 _
      ⟨{ cache }, [⟨.caller call, fetchFound call (.error (notFound (fromOCI call.target)))⟩]⟩ := step
  rw [fetchFound, base] at missed
  rw [proxyStart, List.map_singleton, fetchThrough, caching]
  exact .head (.thread 0 missed) (.single (.thread 0 (Pool.turn_eq_some.mp rfl)))

variable (cd) in
theorem reach_reading {blob : Blob} {limit : Int} (caching : p.stopCaching = false)
    (missing : cache.lookup (fromOCI call.target) = none) (base : call.base = .ok blob) (limited : p.pushLimit = some limit)
    (fits : call.target.size ≤ limit) :
    Reach (proxyReply p cd).machine (proxyStart p cache [call])
      (pair call { cache } (ProxyCode.tee (observe call.consumer {}) blob.content >>= closeTee blob)
        (ProxyCode.fromPipe 0 (limitReader call.target.size.toNat (readAllFrom cd call.target)) >>= fun read =>
          store ProxyCode.loadOrStore (fromOCI call.target) read >>= report 0)) := by
  have looked : proxyReply p cd { cache } 1 2 (.load (fromOCI call.target)) = some (none, { cache }, []) := by
    rw [proxyReply, missing]
  have program : cachePush p cd 0 call.target = push ProxyCode.load ProxyCode.loadOrStore call.target
      (ProxyCode.fromPipe 0 (limitReader call.target.size.toNat (readAllFrom cd call.target))) := by
    rw [cachePush, limited]
    exact if_neg (by omega)
  have begun := reach_pair (p := p) cd caching missing base
  rw [goPush, program] at begun
  rw [← Prog.bind_assoc]
  exact begun.trans (pair_pusher looked)

theorem checkRead_full {desc : Descriptor} {content : Bytes} (matching : Matches cd desc content) :
    checkRead cd desc (content, none) = verify cd desc content := by
  have size := matching.size
  exact if_neg (by change ¬ content.length < _; omega)

/-- With the limit reached, the goroutine that pushes goes on to store the content. -/
theorem fromPipe_verify {desc : Descriptor} {content : Bytes} (matching : Matches cd desc content) :
    ProxyCode.fromPipe 0 (limitReader 0 (verify cd desc content)) = .ret (.ok content) := by
  rw [verify, limitReader, if_pos rfl, if_pos rfl, if_pos matching.verified]
  rfl

/-- The caller has a byte more to write than the goroutine wants, which has returned. -/
theorem pair_stuck {s : ProxyState} {bytes : Bytes} {after : ProxyAns (.await bytes) → ProxyCode ProxyResult}
    {result : ProxyResult} (more : (s.pipes 0).offered ≠ []) (unbroken : (s.pipes 0).readerErr = none) :
    (pair call s (.call (.await bytes) after) (.ret result)).Stuck (proxyReply p cd) := by
  have blocked : proxyReply p cd s 0 2 (.await bytes) = none := by
    simp only [proxyReply, if_neg more, unbroken, Option.map_none]
  refine ⟨⟨0, _, _, _, rfl⟩, fun σ' step => ?_⟩
  cases step with
  | env impossible => exact impossible
  | thread t moved =>
    have turn := Pool.turn_eq_some.mpr moved
    rcases t with _ | _ | t
    · simp [Pool.turn, pair, blocked] at turn
    · cases turn
    · cases turn

theorem pair_store {content : Bytes} {caller : ProxyCode ProxyResult} (absent : fromOCI call.target ∉ cache) :
    Reach (proxyReply p cd).machine
      (pair call { cache } caller (store ProxyCode.loadOrStore (fromOCI call.target) (.ok content) >>= report 0))
      (pair call (({ cache := cache.insert (fromOCI call.target) content } : ProxyState).update 0 { pushErr := some none })
        caller (.ret (.pushed none))) := by
  have stored : proxyReply p cd { cache } 1 2 (.loadOrStore (fromOCI call.target) content) =
      some (false, { cache := cache.insert (fromOCI call.target) content }, []) := if_neg absent
  exact (pair_pusher stored).trans (pair_pusher (a := ()) rfl)

/-- In the trap the goroutine that pushes returns before the caller has written everything. -/
theorem stuck_of_trap (trap : Trap p cd cache call) (reads : call.consumer = readAllFrom cd call.target) :
    ∃ σ, Reach (proxyReply p cd).machine (proxyStart p cache [call]) σ ∧ σ.Stuck (proxyReply p cd) := by
  obtain ⟨caching, missing, ⟨limit, limited, fits⟩, blob, base, matching, longer⟩ := trap
  have size := matching.size
  have begun := reach_reading (p := p) cd caching missing base limited fits
  rw [reads, readAllFrom_eq matching] at begun
  obtain ⟨taken, s, left, read⟩ := pair_readFull (p := p) cd (closeTee blob)
    (fun read => store ProxyCode.loadOrStore (fromOCI call.target) read >>= report 0) (checkRead cd call.target)
    le_rfl [] {} (s := blob.content) (by omega : call.target.size.toNat < _)
  have taking := begun.trans read
  rw [List.nil_append, checkRead_full matching, fromPipe_verify matching] at taking
  have nonempty : (s.read 1).1.1 ≠ [] := by
    intro nothing
    have length := congrArg List.length left
    rw [((s.read_spec 1).2.2.1 Nat.one_pos nothing).1, List.length_nil, List.length_drop] at length
    omega
  rw [verify, observe, ProxyCode.tee, if_neg nonempty] at taking
  have stored := taking.trans (pair_store (Finmap.lookup_eq_none.mp missing))
  refine ⟨_, stored.trans (pair_caller (a := ()) rfl), pair_stuck ?_ ?_⟩
  · rw [ProxyState.update_pipes]
    exact nonempty
  · rw [ProxyState.update_pipes, ProxyState.update_pipes]

/-- A caller that runs `ReadAll` on what `Fetch` returns and closes it may get stuck exactly if
the base storage has the content with further bytes behind it, and the content is to be cached. -/
theorem fetch_stuck_iff (p : Proxy) (cd : Codec) (cache : Contents) (target : Descriptor) (base : Except Error Blob) :
    (∃ σ, Reach (proxyReply p cd).machine (proxyStart p cache [⟨target, base, readAllFrom cd target⟩]) σ ∧
      σ.Stuck (proxyReply p cd)) ↔ Trap p cd cache ⟨target, base, readAllFrom cd target⟩ := by
  constructor
  · rintro ⟨σ, reach, stuck⟩
    obtain ⟨call, member, trap⟩ := trap_of_stuck reach stuck
    obtain rfl := List.mem_singleton.mp member
    exact trap
  · exact fun trap => stuck_of_trap trap rfl

end Hangs

/-- A caller that asks for five bytes of which the base storage has six, with the default
`MaxMetadataBytes` as the limit. -/
theorem fetch_hangs : ∃ σ, Reach (proxyReply { pushLimit := some 4194304 } Sample.codec).machine
    (proxyStart { pushLimit := some 4194304 } ∅ [⟨Sample.hello, .ok ⟨{ chunks := [Sample.helloBytes ++ [0x21]] }, none⟩,
      readAllFrom Sample.codec Sample.hello⟩]) σ ∧ σ.Stuck (proxyReply { pushLimit := some 4194304 } Sample.codec) := by
  have read : ({ chunks := [Sample.helloBytes] } : Stream).run (readAllFrom Sample.codec Sample.hello) =
    .ok Sample.helloBytes := by decide +kernel
  have matching := ((Stream.run_readAllFrom _ _ _).2 _ read).1.content
  refine stuck_of_trap ⟨rfl, Finmap.lookup_empty _, ⟨_, rfl, by decide⟩, _, rfl, ?_, by decide⟩ rfl
  exact matching

end OrasGo.Cas
