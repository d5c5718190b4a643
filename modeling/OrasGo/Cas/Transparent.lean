import OrasGo.Cas.Transfer

/-! Concurrent `Proxy.Fetch` calls of one content: who gets all of it without an error. -/

namespace OrasGo.Cas
open Interleaving

/-- The goroutine that pushes for call `t` has looked for its content when another one had stored it. -/
def PushLate (σ : Pool ProxyOp ProxyAns (ProxyState × List Nat) Role ProxyResult) (t : Nat) : Prop :=
  ∃ i ∈ σ.shared.2, ∃ target prog, σ.threads[i]? = some ⟨.pusher t target, prog⟩

/-- The base storage delivers `content` for the call, which matches the descriptor. -/
structure FetchCall.Serves (cd : Codec) (target : Descriptor) (content : Bytes) (call : FetchCall) : Prop where
  asks : call.target = target
  delivers : ∃ blob, call.base = .ok blob ∧ blob.content.bytes = content ∧ blob.content.ending = .eof ∧ blob.closing = none
  matching : Matches cd target content

section
variable {p : Proxy} {cd : Codec} {cache₀ : Contents} {calls : List FetchCall} {target : Descriptor} {content : Bytes}

theorem ProxyInv.cached {s : ProxyState} {ghosts : List (Role × Local)} (inv : ProxyInv p cd cache₀ calls s ghosts)
    (serves : ∀ call ∈ calls, call.Serves cd target content)
    (before : ∀ value, cache₀.lookup (fromOCI target) = some value → value = content) {value : Bytes}
    (stored : s.cache.lookup (fromOCI target) = some value) :
    value = content ∧ (p.TooLarge target → fromOCI target ∈ cache₀) := by
  rcases inv.origin _ _ stored with old | ⟨call, blob, member, base, _, begins, matching, fits⟩
  · exact ⟨before value old, fun _ => Finmap.mem_iff.mpr ⟨value, old⟩⟩
  · obtain ⟨rfl, ⟨blob', base', same, _⟩, whole⟩ := serves call member
    cases base.symm.trans base'
    exact ⟨whole.of_prefix (same ▸ begins) matching, fun large => absurd large fits⟩

/-- The one goroutine that pushes for a call has met the content in the cache exactly if the push was late. -/
theorem ProxyInv.late_iff {σ : Pool ProxyOp ProxyAns (ProxyState × List Nat) Role ProxyResult}
    {ghosts : List (Role × Local)} (inv : ProxyInv p cd cache₀ calls σ.shared.1 ghosts) (met : MetInv σ.shared.2 ghosts)
    (fits : List.Forall₂ (Fits (proxyGhost p cd) (proxyPost p)) σ.threads ghosts) {i t : Nat} {taken : Taken}
    {stage : PushStage} (atI : ghosts[i]? = some (.pusher t target, .pusher taken stage)) :
    PushLate σ t ↔ stage.met = true := by
  rw [← met.pusher i t target taken stage atI]
  constructor
  · rintro ⟨j, late, target', prog, atJ⟩
    obtain ⟨l, ghostJ, _⟩ := ghost_of_thread fits atJ
    obtain rfl := inv.alone j i t target' target (label_of_ghost ghostJ) (label_of_ghost atI)
    exact late
  · intro late
    obtain ⟨prog, found, _⟩ := thread_of_ghost fits atI
    exact ⟨i, late, target, prog, found⟩

theorem ProxyInv.not_late {σ : Pool ProxyOp ProxyAns (ProxyState × List Nat) Role ProxyResult}
    {ghosts : List (Role × Local)} (inv : ProxyInv p cd cache₀ calls σ.shared.1 ghosts)
    (fits : List.Forall₂ (Fits (proxyGhost p cd) (proxyPost p)) σ.threads ghosts) {t : Nat} {call : FetchCall} {flow : Flow}
    (atT : ghosts[t]? = some (.caller call, .caller flow)) (unopened : flow.stage.opened = false) : ¬ PushLate σ t := by
  rintro ⟨j, _, target', prog, atJ⟩
  obtain ⟨l, ghostJ, _⟩ := ghost_of_thread fits atJ
  obtain ⟨_, _, _, _, atT', _, _, transfer⟩ := inv.pusher j t target' l ghostJ
  cases atT.symm.trans atT'
  cases unopened.symm.trans transfer.opened

/-- A push whose caller has read to the end fails only when it has met its content, or when this is
too large. -/
theorem TransferInv.lost {call : FetchCall} {pipe : Pipe} {flow : Flow} {taken : Taken} {stage : PushStage} {err : Error}
    (transfer : TransferInv p cd call pipe flow taken stage) (serves : call.Serves cd target content)
    (complete : flow.broken = false → flow.drawn = content) (shut : flow.stage.shut = true)
    (failed : stage.result = some (some err)) : stage.met = true ∨ p.TooLarge target := by
  obtain ⟨rfl, ⟨blob, base, rfl, _⟩, whole⟩ := serves
  rcases transfer.verdict _ failed with met | large | ⟨cause, failed⟩ | ⟨ended, other⟩ | other
  · exact .inl met
  · exact .inr large
  · cases (transfer.ended _ failed).1
  · obtain ⟨_, _, unbroken⟩ := transfer.ended _ ended
    have quiet : pipe.offered = [] := transfer.quiet (fun writing => by rw [writing] at shut; cases shut) unbroken
    have flows := transfer.flows unbroken
    rw [quiet, List.append_nil, complete unbroken] at flows
    exact absurd (flows ▸ whole) other
  · obtain ⟨blob', base', ⟨rest, same⟩, _⟩ := transfer.source
    cases base.symm.trans base'
    exact absurd (same.symm ▸ whole) (other rest)

/-- A caller that reads to the end gets the content and no error exactly if the cache did not hold
the content when its own push looked for it, and if it is not too large to be pushed; without
caching, or with the content cached from the start, nothing is pushed. -/
theorem fetch_transparent_iff {σ : Pool ProxyOp ProxyAns (ProxyState × List Nat) Role ProxyResult}
    (reach : Reach (proxyMachine p cd) ((proxyStart p cache₀ calls).traced []) σ)
    (serves : ∀ call ∈ calls, call.Serves cd target content)
    (before : ∀ value, cache₀.lookup (fromOCI target) = some value → value = content)
    {t : Nat} {value : Except Error Bytes} {taken : Taken} {err : Option Error}
    (returned : σ.Returned t (.closed value taken err)) (ended : taken.ended ≠ none) :
    (taken = ⟨content, some .eof⟩ ∧ err = none) ↔
      ¬ PushLate σ t ∧ (p.TooLarge target → p.stopCaching = true ∨ fromOCI target ∈ cache₀) := by
  obtain ⟨ghosts, fits, inv, met⟩ := proxyMachine_reach reach
  obtain ⟨role, found⟩ := returned
  obtain ⟨l, atGhost, post⟩ := ghost_of_thread fits found
  cases role with
  | pusher t' target' => exact absurd post id
  | caller call =>
    obtain ⟨member, flow, rfl, cached, served⟩ := inv.caller t call l atGhost
    have serve := serves call member
    obtain ⟨rfl, ⟨blob, base, rfl, final, closing⟩, _⟩ := serve
    rcases post with ⟨content', s, hit, follows, rfl⟩ | ⟨stopped, missed, blob', s, base', follows, rfl⟩ |
      ⟨blob', pushErr, base', stage, rfl, gives⟩
    · obtain ⟨rfl, kept⟩ := inv.cached serves before (cached.hit content' hit)
      exact iff_of_true ⟨follows.complete ended, rfl⟩
        ⟨inv.not_late fits atGhost (by rw [hit]; rfl), fun large => .inr (kept large)⟩
    · cases base.symm.trans base'
      rw [final] at follows
      exact iff_of_true ⟨follows.complete ended, closing⟩
        ⟨inv.not_late fits atGhost (by rw [missed]; rfl), fun _ => .inl stopped⟩
    · cases base.symm.trans base'
      rw [final] at gives
      have opened : flow.stage.opened = true := by rw [stage]; rfl
      have whole (unbroken : flow.broken = false) : taken = ⟨blob.content.bytes, some .eof⟩ := by
        obtain ⟨_, s, follows⟩ := gives unbroken
        exact follows.complete ended
      obtain ⟨i, l, atI⟩ := ghost_of_label (served opened)
      obtain ⟨_, _, taken', stage', atT, rfl, _, transfer⟩ := inv.pusher i t call.target l atI
      cases atGhost.symm.trans atT
      rw [inv.late_iff met fits atI]
      have finished := transfer.pushErr.symm.trans (transfer.waited pushErr stage)
      cases stage' with
      | reading | closing => cases finished
      | finished met pushErr' =>
        cases Option.some.inj finished
        cases pushErr with
        | none =>
          have unbroken : flow.broken = false := by
            cases broken : flow.broken with
            | false => rfl
            | true => exact absurd transfer.reader (transfer.broken broken)
          obtain ⟨unmet, small, -⟩ := transfer.verdict none rfl
          exact iff_of_true ⟨whole unbroken, closing⟩
            ⟨Bool.eq_false_iff.mp unmet, fun large => absurd large small⟩
        | some pushErr =>
          refine iff_of_false (fun ⟨_, impossible⟩ => nomatch impossible) fun ⟨unmet, fits⟩ => ?_
          have lost := transfer.lost (serves call member) (fun unbroken => by rw [(gives unbroken).1, whole unbroken])
            (by rw [stage]; rfl) rfl
          -- The call has missed its content, so that nothing was cached at first.
          rcases fits (lost.resolve_left unmet) with stopped | stored
          · cases stopped.symm.trans (cached.caching opened)
          · exact Finmap.lookup_eq_none.mp (cached.missed (.inr opened)) stored

end

namespace Misses

def greeting : Blob where
  content := { chunks := [Sample.helloBytes.take 2, Sample.helloBytes.drop 2] }

def call : FetchCall where
  target := Sample.hello
  base := .ok greeting
  consumer := readAllFrom Sample.codec Sample.hello

theorem serves : call.Serves Sample.codec Sample.hello Sample.helloBytes := by
  have read : greeting.content.run (readAllFrom Sample.codec Sample.hello) = .ok Sample.helloBytes := by decide +kernel
  obtain ⟨delivers, same⟩ := (Stream.run_readAllFrom _ _ _).2 _ read
  exact ⟨rfl, ⟨greeting, rfl, same.symm, rfl, rfl⟩, same ▸ delivers.content⟩

/-- Both callers miss the content; the first one reads it and has it cached; then the push of
the second one finds it there. -/
def run : ProxyRun :=
  (proxyStart {} ∅ [call, call]).play (proxyReply {} Sample.codec)
    ([0, 0, 1, 1] ++ (List.replicate 8 [2, 0]).flatten ++ [3, 3, 3] ++ List.replicate 6 1)

def found : Error := alreadyExists (fromOCI Sample.hello)

theorem run_returned : run.returned? 0 = some (.closed (.ok Sample.helloBytes) ⟨Sample.helloBytes, some .eof⟩ none) ∧
    run.returned? 1 = some (.closed (.error (readError Sample.hello 0 found)) ⟨[], some (.failed found)⟩ (some found)) := by
  decide +kernel

theorem reach : Reach (proxyReply {} Sample.codec).machine (proxyStart {} ∅ [call, call]) run := Pool.play_reach _ _

theorem allServe : ∀ c ∈ [call, call], c.Serves Sample.codec Sample.hello Sample.helloBytes := by
  intro c member
  obtain rfl : c = call := by simpa using member
  exact serves

end Misses

/-- The first caller gets the content, so that its push was not late. -/
theorem fetch_transparent_iff_first : ∃ found,
    Reach (proxyMachine {} Sample.codec) ((proxyStart {} ∅ [Misses.call, Misses.call]).traced []) (Misses.run.traced found) ∧
    Misses.run.Returned 0 (.closed (.ok Sample.helloBytes) ⟨Sample.helloBytes, some .eof⟩ none) ∧
    ¬ PushLate (Misses.run.traced found) 0 := by
  obtain ⟨found, reach⟩ := Misses.reach.recorded []
  have returned := Pool.returned?_eq_some.mp Misses.run_returned.1
  refine ⟨found, reach, returned, ?_⟩
  refine ((fetch_transparent_iff reach Misses.allServe (fun value stored => ?_) (Pool.returned_traced.mpr returned) ?_).mp
    ⟨rfl, rfl⟩).1
  · rw [Finmap.lookup_empty] at stored
    cases stored
  · exact Option.some_ne_none _

/-- The second caller gets nothing of the content, which the base storage has delivered. -/
theorem fetch_not_transparent : ∃ σ value taken err,
    Reach (proxyReply {} Sample.codec).machine (proxyStart {} ∅ [Misses.call, Misses.call]) σ ∧
    (∀ call ∈ [Misses.call, Misses.call], call.Serves Sample.codec Sample.hello Sample.helloBytes) ∧
    σ.Returned 1 (.closed value taken err) ∧ taken.ended ≠ none ∧
    ¬ (taken = ⟨Sample.helloBytes, some .eof⟩ ∧ err = none) :=
  ⟨Misses.run, _, _, _, Misses.reach, Misses.allServe, Pool.returned?_eq_some.mp Misses.run_returned.2, Option.some_ne_none _,
    fun complete => nomatch complete.2⟩

end OrasGo.Cas
