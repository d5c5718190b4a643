import OrasGo.Copy.Outline

/-! The invariant of a copy: the tracker, the destination and the log of
callbacks agree with what the workers know. -/

namespace OrasGo.Copy
open Interleaving Syncutil

def Event.entry (event : Event) : Key × Callback × Option Error := (event.key, event.callback, event.result)

def CopyState.logOf (st : CopyState) (t : Nat) : List (Key × Callback × Option Error) :=
  (st.log.filter (fun event => event.worker = t)).map Event.entry

/-- The ledger of worker `t` is right. -/
structure Agrees (st : CopyState) (t : Nat) (l : Ledger) : Prop where
  mine : ∀ k ∈ l.mine, ∃ closed, st.tracker k = some ⟨t, closed⟩
  opened : ∀ k ∈ l.opened, st.tracker k = some ⟨t, false⟩
  seen : ∀ k ∈ l.seen, st.tracker k ≠ none
  known : ∀ k ∈ l.known, k ∈ st.stored
  log : st.logOf t = l.events

/-- `stored₀` is what the destination held at the start. -/
structure CopyInv (G : Content) (stored₀ : Finset Key) (st : CopyState)
    (ghosts : List (Label Item × Ledger)) : Prop where
  agrees : ∀ (t : Nat) label l, ghosts[t]? = some (label, l) → Agrees st t l
  owned : ∀ k entry, st.tracker k = some entry → ∃ label l, ghosts[entry.owner]? = some (label, l) ∧
    k ∈ l.mine ∧ (entry.closed = false → k ∈ l.opened)
  done : ∀ k entry, st.tracker k = some entry → entry.closed = true → k ∈ st.stored
  closed : G.Closed stored₀ → G.Closed st.stored
  logged : ∀ event ∈ st.log, ∃ label l, ghosts[event.worker]? = some (label, l) ∧ event.key ∈ l.mine

section Steps
variable {G : Content} {stored₀ : Finset Key} {st st' : CopyState} {ghosts : List (Label Item × Ledger)} {t : Nat}
  {label : Label Item} {l l' : Ledger} {k : Key}

theorem CopyInv.start (inv : CopyInv G stored₀ st ghosts) (label : Label Item) :
    CopyInv G stored₀ st (ghosts ++ [(label, ({} : Ledger))]) := by
  have stays : ∀ {t' : Nat} {ghost}, ghosts[t']? = some ghost →
      (ghosts ++ [(label, ({} : Ledger))])[t']? = some ghost := by
    intro t' ghost atT
    rw [List.getElem?_append_left (List.getElem?_eq_some_iff.mp atT).1]
    exact atT
  have silent : st.logOf ghosts.length = [] := by
    refine List.map_eq_nil_iff.mpr (List.filter_eq_nil_iff.mpr fun event member same => ?_)
    obtain ⟨label', l', atT, _⟩ := inv.logged event member
    rw [decide_eq_true_eq.mp same, List.getElem?_eq_none le_rfl] at atT
    cases atT
  refine ⟨?_, ?_, inv.done, inv.closed, ?_⟩
  · intro t' label' l' atT
    rcases getElem?_concat_cases atT with old | ⟨rfl, same⟩
    · exact inv.agrees t' label' l' old
    · cases same
      have empty : ∀ {P : Key → Prop}, ∀ k ∈ (∅ : Set Key), P k := fun k impossible => absurd impossible id
      exact ⟨empty, empty, empty, empty, silent⟩
  · intro k entry found
    obtain ⟨label', l', atO, owned⟩ := inv.owned k entry found
    exact ⟨label', l', stays atO, owned⟩
  · intro event member
    obtain ⟨label', l', atT, mine⟩ := inv.logged event member
    exact ⟨label', l', stays atT, mine⟩

section

variable (inv : CopyInv G stored₀ st ghosts) (found : ghosts[t]? = some (label, l))
include inv found

/-- A step of worker `t`: what it has to show for itself, and that the other
workers' ledgers stay right. -/
theorem CopyInv.step (self : Agrees st' t l') (others : ∀ t' l₀, t' ≠ t → Agrees st t' l₀ → Agrees st' t' l₀)
    (mine : l.mine ⊆ l'.mine)
    (owned : ∀ k entry, st'.tracker k = some entry →
      entry.owner = t ∧ k ∈ l'.mine ∧ (entry.closed = false → k ∈ l'.opened) ∨
      entry.owner ≠ t ∧ st.tracker k = some entry)
    (done : ∀ k entry, st'.tracker k = some entry → entry.closed = true → k ∈ st'.stored)
    (closed : G.Closed stored₀ → G.Closed st'.stored)
    (logged : ∀ event ∈ st'.log, event ∈ st.log ∨ event.worker = t ∧ event.key ∈ l'.mine) :
    CopyInv G stored₀ st' (ghosts.set t (label, l')) := by
  obtain ⟨inside, _⟩ := List.getElem?_eq_some_iff.mp found
  refine ⟨?_, ?_, done, closed, ?_⟩
  · intro t' label' l₀ atT
    rcases getElem?_set_cases atT with ⟨rfl, same⟩ | ⟨other, old⟩
    · cases same
      exact self
    · exact others t' l₀ other (inv.agrees t' label' l₀ old)
  · intro k entry atK
    rcases owned k entry atK with ⟨same, known⟩ | ⟨other, before⟩
    · exact ⟨label, l', by rw [same, List.getElem?_set_self inside], known⟩
    · obtain ⟨label', l₀, atO, known⟩ := inv.owned k entry before
      exact ⟨label', l₀, by rw [List.getElem?_set_ne (Ne.symm other)]; exact atO, known⟩
  · intro event member
    have own : event.worker = t → event.key ∈ l'.mine →
        ∃ label₀ l₀, (ghosts.set t (label, l'))[event.worker]? = some (label₀, l₀) ∧ event.key ∈ l₀.mine :=
      fun same known => ⟨label, l', by rw [same, List.getElem?_set_self inside], known⟩
    rcases logged event member with old | ⟨same, known⟩
    · obtain ⟨label', l₀, atT, known⟩ := inv.logged event old
      by_cases same : event.worker = t
      · rw [same] at atT
        cases found.symm.trans atT
        exact own same (mine known)
      · exact ⟨label', l₀, by rw [List.getElem?_set_ne (Ne.symm same)]; exact atT, known⟩
    · exact own same known

theorem CopyInv.owned_cases {entry : Entry} (atK : st.tracker k = some entry) :
    entry.owner = t ∧ k ∈ l.mine ∧ (entry.closed = false → k ∈ l.opened) ∨
    entry.owner ≠ t ∧ st.tracker k = some entry := by
  by_cases same : entry.owner = t
  · obtain ⟨label', l₀, atO, known⟩ := inv.owned k entry atK
    rw [same] at atO
    cases found.symm.trans atO
    exact .inl ⟨same, known⟩
  · exact .inr ⟨same, atK⟩

theorem CopyInv.learn {seen known : Set Key} (hasEntry : ∀ k ∈ seen, st.tracker k ≠ none)
    (hasNode : ∀ k ∈ known, k ∈ st.stored) :
    CopyInv G stored₀ st (ghosts.set t (label, { l with seen := seen, known := known })) := by
  have before := inv.agrees t label l found
  refine inv.step found { before with seen := hasEntry, known := hasNode } (fun _ _ _ same => same)
    subset_rfl (fun k entry atK => inv.owned_cases found atK) inv.done inv.closed fun event member => .inl member

theorem CopyInv.know (stored : k ∈ st.stored) : CopyInv G stored₀ st (ghosts.set t (label, l.know k)) := by
  have before := inv.agrees t label l found
  refine inv.learn found before.seen fun k' member => ?_
  rcases Set.mem_insert_iff.mp member with rfl | old
  · exact stored
  · exact before.known k' old

theorem CopyInv.store (ready : l.Ready G k) : CopyInv G stored₀ (st.store k) ghosts := by
  refine ⟨?_, inv.owned, ?_, ?_, inv.logged⟩
  · intro t' label' l₀ atT
    have before := inv.agrees t' label' l₀ atT
    exact { before with known := fun k' known => Finset.mem_insert_of_mem (before.known k' known) }
  · intro k' entry atK closed
    exact Finset.mem_insert_of_mem (inv.done k' entry atK closed)
  · intro initially k' member node child
    refine Finset.mem_insert_of_mem ?_
    rcases Finset.mem_insert.mp member with rfl | old
    · exact (inv.agrees t label l found).known _ (ready node child)
    · exact inv.closed initially k' old node child

end

theorem logOf_record (st : CopyState) (t t' : Nat) (k : Key) (which : Callback) (err : Option Error) :
    (st.record t k which err).logOf t' = st.logOf t' ++ (if t' = t then [(k, which, err)] else []) := by
  by_cases same : t' = t
  · subst same
    simp [CopyState.logOf, CopyState.record, Event.entry]
  · simp [CopyState.logOf, CopyState.record, same, Ne.symm same]

theorem CopyInv.note (inv : CopyInv G stored₀ st ghosts) (found : ghosts[t]? = some (label, l)) (mine : k ∈ l.mine)
    (which : Callback) (err : Option Error) :
    CopyInv G stored₀ (st.record t k which err) (ghosts.set t (label, l.note k which err)) := by
  have before := inv.agrees t label l found
  refine inv.step found { before with log := ?_ } ?_ subset_rfl
    (fun k entry atK => inv.owned_cases found atK) inv.done inv.closed ?_
  · rw [logOf_record, if_pos rfl, before.log]
    rfl
  · intro t' l₀ other same
    refine { same with log := ?_ }
    rw [logOf_record, if_neg other, List.append_nil]
    exact same.log
  · intro event member
    rcases List.mem_append.mp member with old | new
    · exact .inl old
    · cases List.mem_singleton.mp new
      exact .inr ⟨rfl, mine⟩

theorem setEntry_self (st : CopyState) (k : Key) (entry : Entry) :
    (st.setEntry k entry).tracker k = some entry := Function.update_self ..

theorem setEntry_ne {k' : Key} (other : k' ≠ k) (st : CopyState) (entry : Entry) :
    (st.setEntry k entry).tracker k' = st.tracker k' := Function.update_of_ne other ..

theorem setEntry_cases {k' : Key} {entry entry' : Entry}
    (atK : (st.setEntry k entry).tracker k' = some entry') :
    k' = k ∧ entry' = entry ∨ k' ≠ k ∧ st.tracker k' = some entry' := by
  by_cases same : k' = k
  · rw [same, setEntry_self] at atK
    exact .inl ⟨same, (Option.some.inj atK).symm⟩
  · rw [setEntry_ne same] at atK
    exact .inr ⟨same, atK⟩

theorem setEntry_ne_none {k' : Key} {entry : Entry} (before : st.tracker k' ≠ none) :
    (st.setEntry k entry).tracker k' ≠ none := by
  by_cases same : k' = k
  · rw [same, setEntry_self]
    simp
  · rw [setEntry_ne same]
    exact before

theorem Agrees.setEntry {entry : Entry} (before : Agrees st t l) (unknown : k ∉ l.mine)
    (shut : k ∉ l.opened) : Agrees (st.setEntry k entry) t l := by
  refine ⟨?_, ?_, fun k' seen => setEntry_ne_none (before.seen k' seen), before.known, before.log⟩
  · intro k' member
    rw [setEntry_ne (fun same : k' = k => unknown (same ▸ member))]
    exact before.mine k' member
  · intro k' member
    rw [setEntry_ne (fun same : k' = k => shut (same ▸ member))]
    exact before.opened k' member

theorem CopyInv.commit (inv : CopyInv G stored₀ st ghosts) (found : ghosts[t]? = some (label, l))
    (free : st.tracker k = none) :
    CopyInv G stored₀ (st.setEntry k ⟨t, false⟩) (ghosts.set t (label, l.commit k)) := by
  have unknown : ∀ {t' l₀}, Agrees st t' l₀ → k ∉ l₀.mine ∧ k ∉ l₀.opened := by
    intro t' l₀ before
    refine ⟨fun mine => ?_, fun opened => ?_⟩
    · obtain ⟨closed, atK⟩ := before.mine k mine
      cases free.symm.trans atK
    · cases free.symm.trans (before.opened k opened)
  have before := inv.agrees t label l found
  have kept : Agrees (st.setEntry k ⟨t, false⟩) t l := before.setEntry (unknown before).1 (unknown before).2
  refine inv.step found ⟨?_, ?_, ?_, before.known, before.log⟩
    (fun t' l₀ _ same => same.setEntry (unknown same).1 (unknown same).2) (Set.subset_insert ..) ?_ ?_
    inv.closed fun event member => .inl member
  · intro k' member
    rcases Set.mem_insert_iff.mp member with rfl | old
    · exact ⟨false, setEntry_self ..⟩
    · exact kept.mine k' old
  · intro k' member
    rcases Set.mem_insert_iff.mp member with rfl | old
    · exact setEntry_self ..
    · exact kept.opened k' old
  · intro k' member
    rcases Set.mem_insert_iff.mp member with rfl | old
    · rw [setEntry_self]
      simp
    · exact kept.seen k' old
  · intro k' entry atK
    rcases setEntry_cases atK with ⟨rfl, rfl⟩ | ⟨_, old⟩
    · exact .inl ⟨rfl, Set.mem_insert .., fun _ => Set.mem_insert ..⟩
    · rcases inv.owned_cases found old with ⟨own, mine, opened⟩ | ⟨other, _⟩
      · exact .inl ⟨own, Set.mem_insert_of_mem _ mine, fun open' => Set.mem_insert_of_mem _ (opened open')⟩
      · exact .inr ⟨other, old⟩
  · intro k' entry atK closed
    rcases setEntry_cases atK with ⟨_, rfl⟩ | ⟨_, old⟩
    · cases closed
    · exact inv.done k' entry old closed

theorem CopyInv.close (inv : CopyInv G stored₀ st ghosts) (found : ghosts[t]? = some (label, l))
    (opened : k ∈ l.opened) (known : k ∈ l.known) :
    CopyInv G stored₀ (st.setEntry k ⟨t, true⟩) (ghosts.set t (label, l.close k)) := by
  have before := inv.agrees t label l found
  have atK := before.opened k opened
  have mine : k ∈ l.mine := by
    obtain ⟨label', l₀, atT, mine, _⟩ := inv.owned k _ atK
    cases found.symm.trans atT
    exact mine
  refine inv.step found ⟨?_, ?_, fun k' seen => setEntry_ne_none (before.seen k' seen), before.known,
    before.log⟩ ?_ subset_rfl ?_ ?_ inv.closed fun event member => .inl member
  · intro k' member
    by_cases same : k' = k
    · exact ⟨true, same ▸ setEntry_self ..⟩
    · rw [setEntry_ne same]
      exact before.mine k' member
  · intro k' member
    rw [setEntry_ne member.2]
    exact before.opened k' member.1
  · intro t' l₀ other same
    refine same.setEntry (fun mine => ?_) (fun opened => ?_)
    · obtain ⟨closed, atK'⟩ := same.mine k mine
      cases atK.symm.trans atK'
      exact other rfl
    · cases atK.symm.trans (same.opened k opened)
      exact other rfl
  · intro k' entry atK'
    rcases setEntry_cases atK' with ⟨rfl, rfl⟩ | ⟨different, old⟩
    · exact .inl ⟨rfl, mine, fun impossible => by cases impossible⟩
    · rcases inv.owned_cases found old with ⟨own, mine, opened⟩ | ⟨other, _⟩
      · exact .inl ⟨own, mine, fun open' => ⟨opened open', different⟩⟩
      · exact .inr ⟨other, old⟩
  · intro k' entry atK' closed
    rcases setEntry_cases atK' with ⟨rfl, rfl⟩ | ⟨_, old⟩
    · exact before.known k' known
    · exact inv.done k' entry old closed

end Steps

theorem CopyInv.answer {G : Content} {stored₀ : Finset Key} {st st' : CopyState} {ghosts : List (Label Item × Ledger)} {t : Nat}
    {label : Label Item} {l : Ledger} {ended : Bool} {op : CopyOp} {a : CopyAns op}
    (inv : CopyInv G stored₀ st ghosts) (found : ghosts[t]? = some (label, l)) (pre : (workerGhost G label).pre op l)
    (answered : answer G st t ended op a = some st') :
    ∃ l', (workerGhost G label).next op a l l' ∧ CopyInv G stored₀ st' (ghosts.set t (label, l')) := by
  have keep : CopyInv G stored₀ st (ghosts.set t (label, l)) := by rwa [set_same found]
  have before := inv.agrees t label l found
  cases op with
  | tryCommit node =>
    cases taken : st.tracker (fromOCI node) with
    | none =>
      cases a with
      | true =>
        simp only [Copy.answer, taken, Option.some.injEq] at answered
        subst answered
        exact ⟨_, rfl, inv.commit found taken⟩
      | false => simp [Copy.answer, taken] at answered
    | some entry =>
      cases a with
      | true => simp [Copy.answer, taken] at answered
      | false =>
        simp only [Copy.answer, taken, Option.some.injEq] at answered
        subst answered
        refine ⟨_, rfl, inv.learn found (fun k member => ?_) before.known⟩
        rcases Set.mem_insert_iff.mp member with rfl | old
        · rw [taken]
          simp
        · exact before.seen k old
  | closeDone node =>
    simp only [Copy.answer, before.opened _ pre.1] at answered
    cases answered
    exact ⟨_, rfl, inv.close found pre.1 pre.2⟩
  | selectDone node =>
    cases a with
    | none =>
      simp only [Copy.answer, Option.ite_none_right_eq_some, Option.some.injEq, Option.any_eq_true] at answered
      obtain ⟨⟨entry, atK, closed⟩, rfl⟩ := answered
      exact ⟨_, rfl, inv.know found (inv.done _ entry atK closed)⟩
    | some err =>
      obtain ⟨_, rfl⟩ := of_ite_some answered
      exact ⟨l, rfl, keep⟩
  | dstExists desc =>
    cases a with
    | error err =>
      cases answered
      exact ⟨l, rfl, keep⟩
    | ok found' =>
      obtain ⟨same, rfl⟩ := of_ite_some answered
      cases found' with
      | false => exact ⟨l, rfl, keep⟩
      | true => exact ⟨_, rfl, inv.know found (of_decide_eq_true same.symm)⟩
  | findSuccessors desc =>
    cases a with
    | error err =>
      obtain ⟨_, rfl⟩ := of_ite_some answered
      exact ⟨l, rfl, keep⟩
    | ok nodes =>
      simp only [Copy.answer] at answered
      split at answered
      · rename_i nodes' successors
        simp only [Option.ite_none_right_eq_some, Option.some.injEq] at answered
        obtain ⟨rfl, rfl⟩ := answered
        exact ⟨l, ⟨successors, rfl⟩, keep⟩
      · cases answered
  | cacheExists desc | mountFrom desc =>
    cases answered
    exact ⟨l, rfl, keep⟩
  | fetch desc =>
    cases a with
    | none =>
      obtain ⟨_, rfl⟩ := of_ite_some answered
      exact ⟨l, ⟨rfl, rfl⟩, keep⟩
    | some err =>
      obtain ⟨foreign, rfl⟩ := of_ite_some answered
      exact ⟨l, ⟨foreign, rfl⟩, keep⟩
  | push desc =>
    cases a with
    | none =>
      cases answered
      exact ⟨_, rfl, (inv.store found pre).know found (Finset.mem_insert_self ..)⟩
    | some err =>
      obtain ⟨exists', rfl⟩ := of_ite_some answered
      refine ⟨_, rfl, ?_⟩
      split
      · rename_i already
        exact inv.know found (exists' already)
      · exact keep
  | preCopy desc =>
    obtain ⟨stores, err⟩ := a
    obtain ⟨ready, mine⟩ := pre
    obtain ⟨⟨skip, foreign⟩, rfl⟩ := of_ite_some answered
    refine ⟨_, ⟨foreign, rfl⟩, ?_⟩
    have stored : CopyInv G stored₀ (if stores then st.store (fromOCI desc) else st) ghosts := by
      split
      · exact inv.store found ready
      · exact inv
    have known : CopyInv G stored₀ (if stores then st.store (fromOCI desc) else st)
        (ghosts.set t (label, if err = some .skipNode then l.know (fromOCI desc) else l)) := by
      by_cases same : err = some .skipNode
      · rw [if_pos same]
        exact stored.know found (skip same)
      · rw [if_neg same, set_same found]
        exact stored
    have inside : t < ghosts.length := (List.getElem?_eq_some_iff.mp found).1
    have noted := known.note (List.getElem?_set_self inside) (k := fromOCI desc) ?_ .preCopy err
    · rwa [List.set_set] at noted
    · split <;> exact mine
  | callback which desc =>
    cases answered
    exact ⟨_, rfl, inv.note found pre which a⟩
  | mount desc repository =>
    cases a with
    | mounted =>
      cases answered
      exact ⟨_, rfl, (inv.store found pre).know found (Finset.mem_insert_self ..)⟩
    | failed err =>
      obtain ⟨foreign, rfl⟩ := of_ite_some answered
      exact ⟨l, ⟨foreign, rfl⟩, keep⟩
    | getContent =>
      cases answered
      exact ⟨l, rfl, keep⟩
  | mountPush desc =>
    cases a with
    | none =>
      cases answered
      exact ⟨_, rfl, (inv.store found pre).know found (Finset.mem_insert_self ..)⟩
    | some err =>
      obtain ⟨foreign, rfl⟩ := of_ite_some answered
      exact ⟨l, ⟨foreign, rfl⟩, keep⟩

theorem copy_reach {G : Content} {opts : Options} {limit : Nat} {stored : Finset Key} {items : List Item}
    {σ : CopyRun} (reach : Reach (copyMachine G opts) (start limit stored items) σ) :
    Outline (outline G) workerPost (fun s ghosts => CopyInv G stored s.user ghosts) σ := by
  refine callback_reach (outline_work opts) ⟨fun k none => absurd none id, fun err _ => ?_⟩
    ⟨fun s ghosts label inv => inv.start label, fun s ghosts t label l ended op a s' inv found pre answered =>
      inv.answer found pre answered⟩ ?_ reach
  · exact ⟨rfl, fun g desc same => (by cases same), .inl ⟨rfl, rfl⟩⟩
  · have empty : CopyInv G stored { stored } [] := by
      refine ⟨?_, ?_, ?_, id, ?_⟩
      · intro t label l found
        simp at found
      · intro k entry found
        cases found
      · intro k entry found
        cases found
      · intro event member
        cases member
    exact empty.start none

end OrasGo.Copy
