import OrasGo.Copy.State
import OrasGo.Syncutil.Callback

/-! What a worker of a copy knows as it goes: which nodes it has committed and
which of those it has not closed, which nodes it knows to be stored, and which
callbacks it has made. -/

namespace OrasGo.Copy
open Interleaving Syncutil

structure Ledger where
  mine : Set Key := ∅
  opened : Set Key := ∅
  seen : Set Key := ∅
  known : Set Key := ∅
  events : List (Key × Callback × Option Error) := []

namespace Ledger

def commit (l : Ledger) (k : Key) : Ledger :=
  { l with mine := insert k l.mine, opened := insert k l.opened, seen := insert k l.seen }

def see (l : Ledger) (k : Key) : Ledger := { l with seen := insert k l.seen }

def close (l : Ledger) (k : Key) : Ledger := { l with opened := l.opened \ {k} }

def know (l : Ledger) (k : Key) : Ledger := { l with known := insert k l.known }

def note (l : Ledger) (k : Key) (which : Callback) (err : Option Error) : Ledger :=
  { l with events := l.events ++ [(k, which, err)] }

/-- All successors of the node are known to be stored. -/
def Ready (G : Content) (k : Key) (l : Ledger) : Prop := ∀ node ∈ G.children k, fromOCI node ∈ l.known

end Ledger

/-- The four ways in which a node is handled. -/
def Handled (k : Key) (events : List (Key × Callback × Option Error)) : Prop :=
  events = [(k, .onCopySkipped, none)] ∨
  events = [(k, .preCopy, none), (k, .postCopy, none)] ∨
  events = [(k, .preCopy, some .skipNode)] ∨
  events = [(k, .onMounted, none)]

/-- The worker has no open channel but that of the node it was started for. -/
def calm (label : Label Item) (l : Ledger) : Prop :=
  ∀ k ∈ l.opened, ∃ g desc, label = some (g, .node desc) ∧ fromOCI desc = k

def workerGhost (G : Content) (label : Label Item) : Ghost CopyOp CopyAns Ledger where
  pre op l := match op with
    | .closeDone node => fromOCI node ∈ l.opened ∧ fromOCI node ∈ l.known
    | .selectDone node => fromOCI node ∈ l.seen ∧ calm label l ∧
      ∃ g desc, label = some (g, .node desc) ∧ G.Child (fromOCI node) (fromOCI desc)
    | .push desc => l.Ready G (fromOCI desc)
    | .preCopy desc => l.Ready G (fromOCI desc) ∧ fromOCI desc ∈ l.mine
    | .callback _ desc => fromOCI desc ∈ l.mine
    | .mount desc _ => l.Ready G (fromOCI desc)
    | .mountPush desc => l.Ready G (fromOCI desc)
    | _ => True
  next op answer l l' := match op, answer with
    | .tryCommit node, true => l' = l.commit (fromOCI node)
    | .tryCommit node, false => l' = l.see (fromOCI node)
    | .closeDone node, _ => l' = l.close (fromOCI node)
    | .selectDone node, none => l' = l.know (fromOCI node)
    | .dstExists desc, .ok true => l' = l.know (fromOCI desc)
    | .findSuccessors desc, .ok nodes => G.successors desc = .ok nodes ∧ l' = l
    | .fetch _, err => foreignError err ∧ l' = l
    | .push desc, none => l' = l.know (fromOCI desc)
    | .push desc, some err => l' = if Error.is .alreadyExists err then l.know (fromOCI desc) else l
    | .preCopy desc, (_, err) => foreignError err ∧
      l' = (if err = some .skipNode then l.know (fromOCI desc) else l).note (fromOCI desc) .preCopy err
    | .callback which desc, err => l' = l.note (fromOCI desc) which err
    | .mount desc _, .mounted => l' = l.know (fromOCI desc)
    | .mount _ _, .failed err => foreignError (some err) ∧ l' = l
    | .mountPush desc, none => l' = l.know (fromOCI desc)
    | .mountPush _, some err => foreignError (some err) ∧ l' = l
    | _, _ => l' = l

abbrev outline (G : Content) (label : Label Item) := callbackGhost (workerGhost G) calm label

/-- A copy of the node that was begun at `l` has succeeded. -/
def Copied (k : Key) (l : Ledger) (err : Option Error) (l' : Ledger) : Prop :=
  err = none → k ∈ l'.known ∧ Handled k l'.events ∧ l'.mine = l.mine ∧ l'.opened = l.opened ∧
    l.seen ⊆ l'.seen

theorem foreignError_wrap {message : String} {err : Error} (foreign : foreignError (some err) = true) :
    foreignError (some (.wrap message err)) = true := by
  simpa [foreignError, Error.is] using foreign

section Rules
variable {L : Type} {γ : Ghost (Op CopyOp Item) (Ans CopyAns) L} {desc : Descriptor} {Q : Option Error → L → Prop}
  {opened stored : L → Prop} {l l' : L}

/-- What an outline has to say of the operations that copy a node from place `l` on, for `Q` to hold
at the end. `opened` holds after a `PreCopy` that returns nil, and `stored` once the content is there. -/
structure CopyRules (γ : Ghost (Op CopyOp Item) (Ans CopyAns) L) (desc : Descriptor) (Q : Option Error → L → Prop)
    (opened stored : L → Prop) (l : L) : Prop where
  fails : ∀ err l', Q (some err) l'
  preCopy : wp γ (ask (.preCopy desc)) (fun (_, err) l' => foreignError err = true ∧ (err = none → opened l') ∧
    (err = some .skipNode → Q none l')) l
  fetch : ∀ l', opened l' → wp γ (ask (.fetch desc)) (fun err l'' => foreignError err = true ∧ opened l'') l'
  push : ∀ l', opened l' →
    wp γ (ask (.push desc)) (fun err l'' => Option.all (Error.is .alreadyExists) err = true → stored l'') l'
  mountPush : ∀ l', opened l' →
    wp γ (ask (.mountPush desc)) (fun err l'' => foreignError err = true ∧ (err = none → stored l'')) l'
  postCopy : ∀ l', stored l' → wp γ (ask (.callback .postCopy desc)) Q l'
  mount : ∀ repository, wp γ (ask (.mount desc repository)) (fun answer l' => match answer with
    | .mounted => wp γ (ask (.callback .onMounted desc)) Q l'
    | .failed err => foreignError (some err) = true
    | .getContent => l' = l) l
  mountFrom : wp γ (ask (.mountFrom desc)) (fun _ l' => l' = l) l

variable (rules : CopyRules γ desc Q opened stored l)
include rules

theorem CopyRules.doCopyNode (begun : opened l') :
    wp γ (doCopyNode desc) (fun err l'' => err = none → stored l'') l' := by
  refine wp_seq _ (rules.fetch l' begun) fun fetched l₁ ⟨_, still⟩ => ?_
  cases fetched with
  | some err => exact fun failed => by cases failed
  | none =>
    refine wp_seq _ (rules.push l₁ still) fun pushed l₂ there => ?_
    cases pushed with
    | none => exact fun _ => there rfl
    | some err =>
      by_cases present : Error.is .alreadyExists err = true
      · simp only [present, if_true]
        exact fun _ => there present
      · simp only [present]
        exact fun failed => by cases failed

theorem CopyRules.copyNode : wp γ (copyNode desc) Q l := by
  refine wp_seq _ rules.preCopy fun ⟨_, err⟩ l' ⟨_, begins, skips⟩ => ?_
  cases err with
  | some err =>
    by_cases skip : err = .skipNode
    · simp only [skip, if_true]
      exact skips (congrArg some skip)
    · simp only [skip, if_false]
      exact rules.fails err l'
  | none =>
    refine wp_seq _ (rules.doCopyNode (begins rfl)) fun err l'' there => ?_
    cases err with
    | some err => exact rules.fails err l''
    | none => exact rules.postCopy l'' (there rfl)

theorem CopyRules.getContent :
    wp γ (getContent desc true) (fun err l' => foreignError err = true ∧ (err = none → opened l')) l := by
  refine wp_seq _ rules.preCopy fun ⟨_, err⟩ l' ⟨foreign, begins, _⟩ => ?_
  cases err with
  | some err => exact ⟨foreign, fun failed => by cases failed⟩
  | none => exact wp_mono _ (fun err l'' ⟨foreign, still⟩ => ⟨foreign, fun _ => still⟩) (rules.fetch l' (begins rfl))

/-- A mount that fails with an error of the surroundings ends the copy. -/
theorem CopyRules.afterMount {next : Worker (Option Error)} {err : Error} (foreign : foreignError (some err) = true) :
    wp γ (afterMount next (some err)) Q l' := by
  have other : Error.is .skipSource err = false := by simpa [foreignError] using foreign
  simp only [Copy.afterMount, other, Bool.false_eq_true, if_false]
  exact rules.fails _ l'

/-- By induction on the repositories that are left: the content is fetched for the last one only. -/
theorem CopyRules.mountLoop {repositories : List String} (some : repositories ≠ []) :
    wp γ (mountLoop desc repositories) Q l := by
  induction repositories with
  | nil => exact absurd rfl some
  | cons repository rest ih =>
    refine wp_seq _ (rules.mount repository) fun result l' moved => ?_
    cases result with
    | mounted => exact moved
    | failed err => exact rules.afterMount moved
    | getContent =>
      cases moved
      cases rest with
      | cons next rest => exact ih (List.cons_ne_nil next rest)
      | nil =>
        refine wp_seq _ rules.getContent fun err l' ⟨foreign, begins⟩ => ?_
        cases err with
        | some err => exact rules.afterMount (foreignError_wrap foreign)
        | none =>
          refine wp_seq _ (rules.mountPush l' (begins rfl)) fun err l'' ⟨foreign, there⟩ => ?_
          cases err with
          | some err => exact rules.afterMount foreign
          | none => exact rules.postCopy l'' (there rfl)

theorem CopyRules.mountOrCopyNode (opts : Options) : wp γ (mountOrCopyNode opts desc) Q l := by
  unfold Copy.mountOrCopyNode
  split
  · exact rules.copyNode
  split
  · exact rules.copyNode
  refine wp_seq _ rules.mountFrom ?_
  rintro repositories _ rfl
  cases repositories with
  | error err => exact rules.fails err _
  | ok repositories =>
    cases repositories with
    | nil => exact rules.copyNode
    | cons repository rest => exact rules.mountLoop (List.cons_ne_nil repository rest)

end Rules

section Program
variable {G : Content} {label : Label Item} {desc : Descriptor} {l : Ledger}

/-- A node whose successors are stored is handled by a copy that returns nil: with `PreCopy` and `PostCopy`,
with a `PreCopy` that skips it, or with `OnMounted`. -/
theorem outline_rules (ready : l.Ready G (fromOCI desc)) (mine : fromOCI desc ∈ l.mine) (first : l.events = []) :
    CopyRules (outline G label) desc (Copied (fromOCI desc) l) (· = l.note (fromOCI desc) .preCopy none)
      (· = (l.note (fromOCI desc) .preCopy none).know (fromOCI desc)) l where
  fails err l' failed := by cases failed
  preCopy := by
    refine ⟨⟨ready, mine⟩, ?_⟩
    rintro ⟨_, err⟩ l' ⟨foreign, rfl⟩
    refine ⟨foreign, ?_, ?_⟩
    · rintro rfl
      rfl
    · rintro rfl _
      exact ⟨Set.mem_insert .., .inr (.inr (.inl (congrArg (· ++ _) first))), rfl, rfl, subset_rfl⟩
  fetch := by
    rintro _ rfl
    exact ⟨trivial, fun _ _ moved => moved⟩
  push := by
    rintro _ rfl
    refine ⟨ready, fun pushed l' moved present => ?_⟩
    cases pushed with
    | none => exact moved
    | some err => exact moved.trans (if_pos present)
  mountPush := by
    rintro _ rfl
    refine ⟨ready, fun pushed l' moved => ?_⟩
    cases pushed with
    | none => exact ⟨rfl, fun _ => moved⟩
    | some err => exact ⟨moved.1, fun failed => by cases failed⟩
  postCopy := by
    rintro _ rfl
    refine ⟨mine, ?_⟩
    rintro err _ rfl failed
    cases failed
    refine ⟨Set.mem_insert .., .inr (.inl ?_), rfl, rfl, subset_rfl⟩
    exact congrArg (fun events => (events ++ _) ++ _) first
  mount repository := by
    refine ⟨ready, fun result l' moved => ?_⟩
    cases result with
    | mounted =>
      cases moved
      refine ⟨mine, ?_⟩
      rintro err _ rfl failed
      cases failed
      exact ⟨Set.mem_insert .., .inr (.inr (.inr (congrArg (· ++ _) first))), rfl, rfl, subset_rfl⟩
    | failed err => exact moved.1
    | getContent => exact moved
  mountFrom := ⟨trivial, fun _ _ same => same⟩

/-- The nodes waited for are known to be stored, and nothing else has changed
but what has been seen. -/
def Awaited (nodes : List Descriptor) (l : Ledger) (err : Option Error) (l' : Ledger) : Prop :=
  err = none → (∀ node ∈ nodes, fromOCI node ∈ l'.known) ∧ l.known ⊆ l'.known ∧ l.seen ⊆ l'.seen ∧
    l'.mine = l.mine ∧ l'.opened = l.opened ∧ l'.events = l.events

/-- By induction on the successors: each is seen to be committed, and waited for until it is stored. -/
theorem outline_awaitSuccessors {g : Nat} {nodes : List Descriptor}
    (own : label = some (g, .node desc)) (quiet : calm label l)
    (children : ∀ node ∈ nodes, G.Child (fromOCI node) (fromOCI desc)) :
    wp (outline G label) (awaitSuccessors desc nodes) (Awaited nodes l) l := by
  induction nodes generalizing l with
  | nil => exact fun _ => ⟨by simp, subset_rfl, subset_rfl, rfl, rfl, rfl⟩
  | cons node rest ih =>
    rw [awaitSuccessors, ask, call, Prog.perform_bind, wp_call]
    refine ⟨trivial, fun committed l' moved => ?_⟩
    cases committed with
    | true => exact fun failed => by cases failed
    | false =>
      cases moved
      refine ⟨⟨Set.mem_insert .., quiet, g, desc, own, children node List.mem_cons_self⟩, ?_⟩
      intro err l' moved
      cases err with
      | some err => exact fun failed => by cases failed
      | none =>
        cases moved
        refine wp_mono _ ?_ (ih quiet fun node member => children node (List.mem_cons_of_mem _ member))
        intro err l' awaited succeeded
        obtain ⟨known, older, seen, same⟩ := awaited succeeded
        refine ⟨?_, (Set.subset_insert ..).trans older, (Set.subset_insert ..).trans seen, same⟩
        intro node' member
        rcases List.mem_cons.mp member with rfl | later
        · exact older (Set.mem_insert ..)
        · exact known node' later

theorem outline_processSuccessors {g : Nat} {nodes : List Descriptor}
    (own : label = some (g, .node desc)) (quiet : calm label l)
    (children : ∀ node ∈ nodes, G.Child (fromOCI node) (fromOCI desc)) :
    wp (outline G label) (processSuccessors desc nodes) (Awaited nodes l) l := by
  unfold processSuccessors
  split
  · rename_i empty
    subst empty
    exact fun _ => ⟨by simp, subset_rfl, subset_rfl, rfl, rfl, rfl⟩
  rw [regionEnd, call, Prog.perform_bind, wp_call]
  refine ⟨trivial, ?_⟩
  rintro _ _ rfl
  refine wp_seq _ (callback_go quiet _) ?_
  rintro err _ rfl
  cases err with
  | some err => exact fun failed => by cases failed
  | none =>
    refine wp_seq _ (outline_awaitSuccessors own quiet children) fun err l' awaited => ?_
    cases err with
    | some err => exact fun failed => by cases failed
    | none =>
      have quiet' : calm label l' := by
        intro k opened
        rw [(awaited rfl).2.2.2.2.1] at opened
        exact quiet k opened
      refine ⟨quiet', ?_⟩
      rintro err _ rfl _
      exact awaited rfl

/-- Once its successors are stored, the node is copied, from the cache or from the source. -/
theorem outline_copyFound {g : Nat} {nodes : List Descriptor} (opts : Options)
    (own : label = some (g, .node desc)) (quiet : calm label l) (mine : fromOCI desc ∈ l.mine)
    (first : l.events = []) (found : G.successors desc = .ok nodes) :
    wp (outline G label) (copyFound opts desc nodes) (Copied (fromOCI desc) l) l := by
  have children := Content.children_eq found
  refine wp_seq _ (outline_processSuccessors own quiet fun node member => ?_) fun err l' awaited => ?_
  · exact ⟨node, children ▸ member, rfl⟩
  cases err with
  | some err => exact fun failed => by cases failed
  | none =>
    obtain ⟨known, _, seen, sameMine, sameOpened, sameEvents⟩ := awaited rfl
    have ready : l'.Ready G (fromOCI desc) := fun node member => known node (children ▸ member)
    have copied {err : Option Error} {l'' : Ledger} (copied : Copied (fromOCI desc) l' err l'') :
        Copied (fromOCI desc) l err l'' := by
      intro succeeded
      obtain ⟨stored, handled, mine', opened', seen'⟩ := copied succeeded
      exact ⟨stored, handled, mine'.trans sameMine, opened'.trans sameOpened, seen.trans seen'⟩
    have rules := @outline_rules G label desc l' ready (sameMine ▸ mine) (sameEvents.trans first)
    refine ⟨trivial, fun cached l'' moved => ?_⟩
    cases moved.symm
    cases cached with
    | error err => exact fun failed => by cases failed
    | ok cached =>
      cases cached with
      | true => exact wp_mono _ (fun _ _ => copied) rules.copyNode
      | false => exact wp_mono _ (fun _ _ => copied) (rules.mountOrCopyNode opts)

/-- A worker that has committed its node handles it in one of the four ways. -/
theorem outline_copyCommitted {g : Nat} (opts : Options) (own : label = some (g, .node desc))
    (quiet : calm label l) (mine : fromOCI desc ∈ l.mine) (first : l.events = []) :
    wp (outline G label) (copyCommitted opts desc) (Copied (fromOCI desc) l) l := by
  rw [copyCommitted, ask, call, Prog.perform_bind, wp_call]
  refine ⟨trivial, fun found l' moved => ?_⟩
  cases found with
  | error err => exact fun failed => by cases failed
  | ok found =>
    cases found with
    | true =>
      cases moved
      refine ⟨mine, ?_⟩
      rintro err _ rfl failed
      cases failed
      exact ⟨Set.mem_insert .., .inl (congrArg (· ++ _) first), rfl, rfl, subset_rfl⟩
    | false =>
      cases moved
      refine ⟨trivial, fun found l' moved => ?_⟩
      cases found with
      | error err => exact fun failed => by cases failed
      | ok nodes =>
        obtain ⟨found, rfl⟩ := moved
        exact outline_copyFound opts own quiet mine first found

end Program

/-- A worker that returns nil has seen its node committed and has closed all it
has committed; it has committed nothing, or just its own node, and then it has
handled that. -/
def workerPost (label : Label Item) (err : Option Error) (l : Ledger) : Prop :=
  err = none → l.opened = ∅ ∧ (∀ g desc, label = some (g, .node desc) → fromOCI desc ∈ l.seen) ∧
    (l.mine = ∅ ∧ l.events = [] ∨
      ∃ g desc, label = some (g, .node desc) ∧ l.mine = {fromOCI desc} ∧ Handled (fromOCI desc) l.events)

theorem outline_fn {G : Content} (opts : Options) (g : Nat) (desc : Descriptor) :
    wp (outline G (some (g, .node desc))) (fn opts desc) (workerPost (some (g, .node desc))) {} := by
  rw [fn, ask, call, Prog.perform_bind, wp_call]
  refine ⟨trivial, fun committed l moved => ?_⟩
  cases committed with
  | false =>
    cases moved
    refine fun _ => ⟨rfl, fun g' desc' same => ?_, .inl ⟨rfl, rfl⟩⟩
    cases same
    exact Set.mem_insert ..
  | true =>
    cases moved
    have quiet : calm (some (g, .node desc)) (Ledger.commit {} (fromOCI desc)) := by
      intro k opened
      rcases Set.mem_insert_iff.mp opened with rfl | impossible
      · exact ⟨g, desc, rfl, rfl⟩
      · cases impossible
    refine wp_seq _ (outline_copyCommitted opts rfl quiet (Set.mem_insert ..) rfl) fun err l copied => ?_
    cases err with
    | some err => exact fun failed => by cases failed
    | none =>
      obtain ⟨stored, handled, mine, opened, seen⟩ := copied rfl
      refine ⟨⟨opened ▸ Set.mem_insert .., stored⟩, ?_⟩
      rintro _ _ rfl _
      refine ⟨?_, fun g' desc' same => ?_, .inr ⟨g, desc, rfl, ?_, handled⟩⟩
      · simp [Ledger.close, opened, Ledger.commit]
      · cases same
        exact seen (Set.mem_insert ..)
      · simp [Ledger.close, mine, Ledger.commit]

/-- What every worker has done when it returns, whether for a node or for a root. -/
theorem outline_work {G : Content} (opts : Options) (g : Nat) (item : Item) :
    wp (outline G (some (g, item))) (work opts item) (workerPost (some (g, item))) {} := by
  cases item with
  | node desc => exact outline_fn opts g desc
  | root desc =>
    have quiet : calm (some (g, .root desc)) {} := fun k opened => by cases opened
    rw [work, regionEnd, call, Prog.perform_bind, wp_call]
    refine ⟨trivial, ?_⟩
    rintro _ _ rfl
    refine wp_seq _ (callback_go quiet _) ?_
    rintro err _ rfl
    cases err with
    | some err => exact fun failed => by cases failed
    | none =>
      refine ⟨quiet, ?_⟩
      rintro err _ rfl _
      exact ⟨rfl, fun g' desc' same => (by cases same), .inl ⟨rfl, rfl⟩⟩

end OrasGo.Copy
