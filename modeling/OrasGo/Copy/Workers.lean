import OrasGo.Copy.Invariant
import OrasGo.Syncutil.Progress

/-! The workers of a copy meet the demands of `Go` on its callback: they hold no
permit while they wait, and hand it only successors of their own node. -/

namespace OrasGo.Copy
open Interleaving Syncutil

/-- A program that performs no operation of `Go` and none that may block. -/
def Quiet {α : Type} : Worker α → Prop
  | .ret _ => True
  | .call op next => (∃ u, op = .user u ∧ blocking u = false) ∧ ∀ a, Quiet (next a)

/-- Quiet programs in sequence are quiet. -/
theorem Quiet.bind {α β : Type} {p : Worker α} {f : α → Worker β} (first : Quiet p)
    (rest : ∀ value, Quiet (f value)) : Quiet (p >>= f) := by
  induction p with
  | ret value => exact rest value
  | call op next ih => exact ⟨first.1, fun a => ih a (first.2 a)⟩

theorem quiet_ask {op : CopyOp} (free : blocking op = false) : Quiet (ask op) :=
  ⟨⟨op, rfl, free⟩, fun _ => trivial⟩

theorem quiet_doCopyNode (desc : Descriptor) : Quiet (doCopyNode desc) := by
  refine (quiet_ask rfl).bind fun fetched => ?_
  cases fetched with
  | some err => exact trivial
  | none =>
    refine (quiet_ask rfl).bind fun pushed => ?_
    cases pushed with
    | none => exact trivial
    | some err =>
      simp only
      split <;> exact trivial

theorem quiet_copyNode (desc : Descriptor) : Quiet (copyNode desc) := by
  refine (quiet_ask rfl).bind fun ⟨_, err⟩ => ?_
  cases err with
  | some err =>
    simp only
    split <;> exact trivial
  | none =>
    refine (quiet_doCopyNode desc).bind fun err => ?_
    cases err with
    | some err => exact trivial
    | none => exact quiet_ask rfl

theorem quiet_getContent (desc : Descriptor) (last : Bool) : Quiet (getContent desc last) := by
  unfold getContent
  split
  · refine (quiet_ask rfl).bind fun ⟨_, err⟩ => ?_
    cases err with
    | some err => exact trivial
    | none => exact quiet_ask rfl
  · exact trivial

theorem quiet_afterMount {next : Worker (Option Error)} (quiet : Quiet next) (err : Option Error) :
    Quiet (afterMount next err) := by
  cases err with
  | none => exact quiet
  | some err =>
    simp only [afterMount]
    split
    · exact quiet
    · exact trivial

/-- By induction on the repositories: mounting waits for nobody. -/
theorem quiet_mountLoop (desc : Descriptor) (repositories : List String) :
    Quiet (mountLoop desc repositories) := by
  induction repositories with
  | nil => exact quiet_ask rfl
  | cons repository rest ih =>
    refine (quiet_ask rfl).bind fun result => ?_
    cases result with
    | mounted => exact quiet_ask rfl
    | failed err => exact quiet_afterMount (quiet_ask rfl) _
    | getContent =>
      refine (quiet_getContent desc _).bind fun err => ?_
      cases err with
      | some err => exact quiet_afterMount ih _
      | none => exact (quiet_ask rfl).bind fun err => quiet_afterMount ih err

theorem quiet_mountOrCopyNode (opts : Options) (desc : Descriptor) :
    Quiet (mountOrCopyNode opts desc) := by
  unfold mountOrCopyNode
  split
  · exact quiet_copyNode desc
  split
  · exact quiet_copyNode desc
  refine (quiet_ask rfl).bind fun repositories => ?_
  cases repositories with
  | error err => exact trivial
  | ok repositories =>
    cases repositories with
    | nil => exact quiet_copyNode desc
    | cons repository rest => exact quiet_mountLoop desc _

section Tree

/-- A worker for a node starts workers for successors of the node; one for a
root, and the caller, start anything. -/
def Below (G : Content) : Label Item → Label Item → Prop
  | some (_, .node child), some (_, .node parent) => G.Child (fromOCI child) (fromOCI parent)
  | some (_, .node _), some (_, .root _) => True
  | some _, none => True
  | _, _ => False

def trueSuccessors (G : Content) : (op : CopyOp) → CopyAns op → Prop
  | .findSuccessors desc, .ok nodes => G.successors desc = .ok nodes
  | _, _ => True

/-- What a worker starts goroutines for is below it in the order `r`, if its surroundings
answer as `fact` says. -/
structure Descends (r : Label Item → Label Item → Prop) (fact : (op : CopyOp) → CopyAns op → Prop) : Prop where
  child : ∀ g g' desc nodes, fact (.findSuccessors desc) (.ok nodes) → ∀ node ∈ removeForeignLayers nodes,
    r (some (g', .node node)) (some (g, .node desc))
  root : ∀ g g' desc, r (some (g', .node desc)) (some (g, .root desc))

variable {limited holding : Bool} {r : Label Item → Label Item → Prop} {fact : (op : CopyOp) → CopyAns op → Prop}
  {label : Label Item}

/-- A quiet program stays where it is in the tree of goroutines. -/
theorem Quiet.tree {α : Type} {p : Worker α} (quiet : Quiet p) :
    wp (treeGhost limited r blocking fact label) p (fun _ place => place = { holding }) { holding } := by
  induction p with
  | ret value => rfl
  | call op next ih =>
    obtain ⟨⟨u, rfl, free⟩, rest⟩ := quiet
    refine ⟨⟨rfl, (fun blocks => by cases free.symm.trans blocks), rfl⟩, ?_⟩
    rintro a _ ⟨_, rfl⟩
    exact ih a (rest a)

theorem wentThrough_fresh (err : Option Error) : WentThrough err { holding } :=
  ⟨rfl, rfl, fun failed => by cases failed⟩

/-- A callback that returns nil is where it began. -/
theorem eq_fresh {place : Place} (through : WentThrough none place) : ∃ holding, place = { holding } := by
  obtain ⟨inside, failed, reported, holding⟩ := place
  obtain ⟨rfl, rfl, failing⟩ := through
  cases failed with
  | false => exact ⟨holding, rfl⟩
  | true => exact absurd rfl (failing rfl)

theorem tree_quiet {p : Worker (Option Error)} (quiet : Quiet p) :
    wp (treeGhost limited r blocking fact label) p WentThrough { holding } := by
  refine wp_mono _ ?_ quiet.tree
  rintro err _ rfl
  exact wentThrough_fresh err

/-- The wait for the successors of a node is at the place of the node. -/
theorem tree_awaitSuccessors (desc : Descriptor) (nodes : List Descriptor) :
    wp (treeGhost limited r blocking fact label) (awaitSuccessors desc nodes) (fun _ place => place = {}) {} := by
  induction nodes with
  | nil => rfl
  | cons node rest ih =>
    refine wp_seq _ (Quiet.tree (quiet_ask rfl)) ?_
    rintro committed _ rfl
    cases committed with
    | true => rfl
    | false =>
      refine ⟨⟨rfl, fun _ => ⟨rfl, rfl⟩, rfl⟩, ?_⟩
      rintro err _ ⟨_, rfl⟩
      cases err with
      | some err => rfl
      | none => exact ih

/-- After a nested `Go` that returns nil the worker goes on from where it began. -/
theorem tree_go_then {items : List Item} {next : Worker (Option Error)}
    (below : ∀ g, ∀ item ∈ items, r (some (g, item)) label)
    (rest : wp (treeGhost limited r blocking fact label) next WentThrough {}) :
    wp (treeGhost limited r blocking fact label) (do
      match ← go items with
      | some err => return some err
      | none => next) WentThrough {} := by
  refine wp_seq _ (tree_go _ _ _ _ below) ?_
  rintro err _ rfl
  cases err with
  | some err => exact ⟨rfl, rfl, fun _ => by simp⟩
  | none => exact rest

theorem tree_regionStart : wp (treeGhost limited r blocking fact label) regionStart WentThrough {} := by
  refine ⟨⟨rfl, fun _ => ⟨rfl, rfl⟩, rfl⟩, ?_⟩
  rintro err _ rfl
  exact wentThrough_fresh err

theorem tree_processSuccessors {g : Nat} {desc : Descriptor} {nodes : List Descriptor}
    (children : ∀ g', ∀ node ∈ nodes, r (some (g', .node node)) (some (g, .node desc))) :
    wp (treeGhost limited r blocking fact (some (g, .node desc))) (processSuccessors desc nodes) WentThrough { holding } := by
  unfold processSuccessors
  split
  · exact wentThrough_fresh none
  refine ⟨⟨rfl, (fun blocks => by cases blocks), trivial⟩, ?_⟩
  rintro _ _ rfl
  refine tree_go_then (fun g' item member => ?_) ?_
  · obtain ⟨node, child, rfl⟩ := List.mem_map.mp member
    exact children g' node child
  · refine wp_seq _ (tree_awaitSuccessors desc nodes) ?_
    rintro err _ rfl
    cases err with
    | some err => exact wentThrough_fresh _
    | none => exact tree_regionStart

theorem tree_copyFound {g : Nat} {desc : Descriptor} {nodes : List Descriptor} (opts : Options)
    (children : ∀ g', ∀ node ∈ removeForeignLayers nodes, r (some (g', .node node)) (some (g, .node desc))) :
    wp (treeGhost limited r blocking fact (some (g, .node desc))) (copyFound opts desc nodes) WentThrough { holding } := by
  refine wp_seq _ (tree_processSuccessors children) ?_
  intro err place through
  cases err with
  | some err => exact through
  | none =>
    obtain ⟨holding, rfl⟩ := eq_fresh through
    refine tree_quiet ((quiet_ask rfl).bind fun cached => ?_)
    cases cached with
    | error err => exact trivial
    | ok cached =>
      cases cached with
      | true => exact quiet_copyNode desc
      | false => exact quiet_mountOrCopyNode opts desc

/-- The workers that a committed node starts are for its successors. -/
theorem tree_copyCommitted (descends : Descends r fact) (opts : Options) (g : Nat) (desc : Descriptor) :
    wp (treeGhost limited r blocking fact (some (g, .node desc))) (copyCommitted opts desc) WentThrough { holding } := by
  refine wp_seq _ (Quiet.tree (quiet_ask rfl)) ?_
  rintro found _ rfl
  cases found with
  | error err => exact wentThrough_fresh _
  | ok found =>
    cases found with
    | true => exact tree_quiet (quiet_ask rfl)
    | false =>
      refine ⟨⟨rfl, (fun blocks => by cases blocks), rfl⟩, ?_⟩
      rintro nodes _ ⟨found, rfl⟩
      cases nodes with
      | error err => exact wentThrough_fresh _
      | ok nodes => exact tree_copyFound opts fun g' => descends.child g g' desc nodes found

/-- Every worker starts goroutines only below itself. -/
theorem tree_work (descends : Descends r fact) (opts : Options) : TreeBody limited r blocking fact (work opts) := by
  intro g item
  cases item with
  | node desc =>
    refine wp_seq _ (Quiet.tree (quiet_ask rfl)) ?_
    rintro committed _ rfl
    cases committed with
    | false => exact wentThrough_fresh none
    | true =>
      refine wp_seq _ (tree_copyCommitted descends opts g desc) fun err place through => ?_
      cases err with
      | some err => exact through
      | none =>
        obtain ⟨holding, rfl⟩ := eq_fresh through
        refine tree_quiet (Quiet.bind (quiet_ask rfl) fun _ => ?_)
        exact trivial
  | root desc =>
    refine ⟨⟨rfl, (fun blocks => by cases blocks), trivial⟩, ?_⟩
    rintro _ _ rfl
    refine tree_go_then (fun g' item member => ?_) tree_regionStart
    cases List.mem_singleton.mp member
    exact descends.root g g' desc

theorem descends_below (G : Content) : Descends (Below G) (trueSuccessors G) where
  child _ _ _ _ found node member := ⟨node, Content.children_eq found ▸ member, rfl⟩
  root _ _ _ := trivial

variable {G : Content}

/-- The successors that a worker is told are those of the content. -/
theorem answer_trueSuccessors {st st' : CopyState} {t : Nat} {ended : Bool} {op : CopyOp} {a : CopyAns op}
    (answered : answer G st t ended op a = some st') : trueSuccessors G op a := by
  cases op with
  | findSuccessors desc =>
    cases a with
    | error err => trivial
    | ok nodes =>
      simp only [answer] at answered
      split at answered
      · rename_i nodes' successors
        simp only [Option.ite_none_right_eq_some] at answered
        exact answered.1 ▸ successors
      · cases answered
  | _ => trivial

end Tree

section Reach
variable {G : Content} {opts : Options} {limit : Nat} {stored : Finset Key} {items : List Item} {σ : CopyRun}

theorem below_caller (g : Nat) (item : Item) (_ : item ∈ items) : Below G (some (g, item)) none := by
  cases item <;> trivial

theorem tree_copy (G : Content) (opts : Options) : TreeBody true (Below G) blocking (trueSuccessors G) (work opts) :=
  tree_work (descends_below G) opts

/-- The goroutines of a copy form a tree, ordered by the graph. -/
theorem copy_tree (reach : Reach (copyMachine G opts) (start limit stored items) σ) :
    ∃ creator, Tree (Below G) blocking creator σ := by
  obtain ⟨ghosts, fits, creator, inv⟩ := tree_reach (tree_copy G opts)
    (fun _ _ _ _ _ _ answered => answer_trueSuccessors answered) below_caller reach
  exact ⟨creator, inv.tree fits⟩

theorem copy_permits (reach : Reach (copyMachine G opts) (start limit stored items) σ) : Permits blocking limit σ :=
  permits_reach (tree_copy G opts) (fun _ _ _ _ _ _ answered => answer_trueSuccessors answered) below_caller reach

theorem answer_responsive (G : Content) : Responsive blocking (answer G) := by
  have any : ∀ st t ended op, blocking op = false → ∃ a st', answer G st t ended op a = some st' := by
    intro st t ended op free
    cases op with
    | tryCommit node =>
      cases taken : st.tracker (fromOCI node) with
      | none => exact ⟨true, _, by simp only [answer, taken]; rfl⟩
      | some entry => exact ⟨false, _, by simp only [answer, taken]; rfl⟩
    | closeDone node =>
      cases taken : st.tracker (fromOCI node) with
      | none | some => exact ⟨(), _, by simp only [answer, taken]; rfl⟩
    | selectDone node => cases free
    | dstExists desc => exact ⟨.error .notFound, st, rfl⟩
    | findSuccessors desc =>
      cases found : G.successors desc with
      | ok nodes => exact ⟨.ok nodes, st, by simp [answer, found]⟩
      | error err =>
        refine ⟨.error err, st, if_pos ?_⟩
        by_contra leaf
        rw [Content.successors, successors_of_not_isManifest (by simpa using leaf)] at found
        cases found
    | cacheExists desc => exact ⟨.ok false, st, rfl⟩
    | fetch desc => exact ⟨some .notFound, st, rfl⟩
    | push desc => exact ⟨none, _, rfl⟩
    | preCopy desc => exact ⟨(false, none), st.record t (fromOCI desc) .preCopy none, by simp [answer, foreignError]⟩
    | callback which desc => exact ⟨none, _, rfl⟩
    | mountFrom desc => exact ⟨.ok [], st, rfl⟩
    | mount desc repository => exact ⟨.getContent, st, rfl⟩
    | mountPush desc => exact ⟨none, _, rfl⟩
  refine ⟨any, fun st t op => ?_⟩
  by_cases free : blocking op = false
  · exact any st t true op free
  · cases op with
    | selectDone node => exact ⟨some .contextCanceled, st, rfl⟩
    | _ => exact absurd rfl free

end Reach

end OrasGo.Copy
