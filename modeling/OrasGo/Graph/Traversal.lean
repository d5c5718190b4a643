import OrasGo.Graph.IndexAll
import OrasGo.Syncutil.Progress
import OrasGo.Syncutil.Started
import OrasGo.Syncutil.Success

/-! An `IndexAll` that succeeds has indexed exactly what lies below its node, and
it fails exactly if something there is broken. -/

namespace OrasGo.Graph
open Interleaving Syncutil
variable {cd : Codec} {fetch : Fetcher} {graph : Memory} {node : Descriptor} {σ : IndexRun}

/-- What the operations of a worker answer. -/
def TrueSuccessors (cd : Codec) (fetch : Fetcher) : (op : IndexOp) → IndexAns op → Prop
  | .tryCommit _, _ => True
  | .index desc, result => result = successors cd fetch desc

theorem answer_trueSuccessors {st st' : IndexState} {t : Nat} {ended : Bool} {op : IndexOp} {a : IndexAns op}
    (answered : answer cd fetch st t ended op a = some st') : TrueSuccessors cd fetch op a := by
  cases op with
  | tryCommit desc => trivial
  | index desc => exact (answer_index answered).1

/-- The goroutine works on a successor of the node its parent works on. -/
def Below (cd : Codec) (fetch : Fetcher) (node : Descriptor) : Label Descriptor → Label Descriptor → Prop
  | some (_, child), some (_, desc) => Edge cd fetch (fromOCI desc) (fromOCI child)
  | some (_, child), none => child = node
  | none, _ => False

theorem tree_fn (byKey : fetch.ByKey) :
    TreeBody false (Below cd fetch node) (fun _ => false) (TrueSuccessors cd fetch) fn := by
  intro g desc
  refine ⟨⟨rfl, (fun blocks => by cases blocks), rfl⟩, ?_⟩
  rintro committed _ ⟨_, rfl⟩
  cases committed with
  | false => exact ⟨rfl, rfl, fun impossible => absurd impossible Bool.false_ne_true⟩
  | true =>
    refine ⟨⟨rfl, (fun blocks => by cases blocks), rfl⟩, ?_⟩
    rintro result _ ⟨found, rfl⟩
    change result = successors cd fetch desc at found
    cases result with
    | error err =>
      change wp _ (if Error.is .notFound err then .ret none else .ret (some err)) _ _
      split <;> exact ⟨rfl, rfl, fun impossible => absurd impossible Bool.false_ne_true⟩
    | ok nodes =>
      cases nodes with
      | nil => exact ⟨rfl, rfl, fun impossible => absurd impossible Bool.false_ne_true⟩
      | cons head rest =>
        refine wp_mono _ (fun err l out => ?_) (tree_go _ _ _ _ fun g' child member => ?_)
        · cases out
          exact ⟨rfl, rfl, by cases err <;> simp⟩
        · exact edge_of_mem byKey found.symm member

theorem index_tree (byKey : fetch.ByKey) (reach : Reach (indexMachine cd fetch) (indexAll graph node) σ) :
    ∃ creator, Tree (Below cd fetch node) (fun _ => false) creator σ := by
  obtain ⟨ghosts, fits, creator, inv⟩ := tree_reach (tree_fn byKey)
    (fun s t ended op a s' answered => answer_trueSuccessors answered)
    (fun g item member => List.mem_singleton.mp member) reach
  exact ⟨creator, inv.tree fits⟩

theorem label_reachable {creator : Nat → Nat} (tree : Tree (Below cd fetch node) (fun _ => false) creator σ)
    {t g : Nat} {desc : Descriptor} {prog : Indexer (Option Error)}
    (found : σ.threads[t]? = some ⟨some (g, desc), prog⟩) :
    Reachable cd fetch (fromOCI node) (fromOCI desc) := by
  induction t using Nat.strong_induction_on generalizing g desc prog with
  | _ t ih =>
    obtain ⟨older, label, prog', atCreator, below⟩ := tree.parent t g desc prog found
    cases label with
    | none =>
      cases below
      exact .refl
    | some started => exact (ih (creator g) older atCreator).tail below

/-- How far a worker is with its node: it has tried to commit it, it was the
first to do so, and it has indexed it. -/
structure Duty where
  tried : Bool := false
  owns : Bool := false
  indexed : Bool := false

def dutyGhost (cd : Codec) (fetch : Fetcher) (label : Label Descriptor) : Ghost IndexOp IndexAns Duty where
  pre op l := match op with
    | .tryCommit desc => l = {} ∧ ∃ g, label = some (g, desc)
    | .index desc => l.owns = true ∧ l.indexed = false ∧ ∃ g, label = some (g, desc)
  next op answer l l' := match op, answer with
    | .tryCommit _, committed => l' = { l with tried := true, owns := committed }
    | .index desc, result => result = successors cd fetch desc ∧ l' = { l with indexed := true }

/-- The node is absent, or goroutines were started for all its successors. -/
def Spread (items : List Descriptor) : Except Error (List Descriptor) → Prop
  | .ok nodes => ∀ child ∈ nodes, child ∈ items
  | .error err => Error.is .notFound err = true

/-- What a worker that succeeds has done. -/
def dutyPost (cd : Codec) (fetch : Fetcher) (node : Descriptor) (label : Label Descriptor)
    (err : Option Error) (l : List Descriptor × Duty) : Prop :=
  err = none → match label with
    | none => node ∈ l.1
    | some (_, desc) => l.2.tried = true ∧
      (l.2.owns = true → l.2.indexed = true ∧ Spread l.1 (successors cd fetch desc))

theorem duty_fn (g : Nat) (desc : Descriptor) :
    wp (startedGhost (dutyGhost cd fetch) (some (g, desc))) (fn desc)
      (dutyPost cd fetch node (some (g, desc))) ([], {}) := by
  refine ⟨⟨rfl, g, rfl⟩, ?_⟩
  rintro committed ⟨items, l⟩ ⟨rfl, rfl⟩
  cases committed with
  | false => exact fun _ => ⟨rfl, fun impossible => absurd impossible Bool.false_ne_true⟩
  | true =>
    refine ⟨⟨rfl, rfl, g, rfl⟩, ?_⟩
    rintro result ⟨items, l⟩ ⟨rfl, found, rfl⟩
    change result = successors cd fetch desc at found
    cases result with
    | error err =>
      change wp _ (if Error.is .notFound err then .ret none else .ret (some err)) _ _
      split
      · rename_i absent
        exact fun _ => ⟨rfl, fun _ => ⟨rfl, found ▸ absent⟩⟩
      · exact nofun
    | ok nodes =>
      cases nodes with
      | nil => exact fun _ => ⟨rfl, fun _ => ⟨rfl, found ▸ fun child member => absurd member List.not_mem_nil⟩⟩
      | cons head rest =>
        refine wp_mono _ (fun err l ⟨same, all⟩ success => ?_) (started_go _ _)
        rw [same]
        exact ⟨rfl, fun _ => ⟨rfl, found ▸ fun child member => all success child (.inr member)⟩⟩

/-- The tracker holds the nodes that were tried, each with the worker that owns
it, and the graph results from indexing the nodes whose owners got that far. -/
structure DutyInv (cd : Codec) (fetch : Fetcher) (graph : Memory) (st : IndexState)
    (ghosts : List (Label Descriptor × Duty)) : Prop where
  tried : ∀ g desc l, (some (g, desc), l) ∈ ghosts → l.tried = true → fromOCI desc ∈ st.tracker
  owned : ∀ k ∈ st.tracker, ∃ g desc l, (some (g, desc), l) ∈ ghosts ∧ fromOCI desc = k ∧ l.owns = true
  log : ∃ log, st.graph = indexMany cd fetch graph log ∧ ∀ k, (∃ desc ∈ log, fromOCI desc = k) ↔
    ∃ g desc l, (some (g, desc), l) ∈ ghosts ∧ fromOCI desc = k ∧ l.indexed = true

section Steps
variable {st : IndexState} {ghosts : List (Label Descriptor × Duty)} {t g : Nat} {desc : Descriptor} {l : Duty}

theorem DutyInv.start (inv : DutyInv cd fetch graph st ghosts) (label : Label Descriptor) :
    DutyInv cd fetch graph st (ghosts ++ [(label, ({} : Duty))]) := by
  have back : ∀ {g : Nat} {desc : Descriptor} {l : Duty}, (some (g, desc), l) ∈ ghosts ++ [(label, ({} : Duty))] →
      l.tried = true ∨ l.indexed = true → (some (g, desc), l) ∈ ghosts := by
    intro g desc l member begun
    rcases List.mem_append.mp member with old | new
    · exact old
    · cases List.mem_singleton.mp new
      rcases begun with impossible | impossible <;> cases impossible
  obtain ⟨log, same, indexed⟩ := inv.log
  refine ⟨fun g desc l member tried => inv.tried g desc l (back member (.inl tried)) tried, ?_, log, same, ?_⟩
  · intro k member
    obtain ⟨g, desc, l, old, rest⟩ := inv.owned k member
    exact ⟨g, desc, l, List.mem_append_left _ old, rest⟩
  · intro k
    rw [indexed k]
    constructor
    · rintro ⟨g, desc, l, old, rest⟩
      exact ⟨g, desc, l, List.mem_append_left _ old, rest⟩
    · rintro ⟨g, desc, l, member, key, yes⟩
      exact ⟨g, desc, l, back member (.inr yes), key, yes⟩

theorem DutyInv.tryCommit (inv : DutyInv cd fetch graph st ghosts)
    (found : ghosts[t]? = some (some (g, desc), ({} : Duty))) :
    DutyInv cd fetch graph { st with tracker := insert (fromOCI desc) st.tracker }
      (ghosts.set t (some (g, desc), { tried := true, owns := decide (fromOCI desc ∉ st.tracker) })) := by
  have kept {x} (member : x ∈ ghosts) (begun : x.2.owns = true ∨ x.2.indexed = true) : x ∈ ghosts.set t
      (some (g, desc), { tried := true, owns := decide (fromOCI desc ∉ st.tracker) }) := by
    rcases mem_set_or_eq found member with old | rfl
    · exact old
    · rcases begun with impossible | impossible <;> cases impossible
  obtain ⟨log, same, indexed⟩ := inv.log
  refine ⟨?_, ?_, log, same, ?_⟩
  · intro g' desc' l member tried
    rcases List.mem_or_eq_of_mem_set member with old | new
    · exact Finset.mem_insert_of_mem (inv.tried g' desc' l old tried)
    · cases new
      exact Finset.mem_insert_self _ _
  · intro k member
    by_cases old : k ∈ st.tracker
    · obtain ⟨g', desc', l, here, key, owns⟩ := inv.owned k old
      exact ⟨g', desc', l, kept here (.inl owns), key, owns⟩
    · have new := (Finset.mem_insert.mp member).resolve_right old
      subst new
      exact ⟨g, desc, _, mem_set_self found, rfl, decide_eq_true old⟩
  · intro k
    rw [indexed k]
    constructor
    · rintro ⟨g', desc', l, here, key, yes⟩
      exact ⟨g', desc', l, kept here (.inr yes), key, yes⟩
    · rintro ⟨g', desc', l, member, key, yes⟩
      rcases List.mem_or_eq_of_mem_set member with old | new
      · exact ⟨g', desc', l, old, key, yes⟩
      · cases new
        cases yes

theorem DutyInv.index (inv : DutyInv cd fetch graph st ghosts)
    (found : ghosts[t]? = some (some (g, desc), l)) (fresh : l.indexed = false) :
    DutyInv cd fetch graph { st with graph := (st.graph.index cd fetch desc).2 }
      (ghosts.set t (some (g, desc), { l with indexed := true })) := by
  have here := List.mem_of_getElem? found
  obtain ⟨log, same, indexed⟩ := inv.log
  refine ⟨?_, ?_, log ++ [desc], ?_, ?_⟩
  · intro g' desc' l' member tried
    rcases List.mem_or_eq_of_mem_set member with old | new
    · exact inv.tried g' desc' l' old tried
    · cases new
      exact inv.tried g desc l here tried
  · intro k member
    obtain ⟨g', desc', l', old, key, owns⟩ := inv.owned k member
    rcases mem_set_or_eq found old with still | this
    · exact ⟨g', desc', l', still, key, owns⟩
    · cases this
      exact ⟨g, desc, _, mem_set_self found, key, owns⟩
  · simp only [indexMany, List.foldl_append, List.foldl_cons, List.foldl_nil, same]
  · intro k
    simp only [List.mem_append, List.mem_singleton, or_and_right, exists_or, exists_eq_left, indexed k]
    constructor
    · rintro (⟨g', desc', l', old, key, yes⟩ | rfl)
      · rcases mem_set_or_eq found old with still | this
        · exact ⟨g', desc', l', still, key, yes⟩
        · cases this
          cases fresh.symm.trans yes
      · exact ⟨g, desc, _, mem_set_self found, rfl, rfl⟩
    · rintro ⟨g', desc', l', member, key, yes⟩
      rcases List.mem_or_eq_of_mem_set member with old | new
      · exact .inl ⟨g', desc', l', old, key, yes⟩
      · cases new
        exact .inr key

end Steps

theorem duty_reach (reach : Reach (indexMachine cd fetch) (indexAll graph node) σ) :
    Outline (startedGhost (dutyGhost cd fetch)) (dutyPost cd fetch node)
      (fun s ghosts => StartedInv ghosts ∧ DutyInv cd fetch graph s.user (own ghosts)) σ := by
  refine started_outline duty_fn (fun err l started success => ?_) ⟨fun _ _ label inv => inv.start label, ?_⟩ ?_ reach
  · exact started.2 success node (.inr (List.mem_singleton.mpr rfl))
  · intro st ghosts t label l ended op a st' inv found pre answered
    cases op with
    | tryCommit desc =>
      obtain ⟨rfl, g, rfl⟩ := pre
      obtain ⟨rfl, rfl⟩ := answer_tryCommit answered
      exact ⟨_, rfl, inv.tryCommit found⟩
    | index desc =>
      obtain ⟨owns, fresh, g, rfl⟩ := pre
      obtain ⟨rfl, rfl⟩ := answer_index answered
      exact ⟨_, ⟨rfl, rfl⟩, inv.index found fresh⟩
  · refine ⟨fun g desc l member _ => ?_, fun k member => absurd member (Finset.notMem_empty k), [], rfl, fun k => ?_⟩
    · cases List.mem_singleton.mp member
    · constructor
      · rintro ⟨desc, impossible, _⟩
        cases impossible
      · rintro ⟨g, desc, l, member, _⟩
        cases List.mem_singleton.mp member

section Success
variable {creator : Nat → Nat} {ghosts : List (Label Descriptor × List Descriptor × Duty)}
  (tree : Tree (Below cd fetch node) (fun _ => false) creator σ)
  (fits : List.Forall₂ (Fits (startedGhost (dutyGhost cd fetch)) (dutyPost cd fetch node)) σ.threads ghosts)
  (started : StartedInv ghosts) (inv : DutyInv cd fetch graph σ.shared.user (own ghosts))
  (success : σ.Returned 0 none)

include tree fits success in
theorem duty_ended {label : Label Descriptor} {l : List Descriptor × Duty} (member : (label, l) ∈ ghosts) :
    dutyPost cd fetch node label none l := by
  obtain ⟨t, atT⟩ := List.mem_iff_getElem?.mp member
  obtain ⟨prog, found, holds⟩ := thread_of_ghost fits atT
  have returned := tree.all_nil success t found
  change prog = .ret none at returned
  subst returned
  exact holds

include tree fits started inv success in
theorem started_tracked {label : Label Descriptor} {l : List Descriptor × Duty} {desc : Descriptor}
    (member : (label, l) ∈ ghosts) (listed : desc ∈ l.1) : fromOCI desc ∈ σ.shared.user.tracker := by
  obtain ⟨t, atT⟩ := List.mem_iff_getElem?.mp member
  obtain ⟨t', g, prog, found⟩ := started.thread fits atT listed
  obtain ⟨l', atT', _⟩ := ghost_of_thread fits found
  have here := List.mem_of_getElem? atT'
  exact inv.tried g desc l'.2 (List.mem_map.mpr ⟨_, here, rfl⟩) (duty_ended tree fits success here rfl).1

include tree fits inv success in
/-- A node that was tried has been indexed, unless it is absent, and its
successors were started. -/
theorem tracked_owner {k : Key} (member : k ∈ σ.shared.user.tracker) :
    ∃ g desc items l, (some (g, desc), items, l) ∈ ghosts ∧ fromOCI desc = k ∧ l.indexed = true ∧
      Spread items (successors cd fetch desc) := by
  obtain ⟨g, desc, l, mine, key, owns⟩ := inv.owned k member
  obtain ⟨⟨label, items, l'⟩, here, same⟩ := List.mem_map.mp mine
  cases same
  obtain ⟨indexed, below⟩ := (duty_ended tree fits success here rfl).2 owns
  exact ⟨g, desc, items, _, here, key, indexed, below⟩

include tree fits started inv success in
theorem reachable_tracked (byKey : fetch.ByKey) {k : Key} (below : Reachable cd fetch (fromOCI node) k) :
    k ∈ σ.shared.user.tracker := by
  induction below with
  | refl =>
    obtain ⟨label, atMain⟩ := success
    have main := tree.main_label atMain
    change label = none at main
    subst main
    obtain ⟨l, atGhost, post⟩ := ghost_of_thread fits atMain
    exact started_tracked tree fits started inv ⟨_, atMain⟩ (List.mem_of_getElem? atGhost) (post rfl)
  | tail _ edge ih =>
    obtain ⟨g, desc, items, l, here, rfl, _, below⟩ := tracked_owner tree fits inv success ih
    obtain ⟨nodes, found, child, listed, rfl⟩ := edge
    rw [successors_plain byKey] at found
    rw [found] at below
    exact started_tracked tree fits started inv success here (below child listed)

end Success

section

variable (byKey : fetch.ByKey)
include byKey

/-- When `IndexAll` has returned nil, the nodes it has indexed are those below
its node, and all of these could be read or were absent. -/
theorem index_complete (reach : Reach (indexMachine cd fetch) (indexAll graph node) σ) (success : σ.Returned 0 none) :
    Readable cd fetch (fromOCI node) ∧ ∃ log, σ.shared.user.graph = indexMany cd fetch graph log ∧
      ∀ k, (∃ desc ∈ log, fromOCI desc = k) ↔ Reachable cd fetch (fromOCI node) k := by
  obtain ⟨creator, tree⟩ := index_tree byKey reach
  obtain ⟨ghosts, fits, started, inv⟩ := duty_reach reach
  have owner {k : Key} (below : Reachable cd fetch (fromOCI node) k) :=
    tracked_owner tree fits inv success (reachable_tracked tree fits started inv success byKey below)
  obtain ⟨log, same, indexed⟩ := inv.log
  refine ⟨?_, log, same, fun k => (indexed k).trans ⟨?_, fun below => ?_⟩⟩
  · rintro k below ⟨err, failed, other⟩
    obtain ⟨g, desc, items, l, _, rfl, _, read⟩ := owner below
    rw [successors_plain byKey] at failed
    rw [failed] at read
    cases other.symm.trans read
  · rintro ⟨g, desc, l, member, rfl, _⟩
    obtain ⟨⟨label, items, l'⟩, here, sameGhost⟩ := List.mem_map.mp member
    cases sameGhost
    obtain ⟨t, atT⟩ := List.mem_iff_getElem?.mp here
    obtain ⟨prog, found, _⟩ := thread_of_ghost fits atT
    exact label_reachable tree found
  · obtain ⟨g, desc, items, l, here, key, yes, _⟩ := owner below
    exact ⟨g, desc, l, List.mem_map.mpr ⟨_, here, rfl⟩, key, yes⟩

theorem success_fn (readable : Readable cd fetch (fromOCI node)) (desc : Descriptor)
    (below : Reachable cd fetch (fromOCI node) (fromOCI desc)) :
    wp (successGhost (fun child => Reachable cd fetch (fromOCI node) (fromOCI child)) (TrueSuccessors cd fetch))
      (fn desc) (fun err _ => err = none) () := by
  refine ⟨trivial, fun committed _ _ => ?_⟩
  cases committed with
  | false => rfl
  | true =>
    refine ⟨trivial, fun result _ found => ?_⟩
    change result = successors cd fetch desc at found
    cases result with
    | error err =>
      have absent : Error.is .notFound err = true := by
        by_contra other
        exact readable _ below ⟨err, (successors_plain byKey desc).trans found.symm, by simpa using other⟩
      change wp _ (if Error.is .notFound err then .ret none else .ret (some err)) _ _
      rw [if_pos absent]
      rfl
    | ok nodes =>
      cases nodes with
      | nil => rfl
      | cons head rest => exact success_go fun child member => below.tail (edge_of_mem byKey found.symm member)

/-- `IndexAll` returns nil exactly if nothing below its node is broken. -/
theorem Outcome.nil_iff {result : Option Error × Memory} (outcome : Outcome cd fetch graph node result) :
    result.1 = none ↔ Readable cd fetch (fromOCI node) := by
  obtain ⟨σ, reach, _, returned⟩ := outcome
  constructor
  · intro success
    rcases returned with returned | ⟨_, failed⟩
    · rw [success] at returned
      exact (index_complete byKey reach returned).1
    · cases success.symm.trans failed
  · intro readable
    obtain ⟨running, nil⟩ := success_reach (success_fn byKey readable)
      (fun _ _ _ _ _ _ answered => answer_trueSuccessors answered)
      (fun child member => by cases List.mem_singleton.mp member; exact .refl) reach
    rcases returned with returned | ⟨crashed, _⟩
    · exact nil 0 _ returned
    · cases running.symm.trans crashed

theorem Outcome.indexed {graph' : Memory} (outcome : Outcome cd fetch graph node (none, graph')) :
    ∃ log, graph' = indexMany cd fetch graph log ∧
      ∀ k, (∃ desc ∈ log, fromOCI desc = k) ↔ Reachable cd fetch (fromOCI node) k := by
  obtain ⟨σ, reach, rfl, returned | ⟨_, impossible⟩⟩ := outcome
  · exact (index_complete byKey reach returned).2
  · cases impossible

theorem Outcome.mem_nodes {graph' : Memory} (outcome : Outcome cd fetch graph node (none, graph')) {k : Key} :
    k ∈ graph'.nodes ↔ k ∈ graph.nodes ∨
      Reachable cd fetch (fromOCI node) k ∧ ∃ nodes, successors cd fetch k.plain = .ok nodes := by
  obtain ⟨log, rfl, indexed⟩ := outcome.indexed byKey
  rw [mem_indexMany_nodes, ← indexed k]
  refine or_congr_right ⟨?_, ?_⟩
  · rintro ⟨desc, member, rfl, nodes, found⟩
    exact ⟨⟨desc, member, rfl⟩, nodes, (successors_plain byKey desc).trans found⟩
  · rintro ⟨⟨desc, member, rfl⟩, nodes, found⟩
    exact ⟨desc, member, rfl, nodes, (successors_plain byKey desc).symm.trans found⟩

end

end OrasGo.Graph
