import Mathlib.Algebra.Order.BigOperators.Group.Finset
import OrasGo.Base.Ancestry
import OrasGo.Base.Enumeration
import OrasGo.Descriptor

/-! `findRoots`, the search for the roots above a node that `ExtendedCopyGraph` copies. -/

namespace OrasGo.ExtendedCopy
open Ancestry Iteration Relation

/-- `copyutil.NodeInfo`. -/
structure NodeInfo where
  node : Descriptor
  depth : Nat

/-- The variables of `findRoots`, with the calls of `FindPredecessors` so far.
The top of the stack is its head. -/
structure Search where
  stack : List NodeInfo
  visited : Finset Key := ∅
  rootMap : Finmap (fun _ : Key => Descriptor) := ∅
  asked : List Descriptor := []

namespace Search

def addRoot (s : Search) (key : Key) (val : Descriptor) : Search :=
  if key ∈ s.rootMap then s else { s with rootMap := s.rootMap.insert key val }

/-- The body of the loop over the predecessors. -/
def push (depth : Nat) (s : Search) (predecessor : Descriptor) : Search :=
  if fromOCI predecessor ∈ s.visited then s else { s with stack := ⟨predecessor, depth⟩ :: s.stack }

/-- The body of the loop of `findRoots`, for the node it has popped. -/
def visit (findPredecessors : Descriptor → Except Error (List Descriptor)) (depth : Int) (s : Search)
    (current : NodeInfo) : Option Error × Search :=
  let currentKey := fromOCI current.node
  if currentKey ∈ s.visited then (none, s)
  else
    let s := { s with visited := insert currentKey s.visited }
    if 0 < depth ∧ current.depth = depth then (none, s.addRoot currentKey current.node)
    else
      let s := { s with asked := s.asked ++ [current.node] }
      match findPredecessors current.node with
      | .error err => (some (Error.newCopyError "FindPredecessors" .source err), s)
      | .ok [] => (none, s.addRoot currentKey current.node)
      | .ok (first :: rest) => (none, (first :: rest).foldl (push (current.depth + 1)) s)

/-- The loop of `findRoots`, for so many iterations. -/
def loop (findPredecessors : Descriptor → Except Error (List Descriptor)) (depth : Int) :
    Nat → Search → Option (Option Error × Search)
  | 0, _ => none
  | fuel + 1, s =>
    match s.stack with
    | [] => some (none, s)
    | current :: stack =>
      match visit findPredecessors depth { s with stack } current with
      | (some err, s) => some (some err, s)
      | (none, s) => loop findPredecessors depth fuel s

/-- The roots, as an iteration over the map finds them. -/
def roots (s : Search) (order : Enumeration Key) : List Descriptor := (order.entries s.rootMap).map Prod.snd

end Search

/-- `findRoots`: the roots or an error, and the nodes whose predecessors were
looked for; none where the iterations do not suffice. -/
def findRoots (order : Enumeration Key) (findPredecessors : Descriptor → Except Error (List Descriptor)) (depth : Int)
    (fuel : Nat) (node : Descriptor) : Option (Except Error (List Descriptor) × List Descriptor) :=
  (Search.loop findPredecessors depth fuel { stack := [⟨node, 0⟩] }).map fun
    | (some err, s) => (.error err, s.asked)
    | (none, s) => (.ok (s.roots order), s.asked)

/-- The key is that of a predecessor. -/
def Up (above : Key → List Descriptor) (k k' : Key) : Prop := k' ∈ (above k).map fromOCI

/-- The node itself, or a descriptor that some node above it has as a predecessor. -/
def Found (above : Key → List Descriptor) (node d : Descriptor) : Prop :=
  d = node ∨ ∃ k, ReflTransGen (Up above) (fromOCI node) k ∧ d ∈ above k

namespace Search
variable {above : Key → List Descriptor} {node : Descriptor} {depth : Int} {s s' : Search}
  {find : Descriptor → Except Error (List Descriptor)}

theorem found_reach {d : Descriptor} (found : Found above node d) :
    ReflTransGen (Up above) (fromOCI node) (fromOCI d) := by
  rcases found with rfl | ⟨k, reach, member⟩
  · exact .refl
  · exact reach.tail (List.mem_map_of_mem member)

/-- The key is done or waits on the stack. -/
def Awaited (s : Search) (k : Key) : Prop := k ∈ s.visited ∨ ∃ i ∈ s.stack, fromOCI i.node = k

/-- What holds before each iteration. A node is asked for its predecessors or is a
root; all its predecessors are awaited. A root has none, or is as far up as the limit on
some way. -/
structure Inv (above : Key → List Descriptor) (node : Descriptor) (depth : Int) (s : Search) : Prop where
  stacked : ∀ i ∈ s.stack, Found above node i.node ∧ Steps (Up above) (fromOCI node) i.depth (fromOCI i.node)
  asked : ∀ d ∈ s.asked, Found above node d
  rooted : ∀ k d, s.rootMap.lookup k = some d → fromOCI d = k ∧ Found above node d
  visited : ∀ k, k ∈ s.visited ↔ k ∈ s.asked.map fromOCI ∨ k ∈ s.rootMap
  once : (s.asked.map fromOCI).Nodup
  ended : ∀ k ∈ s.rootMap, k ∈ s.asked.map fromOCI ∧ above k = [] ∨
    0 < depth ∧ Steps (Up above) (fromOCI node) depth.toNat k
  tops : ∀ k ∈ s.asked.map fromOCI, above k = [] → k ∈ s.rootMap
  start : s.Awaited (fromOCI node)
  spread : ∀ k ∈ s.asked.map fromOCI, ∀ k', Up above k k' → s.Awaited k'

theorem Inv.initial (above : Key → List Descriptor) (node : Descriptor) (depth : Int) :
    Inv above node depth { stack := [⟨node, 0⟩] } where
  stacked i member := by
    cases List.mem_singleton.mp member
    exact ⟨.inl rfl, .refl⟩
  asked d member := by cases member
  rooted k d found := by simp at found
  visited k := by simp [Finmap.notMem_empty]
  once := .nil
  ended k member := absurd member Finmap.notMem_empty
  tops k member := by cases member
  start := .inr ⟨_, List.mem_singleton.mpr rfl, rfl⟩
  spread k member := by cases member

theorem pushed (depth : Nat) (predecessors : List Descriptor) (s : Search) :
    ∃ new : List NodeInfo, predecessors.foldl (push depth) s = { s with stack := new ++ s.stack } ∧
      new.length ≤ predecessors.length ∧ (∀ i ∈ new, i.node ∈ predecessors ∧ i.depth = depth) ∧
      ∀ p ∈ predecessors, fromOCI p ∈ s.visited ∨ ∃ i ∈ new, i.node = p := by
  induction predecessors generalizing s with
  | nil => exact ⟨[], rfl, le_rfl, by simp, by simp⟩
  | cons head rest ih =>
    by_cases known : fromOCI head ∈ s.visited
    · obtain ⟨new, same, length, origin, complete⟩ := ih s
      refine ⟨new, ?_, ?_, fun i member => ?_, fun p member => ?_⟩
      · rw [List.foldl_cons, push, if_pos known, same]
      · exact length.trans (Nat.le_succ _)
      · exact (origin i member).imp_left (List.mem_cons_of_mem _)
      · rcases List.mem_cons.mp member with rfl | later
        · exact .inl known
        · exact complete p later
    · obtain ⟨new, same, length, origin, complete⟩ := ih { s with stack := ⟨head, depth⟩ :: s.stack }
      refine ⟨new ++ [⟨head, depth⟩], ?_, ?_, fun i member => ?_, fun p member => ?_⟩
      · rw [List.foldl_cons, push, if_neg known, same, List.append_assoc, List.singleton_append]
      · rw [List.length_append, List.length_cons]
        exact Nat.succ_le_succ length
      · rcases List.mem_append.mp member with old | last
        · exact (origin i old).imp_left (List.mem_cons_of_mem _)
        · cases List.mem_singleton.mp last
          exact ⟨List.mem_cons_self, rfl⟩
      · rcases List.mem_cons.mp member with rfl | later
        · exact .inr ⟨_, List.mem_append.mpr (.inr (List.mem_singleton.mpr rfl)), rfl⟩
        · exact (complete p later).imp_right fun ⟨i, member, same⟩ => ⟨i, List.mem_append_left _ member, same⟩

/-- What one iteration does to a node that is visited for the first time: it is
cut off or has nothing above and becomes a root, or its predecessors wait. -/
inductive Visited (above : Key → List Descriptor) (depth : Int) (s : Search) (current : NodeInfo) : Search → Prop
  | cut : 0 < depth → current.depth = depth → Visited above depth s current
      { s with visited := insert (fromOCI current.node) s.visited,
               rootMap := s.rootMap.insert (fromOCI current.node) current.node }
  | top : above (fromOCI current.node) = [] → Visited above depth s current
      { s with visited := insert (fromOCI current.node) s.visited, asked := s.asked ++ [current.node],
               rootMap := s.rootMap.insert (fromOCI current.node) current.node }
  | inner (new : List NodeInfo) : above (fromOCI current.node) ≠ [] →
      new.length ≤ (above (fromOCI current.node)).length →
      (∀ i ∈ new, i.node ∈ above (fromOCI current.node) ∧ i.depth = current.depth + 1) →
      (∀ p ∈ above (fromOCI current.node),
        fromOCI p ∈ insert (fromOCI current.node) s.visited ∨ ∃ i ∈ new, i.node = p) →
      Visited above depth s current
        { s with visited := insert (fromOCI current.node) s.visited, asked := s.asked ++ [current.node],
                 stack := new ++ s.stack }

theorem visit_cases (byKey : ∀ d, find d = .ok (above (fromOCI d))) (depth : Int) (s : Search) (current : NodeInfo)
    (fresh : fromOCI current.node ∉ s.visited) (unrooted : fromOCI current.node ∉ s.rootMap) :
    ∃ s', visit find depth s current = (none, s') ∧ Visited above depth s current s' := by
  simp only [visit, if_neg fresh, byKey]
  by_cases cut : 0 < depth ∧ (current.depth : Int) = depth
  · refine ⟨_, if_pos cut, ?_⟩
    rw [addRoot, if_neg unrooted]
    exact .cut cut.1 cut.2
  · simp only [if_neg cut]
    cases listed : above (fromOCI current.node) with
    | nil =>
      refine ⟨_, rfl, ?_⟩
      rw [addRoot, if_neg unrooted]
      exact .top listed
    | cons first rest =>
      obtain ⟨new, same, length, origin, complete⟩ := pushed (current.depth + 1) (first :: rest)
        { s with visited := insert (fromOCI current.node) s.visited, asked := s.asked ++ [current.node] }
      refine ⟨_, rfl, ?_⟩
      rw [same]
      rw [← listed] at length origin complete
      exact .inner new (by simp [listed]) length origin complete

section Step
variable {current : NodeInfo} {rest : List NodeInfo}

/-- Whoever waits for the popped node finds it visited, the others still wait. -/
theorem Awaited.pop {k : Key} (awaited : s.Awaited k) (s' : Search) (popped : s.stack = current :: rest)
    (done : ∀ k, k ∈ s.visited ∨ k = fromOCI current.node → k ∈ s'.visited) (kept : ∀ i ∈ rest, i ∈ s'.stack) :
    s'.Awaited k := by
  rcases awaited with old | ⟨i, member, rfl⟩
  · exact .inl (done k (.inl old))
  · rw [popped] at member
    rcases List.mem_cons.mp member with rfl | later
    · exact .inl (done _ (.inr rfl))
    · exact .inr ⟨i, kept i later, rfl⟩

theorem Inv.skip (inv : Inv above node depth s) (popped : s.stack = current :: rest)
    (known : fromOCI current.node ∈ s.visited) : Inv above node depth { s with stack := rest } := by
  have waits {k : Key} (awaited : s.Awaited k) : Awaited { s with stack := rest } k := by
    refine awaited.pop _ popped (fun k => ?_) fun i member => member
    rintro (old | rfl)
    · exact old
    · exact known
  exact { inv with
    stacked := fun i member => inv.stacked i (popped ▸ List.mem_cons_of_mem _ member)
    start := waits inv.start
    spread := fun k member k' up => waits (inv.spread k member k' up) }

theorem Inv.visit (inv : Inv above node depth s) (popped : s.stack = current :: rest)
    (fresh : fromOCI current.node ∉ s.visited)
    (visited : Visited above depth { s with stack := rest } current s') : Inv above node depth s' := by
  obtain ⟨found, steps⟩ := inv.stacked current (popped ▸ List.mem_cons_self)
  have stacked (i : NodeInfo) (member : i ∈ rest) := inv.stacked i (popped ▸ List.mem_cons_of_mem _ member)
  have unasked : fromOCI current.node ∉ s.asked.map fromOCI := fun asked => fresh ((inv.visited _).mpr (.inl asked))
  have once : ((s.asked ++ [current.node]).map fromOCI).Nodup := by
    rw [List.map_append, List.nodup_append]
    refine ⟨inv.once, List.nodup_singleton _, fun a member b last => ?_⟩
    rintro rfl
    exact unasked (List.mem_singleton.mp last ▸ member)
  have asked : ∀ d ∈ s.asked ++ [current.node], Found above node d := by
    intro d member
    rcases List.mem_append.mp member with old | new
    · exact inv.asked d old
    · exact List.mem_singleton.mp new ▸ found
  have rooted : ∀ k d, (s.rootMap.insert (fromOCI current.node) current.node).lookup k = some d →
      fromOCI d = k ∧ Found above node d := by
    intro k d atKey
    by_cases same : k = fromOCI current.node
    · subst same
      cases (Finmap.lookup_insert _).symm.trans atKey
      exact ⟨rfl, found⟩
    · exact inv.rooted k d ((Finmap.lookup_insert_of_ne _ same).symm.trans atKey)
  have done : ∀ k, k ∈ s.visited ∨ k = fromOCI current.node → k ∈ insert (fromOCI current.node) s.visited :=
    fun k either => Finset.mem_insert.mpr either.symm
  have mem_asked (k : Key) : k ∈ (s.asked ++ [current.node]).map fromOCI ↔
      k ∈ s.asked.map fromOCI ∨ k = fromOCI current.node := by
    rw [List.map_append, List.mem_append, List.map_singleton, List.mem_singleton]
  cases visited with
  | cut positive limit =>
    have waits {k : Key} (awaited : s.Awaited k) := awaited.pop { s with
      stack := rest, visited := insert (fromOCI current.node) s.visited,
      rootMap := s.rootMap.insert (fromOCI current.node) current.node } popped done fun i member => member
    refine ⟨stacked, inv.asked, rooted, fun k => ?_, inv.once, fun k member => ?_, fun k member top => ?_,
      waits inv.start, fun k member k' up => waits (inv.spread k member k' up)⟩
    · rw [Finset.mem_insert, Finmap.mem_insert, inv.visited]
      tauto
    · rcases Finmap.mem_insert.mp member with rfl | old
      · rw [← limit, Int.toNat_natCast]
        exact .inr ⟨limit ▸ positive, steps⟩
      · exact inv.ended k old
    · exact Finmap.mem_insert.mpr (.inr (inv.tops k member top))
  | top nothing =>
    have waits {k : Key} (awaited : s.Awaited k) := awaited.pop { s with
      stack := rest, visited := insert (fromOCI current.node) s.visited, asked := s.asked ++ [current.node],
      rootMap := s.rootMap.insert (fromOCI current.node) current.node } popped done fun i member => member
    refine ⟨stacked, asked, rooted, fun k => ?_, once, fun k member => ?_, fun k member top => ?_,
      waits inv.start, fun k member k' up => ?_⟩
    · rw [Finset.mem_insert, Finmap.mem_insert, inv.visited, mem_asked]
      tauto
    · rw [mem_asked]
      rcases Finmap.mem_insert.mp member with rfl | old
      · exact .inl ⟨.inr rfl, nothing⟩
      · exact (inv.ended k old).imp_left (.imp_left .inl)
    · exact Finmap.mem_insert.mpr (((mem_asked k).mp member).symm.imp_right fun old => inv.tops k old top)
    · rcases (mem_asked k).mp member with old | rfl
      · exact waits (inv.spread k old k' up)
      · rw [Up, nothing] at up
        cases up
  | inner new something length origin complete =>
    have waits {k : Key} (awaited : s.Awaited k) := awaited.pop { s with
      stack := new ++ rest, visited := insert (fromOCI current.node) s.visited,
      asked := s.asked ++ [current.node] } popped done fun i member => List.mem_append_right _ member
    refine ⟨fun i member => ?_, asked, inv.rooted, fun k => ?_, once, fun k member => ?_,
      fun k member top => ?_, waits inv.start, fun k member k' up => ?_⟩
    · rcases List.mem_append.mp member with pushed | old
      · obtain ⟨listed, deeper⟩ := origin i pushed
        rw [deeper]
        exact ⟨.inr ⟨_, found_reach found, listed⟩, steps.tail (List.mem_map_of_mem listed)⟩
      · exact stacked i old
    · rw [Finset.mem_insert, inv.visited, mem_asked]
      tauto
    · rw [mem_asked]
      exact (inv.ended k member).imp_left (.imp_left .inl)
    · rcases (mem_asked k).mp member with old | rfl
      · exact inv.tops k old top
      · exact absurd top something
    · rcases (mem_asked k).mp member with old | rfl
      · exact waits (inv.spread k old k' up)
      · obtain ⟨p, listed, rfl⟩ := List.mem_map.mp up
        exact (complete p listed).imp_right fun ⟨i, member, same⟩ => ⟨i, List.mem_append_left _ member, same ▸ rfl⟩

end Step

/-- The iterations that are left at most: one for each entry of the stack, now or later. -/
def remaining (above : Key → List Descriptor) (keys : Finset Key) (s : Search) : Nat :=
  s.stack.length + ∑ k ∈ keys \ s.visited, (above k).length

theorem Visited.remaining_lt {keys : Finset Key} {current : NodeInfo} {rest : List NodeInfo}
    (popped : s.stack = current :: rest) (inside : fromOCI current.node ∈ keys) (fresh : fromOCI current.node ∉ s.visited)
    (visited : Visited above depth { s with stack := rest } current s') :
    s'.remaining above keys < s.remaining above keys := by
  have split : ∑ k ∈ keys \ insert (fromOCI current.node) s.visited, (above k).length +
      (above (fromOCI current.node)).length = ∑ k ∈ keys \ s.visited, (above k).length := by
    rw [Finset.sdiff_insert]
    exact Finset.sum_erase_add _ _ (Finset.mem_sdiff.mpr ⟨inside, fresh⟩)
  cases visited with
  | cut | top => simp only [remaining, popped, List.length_cons]; omega
  | inner new _ length => simp only [remaining, popped, List.length_cons, List.length_append]; omega

/-- Every search among finitely many nodes comes to an empty stack. -/
theorem loop_ends (byKey : ∀ d, find d = .ok (above (fromOCI d))) {keys : Finset Key}
    (finite : ∀ k, ReflTransGen (Up above) (fromOCI node) k → k ∈ keys) (fuel : Nat) (inv : Inv above node depth s)
    (enough : s.remaining above keys < fuel) :
    ∃ s', loop find depth fuel s = some (none, s') ∧ Inv above node depth s' ∧ s'.stack = [] := by
  induction fuel generalizing s with
  | zero => exact absurd enough (Nat.not_lt_zero _)
  | succ fuel ih =>
    rw [loop]
    cases popped : s.stack with
    | nil => exact ⟨s, rfl, inv, popped⟩
    | cons current rest =>
      dsimp only
      by_cases known : fromOCI current.node ∈ s.visited
      · rw [Search.visit, if_pos known]
        refine ih (inv.skip popped known) (Nat.lt_of_succ_le (Nat.le_of_lt_succ (lt_of_eq_of_lt ?_ enough)))
        simp only [remaining, popped, List.length_cons]
        omega
      · have found := found_reach (inv.stacked current (popped ▸ List.mem_cons_self)).1
        have unrooted : fromOCI current.node ∉ s.rootMap := fun root => known ((inv.visited _).mpr (.inr root))
        obtain ⟨s', same, visited⟩ := visit_cases byKey depth { s with stack := rest } current known unrooted
        rw [same]
        exact ih (inv.visit popped known visited)
          (lt_of_lt_of_le (visited.remaining_lt popped (finite _ found) known) (Nat.le_of_lt_succ enough))

end Search

end OrasGo.ExtendedCopy
