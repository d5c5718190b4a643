import OrasGo.Content
import OrasGo.ExtendedCopy.FindRoots

/-! Which roots `findRoots` finds, without a limit of the depth and with one. -/

namespace OrasGo.ExtendedCopy
open Ancestry Iteration Relation

/-- `findRoots` returns the roots after so many calls of `FindPredecessors`. -/
def Finds (order : Enumeration Key) (find : Descriptor → Except Error (List Descriptor)) (depth : Int)
    (node : Descriptor) (roots calls : List Descriptor) : Prop :=
  ∃ bound, ∀ fuel, bound ≤ fuel → findRoots order find depth fuel node = some (.ok roots, calls)

/-- The node is one of the roots or below one. -/
def Covered (above : Key → List Descriptor) (roots : List Descriptor) (k : Key) : Prop :=
  ∃ root ∈ roots, ReflTransGen (Up above) k (fromOCI root)

/-- A step up from a node to which no way of exactly so many steps leads. -/
def FreeStep (above : Key → List Descriptor) (node : Descriptor) (limit : Nat) (k k' : Key) : Prop :=
  Up above k k' ∧ ¬ Steps (Up above) (fromOCI node) limit k

/-- No search with the limit can be cut off from a node within it: on some way to the node, or to
one above it, no detour makes a node before the end exactly as far up as the limit. -/
def NeverCut (above : Key → List Descriptor) (node : Descriptor) (limit : Nat) : Prop :=
  ∀ k, Within (Up above) (fromOCI node) limit k →
    ∃ k', ReflTransGen (Up above) k k' ∧ ReflTransGen (FreeStep above node limit) (fromOCI node) k'

variable {above : Key → List Descriptor} {node : Descriptor} {depth : Int} {s s' : Search} {order : Enumeration Key}
  {find : Descriptor → Except Error (List Descriptor)} {keys : Finset Key}

namespace Search

theorem loop_mono {fuel : Nat} {result : Option Error × Search} (ended : loop find depth fuel s = some result)
    (more : Nat) (le : fuel ≤ more) : loop find depth more s = some result := by
  induction fuel generalizing s more with
  | zero => cases ended
  | succ fuel ih =>
    obtain ⟨more, rfl⟩ : ∃ m, more = m + 1 := ⟨more - 1, by omega⟩
    rw [loop] at ended ⊢
    cases popped : s.stack with
    | nil =>
      rw [popped] at ended
      exact ended
    | cons current rest =>
      simp only [popped] at ended ⊢
      rcases visited : visit find depth { s with stack := rest } current with ⟨_ | err, s'⟩ <;>
        simp only [visited] at ended ⊢
      · exact ih ended more (Nat.le_of_succ_le_succ le)
      · exact ended

theorem Inv.map_roots (inv : Inv above node depth s) (order : Enumeration Key) :
    (s.roots order).map fromOCI = order.list s.rootMap.keys := by
  rw [roots, List.map_map, ← Enumeration.map_fst_entries]
  refine List.map_congr_left fun ⟨k, d⟩ member => ?_
  exact (inv.rooted k d (Enumeration.mem_entries.mp member)).1

theorem Inv.mem_roots (inv : Inv above node depth s) (order : Enumeration Key) (k : Key) :
    k ∈ (s.roots order).map fromOCI ↔ k ∈ s.rootMap := by
  rw [inv.map_roots, order.mem, Finmap.mem_keys]

theorem Inv.roots_found (inv : Inv above node depth s) : ∀ root ∈ s.roots order, Found above node root := by
  intro root member
  obtain ⟨⟨k, d⟩, listed, rfl⟩ := List.mem_map.mp member
  exact (inv.rooted k d (Enumeration.mem_entries.mp listed)).2

end Search

theorem finds (byKey : ∀ d, find d = .ok (above (fromOCI d)))
    (finite : ∀ k, ReflTransGen (Up above) (fromOCI node) k → k ∈ keys) (depth : Int) (order : Enumeration Key) :
    ∃ s, Finds order find depth node (s.roots order) s.asked ∧ Search.Inv above node depth s ∧ s.stack = [] := by
  obtain ⟨bound, enough⟩ := exists_gt (Search.remaining above keys { stack := [⟨node, 0⟩] })
  obtain ⟨s, ended, inv, empty⟩ := Search.loop_ends byKey finite bound (.initial above node depth) enough
  refine ⟨s, ⟨bound, fun fuel more => ?_⟩, inv, empty⟩
  rw [findRoots, Search.loop_mono ended fuel more]
  rfl

section Ended
variable (inv : Search.Inv above node depth s) (empty : s.stack = [])
include inv empty

theorem visited_of_awaited {k : Key} (awaited : s.Awaited k) : k ∈ s.asked.map fromOCI ∨ k ∈ s.rootMap := by
  rcases awaited with visited | ⟨i, member, _⟩
  · exact (inv.visited k).mp visited
  · rw [empty] at member
    cases member

theorem covered_of_visited (ends : ∀ k, ReflTransGen (Up above) (fromOCI node) k → Acc (fun x y => Up above y x) k)
    {k : Key} (visited : k ∈ s.asked.map fromOCI ∨ k ∈ s.rootMap) : Covered above (s.roots order) k := by
  have reach : ReflTransGen (Up above) (fromOCI node) k := by
    rcases visited with asked | root
    · obtain ⟨d, member, rfl⟩ := List.mem_map.mp asked
      exact Search.found_reach (inv.asked d member)
    · obtain ⟨d, found⟩ := Finmap.mem_iff.mp root
      obtain ⟨rfl, origin⟩ := inv.rooted k d found
      exact Search.found_reach origin
  have goesOn (k : Key) (visited : k ∈ s.asked.map fromOCI ∨ k ∈ s.rootMap) : k ∈ s.rootMap ∨
      ∃ k', Up above k k' ∧ (k' ∈ s.asked.map fromOCI ∨ k' ∈ s.rootMap) := by
    rcases visited with asked | root
    · cases listed : above k with
      | nil => exact .inl (inv.tops k asked listed)
      | cons first rest =>
        have up : Up above k (fromOCI first) := by simp [Up, listed]
        exact .inr ⟨_, up, visited_of_awaited inv empty (inv.spread k asked _ up)⟩
    · exact .inl root
  obtain ⟨top, up, -, stop⟩ := exists_stop (ends k reach) goesOn visited
  obtain ⟨root, member, rfl⟩ := List.mem_map.mp ((inv.mem_roots order top).mpr stop)
  exact ⟨root, member, up⟩

end Ended

/-- `findRoots` without a limit asks every node above the start once, and returns those with nothing above them. -/
theorem findRoots_exact (order : Enumeration Key) (byKey : ∀ d, find d = .ok (above (fromOCI d)))
    (finite : ∀ k, ReflTransGen (Up above) (fromOCI node) k → k ∈ keys) (acyclic : Acyclic (Up above) (fromOCI node))
    (unlimited : depth ≤ 0) :
    ∃ roots calls, Finds order find depth node roots calls ∧
      (calls.map fromOCI).Nodup ∧ (∀ k, k ∈ calls.map fromOCI ↔ ReflTransGen (Up above) (fromOCI node) k) ∧
      (roots.map fromOCI).Nodup ∧
      (∀ k, k ∈ roots.map fromOCI ↔ ReflTransGen (Up above) (fromOCI node) k ∧ above k = []) ∧
      (∀ root ∈ roots, Found above node root) ∧
      ∀ k, ReflTransGen (Up above) (fromOCI node) k → Covered above roots k := by
  obtain ⟨s, found, inv, empty⟩ := finds byKey finite depth order
  have ended {k : Key} (root : k ∈ s.rootMap) : k ∈ s.asked.map fromOCI ∧ above k = [] :=
    (inv.ended k root).resolve_right fun limited => unlimited.not_gt limited.1
  have visited {k : Key} (awaited : s.Awaited k) : k ∈ s.asked.map fromOCI :=
    (visited_of_awaited inv empty awaited).elim id fun root => (ended root).1
  have asked (k : Key) : k ∈ s.asked.map fromOCI ↔ ReflTransGen (Up above) (fromOCI node) k := by
    constructor
    · intro member
      obtain ⟨d, listed, rfl⟩ := List.mem_map.mp member
      exact Search.found_reach (inv.asked d listed)
    · intro reach
      induction reach with
      | refl => exact visited inv.start
      | tail _ up ih => exact visited (inv.spread _ ih _ up)
  have ends k (reach : ReflTransGen (Up above) (fromOCI node) k) : Acc (fun x y => Up above y x) k :=
    Acyclic.acc (fun b further => finite b (reach.trans further)) fun b further => acyclic b (reach.trans further)
  refine ⟨_, _, found, inv.once, asked, ?_, fun k => ?_, inv.roots_found, fun k reach => ?_⟩
  · rw [inv.map_roots]
    exact order.nodup _
  · rw [inv.mem_roots, ← asked]
    exact ⟨ended, fun ⟨member, top⟩ => inv.tops k member top⟩
  · exact covered_of_visited inv empty ends (.inl ((asked k).mpr reach))

namespace Shortcut
open Sample

/-- A node with two predecessors, one of which is a predecessor of the other and
has one of its own. The first two are listed in either order. -/
def predecessors (swapped : Bool) (k : Key) : List Descriptor :=
  if k = fromOCI config then if swapped then [image, artifact] else [artifact, image]
  else if k = fromOCI image then [artifact]
  else if k = fromOCI artifact then [referrer]
  else []

def findPredecessors (swapped : Bool) (d : Descriptor) : Except Error (List Descriptor) := .ok (predecessors swapped (fromOCI d))

def nodes : Finset Key := {fromOCI config, fromOCI image, fromOCI artifact, fromOCI referrer}

/-- The longest way up from each of the nodes. -/
def height (k : Key) : Nat :=
  if k = fromOCI config then 3 else if k = fromOCI image then 2 else if k = fromOCI artifact then 1 else 0

theorem lower : ∀ swapped, ∀ k ∈ nodes, ∀ d ∈ predecessors swapped k, fromOCI d ∈ nodes ∧ height (fromOCI d) < height k := by
  decide +kernel

theorem finite (swapped : Bool) {k k' : Key} (inside : k ∈ nodes) (reach : ReflTransGen (Up (predecessors swapped)) k k') :
    k' ∈ nodes := by
  induction reach with
  | refl => exact inside
  | tail _ up ih =>
    obtain ⟨d, member, rfl⟩ := List.mem_map.mp up
    exact (lower swapped _ ih d member).1

theorem start_inside : fromOCI config ∈ nodes := by decide

theorem acyclic (swapped : Bool) : Acyclic (Up (predecessors swapped)) (fromOCI config) := by
  intro k reach cycle
  have falls {k'} (way : TransGen (Up (predecessors swapped)) k k') : height k' < height k := by
    induction way with
    | single up =>
      obtain ⟨d, member, rfl⟩ := List.mem_map.mp up
      exact (lower swapped _ (finite swapped start_inside reach) d member).2
    | tail before up ih =>
      obtain ⟨d, member, rfl⟩ := List.mem_map.mp up
      exact (lower swapped _ (finite swapped start_inside (reach.trans before.to_reflTransGen)) d member).2.trans ih
  exact lt_irrefl _ (falls cycle)

theorem topmost : ∀ swapped, ∀ k ∈ nodes, predecessors swapped k = [] → k = fromOCI referrer := by
  decide +kernel

theorem steps : ∀ swapped, fromOCI artifact ∈ (predecessors swapped (fromOCI config)).map fromOCI ∧
    fromOCI referrer ∈ (predecessors swapped (fromOCI artifact)).map fromOCI ∧
    predecessors swapped (fromOCI referrer) = [] := by
  decide +kernel

theorem steps_referrer (swapped : Bool) : Steps (Up (predecessors swapped)) (fromOCI config) 2 (fromOCI referrer) :=
  (Steps.refl.tail (steps swapped).1).tail (steps swapped).2.1

theorem loop_two :
    ((Search.loop (findPredecessors false) 2 9 { stack := [⟨config, 0⟩] }).map fun r =>
      (r.1.isNone, r.2.asked, r.2.rootMap.keys, r.2.rootMap.lookup (fromOCI artifact))) =
      some (true, [config, image], {fromOCI artifact}, some artifact) ∧
    ((Search.loop (findPredecessors true) 2 9 { stack := [⟨config, 0⟩] }).map fun r =>
      (r.1.isNone, r.2.asked, r.2.rootMap.keys, r.2.rootMap.lookup (fromOCI referrer))) =
      some (true, [config, artifact, image], {fromOCI referrer}, some referrer) := by
  decide +kernel

theorem finds_two (order : Enumeration Key) :
    Finds order (findPredecessors false) 2 config [artifact] [config, image] ∧
    Finds order (findPredecessors true) 2 config [referrer] [config, artifact, image] := by
  have found {swapped : Bool} {root : Descriptor} {asked : List Descriptor}
      (ended : ((Search.loop (findPredecessors swapped) 2 9 { stack := [⟨config, 0⟩] }).map fun r =>
        (r.1.isNone, r.2.asked, r.2.rootMap.keys, r.2.rootMap.lookup (fromOCI root))) =
        some (true, asked, {fromOCI root}, some root)) :
      Finds order (findPredecessors swapped) 2 config [root] asked := by
    obtain ⟨⟨err, s⟩, looped, same⟩ := Option.map_eq_some_iff.mp ended
    simp only [Prod.mk.injEq, Option.isNone_iff_eq_none] at same
    obtain ⟨rfl, rfl, keys, found⟩ := same
    have roots : s.roots order = [root] := by
      rw [Search.roots, Enumeration.entries, keys, Enumeration.list_singleton, List.filterMap_cons, found]
      rfl
    refine ⟨9, fun fuel enough => ?_⟩
    rw [findRoots, Search.loop_mono looped fuel enough, ← roots]
    rfl
  exact ⟨found loop_two.1, found loop_two.2⟩

theorem reordered (swapped : Bool) (k : Key) : (predecessors swapped k).Perm (predecessors false k) := by
  cases swapped with
  | false => exact .refl _
  | true =>
    simp only [predecessors]
    split
    · exact List.Perm.swap _ _ _
    · exact .refl _

end Shortcut

/-- Without a limit the node on top is the only root in either order. -/
theorem findRoots_exact_shortcut : fromOCI Sample.config ∈ Shortcut.nodes ∧
    ∀ (order : Enumeration Key) (swapped : Bool), ∃ roots calls,
      Finds order (Shortcut.findPredecessors swapped) 0 Sample.config roots calls ∧
      ∀ k, k ∈ roots.map fromOCI ↔ k = fromOCI Sample.referrer := by
  refine ⟨Shortcut.start_inside, fun order swapped => ?_⟩
  obtain ⟨roots, calls, finds, -, -, -, exact, -⟩ := findRoots_exact order (fun _ => rfl)
    (fun _ => Shortcut.finite swapped Shortcut.start_inside) (Shortcut.acyclic swapped) le_rfl
  refine ⟨roots, calls, finds, fun k => (exact k).trans ⟨fun ⟨reach, top⟩ => ?_, ?_⟩⟩
  · exact Shortcut.topmost swapped k (Shortcut.finite swapped Shortcut.start_inside reach) top
  · rintro rfl
    exact ⟨(Shortcut.steps_referrer swapped).reach, (Shortcut.steps swapped).2.2⟩

theorem up_of_perm {above' : Key → List Descriptor} (same : ∀ k, (above' k).Perm (above k)) : Up above' = Up above := by
  funext k k'
  exact propext ((same k).map fromOCI).mem_iff

/-- A search that has ended has visited all that free steps lead to. -/
theorem visited_of_free (inv : Search.Inv above node depth s) (empty : s.stack = []) {k : Key}
    (free : ReflTransGen (FreeStep above node depth.toNat) (fromOCI node) k) :
    k ∈ s.asked.map fromOCI ∨ k ∈ s.rootMap := by
  induction free with
  | refl => exact visited_of_awaited inv empty inv.start
  | @tail b c _ step ih =>
    -- A root with something above it was cut off at the limit.
    have asked : b ∈ s.asked.map fromOCI := by
      rcases ih with asked | root
      · exact asked
      · rcases inv.ended b root with ⟨asked, -⟩ | ⟨-, far⟩
        · exact asked
        · exact absurd far step.2
    exact visited_of_awaited inv empty (inv.spread b asked c step.1)

/-- Every way up takes at most as many steps as the heights differ by. -/
theorem Shortcut.steps_height {k : Key} {n : Nat} (way : Steps (Up (Shortcut.predecessors false)) (fromOCI Sample.config) n k) :
    n + Shortcut.height k ≤ 3 := by
  induction way with
  | refl => decide
  | tail before up ih =>
    obtain ⟨d, member, rfl⟩ := List.mem_map.mp up
    have inside := Shortcut.finite false Shortcut.start_inside before.reach
    have falls := (Shortcut.lower false _ inside d member).2
    omega

end OrasGo.ExtendedCopy
