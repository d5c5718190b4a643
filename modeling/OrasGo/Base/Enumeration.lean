import Mathlib.Data.Finmap
import Mathlib.Data.Finset.Dedup
import Mathlib.Data.Finset.Sort

/-! Iterations over finite sets and maps whose order is not determined by them. -/

namespace Iteration
variable {α β : Type}

/-- An order in which to visit the elements of each finite set. -/
structure Enumeration (α : Type) where
  list : Finset α → List α
  nodup : ∀ s, (list s).Nodup
  mem : ∀ s a, a ∈ list s ↔ a ∈ s

namespace Enumeration
variable [DecidableEq α] (order : Enumeration α)

/-- The entries of a map, in that order. -/
def entries (m : Finmap fun _ : α => β) : List (α × β) :=
  (order.list m.keys).filterMap fun a => (m.lookup a).map fun b => (a, b)

variable {order}

theorem mem_entries {m : Finmap fun _ : α => β} {a : α} {b : β} :
    (a, b) ∈ order.entries m ↔ m.lookup a = some b := by
  simp only [entries, List.mem_filterMap, order.mem, Finmap.mem_keys, Option.map_eq_some_iff, Prod.mk.injEq]
  constructor
  · rintro ⟨_, _, _, found, rfl, rfl⟩
    exact found
  · intro found
    exact ⟨a, Finmap.mem_of_lookup_eq_some found, b, found, rfl, rfl⟩

theorem list_singleton (a : α) : order.list {a} = [a] := by
  refine List.perm_singleton.mp ((List.perm_ext_iff_of_nodup (order.nodup _) (List.nodup_singleton a)).mpr fun b => ?_)
  rw [order.mem, Finset.mem_singleton, List.mem_singleton]

theorem map_fst_entries (m : Finmap fun _ : α => β) : (order.entries m).map Prod.fst = order.list m.keys := by
  have visited : ∀ a ∈ order.list m.keys, a ∈ m := fun a member => Finmap.mem_keys.mp ((order.mem _ a).mp member)
  rw [entries]
  generalize order.list m.keys = keys at visited ⊢
  induction keys with
  | nil => rfl
  | cons a rest ih =>
    obtain ⟨b, found⟩ := Finmap.mem_iff.mp (visited a List.mem_cons_self)
    rw [List.filterMap_cons, found]
    exact congrArg (a :: ·) (ih fun a' member => visited a' (List.mem_cons_of_mem _ member))

/-- The order that visits a set as the first of the given lists that enumerates
it, and in some order if there is none. -/
noncomputable def preferring (lists : List (List α)) : Enumeration α where
  list s := (lists.find? fun l => decide (l.Nodup ∧ l.toFinset = s)).getD s.toList
  nodup s := by
    cases found : lists.find? fun l => decide (l.Nodup ∧ l.toFinset = s) with
    | none => exact s.nodup_toList
    | some l =>
      have chosen := List.find?_some found
      exact (decide_eq_true_eq.mp chosen).1
  mem s a := by
    cases found : lists.find? fun l => decide (l.Nodup ∧ l.toFinset = s) with
    | none => exact Finset.mem_toList
    | some l =>
      have chosen := List.find?_some found
      have same := (decide_eq_true_eq.mp chosen).2
      simp only [Option.getD_some, ← same, List.mem_toFinset]

/-- An order that visits `first` before everything else. -/
noncomputable def startingWith (first : α) : Enumeration α where
  list s := if first ∈ s then first :: (s.erase first).toList else s.toList
  nodup s := by
    split
    · refine List.nodup_cons.mpr ⟨?_, (s.erase first).nodup_toList⟩
      rw [Finset.mem_toList]
      exact Finset.notMem_erase first s
    · exact s.nodup_toList
  mem s a := by
    split
    · rename_i member
      rw [List.mem_cons, Finset.mem_toList, ← Finset.mem_insert, Finset.insert_erase member]
    · exact Finset.mem_toList

theorem startingWith_entries {m : Finmap fun _ : α => β} {a : α} {b : β} (found : m.lookup a = some b) :
    ∃ rest, (startingWith a).entries m = (a, b) :: rest := by
  have member : a ∈ m.keys := Finmap.mem_keys.mpr (Finmap.mem_of_lookup_eq_some found)
  simp only [entries, startingWith, member, if_true, List.filterMap_cons, found, Option.map_some]
  exact ⟨_, rfl⟩

/-- The elements of each set from the least to the greatest. -/
def ascending {α : Type} [LinearOrder α] : Enumeration α where
  list s := s.sort (· ≤ ·)
  nodup s := s.sort_nodup (· ≤ ·)
  mem _ _ := Finset.mem_sort (· ≤ ·)

end Enumeration

end Iteration
