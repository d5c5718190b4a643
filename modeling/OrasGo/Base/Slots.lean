import Mathlib.Data.Finmap
import Mathlib.Data.Finset.Dedup
import Mathlib.Data.Finset.Card

/-! A list in which items are cleared in place, with the positions of their keys,
against the list of the items that are left. -/

namespace Slots
variable {α κ : Type} [DecidableEq κ]

theorem filter_hole {P Q : α → Bool} {l r : List α} {a hole : α} (hidden : P hole = false) (gone : Q a = false)
    (others : ∀ b ∈ l ++ r, P b = true → Q b = true) :
    (l ++ hole :: r).filter P = ((l ++ a :: r).filter P).filter Q := by
  have kept {l' : List α} (part : ∀ b ∈ l', b ∈ l ++ r) : (l'.filter P).filter Q = l'.filter P := by
    refine List.filter_eq_self.mpr fun b member => ?_
    obtain ⟨member, proper⟩ := List.mem_filter.mp member
    exact others b (part b member) proper
  rw [List.filter_append, List.filter_append, List.filter_append, kept fun b => List.mem_append_left r,
    List.filter_cons_of_neg (by simp [hidden]), List.filter_cons]
  split
  · rw [List.filter_cons_of_neg (by simp [gone]), kept fun b => List.mem_append_right l]
  · rw [kept fun b => List.mem_append_right l]

/-- The items, some of them cleared, and the positions of the others. -/
structure Table (α κ : Type) where
  positions : Finmap (fun _ : κ => Nat) := ∅
  items : List α := []

namespace Table

def append (key : α → κ) (s : Table α κ) (a : α) : Table α κ :=
  ⟨s.positions.insert (key a) s.items.length, s.items ++ [a]⟩

def clear (hole : α) (s : Table α κ) (k : κ) (p : Nat) : Table α κ := ⟨s.positions.erase k, s.items.set p hole⟩

variable (key : α → κ) (hole : α)

/-- The items that are not cleared. -/
def live (s : Table α κ) : List α := s.items.filter fun a => key a ≠ key hole

/-- The positions are those of the live items. -/
def Valid (s : Table α κ) : Prop :=
  ∀ k p, s.positions.lookup k = some p ↔ k ≠ key hole ∧ ∃ a, s.items[p]? = some a ∧ key a = k

variable {key hole} {s : Table α κ}

theorem Valid.empty : Valid key hole {} := by
  intro k p
  simp

theorem mem_live {a : α} : a ∈ s.live key hole ↔ a ∈ s.items ∧ key a ≠ key hole := by
  simp only [live, List.mem_filter, decide_eq_true_eq]

section
variable (valid : Valid key hole s)
include valid

theorem Valid.mem_positions (k : κ) : k ∈ s.positions ↔ k ∈ (s.live key hole).map key := by
  rw [Finmap.mem_iff, List.mem_map]
  constructor
  · rintro ⟨p, found⟩
    obtain ⟨proper, a, member, rfl⟩ := (valid k p).mp found
    exact ⟨a, mem_live.mpr ⟨List.mem_of_getElem? member, proper⟩, rfl⟩
  · rintro ⟨a, member, rfl⟩
    obtain ⟨member, proper⟩ := mem_live.mp member
    obtain ⟨p, found⟩ := List.mem_iff_getElem?.mp member
    exact ⟨p, (valid _ p).mpr ⟨proper, a, found, rfl⟩⟩

theorem Valid.nodup : ((s.live key hole).map key).Nodup := by
  rw [live, List.Nodup, List.pairwise_map, List.pairwise_filter, List.pairwise_iff_getElem]
  intro i j inBounds inBounds' less proper _ same
  simp only [decide_eq_true_eq] at proper
  have first := (valid _ i).mpr ⟨proper, _, List.getElem?_eq_getElem inBounds, rfl⟩
  have second := (valid _ j).mpr ⟨proper, _, List.getElem?_eq_getElem inBounds', same.symm⟩
  exact less.ne (Option.some.inj (first.symm.trans second))

theorem Valid.card_positions : s.positions.keys.card = (s.live key hole).length := by
  have same : s.positions.keys = ((s.live key hole).map key).toFinset := by
    ext k
    rw [Finmap.mem_keys, List.mem_toFinset, valid.mem_positions]
  rw [same, List.toFinset_card_of_nodup valid.nodup, List.length_map]

theorem Valid.append {a : α} (fresh : key a ∉ s.positions) (proper : key a ≠ key hole) :
    Valid key hole (s.append key a) := by
  intro k p
  have inside {b : α} (found : s.items[p]? = some b) : p < s.items.length := (List.getElem?_eq_some_iff.mp found).1
  by_cases same : k = key a
  · subst same
    rw [Table.append, Finmap.lookup_insert, Option.some.injEq]
    constructor
    · rintro rfl
      exact ⟨proper, a, List.getElem?_concat_length, rfl⟩
    · rintro ⟨_, b, found, sameKey⟩
      by_contra other
      rw [List.getElem?_append] at found
      split at found
      · exact fresh (Finmap.mem_iff.mpr ⟨p, (valid _ p).mpr ⟨proper, b, found, sameKey⟩⟩)
      · rw [List.getElem?_singleton, if_neg (by omega)] at found
        cases found
  · rw [Table.append, Finmap.lookup_insert_of_ne _ same, valid]
    refine and_congr_right fun _ => exists_congr fun b => and_congr_left fun sameKey => ?_
    rw [List.getElem?_append]
    split
    · rfl
    · rename_i beyond
      refine iff_of_false (fun found => beyond (inside found)) fun found => ?_
      rw [List.getElem?_singleton] at found
      split at found
      · cases found
        exact same sameKey.symm
      · cases found

theorem Valid.clear {k : κ} {p : Nat} (found : s.positions.lookup k = some p) : Valid key hole (s.clear hole k p) := by
  obtain ⟨proper, a, atP, keyA⟩ := (valid k p).mp found
  intro k' p'
  by_cases same : k' = k
  · subst same
    rw [Table.clear, Finmap.lookup_erase]
    refine iff_of_false (Option.some_ne_none _).symm ?_
    rintro ⟨_, b, atP', keyB⟩
    rw [List.getElem?_set] at atP'
    split at atP'
    · split at atP'
      · cases atP'
        exact proper keyB.symm
      · cases atP'
    · rename_i other
      exact other (Option.some.inj (found.symm.trans ((valid k' p').mpr ⟨proper, b, atP', keyB⟩)))
  · rw [Table.clear, Finmap.lookup_erase_ne same, valid]
    refine and_congr_right fun proper' => exists_congr fun b => and_congr_left fun keyB => ?_
    rw [List.getElem?_set]
    split
    · rename_i here
      subst here
      have other : b ≠ a := fun eq => same (keyB.symm.trans (eq ▸ keyA))
      rw [atP, if_pos (List.getElem?_eq_some_iff.mp atP).1, Option.some.injEq, Option.some.injEq]
      exact iff_of_false other.symm fun eq => proper' (keyB.symm.trans (eq ▸ rfl))
    · rfl

theorem Valid.live_clear {k : κ} {p : Nat} (found : s.positions.lookup k = some p) :
    (s.clear hole k p).live key hole = (s.live key hole).filter fun a => key a ≠ k := by
  obtain ⟨proper, a, atP, keyA⟩ := (valid k p).mp found
  have others {i : Nat} {b : α} (atI : s.items[i]? = some b) (elsewhere : i ≠ p) (proper' : key b ≠ key hole) :
      key b ≠ k := by
    intro keyB
    have twice := (valid k i).mpr ⟨keyB ▸ proper', b, atI, keyB⟩
    exact elsewhere (Option.some.inj (twice.symm.trans found))
  obtain ⟨inBounds, atP⟩ := List.getElem?_eq_some_iff.mp atP
  have split : s.items = s.items.take p ++ a :: s.items.drop (p + 1) := by
    rw [← atP, ← List.drop_eq_getElem_cons inBounds, List.take_append_drop]
  have cleared : (s.clear hole k p).items = s.items.take p ++ hole :: s.items.drop (p + 1) := by
    rw [Table.clear, List.set_eq_take_append_cons_drop, if_pos inBounds]
  rw [live, cleared, filter_hole (a := a) (Q := fun a => key a ≠ k) (by simp) (by simp [keyA]), ← split, live]
  intro b member proper
  refine decide_eq_true ?_
  rcases List.mem_append.mp member with before | after
  · obtain ⟨i, found⟩ := List.mem_iff_getElem?.mp before
    rw [List.getElem?_take] at found
    split at found
    · exact others found (by omega) (of_decide_eq_true proper)
    · cases found
  · obtain ⟨i, found⟩ := List.mem_iff_getElem?.mp after
    rw [List.getElem?_drop] at found
    exact others found (by omega) (of_decide_eq_true proper)

end

theorem live_append {a : α} (proper : key a ≠ key hole) :
    (s.append key a).live key hole = s.live key hole ++ [a] := by
  rw [live, Table.append, List.filter_append, List.filter_singleton, decide_eq_true proper]
  rfl

end Table

end Slots
