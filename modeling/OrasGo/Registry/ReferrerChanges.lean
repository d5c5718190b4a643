import OrasGo.Base.Slots
import OrasGo.Descriptor

/-! `applyReferrerChanges`, which applies the merged changes of the referrers of a
subject to the index that lists them. -/

namespace OrasGo.Registry
open Slots

inductive ReferrerOperation
  | add
  | remove
  deriving DecidableEq

structure ReferrerChange where
  referrer : Descriptor
  operation : ReferrerOperation
  deriving DecidableEq

def errNoReferrerUpdate : Error := .text "no referrer update"

/-- `referrersMap` with `updatedReferrers`, and `updateRequired`. -/
structure ReferrerUpdate where
  table : Table Descriptor Key := {}
  updateRequired : Bool := false

/-- The body of the loop over the referrers. -/
def ReferrerUpdate.collect (s : ReferrerUpdate) (r : Descriptor) : ReferrerUpdate :=
  if contentEqual r {} then { s with updateRequired := true }
  else if fromOCI r ∈ s.table.positions then { s with updateRequired := true }
  else { s with table := s.table.append fromOCI r }

/-- The body of the loop over the changes. -/
def applyReferrerChange (table : Table Descriptor Key) (change : ReferrerChange) : Table Descriptor Key :=
  match change.operation with
  | .add =>
    if fromOCI change.referrer ∈ table.positions then table else table.append fromOCI change.referrer
  | .remove =>
    match table.positions.lookup (fromOCI change.referrer) with
    | some pos => table.clear {} (fromOCI change.referrer) pos
    | none => table

/-- The loop of `removeEmptyDescriptors` over these indices, with `descs` and `j`. -/
def removeEmptyLoop (hint : Nat) : List Nat → List Descriptor → Nat → List Descriptor × Nat
  | [], descs, j => (descs, j)
  | i :: rest, descs, j =>
    let r := descs.getD i {}
    let (descs, j) :=
      if contentEqual r {} then (descs, j)
      else (if j < i then descs.set j r else descs, j + 1)
    if j = hint then (descs, j) else removeEmptyLoop hint rest descs j

/-- `removeEmptyDescriptors`. -/
def removeEmptyDescriptors (descs : List Descriptor) (hint : Nat) : List Descriptor :=
  let (descs, j) := removeEmptyLoop hint (List.range descs.length) descs 0
  descs.take j

/-- `applyReferrerChanges`. -/
def applyReferrerChanges (referrers : List Descriptor) (referrerChanges : List ReferrerChange) :
    Except Error (List Descriptor) :=
  let s : ReferrerUpdate := referrers.foldl .collect {}
  let table := referrerChanges.foldl applyReferrerChange s.table
  let length := table.positions.keys.card
  if !s.updateRequired && length = referrers.length && !referrers.any fun r => fromOCI r ∉ table.positions then
    .error errNoReferrerUpdate
  else .ok (removeEmptyDescriptors table.items length)

/-! ### The list without holes -/

/-- The first entry of each key, without the empty ones. -/
def validEntries (referrers : List Descriptor) : List Descriptor :=
  referrers.foldl (fun kept r =>
    if fromOCI r = fromOCI {} ∨ fromOCI r ∈ kept.map fromOCI then kept else kept ++ [r]) []

/-- A change of a list of referrers. -/
def changeEntries (entries : List Descriptor) (change : ReferrerChange) : List Descriptor :=
  match change.operation with
  | .add => if fromOCI change.referrer ∈ entries.map fromOCI then entries else entries ++ [change.referrer]
  | .remove => entries.filter fun r => fromOCI r ≠ fromOCI change.referrer

/-- A change of the set of their keys. -/
def changeKeys (keys : Finset Key) (change : ReferrerChange) : Finset Key :=
  match change.operation with
  | .add => insert (fromOCI change.referrer) keys
  | .remove => keys.erase (fromOCI change.referrer)

/-- None of the entries is empty and no key occurs twice. -/
def Clean (referrers : List Descriptor) : Prop :=
  (∀ r ∈ referrers, fromOCI r ≠ fromOCI {}) ∧ (referrers.map fromOCI).Nodup

section Compaction

/-- The loop moves the items that are left to the front; it may stop when it has
seen as many as there are. -/
theorem removeEmptyLoop_take (hint n : Nat) {i j : Nat} {descs : List Descriptor} (length : descs.length = i + n)
    (behind : j ≤ i) (all : j + ((descs.drop i).filter fun r => fromOCI r ≠ fromOCI {}).length ≤ hint) :
    (removeEmptyLoop hint (List.range' i n) descs j).1.take (removeEmptyLoop hint (List.range' i n) descs j).2 =
      descs.take j ++ (descs.drop i).filter fun r => fromOCI r ≠ fromOCI {} := by
  induction n generalizing i j descs with
  | zero =>
    rw [List.range'_zero, List.drop_eq_nil_of_le (by omega), List.filter_nil, List.append_nil]
    rfl
  | succ n ih =>
    have inBounds : i < descs.length := by omega
    have here : descs.getD i {} = descs[i] := by rw [List.getD_eq_getElem?_getD, List.getElem?_eq_getElem inBounds]; rfl
    rw [List.drop_eq_getElem_cons inBounds] at all ⊢
    rw [List.range'_succ, removeEmptyLoop, here]
    by_cases empty : contentEqual descs[i] {} = true
    · have hidden : fromOCI descs[i] = fromOCI {} := contentEqual_iff.mp empty
      rw [List.filter_cons_of_neg (by simp [hidden])] at all ⊢
      simp only [if_pos empty]
      split
      · have none : (descs.drop (i + 1)).filter (fun r => fromOCI r ≠ fromOCI {}) = [] :=
          List.eq_nil_of_length_eq_zero (by omega)
        rw [none, List.append_nil]
      · exact ih (by omega) (by omega) all
    · have shown : fromOCI descs[i] ≠ fromOCI {} := fun same => empty (contentEqual_iff.mpr same)
      rw [List.filter_cons_of_pos (by simp [shown])] at all ⊢
      rw [List.length_cons] at all
      simp only [if_neg empty]
      generalize moved : (if j < i then descs.set j descs[i] else descs) = descs'
      obtain ⟨same, front, back⟩ : descs'.length = descs.length ∧
          descs'.take (j + 1) = descs.take j ++ [descs[i]] ∧ descs'.drop (i + 1) = descs.drop (i + 1) := by
        subst moved
        split
        · rename_i less
          refine ⟨List.length_set, ?_, List.drop_set_of_lt (by omega)⟩
          rw [List.take_add_one, List.getElem?_set_self (by omega), List.take_set_of_le le_rfl]
          rfl
        · obtain rfl : j = i := by omega
          exact ⟨rfl, by rw [List.take_add_one, List.getElem?_eq_getElem inBounds]; rfl, rfl⟩
      split
      · have none : (descs.drop (i + 1)).filter (fun r => fromOCI r ≠ fromOCI {}) = [] :=
          List.eq_nil_of_length_eq_zero (by omega)
        rw [front, none]
      · rw [ih (by omega) (by omega) (by rw [back]; omega), front, back, List.append_assoc, List.singleton_append]

theorem removeEmptyDescriptors_eq (descs : List Descriptor) (hint : Nat)
    (all : (descs.filter fun r => fromOCI r ≠ fromOCI {}).length ≤ hint) :
    removeEmptyDescriptors descs hint = descs.filter fun r => fromOCI r ≠ fromOCI {} := by
  have moved := @removeEmptyLoop_take hint descs.length 0 0 descs (by omega) le_rfl
    (by rwa [List.drop_zero, Nat.zero_add])
  rw [List.drop_zero, List.take_zero, List.nil_append, ← List.range_eq_range'] at moved
  exact moved

end Compaction

section Refinement
variable {table : Table Descriptor Key} {keys : Finset Key}

/-- What the table holds, without the holes. -/
def entries (table : Table Descriptor Key) : List Descriptor := table.live fromOCI {}

theorem applyReferrerChange_valid (valid : table.Valid fromOCI {}) (change : ReferrerChange)
    (proper : fromOCI change.referrer ≠ fromOCI {}) :
    (applyReferrerChange table change).Valid fromOCI {} ∧
      entries (applyReferrerChange table change) = changeEntries (entries table) change := by
  rw [applyReferrerChange, changeEntries]
  cases change.operation with
  | add =>
    simp only [entries, ← valid.mem_positions]
    by_cases known : fromOCI change.referrer ∈ table.positions
    · rw [if_pos known, if_pos known]
      exact ⟨valid, rfl⟩
    · rw [if_neg known, if_neg known]
      exact ⟨valid.append known proper, Table.live_append proper⟩
  | remove =>
    dsimp only
    cases found : table.positions.lookup (fromOCI change.referrer) with
    | some pos => exact ⟨valid.clear found, valid.live_clear found⟩
    | none =>
      refine ⟨valid, (List.filter_eq_self.mpr fun r member => ?_).symm⟩
      refine decide_eq_true (p := _ ≠ _) fun same => ?_
      have known : fromOCI change.referrer ∈ table.positions :=
        (valid.mem_positions _).mpr (same ▸ List.mem_map_of_mem member)
      exact Finmap.lookup_eq_none.mp found known

theorem applyChanges_valid (changes : List ReferrerChange) (valid : table.Valid fromOCI {})
    (proper : ∀ change ∈ changes, fromOCI change.referrer ≠ fromOCI {}) :
    (changes.foldl applyReferrerChange table).Valid fromOCI {} ∧
      entries (changes.foldl applyReferrerChange table) = changes.foldl changeEntries (entries table) := by
  induction changes generalizing table with
  | nil => exact ⟨valid, rfl⟩
  | cons change rest ih =>
    obtain ⟨valid', same⟩ := applyReferrerChange_valid valid change (proper change List.mem_cons_self)
    rw [List.foldl_cons, List.foldl_cons, ← same]
    exact ih valid' fun c member => proper c (List.mem_cons_of_mem _ member)

theorem collect_valid {s : ReferrerUpdate} (valid : s.table.Valid fromOCI {}) (r : Descriptor) :
    (s.collect r).table.Valid fromOCI {} ∧
    (fromOCI r = fromOCI {} ∨ fromOCI r ∈ (entries s.table).map fromOCI →
      entries (s.collect r).table = entries s.table ∧ (s.collect r).updateRequired = true) ∧
    (¬ (fromOCI r = fromOCI {} ∨ fromOCI r ∈ (entries s.table).map fromOCI) →
      entries (s.collect r).table = entries s.table ++ [r] ∧ (s.collect r).updateRequired = s.updateRequired) := by
  rw [entries, ← valid.mem_positions, ReferrerUpdate.collect]
  by_cases empty : contentEqual r {} = true
  · rw [if_pos empty]
    exact ⟨valid, fun _ => ⟨rfl, rfl⟩, fun proper => absurd (.inl (contentEqual_iff.mp empty)) proper⟩
  · have shown : fromOCI r ≠ fromOCI {} := fun same => empty (contentEqual_iff.mpr same)
    rw [if_neg empty]
    by_cases known : fromOCI r ∈ s.table.positions
    · rw [if_pos known]
      exact ⟨valid, fun _ => ⟨rfl, rfl⟩, fun proper => absurd (.inr known) proper⟩
    · rw [if_neg known]
      exact ⟨valid.append known shown, fun bad => absurd (bad.resolve_left shown) known,
        fun _ => ⟨Table.live_append shown, rfl⟩⟩

/-- The entries taken over so far, and that none was left out unless an update is required. -/
structure Collected (seen : List Descriptor) (s : ReferrerUpdate) : Prop where
  valid : s.table.Valid fromOCI {}
  entries : entries s.table = validEntries seen
  required : s.updateRequired = false ↔ validEntries seen = seen

theorem validEntries_concat (seen : List Descriptor) (r : Descriptor) :
    validEntries (seen ++ [r]) =
      if fromOCI r = fromOCI {} ∨ fromOCI r ∈ (validEntries seen).map fromOCI then validEntries seen
      else validEntries seen ++ [r] := by
  rw [validEntries, List.foldl_append]
  rfl

theorem validEntries_sublist (referrers : List Descriptor) : (validEntries referrers).Sublist referrers := by
  induction referrers using List.reverseRecOn with
  | nil => exact .refl _
  | append_singleton seen r ih =>
    rw [validEntries_concat]
    split
    · exact ih.trans (List.sublist_append_left seen [r])
    · exact ih.append_right [r]

theorem collected (referrers : List Descriptor) : Collected referrers (referrers.foldl .collect {}) := by
  induction referrers using List.reverseRecOn with
  | nil => exact ⟨.empty, rfl, iff_of_true rfl rfl⟩
  | append_singleton seen r ih =>
    obtain ⟨valid, skipped, taken⟩ := collect_valid ih.valid r
    rw [ih.entries] at skipped taken
    rw [List.foldl_append]
    refine ⟨valid, ?_, ?_⟩ <;> rw [validEntries_concat]
    · split
      · rename_i bad
        exact (skipped bad).1
      · rename_i good
        exact (taken good).1
    · split
      · rename_i bad
        refine iff_of_false (fun none => ?_) fun same => ?_
        · exact Bool.false_ne_true (none.symm.trans (skipped bad).2)
        · have shorter := (validEntries_sublist seen).length_le
          rw [same, List.length_append, List.length_singleton] at shorter
          omega
      · rename_i good
        rw [List.append_left_inj, ← ih.required]
        exact (taken good).2 ▸ Iff.rfl

theorem mem_validEntries (referrers : List Descriptor) (k : Key) :
    k ∈ (validEntries referrers).map fromOCI ↔ k ∈ referrers.map fromOCI ∧ k ≠ fromOCI {} := by
  induction referrers using List.reverseRecOn with
  | nil => simp [validEntries]
  | append_singleton seen r ih =>
    rw [validEntries_concat, List.map_append, List.mem_append, List.map_singleton, List.mem_singleton]
    split
    · rename_i bad
      rw [ih]
      refine ⟨fun ⟨old, proper⟩ => ⟨.inl old, proper⟩, ?_⟩
      rintro ⟨old | rfl, proper⟩
      · exact ⟨old, proper⟩
      · exact ih.mp (bad.resolve_left proper)
    · rename_i good
      rw [List.map_append, List.mem_append, List.map_singleton, List.mem_singleton, ih, or_and_right]
      refine or_congr_right (iff_self_and.mpr ?_)
      rintro rfl
      exact (not_or.mp good).1

end Refinement

end OrasGo.Registry
