import OrasGo.Content
import OrasGo.Registry.ReferrerChanges

/-! What `applyReferrerChanges` returns, and in which order. -/

namespace OrasGo.Registry
open Slots
variable {keys : Finset Key} {changes : List ReferrerChange} {k : Key}

/-- One of the changes removes the key. -/
def Removes (changes : List ReferrerChange) (k : Key) : Prop :=
  ∃ change ∈ changes, change.operation = .remove ∧ fromOCI change.referrer = k

instance (changes : List ReferrerChange) (k : Key) : Decidable (Removes changes k) :=
  inferInstanceAs (Decidable (∃ change ∈ changes, _))

/-- The change at this place adds the key, which is not there at that time. -/
def EffectiveAdd (keys : Finset Key) (changes : List ReferrerChange) (i : Nat) (k : Key) : Prop :=
  (∃ change, changes[i]? = some change ∧ change.operation = .add ∧ fromOCI change.referrer = k) ∧
    k ∉ (changes.take i).foldl changeKeys keys

def LastEffectiveAdd (keys : Finset Key) (changes : List ReferrerChange) (i : Nat) (k : Key) : Prop :=
  EffectiveAdd keys changes i k ∧ ∀ j, i < j → ¬ EffectiveAdd keys changes j k

/-- The referrers after the changes. Those that were never removed come first, as
they were; then those that the changes have added, by their last addition. -/
structure Applied (referrers : List Descriptor) (changes : List ReferrerChange) (result : List Descriptor) : Prop where
  distinct : (result.map fromOCI).Nodup
  nonempty : ∀ r ∈ result, fromOCI r ≠ fromOCI {}
  keys : (result.map fromOCI).toFinset = changes.foldl changeKeys ((validEntries referrers).map fromOCI).toFinset
  order : ∃ added : List Nat, added.Pairwise (· < ·) ∧
    (∀ i, i ∈ added ↔ ∃ k ∈ result.map fromOCI,
      LastEffectiveAdd ((validEntries referrers).map fromOCI).toFinset changes i k) ∧
    result = (validEntries referrers).filter (fun r => ¬ Removes changes (fromOCI r)) ++
      added.filterMap fun i => changes[i]?.map ReferrerChange.referrer

section Keys

theorem removes_cons {change : ReferrerChange} : Removes (change :: changes) k ↔
    (change.operation = .remove ∧ fromOCI change.referrer = k) ∨ Removes changes k := by
  simp only [Removes, List.mem_cons, exists_eq_or_imp]

theorem map_changeEntries (entries : List Descriptor) (change : ReferrerChange) :
    ((changeEntries entries change).map fromOCI).toFinset = changeKeys (entries.map fromOCI).toFinset change := by
  rw [changeEntries, changeKeys]
  cases change.operation with
  | add =>
    dsimp only
    split
    · rename_i known
      exact (Finset.insert_eq_of_mem (List.mem_toFinset.mpr known)).symm
    · rw [List.map_append, List.toFinset_append, Finset.union_comm]
      rfl
  | remove =>
    ext k
    simp only [List.mem_toFinset, List.mem_map, List.mem_filter, decide_eq_true_eq, Finset.mem_erase]
    constructor
    · rintro ⟨r, ⟨member, other⟩, rfl⟩
      exact ⟨other, r, member, rfl⟩
    · rintro ⟨other, r, member, rfl⟩
      exact ⟨r, ⟨member, other⟩, rfl⟩

theorem map_changesEntries (changes : List ReferrerChange) (entries : List Descriptor) :
    ((changes.foldl changeEntries entries).map fromOCI).toFinset =
      changes.foldl changeKeys (entries.map fromOCI).toFinset := by
  induction changes generalizing entries with
  | nil => rfl
  | cons change rest ih => rw [List.foldl_cons, ih, map_changeEntries, List.foldl_cons]

theorem mem_changeKeys_of_not_removes (member : k ∈ keys) (kept : ¬ Removes changes k) :
    k ∈ changes.foldl changeKeys keys := by
  induction changes generalizing keys with
  | nil => exact member
  | cons change rest ih =>
    rw [removes_cons, not_or] at kept
    refine ih ?_ kept.2
    rw [changeKeys]
    cases op : change.operation with
    | add => exact Finset.mem_insert_of_mem member
    | remove => exact Finset.mem_erase.mpr ⟨fun same => kept.1 ⟨op, same.symm⟩, member⟩

theorem effectiveAdd_zero {change : ReferrerChange} : EffectiveAdd keys (change :: changes) 0 k ↔
    change.operation = .add ∧ fromOCI change.referrer = k ∧ k ∉ keys := by
  simp [EffectiveAdd, and_assoc]

theorem effectiveAdd_succ {change : ReferrerChange} {i : Nat} :
    EffectiveAdd keys (change :: changes) (i + 1) k ↔ EffectiveAdd (changeKeys keys change) changes i k := by
  simp only [EffectiveAdd, List.getElem?_cons_succ, List.take_succ_cons, List.foldl_cons]

theorem lastEffectiveAdd_succ {change : ReferrerChange} {i : Nat} :
    LastEffectiveAdd keys (change :: changes) (i + 1) k ↔ LastEffectiveAdd (changeKeys keys change) changes i k := by
  rw [LastEffectiveAdd, LastEffectiveAdd, effectiveAdd_succ]
  refine and_congr_right fun _ => ⟨fun last j later => ?_, fun last j later => ?_⟩
  · rw [← effectiveAdd_succ]
    exact last (j + 1) (Nat.succ_lt_succ later)
  · obtain ⟨j, rfl⟩ := Nat.exists_eq_succ_of_ne_zero (Nat.ne_zero_of_lt later)
    rw [Nat.succ_eq_add_one, effectiveAdd_succ]
    exact last j (Nat.lt_of_succ_lt_succ later)

theorem exists_effectiveAdd (absent : k ∉ keys) (present : k ∈ changes.foldl changeKeys keys) :
    ∃ i, EffectiveAdd keys changes i k := by
  induction changes generalizing keys with
  | nil => exact absurd present absent
  | cons change rest ih =>
    by_cases next : k ∈ changeKeys keys change
    · refine ⟨0, effectiveAdd_zero.mpr ?_⟩
      rw [changeKeys] at next
      cases op : change.operation with
      | add =>
        rw [op] at next
        exact ⟨rfl, ((Finset.mem_insert.mp next).resolve_right absent).symm, absent⟩
      | remove =>
        rw [op] at next
        exact absurd (Finset.mem_of_mem_erase next) absent
    · obtain ⟨i, found⟩ := ih next present
      exact ⟨i + 1, effectiveAdd_succ.mpr found⟩

theorem exists_effectiveAdd_of_removes (removed : Removes changes k) (present : k ∈ changes.foldl changeKeys keys) :
    ∃ i, EffectiveAdd keys changes i k := by
  induction changes generalizing keys with
  | nil =>
    obtain ⟨_, member, _⟩ := removed
    cases member
  | cons change rest ih =>
    rcases removes_cons.mp removed with ⟨op, rfl⟩ | later
    · have gone : fromOCI change.referrer ∉ changeKeys keys change := by
        rw [changeKeys, op]
        exact Finset.notMem_erase _ _
      obtain ⟨i, found⟩ := exists_effectiveAdd gone present
      exact ⟨i + 1, effectiveAdd_succ.mpr found⟩
    · obtain ⟨i, found⟩ := ih later present
      exact ⟨i + 1, effectiveAdd_succ.mpr found⟩

/-- The first change is the last addition of its key if the key is new and not removed later. -/
theorem lastEffectiveAdd_zero {change : ReferrerChange} (op : change.operation = .add)
    (fresh : fromOCI change.referrer ∉ keys) :
    (∃ k ∈ (change :: changes).foldl changeKeys keys, LastEffectiveAdd keys (change :: changes) 0 k) ↔
      ¬ Removes changes (fromOCI change.referrer) := by
  have now : fromOCI change.referrer ∈ changeKeys keys change := by
    rw [changeKeys, op]
    exact Finset.mem_insert_self _ _
  constructor
  · rintro ⟨k, present, effective, last⟩ removed
    obtain ⟨_, rfl, _⟩ := effectiveAdd_zero.mp effective
    obtain ⟨i, later⟩ := exists_effectiveAdd_of_removes removed present
    exact last (i + 1) i.succ_pos (effectiveAdd_succ.mpr later)
  · intro kept
    have present : fromOCI change.referrer ∈ changes.foldl changeKeys (changeKeys keys change) :=
      mem_changeKeys_of_not_removes now kept
    refine ⟨_, present, effectiveAdd_zero.mpr ⟨op, rfl, fresh⟩, fun j later effective => ?_⟩
    obtain ⟨j, rfl⟩ := Nat.exists_eq_succ_of_ne_zero (Nat.ne_zero_of_lt later)
    have absent := (effectiveAdd_succ.mp effective).2
    refine absent (mem_changeKeys_of_not_removes now ?_)
    rintro ⟨c, member, removes⟩
    exact kept ⟨c, List.mem_of_mem_take member, removes⟩

end Keys

/-- The additions that count, with the entries they leave. -/
def Added (keys : Finset Key) (changes : List ReferrerChange) (added : List Nat) : Prop :=
  added.Pairwise (· < ·) ∧ ∀ i, i ∈ added ↔ ∃ k ∈ changes.foldl changeKeys keys, LastEffectiveAdd keys changes i k

section

variable {change : ReferrerChange} {added : List Nat} (rest : Added (changeKeys keys change) changes added)
include rest

theorem Added.later :
    (added.map Nat.succ).Pairwise (· < ·) ∧ ∀ i, i + 1 ∈ added.map Nat.succ ↔
      ∃ k ∈ (change :: changes).foldl changeKeys keys, LastEffectiveAdd keys (change :: changes) (i + 1) k := by
  refine ⟨List.pairwise_map.mpr (rest.1.imp Nat.succ_lt_succ), fun i => ?_⟩
  rw [← Nat.succ_eq_add_one, List.mem_map_of_injective Nat.succ_injective, rest.2]
  simp only [Nat.succ_eq_add_one, lastEffectiveAdd_succ, List.foldl_cons]

theorem Added.skip
    (not : ¬ ∃ k ∈ (change :: changes).foldl changeKeys keys, LastEffectiveAdd keys (change :: changes) 0 k) :
    Added keys (change :: changes) (added.map Nat.succ) := by
  refine ⟨rest.later.1, fun i => ?_⟩
  cases i with
  | zero => exact iff_of_false (by simp) not
  | succ i => exact rest.later.2 i

theorem Added.first
    (counts : ∃ k ∈ (change :: changes).foldl changeKeys keys, LastEffectiveAdd keys (change :: changes) 0 k) :
    Added keys (change :: changes) (0 :: added.map Nat.succ) := by
  refine ⟨List.pairwise_cons.mpr ⟨?_, rest.later.1⟩, fun i => ?_⟩
  · intro i member
    obtain ⟨j, _, rfl⟩ := List.mem_map.mp member
    exact j.succ_pos
  · cases i with
    | zero => exact iff_of_true List.mem_cons_self counts
    | succ i =>
      rw [List.mem_cons, or_iff_right (Nat.succ_ne_zero i)]
      exact rest.later.2 i

end

theorem filterMap_succ (change : ReferrerChange) (changes : List ReferrerChange) (added : List Nat) :
    ((added.map Nat.succ).filterMap fun i => (change :: changes)[i]?.map ReferrerChange.referrer) =
      added.filterMap fun i => changes[i]?.map ReferrerChange.referrer := by
  rw [List.filterMap_map]
  rfl

/-- The changes leave what they do not remove, and put behind it what they add. -/
theorem changesEntries_order (changes : List ReferrerChange) (entries : List Descriptor) :
    ∃ added, Added (entries.map fromOCI).toFinset changes added ∧
      changes.foldl changeEntries entries =
        entries.filter (fun r => ¬ Removes changes (fromOCI r)) ++
          added.filterMap fun i => changes[i]?.map ReferrerChange.referrer := by
  induction changes generalizing entries with
  | nil =>
    refine ⟨[], ⟨.nil, fun i => iff_of_false (by simp) ?_⟩, ?_⟩
    · rintro ⟨k, _, ⟨⟨_, found, _⟩, _⟩, _⟩
      cases found
    · simp [Removes]
  | cons change rest ih =>
    obtain ⟨added, here, same⟩ := ih (changeEntries entries change)
    rw [map_changeEntries] at here
    rw [List.foldl_cons, same]
    cases op : change.operation with
    | remove =>
      refine ⟨_, here.skip ?_, ?_⟩
      · rintro ⟨k, _, effective, _⟩
        rw [effectiveAdd_zero, op] at effective
        cases effective.1
      · rw [filterMap_succ, changeEntries, op, List.filter_filter]
        congr 1
        refine List.filter_congr fun r _ => ?_
        rw [← Bool.decide_and, decide_eq_decide, removes_cons, not_or, and_comm, op]
        refine and_congr_left fun _ => not_congr ?_
        exact ⟨fun same => ⟨rfl, same.symm⟩, fun same => same.2.symm⟩
    | add =>
      have unchanged (r : Descriptor) : Removes (change :: rest) (fromOCI r) ↔ Removes rest (fromOCI r) := by
        simp [removes_cons, op]
      simp only [unchanged]
      by_cases known : fromOCI change.referrer ∈ entries.map fromOCI
      · refine ⟨_, here.skip ?_, ?_⟩
        · rintro ⟨k, _, effective, _⟩
          obtain ⟨_, rfl, absent⟩ := effectiveAdd_zero.mp effective
          exact absent (List.mem_toFinset.mpr known)
        · rw [filterMap_succ, changeEntries, op]
          simp only [if_pos known]
      · have first := @lastEffectiveAdd_zero _ rest _ op fun member => known (List.mem_toFinset.mp member)
        have appended : changeEntries entries change = entries ++ [change.referrer] := by
          rw [changeEntries, op]
          exact if_neg known
        rw [appended, List.filter_append, List.filter_singleton]
        by_cases removed : Removes rest (fromOCI change.referrer)
        · refine ⟨_, here.skip fun counts => first.mp counts removed, ?_⟩
          simp [removed]
        · refine ⟨_, here.first (first.mpr removed), ?_⟩
          simp [removed]

theorem validEntries_nodup (referrers : List Descriptor) : ((validEntries referrers).map fromOCI).Nodup := by
  have collected := collected referrers
  rw [← collected.entries]
  exact collected.valid.nodup

theorem validEntries_eq_self_iff {referrers : List Descriptor} : validEntries referrers = referrers ↔ Clean referrers := by
  constructor
  · intro same
    refine ⟨fun r member => ?_, same ▸ validEntries_nodup referrers⟩
    have listed : fromOCI r ∈ (validEntries referrers).map fromOCI := by
      rw [same]
      exact List.mem_map_of_mem member
    exact ((mem_validEntries referrers _).mp listed).2
  · intro clean
    induction referrers using List.reverseRecOn with
    | nil => rfl
    | append_singleton seen r ih =>
      obtain ⟨nonempty, nodup⟩ := clean
      rw [List.map_append, List.nodup_append] at nodup
      have here : r ∈ seen ++ [r] := List.mem_append_right _ (List.mem_singleton.mpr rfl)
      have fresh : fromOCI r ∉ seen.map fromOCI := fun member =>
        nodup.2.2 _ member _ (List.mem_singleton.mpr rfl) rfl
      rw [validEntries_concat, ih ⟨fun d member => nonempty d (List.mem_append_left _ member), nodup.1⟩,
        if_neg (not_or.mpr ⟨nonempty r here, fresh⟩)]

section Whole
variable {referrers : List Descriptor} (proper : ∀ change ∈ changes, fromOCI change.referrer ≠ fromOCI {})
include proper

theorem positions_keys : (changes.foldl applyReferrerChange
      (referrers.foldl ReferrerUpdate.collect {}).table).positions.keys =
    changes.foldl changeKeys ((validEntries referrers).map fromOCI).toFinset := by
  obtain ⟨valid, same⟩ := applyChanges_valid changes (collected referrers).valid proper
  rw [(collected referrers).entries] at same
  rw [← map_changesEntries, ← same]
  ext k
  rw [Finmap.mem_keys, List.mem_toFinset, valid.mem_positions, entries]

theorem skips_iff :
    (!(referrers.foldl ReferrerUpdate.collect {}).updateRequired &&
      decide ((changes.foldl applyReferrerChange
        (referrers.foldl ReferrerUpdate.collect {}).table).positions.keys.card = referrers.length) &&
      !referrers.any fun r => fromOCI r ∉ (changes.foldl applyReferrerChange
        (referrers.foldl ReferrerUpdate.collect {}).table).positions) = true ↔
    Clean referrers ∧ changes.foldl changeKeys (referrers.map fromOCI).toFinset = (referrers.map fromOCI).toFinset := by
  simp only [Bool.and_eq_true, Bool.not_eq_true', decide_eq_true_eq, List.any_eq_false, Decidable.not_not,
    ← Finmap.mem_keys, positions_keys proper, (collected referrers).required, validEntries_eq_self_iff, and_assoc]
  refine and_congr_right fun clean => ?_
  rw [validEntries_eq_self_iff.mpr clean]
  have length : (referrers.map fromOCI).toFinset.card = referrers.length := by
    rw [List.toFinset_card_of_nodup clean.2, List.length_map]
  constructor
  · rintro ⟨card, all⟩
    refine (Finset.eq_of_subset_of_card_le (fun k member => ?_) (by omega)).symm
    obtain ⟨r, listed, rfl⟩ := List.mem_map.mp (List.mem_toFinset.mp member)
    exact all r listed
  · intro same
    rw [same]
    exact ⟨length, fun r listed => List.mem_toFinset.mpr (List.mem_map_of_mem listed)⟩

theorem compacted : removeEmptyDescriptors
      (changes.foldl applyReferrerChange (referrers.foldl ReferrerUpdate.collect {}).table).items
      (changes.foldl applyReferrerChange (referrers.foldl ReferrerUpdate.collect {}).table).positions.keys.card =
    changes.foldl changeEntries (validEntries referrers) := by
  obtain ⟨valid, same⟩ := applyChanges_valid changes (collected referrers).valid proper
  rw [(collected referrers).entries] at same
  rw [removeEmptyDescriptors_eq _ _ valid.card_positions.ge, ← same]
  rfl

theorem applied : Applied referrers changes (changes.foldl changeEntries (validEntries referrers)) := by
  obtain ⟨valid, same⟩ := applyChanges_valid changes (collected referrers).valid proper
  rw [(collected referrers).entries] at same
  obtain ⟨added, ⟨sorted, which⟩, order⟩ := changesEntries_order changes (validEntries referrers)
  refine ⟨same ▸ valid.nodup, fun r member => ?_, map_changesEntries changes _, added, sorted, fun i => ?_, order⟩
  · rw [← same] at member
    exact (Table.mem_live.mp member).2
  · rw [which, ← map_changesEntries]
    simp only [List.mem_toFinset]

end Whole

/-- What `applyReferrerChanges` returns. -/
theorem applyReferrerChanges_exact (referrers : List Descriptor) (changes : List ReferrerChange)
    (proper : ∀ change ∈ changes, fromOCI change.referrer ≠ fromOCI {}) :
    (applyReferrerChanges referrers changes = .error errNoReferrerUpdate ↔
      Clean referrers ∧ changes.foldl changeKeys (referrers.map fromOCI).toFinset = (referrers.map fromOCI).toFinset) ∧
    (applyReferrerChanges referrers changes ≠ .error errNoReferrerUpdate →
      ∃ result, applyReferrerChanges referrers changes = .ok result ∧ Applied referrers changes result) ∧
    (validEntries referrers).Sublist referrers ∧
    ∀ k, k ∈ (validEntries referrers).map fromOCI ↔ k ∈ referrers.map fromOCI ∧ k ≠ fromOCI {} := by
  have skips := @skips_iff changes referrers proper
  rw [applyReferrerChanges]
  refine ⟨?_, fun updated => ?_, validEntries_sublist referrers, mem_validEntries referrers⟩
  · rw [← skips]
    split
    · rename_i condition
      exact iff_of_true rfl condition
    · rename_i condition
      exact iff_of_false (fun same => by cases same) condition
  · split at updated
    · exact absurd rfl updated
    · rename_i condition
      rw [if_neg condition, compacted proper]
      exact ⟨_, rfl, applied proper⟩

namespace Reordered
open Sample

/-- An index with an empty entry and one that is listed twice. -/
def referrers : List Descriptor := [image, {}, artifact, image]

/-- The first is removed and added again, behind another one. -/
def operations : List ReferrerChange := [⟨image, .remove⟩, ⟨referrer, .add⟩, ⟨image, .add⟩]

theorem image_last : (∀ change ∈ operations, fromOCI change.referrer ≠ fromOCI {}) ∧
    (applyReferrerChanges referrers operations).toOption = some [artifact, referrer, image] := by
  decide +kernel

end Reordered

/-- The image is the last in the result. -/
theorem applyReferrerChanges_exact_reordered : ∃ result,
    applyReferrerChanges Reordered.referrers Reordered.operations = .ok result ∧
    Applied Reordered.referrers Reordered.operations result ∧
    result = [Sample.artifact, Sample.referrer, Sample.image] := by
  obtain ⟨proper, value⟩ := Reordered.image_last
  have exact := (applyReferrerChanges_exact Reordered.referrers Reordered.operations proper).2.1
  obtain ⟨result, found, applied⟩ := exact fun skipped => by simp [skipped, Except.toOption] at value
  refine ⟨result, found, applied, ?_⟩
  rw [found] at value
  exact Option.some.inj value

end OrasGo.Registry
