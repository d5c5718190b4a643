import Mathlib.Data.List.Basic

/-! Cutting a word at a letter. -/

namespace Words
variable {α : Type} [DecidableEq α] {x : α} {w a b : List α}

/-- The parts of a word before and after the first `x`. -/
def cutFirst (x : α) : List α → Option (List α × List α)
  | [] => none
  | y :: w => if y = x then some ([], w) else (cutFirst x w).map fun parts => (y :: parts.1, parts.2)

/-- The parts of a word before and after the last `x`. -/
def cutLast (x : α) : List α → Option (List α × List α)
  | [] => none
  | y :: w =>
    match cutLast x w with
    | some parts => some (y :: parts.1, parts.2)
    | none => if y = x then some ([], w) else none

theorem cutFirst_eq_some : cutFirst x w = some (a, b) ↔ w = a ++ x :: b ∧ x ∉ a := by
  induction w generalizing a with
  | nil => simp [cutFirst]
  | cons y w ih =>
    rw [cutFirst]
    split
    next same =>
      subst same
      constructor
      · intro found
        cases found
        simp
      · rintro ⟨joined, outside⟩
        cases a with
        | nil => cases joined; rfl
        | cons z a => cases joined; simp at outside
    next other =>
      rw [Option.map_eq_some_iff]
      constructor
      · rintro ⟨⟨a', b'⟩, found, same⟩
        cases same
        obtain ⟨rfl, outside⟩ := ih.mp found
        exact ⟨rfl, fun inside => (List.mem_cons.mp inside).elim (Ne.symm other) outside⟩
      · rintro ⟨joined, outside⟩
        cases a with
        | nil => cases joined; exact absurd rfl other
        | cons z a =>
          cases joined
          exact ⟨(a, b), ih.mpr ⟨rfl, fun inside => outside (List.mem_cons_of_mem _ inside)⟩, rfl⟩

theorem cutLast_eq_none : cutLast x w = none ↔ x ∉ w := by
  induction w with
  | nil => simp [cutLast]
  | cons y w ih =>
    rw [cutLast]
    cases found : cutLast x w with
    | some parts =>
      have inside : x ∈ w := by
        by_contra outside
        rw [ih.mpr outside] at found
        cases found
      simp [inside]
    | none =>
      have outside := ih.mp found
      by_cases same : y = x
      · simp [same]
      · simp [same, Ne.symm same, outside]

theorem cutLast_eq_some : cutLast x w = some (a, b) ↔ w = a ++ x :: b ∧ x ∉ b := by
  induction w generalizing a b with
  | nil => simp [cutLast]
  | cons y w ih =>
    rw [cutLast]
    cases found : cutLast x w with
    | some parts =>
      obtain ⟨a', b'⟩ := parts
      obtain ⟨here, outside⟩ := ih.mp found
      constructor
      · intro same
        cases same
        exact ⟨congrArg (y :: ·) here, outside⟩
      · rintro ⟨joined, last⟩
        cases a with
        | nil =>
          cases joined
          exact absurd (here ▸ by simp) last
        | cons z a =>
          cases joined
          cases found.symm.trans (ih.mpr ⟨rfl, last⟩)
          rfl
    | none =>
      have absent := cutLast_eq_none.mp found
      constructor
      · intro cut
        by_cases same : y = x
        · simp only [same, if_true] at cut
          cases cut
          exact ⟨by rw [same]; rfl, absent⟩
        · simp only [same, if_false] at cut
          cases cut
      · rintro ⟨joined, last⟩
        cases a with
        | nil =>
          cases joined
          simp
        | cons z a =>
          cases joined
          exact absurd (by simp) absent

theorem cutFirst_eq_none : cutFirst x w = none ↔ x ∉ w := by
  induction w with
  | nil => simp [cutFirst]
  | cons y w ih =>
    rw [cutFirst]
    by_cases same : y = x
    · simp [same]
    · simp [same, Ne.symm same, ih]

theorem mem_splitOn (found : a ∈ w.splitOn x) : x ∉ a ∧ ∀ y ∈ a, y ∈ w := by
  induction w generalizing a with
  | nil =>
    rw [List.splitOn_nil, List.mem_singleton] at found
    simp [found]
  | cons y w ih =>
    rw [List.splitOn_cons_eq_if_modifyHead] at found
    split at found
    next same =>
      rcases List.mem_cons.mp found with rfl | later
      · simp
      · exact ⟨(ih later).1, fun z member => List.mem_cons_of_mem _ ((ih later).2 z member)⟩
    next other =>
      cases parts : w.splitOn x with
      | nil => exact absurd parts (List.splitOn_ne_nil x w)
      | cons first rest =>
        rw [parts, List.modifyHead_cons] at found
        rcases List.mem_cons.mp found with rfl | later
        · obtain ⟨outside, inside⟩ := @ih first (by rw [parts]; exact List.mem_cons_self)
          refine ⟨fun impossible => ?_, fun z member => ?_⟩
          · rcases List.mem_cons.mp impossible with same | impossible
            · exact other (by simp [same])
            · exact outside impossible
          · rcases List.mem_cons.mp member with rfl | member
            · exact List.mem_cons_self
            · exact List.mem_cons_of_mem _ (inside z member)
        · obtain ⟨outside, inside⟩ := @ih a (by rw [parts]; exact List.mem_cons_of_mem _ later)
          exact ⟨outside, fun z member => List.mem_cons_of_mem _ (inside z member)⟩

omit [DecidableEq α] in
theorem mem_intercalate {y : α} {words : List (List α)} (member : y ∈ [x].intercalate words) :
    y = x ∨ ∃ word ∈ words, y ∈ word := by
  induction words with
  | nil => simp at member
  | cons word rest ih =>
    cases rest with
    | nil => exact .inr ⟨word, List.mem_cons_self, by simpa using member⟩
    | cons next rest =>
      rw [List.intercalate_cons_cons, List.mem_append, List.mem_append] at member
      rcases member with (inside | separator) | later
      · exact .inr ⟨word, List.mem_cons_self, inside⟩
      · exact .inl (List.mem_singleton.mp separator)
      · rcases ih later with same | ⟨word', member', inside⟩
        · exact .inl same
        · exact .inr ⟨word', List.mem_cons_of_mem _ member', inside⟩

end Words
