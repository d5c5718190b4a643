import Mathlib.Computability.RegularExpressions

/-! The letters that occur in the words of a regular expression. -/

namespace Regular
variable {α : Type}

/-- One of these letters. -/
def anyOf (letters : List α) : RegularExpression α :=
  letters.foldr (fun a rest => .char a + rest) 0

/-- The expression once or more often. -/
def plus (P : RegularExpression α) : RegularExpression α := P * P.star

/-- The letters that are written in the expression. -/
def letters : RegularExpression α → List α
  | .zero => []
  | .epsilon => []
  | .char a => [a]
  | .plus P Q => letters P ++ letters Q
  | .comp P Q => letters P ++ letters Q
  | .star P => letters P

theorem mem_letters {P : RegularExpression α} {word : List α} (matched : word ∈ P.matches') :
    ∀ a ∈ word, a ∈ letters P := by
  induction P generalizing word with
  | zero => cases matched
  | epsilon =>
    cases matched
    simp
  | char a =>
    cases matched
    simp [letters]
  | plus P Q ihP ihQ =>
    intro a member
    rcases matched with left | right
    · exact List.mem_append_left _ (ihP left a member)
    · exact List.mem_append_right _ (ihQ right a member)
  | comp P Q ihP ihQ =>
    obtain ⟨x, left, y, right, rfl⟩ := matched
    intro a member
    rcases List.mem_append.mp member with first | second
    · exact List.mem_append_left _ (ihP left a first)
    · exact List.mem_append_right _ (ihQ right a second)
  | star P ih =>
    obtain ⟨words, rfl, all⟩ := matched
    intro a member
    obtain ⟨word, listed, inside⟩ := List.mem_flatten.mp member
    exact ih (all word listed) a inside

end Regular
