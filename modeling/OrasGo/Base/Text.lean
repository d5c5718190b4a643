import Mathlib.Data.List.TakeWhile

/-! Cutting a text at a character. -/

namespace Text
variable {sep : Char} {s a b : String}

/-- The text before the first separator and the text after it. -/
def cut (sep : Char) (s : String) : Option (String × String) :=
  if sep ∈ s.toList then
    some (String.ofList (s.toList.takeWhile (· != sep)), String.ofList ((s.toList.dropWhile (· != sep)).tail))
  else none

theorem cut_eq_none : cut sep s = none ↔ sep ∉ s.toList := by
  simp [cut]

theorem cut_join (outside : sep ∉ a.toList) : cut sep (a ++ String.singleton sep ++ b) = some (a, b) := by
  have joined : (a ++ String.singleton sep ++ b).toList = a.toList ++ sep :: b.toList := by simp
  have others : ∀ c ∈ a.toList, (c != sep) = true := by
    intro c member
    simp only [bne_iff_ne]
    rintro rfl
    exact outside member
  rw [cut, joined, if_pos (List.mem_append_right _ List.mem_cons_self), List.takeWhile_append_of_pos others,
    List.dropWhile_append_of_pos others]
  simp

theorem dropWhile_of_mem {l : List Char} (member : sep ∈ l) :
    l.dropWhile (· != sep) = sep :: (l.dropWhile (· != sep)).tail := by
  induction l with
  | nil => cases member
  | cons c rest ih =>
    by_cases same : c = sep
    · simp [same]
    · have later := (List.mem_cons.mp member).resolve_left fun eq => same eq.symm
      rw [List.dropWhile_cons_of_pos (by simpa using same)]
      exact ih later

theorem eq_join_of_cut (found : cut sep s = some (a, b)) :
    s = a ++ String.singleton sep ++ b ∧ sep ∉ a.toList := by
  rw [cut] at found
  split at found
  · rename_i member
    simp only [Option.some.injEq, Prod.mk.injEq] at found
    obtain ⟨rfl, rfl⟩ := found
    refine ⟨?_, fun inside => ?_⟩
    · rw [← String.toList_inj]
      simp only [String.toList_append, String.toList_ofList, String.toList_singleton, List.append_assoc,
        List.singleton_append, ← dropWhile_of_mem member, List.takeWhile_append_dropWhile]
    · rw [String.toList_ofList] at inside
      simpa using List.mem_takeWhile_imp inside
  · cases found

end Text
