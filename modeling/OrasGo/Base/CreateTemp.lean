import Mathlib.Data.Finmap

/-! Temporary files in a directory: `os.CreateTemp`, and what making and removing one does. -/

namespace TempFile
variable {ε V : Type}

/-- `os.CreateTemp`: the first of the names that is not taken. -/
def create (failure : Option ε) (taken : ε) (start : String) (randoms : List String)
    (files : Finmap fun _ : String => V) : Except ε String :=
  match failure with
  | some err => .error err
  | none =>
    match (randoms.map (start ++ ·)).find? (· ∉ files) with
    | some name => .ok name
    | none => .error taken

variable {files : Finmap fun _ : String => V} {name : String}

theorem create_ok {failure : Option ε} {taken : ε} {start : String} {randoms : List String} (proper : start ≠ "")
    (made : create failure taken start randoms files = .ok name) : name ∉ files ∧ name ≠ "" := by
  rw [create.eq_def] at made
  split at made
  · cases made
  · split at made
    · rename_i first
      cases made
      obtain ⟨random, -, rfl⟩ := List.mem_map.mp (List.mem_of_find?_eq_some first)
      refine ⟨by simpa using List.find?_some first, fun empty => proper ?_⟩
      exact (String.append_eq_empty_iff.mp empty).1
    · cases made

theorem erase_insert (new : name ∉ files) (content : V) : (files.insert name content).erase name = files := by
  refine Finmap.ext_lookup fun other => ?_
  by_cases same : other = name
  · rw [same, Finmap.lookup_erase, Finmap.lookup_eq_none.mpr new]
  · rw [Finmap.lookup_erase_ne same, Finmap.lookup_insert_of_ne _ same]

theorem insert_ne (new : name ∉ files) (content : V) : files.insert name content ≠ files := by
  intro same
  rw [← same] at new
  exact new (Finmap.mem_insert.mpr (.inl rfl))

end TempFile
