import Mathlib.Data.Char
import Mathlib.Data.Finset.Sort
import Mathlib.Data.List.Destutter
import Mathlib.Data.List.Lex
import OrasGo.Base.Enumeration
import OrasGo.Base.Words

/-! The scopes of `registry/remote/auth`: `CleanScopes` and `cleanActions`. -/

namespace OrasGo.Auth
open Iteration Words

/-- A string of Go, byte by byte. A character stands for the byte with its number, so that the
order is the order of the bytes. -/
abbrev Str := List Char

def wildcard : Str := ['*']

/-- The loop of `cleanActions` over the indices that are left: it writes each new action behind
the last one it has kept, at `n`. `none` when it meets the wildcard. -/
def compact (actions : List Str) (n : Nat) : List Nat → Option (List Str × Nat)
  | [] => some (actions, n)
  | i :: rest =>
    if actions[i]? = some wildcard then none
    else if actions[i]? ≠ actions[n]? then
      compact (if n + 1 ≠ i then actions.set (n + 1) (actions.getD i []) else actions) (n + 1) rest
    else compact actions n rest

/-- `cleanActions`. -/
def cleanActions : List Str → List Str
  | [] => []
  | [action] => if action = [] then [] else [action]
  | actions =>
    match compact (actions.insertionSort (· ≤ ·)) 0 (List.range actions.length) with
    | none => [wildcard]
    | some (kept, n) =>
      if kept.head? = some [] then
        if n + 1 = 1 then [] else (kept.take (n + 1)).drop 1
      else kept.take (n + 1)

/-- The scopes in the loop of `CleanScopes`: those that are kept as they are, and the actions
by resource type and name. -/
structure Merged where
  result : List Str := []
  resourceTypes : Finmap fun _ : Str => Finmap fun _ : Str => Finset Str := ∅

/-- The actions that are not empty go into the set. -/
def addActions (actionSet : Finset Str) (actions : List Str) : Finset Str :=
  actions.foldl (fun set action => if action ≠ [] then insert action set else set) actionSet

/-- One round of the loop of `CleanScopes` over the scopes. -/
def Merged.add (m : Merged) (scope : Str) : Merged :=
  match cutFirst ':' scope with
  | none => { m with result := m.result ++ [scope] }
  | some (resourceType, rest) =>
    match cutLast ':' rest with
    | none => { m with result := m.result ++ [scope] }
    | some (resourceName, actions) =>
      if actions = [] then m
      else
        let namedActions := (m.resourceTypes.lookup resourceType).getD ∅
        let actionSet := (namedActions.lookup resourceName).getD ∅
        let namedActions := namedActions.insert resourceName (addActions actionSet (actions.splitOn ','))
        { m with resourceTypes := m.resourceTypes.insert resourceType namedActions }

/-- The orders in which the maps of `CleanScopes` are visited. -/
structure MapOrders where
  types : Enumeration Str
  names : Str → Enumeration Str
  actions : Str → Str → Enumeration Str

/-- The actions of a set up to the wildcard. -/
def collectActions (actions : List Str) : List Str → List Str
  | [] => actions
  | action :: rest => if action = wildcard then [wildcard] else collectActions (actions ++ [action]) rest

/-- The text of a scope. -/
def scopeText (resourceType resourceName : Str) (actions : List Str) : Str :=
  resourceType ++ ':' :: resourceName ++ ':' :: [','].intercalate actions

/-- The scopes of one resource type. -/
def scopesOf (order : MapOrders) (resourceType : Str) (namedActions : Finmap fun _ : Str => Finset Str) : List Str :=
  ((order.names resourceType).entries namedActions).filterMap fun (resourceName, actionSet) =>
    if actionSet = ∅ then none
    else
      let actions := collectActions [] ((order.actions resourceType resourceName).list actionSet)
      some (scopeText resourceType resourceName (actions.insertionSort (· ≤ ·)))

/-- The scopes of all resource types. -/
def Merged.scopes (order : MapOrders) (m : Merged) : List Str :=
  (order.types.entries m.resourceTypes).flatMap fun entry => scopesOf order entry.1 entry.2

/-- `CleanScopes`. -/
def cleanScopes (order : MapOrders) : List Str → List Str
  | [] => []
  | [scope] =>
    match cutLast ':' scope with
    | none => [scope]
    | some (resource, actions) =>
      match cleanActions (actions.splitOn ',') with
      | [] => []
      | actionList => [resource ++ ':' :: [','].intercalate actionList]
  | scopes =>
    let m := scopes.foldl Merged.add {}
    (m.result ++ m.scopes order).insertionSort (· ≤ ·)

section Actions
variable {actions : List Str} {action : Str}

/-- What a list of actions comes to: the wildcard absorbs the others, empty actions do not count. -/
def Effective (actions : List Str) (action : Str) : Prop :=
  if wildcard ∈ actions then action = wildcard else action ∈ actions ∧ action ≠ []

/-- The loop on a list of which a part is kept, a part is passed over and a part is left. -/
theorem compact_spec (kept : List Str) (last : Str) (passed rest : List Str) :
    compact (kept ++ last :: passed ++ rest) kept.length (List.range' (kept.length + 1 + passed.length) rest.length) =
        none ∧ wildcard ∈ rest ∨
      wildcard ∉ rest ∧ ∃ final n, compact (kept ++ last :: passed ++ rest) kept.length
          (List.range' (kept.length + 1 + passed.length) rest.length) = some (final, n) ∧
        final.take (n + 1) = kept ++ rest.destutter' (· ≠ ·) last ∧ n < final.length := by
  induction rest generalizing kept last passed with
  | nil =>
    refine .inr ⟨List.not_mem_nil, _, _, rfl, ?_, by simp⟩
    simp [List.take_append]
  | cons action rest ih =>
    have here : (kept ++ last :: passed ++ action :: rest)[kept.length + 1 + passed.length]? = some action := by
      rw [List.getElem?_append_right (by simp; omega)]
      have zero : kept.length + 1 + passed.length - (kept ++ last :: passed).length = 0 := by simp; omega
      rw [zero]
      rfl
    have before : (kept ++ last :: passed ++ action :: rest)[kept.length]? = some last := by
      simp
    rw [List.length_cons, List.range'_succ, compact, here, before]
    by_cases absorbed : action = wildcard
    · exact .inl ⟨if_pos (by rw [absorbed]), by simp [absorbed]⟩
    · rw [if_neg fun same => absorbed (Option.some.inj same)]
      have other : wildcard ∈ action :: rest ↔ wildcard ∈ rest := by simp [Ne.symm absorbed]
      rw [other]
      by_cases again : last = action
      · subst again
        rw [if_neg (not_not.mpr rfl), List.destutter'_cons_neg _ (not_not.mpr rfl)]
        have next := ih kept last (passed ++ [last])
        simpa [Nat.add_assoc] using next
      · rw [if_pos fun same => again (Option.some.inj same).symm, List.destutter'_cons_pos _ again]
        cases passed with
        | nil =>
          rw [if_neg (by simp)]
          have next := ih (kept ++ [last]) action []
          simpa [Nat.add_assoc] using next
        | cons first passed =>
          have written : (kept ++ last :: first :: passed ++ action :: rest).set (kept.length + 1)
              ((kept ++ last :: first :: passed ++ action :: rest).getD (kept.length + 1 + (first :: passed).length) []) =
              kept ++ [last] ++ action :: (passed ++ [action]) ++ rest := by
            rw [List.getD_eq_getElem?_getD, here]
            simp
          have index : kept.length + 1 + (first :: passed).length + 1 =
              (kept ++ [last]).length + 1 + (passed ++ [action]).length := by
            simp only [List.length_append, List.length_cons, List.length_nil]
            omega
          rw [if_pos (by simp), written, index]
          have next := ih (kept ++ [last]) action (passed ++ [action])
          simpa using next

/-- The loop of `cleanActions` keeps each action once, unless it meets the wildcard. -/
theorem compact_sorted {first : Str} {rest : List Str} (sorted : (first :: rest).SortedLE) :
    compact (first :: rest) 0 (List.range (first :: rest).length) = none ∧ wildcard ∈ first :: rest ∨
      wildcard ∉ first :: rest ∧ ∃ final n, compact (first :: rest) 0 (List.range (first :: rest).length) = some (final, n) ∧
        final.take (n + 1) = (first :: rest).dedup ∧ n < final.length := by
  have once : rest.destutter' (· ≠ ·) first = (first :: rest).dedup := sorted.pairwise.destutter_eq_dedup
  rw [List.range_eq_range', List.length_cons, List.range'_succ, compact]
  by_cases absorbed : first = wildcard
  · exact .inl ⟨if_pos (by simp [absorbed]), by simp [absorbed]⟩
  · rw [if_neg (by simpa using absorbed), if_neg (not_not.mpr rfl), ← once]
    have rounds := compact_spec [] first [] rest
    simpa [Ne.symm absorbed] using rounds

theorem dedup_sortedLT {l : List Str} (sorted : l.SortedLE) : l.dedup.SortedLT :=
  (sorted.pairwise.sublist l.dedup_sublist).sortedLE.sortedLT_of_nodup l.nodup_dedup

theorem mem_drop_empty {l : List Str} (sorted : l.SortedLT) :
    action ∈ (if l.head? = some [] then l.drop 1 else l) ↔ action ∈ l ∧ action ≠ [] := by
  cases l with
  | nil => simp
  | cons first rest =>
    have above := (List.pairwise_cons.mp sorted.pairwise).1
    have late : [] ∉ rest := fun inside => List.not_lt_nil first (above [] inside)
    by_cases empty : first = []
    · subst empty
      rw [List.head?_cons, if_pos rfl, List.drop_one, List.tail_cons, List.mem_cons]
      constructor
      · exact fun inside => ⟨.inr inside, fun same => late (same ▸ inside)⟩
      · exact fun inside => inside.1.resolve_left inside.2
    · rw [List.head?_cons, if_neg fun same => empty (Option.some.inj same)]
      refine ⟨fun inside => ⟨inside, ?_⟩, fun inside => inside.1⟩
      rintro rfl
      rcases List.mem_cons.mp inside with same | inside
      · exact empty same.symm
      · exact late inside

theorem drop_empty_sortedLT {l : List Str} (sorted : l.SortedLT) : (if l.head? = some [] then l.drop 1 else l).SortedLT := by
  split
  · exact (sorted.pairwise.sublist (List.drop_sublist 1 l)).sortedLT
  · exact sorted

/-- The slow path of `cleanActions`. -/
theorem cleanActions_many (first second : Str) (rest : List Str) :
    wildcard ∈ first :: second :: rest ∧ cleanActions (first :: second :: rest) = [wildcard] ∨
      wildcard ∉ first :: second :: rest ∧ ∃ once : List Str, once.SortedLT ∧
        (∀ action, action ∈ once ↔ action ∈ first :: second :: rest) ∧
        cleanActions (first :: second :: rest) = if once.head? = some [] then once.drop 1 else once := by
  have same : ∀ action, action ∈ (first :: second :: rest).insertionSort (· ≤ ·) ↔ action ∈ first :: second :: rest :=
    fun action => (List.perm_insertionSort _ _).mem_iff
  have length := List.length_insertionSort (· ≤ ·) (first :: second :: rest)
  have sorted := List.sortedLE_insertionSort (l := first :: second :: rest)
  rw [cleanActions, ← length]
  case x_1 => exact List.cons_ne_nil _ _
  case x_2 => simp
  generalize (first :: second :: rest).insertionSort (· ≤ ·) = ordered at same length sorted
  cases ordered with
  | nil => cases length
  | cons least others =>
    rw [← same wildcard]
    rcases compact_sorted sorted with ⟨absorbed, found⟩ | ⟨absent, final, n, kept, once, inside⟩
    · exact .inl ⟨found, by rw [absorbed]⟩
    · refine .inr ⟨absent, (least :: others).dedup, dedup_sortedLT sorted, fun action => List.mem_dedup.trans (same action), ?_⟩
      have head : final.head? = (least :: others).dedup.head? := by
        rw [← once, List.head?_take]
        simp
      simp only [kept]
      rw [head, once]
      by_cases single : n + 1 = 1
      · -- one action is left, and nothing remains without it
        have one : ((least :: others).dedup.drop 1) = [] := by
          rw [← once, single, List.drop_eq_nil_iff]
          exact List.length_take_le 1 final
        rw [if_pos single, one]
      · rw [if_neg single]

theorem cleanActions_spec (actions : List Str) :
    (cleanActions actions).SortedLT ∧ ∀ action, action ∈ cleanActions actions ↔ Effective actions action := by
  match actions with
  | [] => exact ⟨List.Pairwise.nil.sortedLT, by simp [cleanActions, Effective]⟩
  | [single] =>
    rw [cleanActions]
    by_cases empty : single = []
    · rw [if_pos empty, empty]
      refine ⟨List.Pairwise.nil.sortedLT, fun action => ?_⟩
      simp [Effective, wildcard]
    · rw [if_neg empty]
      refine ⟨(List.pairwise_singleton _ single).sortedLT, fun action => ?_⟩
      rw [List.mem_singleton, Effective]
      split
      next absorbed => rw [← List.mem_singleton.mp absorbed]
      next => exact ⟨fun same => ⟨List.mem_singleton.mpr same, same ▸ empty⟩, fun inside => List.mem_singleton.mp inside.1⟩
  | first :: second :: rest =>
    rcases cleanActions_many first second rest with ⟨found, cleaned⟩ | ⟨absent, once, sorted, same, cleaned⟩
    · rw [cleaned]
      refine ⟨(List.pairwise_singleton _ wildcard).sortedLT, fun action => ?_⟩
      rw [Effective, if_pos found, List.mem_singleton]
    · rw [cleaned]
      refine ⟨drop_empty_sortedLT sorted, fun action => ?_⟩
      rw [mem_drop_empty sorted, Effective, if_neg absent, same]

end Actions

end OrasGo.Auth
