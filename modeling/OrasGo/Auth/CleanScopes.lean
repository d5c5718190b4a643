import OrasGo.Auth.Scope

/-! `CleanScopes` as a canonical form. -/

namespace OrasGo.Auth
open Iteration Words

/-- A scope `type:name:actions`. -/
def Recognizable (scope : Str) : Prop := 2 ≤ scope.count ':'

instance (scope : Str) : Decidable (Recognizable scope) := inferInstanceAs (Decidable (2 ≤ _))

/-- The parts of a scope: the type is up to the first colon, the name up to the last. -/
def Splits (scope resourceType resourceName actions : Str) : Prop :=
  scope = resourceType ++ ':' :: resourceName ++ ':' :: actions ∧ ':' ∉ resourceType ∧ ':' ∉ actions

/-- A scope grants an action that is not empty. -/
def Grants (scopes : List Str) (resourceType resourceName action : Str) : Prop :=
  ∃ scope ∈ scopes, ∃ actions, Splits scope resourceType resourceName actions ∧
    action ∈ actions.splitOn ',' ∧ action ≠ []

/-- The actions that scopes come to for a resource: the wildcard absorbs the others. -/
def Allows (scopes : List Str) (resourceType resourceName action : Str) : Prop :=
  Grants scopes resourceType resourceName action ∧
    (Grants scopes resourceType resourceName wildcard → action = wildcard)

section Parts
variable {scope t n a t' n' a' : Str}

theorem splits_iff : Splits scope t n a ↔ ∃ rest, cutFirst ':' scope = some (t, rest) ∧ cutLast ':' rest = some (n, a) := by
  simp only [Splits, cutFirst_eq_some, cutLast_eq_some]
  constructor
  · rintro ⟨rfl, first, last⟩
    exact ⟨n ++ ':' :: a, ⟨by simp, first⟩, rfl, last⟩
  · rintro ⟨_, ⟨rfl, first⟩, rfl, last⟩
    exact ⟨by simp, first, last⟩

theorem Splits.unique (split : Splits scope t n a) (split' : Splits scope t' n' a') : t = t' ∧ n = n' ∧ a = a' := by
  obtain ⟨rest, first, last⟩ := splits_iff.mp split
  obtain ⟨rest', first', last'⟩ := splits_iff.mp split'
  cases first.symm.trans first'
  cases last.symm.trans last'
  exact ⟨rfl, rfl, rfl⟩

theorem Splits.recognizable (split : Splits scope t n a) : Recognizable scope := by
  obtain ⟨rfl, _⟩ := split
  simp only [Recognizable, List.count_append, List.count_cons_self]
  omega

theorem recognizable_iff : Recognizable scope ↔ ∃ t n a, Splits scope t n a := by
  constructor
  · intro two
    cases first : cutFirst ':' scope with
    | none =>
      have absent := List.count_eq_zero.mpr (cutFirst_eq_none.mp first)
      rw [Recognizable, absent] at two
      omega
    | some parts =>
      obtain ⟨t, rest⟩ := parts
      cases last : cutLast ':' rest with
      | none =>
        obtain ⟨rfl, outside⟩ := cutFirst_eq_some.mp first
        have absent := List.count_eq_zero.mpr (cutLast_eq_none.mp last)
        have before := List.count_eq_zero.mpr outside
        rw [Recognizable, List.count_append, List.count_cons_self, absent, before] at two
        omega
      | some parts => exact ⟨t, parts.1, parts.2, splits_iff.mpr ⟨rest, first, last⟩⟩
  · rintro ⟨t, n, a, split⟩
    exact split.recognizable

end Parts

/-- The actions that a scope lists for a resource. -/
def listed (t n scope : Str) : List Str :=
  match cutFirst ':' scope with
  | none => []
  | some (t', rest) =>
    match cutLast ':' rest with
    | none => []
    | some (n', actions) => if t' = t ∧ n' = n then actions.splitOn ',' else []

/-- The actions that the scopes list for a resource. -/
def actionsOf (scopes : List Str) (t n : Str) : List Str := scopes.flatMap (listed t n)

section Listed
variable {scope t n action : Str} {scopes : List Str}

theorem mem_listed : action ∈ listed t n scope ↔ ∃ actions, Splits scope t n actions ∧ action ∈ actions.splitOn ',' := by
  simp only [splits_iff]
  rw [listed]
  constructor
  · intro member
    split at member
    · cases member
    next t' rest first =>
      split at member
      · cases member
      next n' actions last =>
        split at member
        next same =>
          obtain ⟨rfl, rfl⟩ := same
          exact ⟨actions, ⟨rest, first, last⟩, member⟩
        next => cases member
  · rintro ⟨actions, ⟨rest, first, last⟩, member⟩
    simp only [first, last, and_self, if_true]
    exact member

theorem grants_iff : Grants scopes t n action ↔ action ∈ actionsOf scopes t n ∧ action ≠ [] := by
  simp only [Grants, actionsOf, List.mem_flatMap, mem_listed]
  constructor
  · rintro ⟨scope, member, actions, split, listed, other⟩
    exact ⟨⟨scope, member, actions, split, listed⟩, other⟩
  · rintro ⟨⟨scope, member, actions, split, listed⟩, other⟩
    exact ⟨scope, member, actions, split, listed, other⟩

theorem wildcard_ne_nil : wildcard ≠ [] := List.cons_ne_nil _ _

theorem allows_iff : Allows scopes t n action ↔ Effective (actionsOf scopes t n) action := by
  rw [Allows, Effective, grants_iff, grants_iff]
  by_cases absorbed : wildcard ∈ actionsOf scopes t n
  · rw [if_pos absorbed]
    refine ⟨fun allowed => allowed.2 ⟨absorbed, wildcard_ne_nil⟩, ?_⟩
    rintro rfl
    exact ⟨⟨absorbed, wildcard_ne_nil⟩, fun _ => rfl⟩
  · rw [if_neg absorbed]
    exact ⟨And.left, fun granted => ⟨granted, fun impossible => absurd impossible.1 absorbed⟩⟩

theorem mem_cleanActions : action ∈ cleanActions (actionsOf scopes t n) ↔ Allows scopes t n action :=
  ((cleanActions_spec _).2 action).trans allows_iff.symm

theorem Grants.plain (granted : Grants scopes t n action) : ':' ∉ t ∧ ':' ∉ action ∧ ',' ∉ action := by
  obtain ⟨scope, _, actions, ⟨_, first, last⟩, listed, _⟩ := granted
  obtain ⟨comma, letters⟩ := mem_splitOn listed
  exact ⟨first, fun colon => last (letters _ colon), comma⟩

theorem cleanActions_ne_nil : cleanActions (actionsOf scopes t n) ≠ [] ↔ ∃ action, Grants scopes t n action := by
  constructor
  · intro some
    obtain ⟨action, member⟩ := List.exists_mem_of_ne_nil _ some
    exact ⟨action, (mem_cleanActions.mp member).1⟩
  · rintro ⟨action, granted⟩
    by_cases absorbed : Grants scopes t n wildcard
    · exact List.ne_nil_of_mem (mem_cleanActions.mpr ⟨absorbed, fun _ => rfl⟩)
    · exact List.ne_nil_of_mem (mem_cleanActions.mpr ⟨granted, fun impossible => absurd impossible absorbed⟩)

end Listed

/-- The canonical form of scopes. -/
structure Canonical (scopes out : List Str) : Prop where
  sorted : out.SortedLT
  mem : ∀ scope, scope ∈ out ↔ ∃ t n, cleanActions (actionsOf scopes t n) ≠ [] ∧
    scope = scopeText t n (cleanActions (actionsOf scopes t n))

section Texts
variable {t n : Str} {scopes out : List Str}

theorem splits_scopeText (some : cleanActions (actionsOf scopes t n) ≠ []) :
    Splits (scopeText t n (cleanActions (actionsOf scopes t n))) t n
      ([','].intercalate (cleanActions (actionsOf scopes t n))) ∧
    ([','].intercalate (cleanActions (actionsOf scopes t n))).splitOn ',' = cleanActions (actionsOf scopes t n) := by
  have plain : ∀ action ∈ cleanActions (actionsOf scopes t n), ':' ∉ t ∧ ':' ∉ action ∧ ',' ∉ action :=
    fun action member => (mem_cleanActions.mp member).1.plain
  obtain ⟨action, member⟩ := List.exists_mem_of_ne_nil _ some
  refine ⟨⟨rfl, (plain action member).1, fun colon => ?_⟩, ?_⟩
  · rcases mem_intercalate colon with impossible | ⟨action', member', inside⟩
    · cases impossible
    · exact (plain action' member').2.1 inside
  · exact List.splitOn_intercalate ',' (fun action' member' => (plain action' member').2.2) some

theorem Canonical.unique {xs ys out out' : List Str} (canonical : Canonical xs out) (canonical' : Canonical ys out')
    (same : ∀ t n action, Allows xs t n action ↔ Allows ys t n action) : out = out' := by
  have actions : ∀ t n, cleanActions (actionsOf xs t n) = cleanActions (actionsOf ys t n) := by
    intro t n
    refine (cleanActions_spec _).1.eq_of_mem_iff (cleanActions_spec _).1 fun action => ?_
    rw [mem_cleanActions, mem_cleanActions, same]
  refine canonical.sorted.eq_of_mem_iff canonical'.sorted fun scope => ?_
  simp only [canonical.mem, canonical'.mem, actions]

theorem Canonical.grants (canonical : Canonical scopes out) {action : Str} :
    Grants out t n action ↔ Allows scopes t n action := by
  constructor
  · rintro ⟨scope, member, actions, split, listed, _⟩
    obtain ⟨t', n', some, rfl⟩ := (canonical.mem scope).mp member
    obtain ⟨split', whole⟩ := splits_scopeText some
    obtain ⟨rfl, rfl, rfl⟩ := split.unique split'
    rw [whole] at listed
    exact mem_cleanActions.mp listed
  · intro allowed
    have member := mem_cleanActions.mpr allowed
    have some := List.ne_nil_of_mem member
    obtain ⟨split, whole⟩ := splits_scopeText some
    exact ⟨_, (canonical.mem _).mpr ⟨t, n, some, rfl⟩, _, split, whole.symm ▸ member, (grants_iff.mp allowed.1).2⟩

theorem Canonical.allows (canonical : Canonical scopes out) {action : Str} :
    Allows out t n action ↔ Allows scopes t n action := by
  rw [Allows, canonical.grants, canonical.grants]
  exact ⟨And.left, fun allowed => ⟨allowed, fun absorbed => allowed.2 absorbed.1⟩⟩

theorem Canonical.recognizable (canonical : Canonical scopes out) : ∀ scope ∈ out, Recognizable scope := by
  intro scope member
  obtain ⟨t, n, some, rfl⟩ := (canonical.mem scope).mp member
  exact (splits_scopeText some).1.recognizable

end Texts

/-- The actions that the loop has found for a resource. -/
def Merged.actionSet (m : Merged) (t n : Str) : Finset Str := ((m.resourceTypes.lookup t).bind (·.lookup n)).getD ∅

/-- What the loop of `CleanScopes` has collected from the scopes. -/
structure Collected (scopes : List Str) (m : Merged) : Prop where
  result : m.result = scopes.filter fun scope => ¬ Recognizable scope
  actions : ∀ t n action, action ∈ m.actionSet t n ↔ Grants scopes t n action

section Merge
variable {scopes : List Str} {m : Merged} {scope t n action : Str}

theorem mem_addActions {set : Finset Str} {actions : List Str} :
    action ∈ addActions set actions ↔ action ∈ set ∨ action ∈ actions ∧ action ≠ [] := by
  induction actions generalizing set with
  | nil => simp [addActions]
  | cons first rest ih =>
    rw [addActions, List.foldl_cons]
    change action ∈ addActions _ rest ↔ _
    rw [ih, List.mem_cons]
    by_cases empty : first = []
    · simp only [empty, ne_eq, not_true_eq_false, if_false]
      constructor
      · rintro (old | ⟨later, other⟩)
        · exact .inl old
        · exact .inr ⟨.inr later, other⟩
      · rintro (old | ⟨rfl | later, other⟩)
        · exact .inl old
        · exact absurd rfl other
        · exact .inr ⟨later, other⟩
    · simp only [ne_eq, empty, not_false_eq_true, if_true, Finset.mem_insert]
      constructor
      · rintro ((rfl | old) | ⟨later, other⟩)
        · exact .inr ⟨.inl rfl, empty⟩
        · exact .inl old
        · exact .inr ⟨.inr later, other⟩
      · rintro (old | ⟨rfl | later, other⟩)
        · exact .inl (.inr old)
        · exact .inl (.inl rfl)
        · exact .inr ⟨later, other⟩

theorem grants_concat : Grants (scopes ++ [scope]) t n action ↔
    Grants scopes t n action ∨ action ∈ listed t n scope ∧ action ≠ [] := by
  simp only [grants_iff, actionsOf, List.flatMap_append, List.flatMap_singleton, List.mem_append]
  exact or_and_right

theorem add_unrecognizable (unknown : ¬ Recognizable scope) : m.add scope = { m with result := m.result ++ [scope] } := by
  rw [Merged.add]
  cases first : cutFirst ':' scope with
  | none => rfl
  | some parts =>
    obtain ⟨t, rest⟩ := parts
    cases last : cutLast ':' rest with
    | none => simp only [last]
    | some parts => exact absurd (splits_iff.mpr ⟨rest, first, last⟩ : Splits scope t parts.1 parts.2).recognizable unknown

theorem listed_unrecognizable (unknown : ¬ Recognizable scope) : listed t n scope = [] := by
  refine List.eq_nil_iff_forall_not_mem.mpr fun action member => ?_
  obtain ⟨actions, split, _⟩ := mem_listed.mp member
  exact unknown split.recognizable

theorem add_recognizable {t' n' actions : Str} (split : Splits scope t' n' actions) :
    (m.add scope).result = m.result ∧ ∀ t n action, action ∈ (m.add scope).actionSet t n ↔
      action ∈ m.actionSet t n ∨ action ∈ listed t n scope ∧ action ≠ [] := by
  obtain ⟨rest, first, last⟩ := splits_iff.mp split
  have here : ∀ t n, listed t n scope = if t' = t ∧ n' = n then actions.splitOn ',' else [] := by
    intro t n
    simp only [listed, first, last]
  simp only [here, Merged.add, first, last]
  by_cases empty : actions = []
  · refine ⟨by rw [if_pos empty], fun t n action => ?_⟩
    rw [if_pos empty, empty, List.splitOn_nil]
    split <;> simp
  · rw [if_neg empty]
    refine ⟨rfl, fun t n action => ?_⟩
    have old : (((m.resourceTypes.lookup t').getD ∅).lookup n).getD ∅ = m.actionSet t' n := by
      rw [Merged.actionSet]
      cases m.resourceTypes.lookup t' <;> simp
    rw [Merged.actionSet]
    by_cases type : t = t'
    · subst type
      rw [Finmap.lookup_insert, Option.bind_some]
      by_cases name : n = n'
      · subst name
        rw [Finmap.lookup_insert, Option.getD_some, mem_addActions, old, if_pos ⟨rfl, rfl⟩]
      · rw [Finmap.lookup_insert_of_ne _ name, old, if_neg fun same => name same.2.symm]
        simp
    · rw [Finmap.lookup_insert_of_ne _ type, if_neg fun same => type same.1.symm]
      simp [Merged.actionSet]

theorem Collected.add (collected : Collected scopes m) (scope : Str) : Collected (scopes ++ [scope]) (m.add scope) := by
  by_cases known : Recognizable scope
  · obtain ⟨t, n, actions, split⟩ := recognizable_iff.mp known
    obtain ⟨result, added⟩ := @add_recognizable m scope t n actions split
    refine ⟨?_, fun t n action => ?_⟩
    · rw [result, collected.result, List.filter_append]
      simp [known]
    · rw [added, collected.actions, grants_concat]
  · rw [add_unrecognizable known]
    refine ⟨?_, fun t n action => ?_⟩
    · rw [collected.result, List.filter_append]
      simp [known]
    · rw [grants_concat, listed_unrecognizable known]
      exact (collected.actions t n action).trans (by simp)

theorem collected_foldl (scopes : List Str) : Collected scopes (scopes.foldl Merged.add {}) := by
  induction scopes using List.reverseRecOn with
  | nil => exact ⟨rfl, fun t n action => by simp [Merged.actionSet, Grants]⟩
  | append_singleton scopes scope ih =>
    rw [List.foldl_append]
    exact ih.add scope

theorem collectActions_eq (actions rest : List Str) :
    collectActions actions rest = if wildcard ∈ rest then [wildcard] else actions ++ rest := by
  induction rest generalizing actions with
  | nil => simp [collectActions]
  | cons action rest ih =>
    rw [collectActions]
    by_cases absorbed : action = wildcard
    · simp [absorbed]
    · simp [absorbed, Ne.symm absorbed, ih]

theorem sorted_collectActions (order : Enumeration Str) {set : Finset Str}
    (same : ∀ action, action ∈ set ↔ Grants scopes t n action) :
    (collectActions [] (order.list set)).insertionSort (· ≤ ·) = cleanActions (actionsOf scopes t n) := by
  have visited : ∀ action, action ∈ order.list set ↔ Grants scopes t n action :=
    fun action => (order.mem set action).trans (same action)
  have once : (collectActions [] (order.list set)).Nodup := by
    rw [collectActions_eq]
    split
    · exact List.nodup_singleton wildcard
    · exact order.nodup set
  refine (List.sortedLE_insertionSort.sortedLT_of_nodup ((List.perm_insertionSort _ _).nodup_iff.mpr once)).eq_of_mem_iff
    (cleanActions_spec _).1 fun action => ?_
  rw [(List.perm_insertionSort _ _).mem_iff, mem_cleanActions, collectActions_eq, Allows]
  split
  next absorbed =>
    have granted := (visited wildcard).mp absorbed
    rw [List.mem_singleton]
    exact ⟨fun here => ⟨here ▸ granted, fun _ => here⟩, fun allowed => allowed.2 granted⟩
  next absent =>
    rw [List.nil_append, visited]
    exact ⟨fun granted => ⟨granted, fun impossible => absurd ((visited wildcard).mpr impossible) absent⟩, And.left⟩

/-- The scope of a resource in the canonical form. -/
def formOf (scopes : List Str) (t n : Str) : Option Str :=
  if cleanActions (actionsOf scopes t n) = [] then none else some (scopeText t n (cleanActions (actionsOf scopes t n)))

theorem formOf_eq_some {text : Str} : formOf scopes t n = some text ↔
    cleanActions (actionsOf scopes t n) ≠ [] ∧ text = scopeText t n (cleanActions (actionsOf scopes t n)) := by
  rw [formOf, Option.ite_none_left_eq_some, Option.some_inj, eq_comm (a := text)]

theorem formOf_injective {t' n' text : Str} (form : formOf scopes t n = some text) (form' : formOf scopes t' n' = some text) :
    t = t' ∧ n = n' := by
  obtain ⟨some, rfl⟩ := formOf_eq_some.mp form
  obtain ⟨some', same⟩ := formOf_eq_some.mp form'
  obtain ⟨type, name, _⟩ := (splits_scopeText some).1.unique (same ▸ (splits_scopeText some').1)
  exact ⟨type, name⟩

theorem Collected.scopesOf_eq (collected : Collected scopes m) (order : MapOrders)
    {namedActions : Finmap fun _ : Str => Finset Str} (found : m.resourceTypes.lookup t = some namedActions) :
    scopesOf order t namedActions = ((order.names t).list namedActions.keys).filterMap (formOf scopes t) := by
  rw [← Enumeration.map_fst_entries, List.filterMap_map]
  refine List.filterMap_congr ?_
  rintro ⟨n, actionSet⟩ member
  have set : m.actionSet t n = actionSet := by
    rw [Merged.actionSet, found, Option.bind_some, Enumeration.mem_entries.mp member, Option.getD_some]
  have same := collected.actions t n
  rw [set] at same
  have empty : actionSet = ∅ ↔ cleanActions (actionsOf scopes t n) = [] := by
    rw [← not_iff_not, ← ne_eq (cleanActions _), cleanActions_ne_nil, ← ne_eq, ← Finset.nonempty_iff_ne_empty]
    exact exists_congr same
  simp only [Function.comp_apply, formOf, empty, sorted_collectActions (order.actions t n) same]

theorem Collected.mem_scopes (collected : Collected scopes m) (order : MapOrders) {text : Str} :
    text ∈ m.scopes order ↔ ∃ t n, formOf scopes t n = some text := by
  rw [Merged.scopes, List.mem_flatMap]
  constructor
  · rintro ⟨entry, member, inside⟩
    rw [collected.scopesOf_eq order (Enumeration.mem_entries.mp member), List.mem_filterMap] at inside
    obtain ⟨n, _, form⟩ := inside
    exact ⟨entry.1, n, form⟩
  · rintro ⟨t, n, form⟩
    obtain ⟨action, granted⟩ := cleanActions_ne_nil.mp (formOf_eq_some.mp form).1
    have inside := (collected.actions t n action).mpr granted
    rw [Merged.actionSet] at inside
    cases found : m.resourceTypes.lookup t with
    | none => simp [found] at inside
    | some namedActions =>
      rw [found, Option.bind_some] at inside
      refine ⟨(t, namedActions), Enumeration.mem_entries.mpr found, ?_⟩
      rw [collected.scopesOf_eq order found, List.mem_filterMap]
      refine ⟨n, ((order.names t).mem _ n).mpr (Finmap.mem_keys.mpr ?_), form⟩
      cases named : namedActions.lookup n with
      | none => simp [named] at inside
      | some actionSet => exact Finmap.mem_of_lookup_eq_some named

theorem Collected.nodup_scopes (collected : Collected scopes m) (order : MapOrders) : (m.scopes order).Nodup := by
  rw [Merged.scopes, List.nodup_flatMap]
  constructor
  · intro entry member
    rw [collected.scopesOf_eq order (Enumeration.mem_entries.mp member)]
    exact ((order.names entry.1).nodup _).filterMap fun n n' text form form' => (formOf_injective form form').2
  · have keys : (order.types.entries m.resourceTypes).Pairwise fun e e' => e.1 ≠ e'.1 := by
      rw [← List.pairwise_map, Enumeration.map_fst_entries]
      exact order.types.nodup _
    refine keys.imp_of_mem ?_
    intro entry entry' member member' apart text inside inside'
    beta_reduce at inside inside'
    rw [collected.scopesOf_eq order (Enumeration.mem_entries.mp member), List.mem_filterMap] at inside
    rw [collected.scopesOf_eq order (Enumeration.mem_entries.mp member'), List.mem_filterMap] at inside'
    obtain ⟨n, _, form⟩ := inside
    obtain ⟨n', _, form'⟩ := inside'
    exact apart (formOf_injective form form').1

end Merge

section Paths
variable {scopes : List Str} (order : MapOrders)

/-- The slow path of `CleanScopes`. -/
theorem cleanScopes_many {first second : Str} {rest : List Str} (same : scopes = first :: second :: rest) :
    cleanScopes order scopes = ((scopes.filter fun scope => ¬ Recognizable scope) ++
      (scopes.foldl Merged.add {}).scopes order).insertionSort (· ≤ ·) := by
  rw [← (collected_foldl scopes).result, same]
  rfl

/-- The fast path of `CleanScopes` for one scope. -/
theorem canonical_single {scope : Str} (known : Recognizable scope) : Canonical [scope] (cleanScopes order [scope]) := by
  obtain ⟨t, n, actions, split⟩ := recognizable_iff.mp known
  have last : cutLast ':' scope = some (t ++ ':' :: n, actions) := cutLast_eq_some.mpr ⟨split.1, split.2.2⟩
  have here : actionsOf [scope] t n = actions.splitOn ',' := by
    obtain ⟨rest, first, last⟩ := splits_iff.mp split
    simp only [actionsOf, List.flatMap_singleton, listed, first, last, and_self, if_true]
  have only : ∀ t' n', cleanActions (actionsOf [scope] t' n') ≠ [] → t' = t ∧ n' = n := by
    intro t' n' some
    obtain ⟨action, scope', member, actions', split', _⟩ := cleanActions_ne_nil.mp some
    obtain rfl := List.mem_singleton.mp member
    obtain ⟨type, name, _⟩ := split'.unique split
    exact ⟨type, name⟩
  simp only [cleanScopes, last]
  split
  next empty =>
    refine ⟨List.Pairwise.nil.sortedLT, fun scope' => ⟨(fun impossible => by cases impossible), ?_⟩⟩
    rintro ⟨t', n', some, _⟩
    obtain ⟨rfl, rfl⟩ := only t' n' some
    rw [here] at some
    exact absurd empty some
  next actionList some =>
    refine ⟨(List.pairwise_singleton _ _).sortedLT, fun scope' => ?_⟩
    rw [List.mem_singleton]
    constructor
    · rintro rfl
      exact ⟨t, n, by rw [here]; exact some, by rw [here]; rfl⟩
    · rintro ⟨t', n', some', rfl⟩
      obtain ⟨rfl, rfl⟩ := only t' n' some'
      rw [here]
      rfl

theorem canonical_nil : Canonical [] [] := by
  refine ⟨List.Pairwise.nil.sortedLT, fun scope => ⟨(fun impossible => by cases impossible), ?_⟩⟩
  rintro ⟨t, n, some, _⟩
  exact absurd rfl some

theorem canonical_cleanScopes (known : ∀ scope ∈ scopes, Recognizable scope) : Canonical scopes (cleanScopes order scopes) := by
  match scopes with
  | [] => exact canonical_nil
  | [scope] => exact canonical_single order (known scope List.mem_cons_self)
  | first :: second :: rest =>
    have collected := collected_foldl (first :: second :: rest)
    have none : (first :: second :: rest).filter (fun scope => ¬ Recognizable scope) = [] := by
      rw [List.filter_eq_nil_iff]
      intro scope member
      simp [known scope member]
    rw [cleanScopes_many order rfl, none, List.nil_append]
    constructor
    case sorted =>
      exact List.sortedLE_insertionSort.sortedLT_of_nodup
        ((List.perm_insertionSort _ _).nodup_iff.mpr (collected.nodup_scopes order))
    case mem =>
      intro scope
      rw [(List.perm_insertionSort _ _).mem_iff, collected.mem_scopes order]
      simp only [formOf_eq_some]

end Paths

/-- `out` is the canonical form of what `scopes` grant. -/
structure CanonicalForm (scopes out : List Str) : Prop where
  ascending : out.SortedLT
  actions : ∀ scope ∈ out, ∃ t n actions, Splits scope t n actions ∧ (actions.splitOn ',').SortedLT ∧
    [] ∉ actions.splitOn ','
  onePer : ∀ scope ∈ out, ∀ scope' ∈ out, ∀ t n actions actions', Splits scope t n actions → Splits scope' t n actions' →
    scope = scope'
  grants : ∀ t n action, Grants out t n action ↔ Allows scopes t n action

theorem Canonical.form {scopes out : List Str} (canonical : Canonical scopes out) : CanonicalForm scopes out where
  ascending := canonical.sorted
  actions := by
    intro scope member
    obtain ⟨t, n, some, rfl⟩ := (canonical.mem scope).mp member
    obtain ⟨split, whole⟩ := splits_scopeText some
    refine ⟨t, n, _, split, whole.symm ▸ (cleanActions_spec _).1, fun empty => ?_⟩
    rw [whole] at empty
    exact (grants_iff.mp (mem_cleanActions.mp empty).1).2 rfl
  onePer := by
    intro scope member scope' member' t n actions actions' split split'
    obtain ⟨u, v, some, rfl⟩ := (canonical.mem scope).mp member
    obtain ⟨u', v', some', rfl⟩ := (canonical.mem scope').mp member'
    obtain ⟨rfl, rfl, _⟩ := (splits_scopeText some).1.unique split
    obtain ⟨rfl, rfl, _⟩ := (splits_scopeText some').1.unique split'
    rfl
  grants _ _ _ := canonical.grants

/-- Recognizable scopes have one form for what they grant, whatever the order of the maps. -/
theorem cleanScopes_canonical {xs ys : List Str} (knownX : ∀ scope ∈ xs, Recognizable scope)
    (knownY : ∀ scope ∈ ys, Recognizable scope) :
    (∀ order order', cleanScopes order xs = cleanScopes order' ys ↔
      ∀ t n action, Allows xs t n action ↔ Allows ys t n action) ∧
    ∀ order, CanonicalForm xs (cleanScopes order xs) := by
  refine ⟨fun order order' => ⟨fun same t n action => ?_, fun same => ?_⟩, fun order => ?_⟩
  · rw [← (canonical_cleanScopes order knownX).allows, ← (canonical_cleanScopes order' knownY).allows, same]
  · exact (canonical_cleanScopes order knownX).unique (canonical_cleanScopes order' knownY) same
  · exact (canonical_cleanScopes order knownX).form

/-- The maps in the order of their keys. -/
def MapOrders.ascending : MapOrders where
  types := Enumeration.ascending
  names _ := Enumeration.ascending
  actions _ _ := Enumeration.ascending

namespace Foo

/-- Two ways to ask for the same actions. -/
def apart : List Str := ["repository:foo:push,,pull".toList, "repository:foo:pull,push".toList]
def merged : List Str := ["repository:foo:pull,push".toList]

end Foo

theorem cleanScopes_canonical_foo :
    cleanScopes .ascending Foo.merged = Foo.merged ∧
    (∀ order order', cleanScopes order Foo.apart = cleanScopes order' Foo.merged ↔
      ∀ t n action, Allows Foo.apart t n action ↔ Allows Foo.merged t n action) ∧
    ∀ order, CanonicalForm Foo.apart (cleanScopes order Foo.apart) :=
  ⟨by decide +kernel, cleanScopes_canonical (by decide +kernel) (by decide +kernel)⟩

/-- `CleanScopes` does for these scopes what its comment says. -/
structure Normalises (scopes : List Str) : Prop where
  sorted : ∀ order, (cleanScopes order scopes).SortedLT
  idempotent : ∀ order order', cleanScopes order' (cleanScopes order scopes) = cleanScopes order scopes
  permuted : ∀ order order' scopes', scopes'.Perm scopes → cleanScopes order' scopes' = cleanScopes order scopes
  repeated : ∀ order order' scopes', ∀ scope ∈ scopes, scopes'.Perm (scope :: scopes) →
    cleanScopes order' scopes' = cleanScopes order scopes

section Normal
variable {scopes : List Str}

theorem allows_congr {xs ys : List Str} (same : ∀ scope, scope ∈ xs ↔ scope ∈ ys) (t n action : Str) :
    Allows xs t n action ↔ Allows ys t n action := by
  simp only [Allows, Grants, same]

theorem normalises_of_recognizable (known : ∀ scope ∈ scopes, Recognizable scope) : Normalises scopes := by
  have unique : ∀ order order' {scopes' : List Str}, (∀ scope, scope ∈ scopes' ↔ scope ∈ scopes) →
      cleanScopes order' scopes' = cleanScopes order scopes := by
    intro order order' scopes' same
    have known' : ∀ scope ∈ scopes', Recognizable scope := fun scope member => known scope ((same scope).mp member)
    exact (canonical_cleanScopes order' known').unique (canonical_cleanScopes order known) (allows_congr same)
  constructor
  case sorted => exact fun order => (canonical_cleanScopes order known).sorted
  case idempotent =>
    intro order order'
    have canonical := canonical_cleanScopes order known
    exact (canonical_cleanScopes order' canonical.recognizable).unique canonical fun t n action => canonical.allows
  case permuted => exact fun order order' scopes' perm => unique order order' fun scope => perm.mem_iff
  case repeated =>
    intro order order' scopes' scope member perm
    refine unique order order' fun scope' => perm.mem_iff.trans ?_
    rw [List.mem_cons]
    exact ⟨fun inside => inside.elim (fun same => same ▸ member) id, .inr⟩

theorem count_unrecognizable {scope first second : Str} {rest : List Str} (unknown : ¬ Recognizable scope) (order : MapOrders) :
    (cleanScopes order (first :: second :: rest)).count scope = (first :: second :: rest).count scope := by
  have absent : scope ∉ ((first :: second :: rest).foldl Merged.add {}).scopes order := by
    rw [(collected_foldl _).mem_scopes order]
    rintro ⟨t, n, form⟩
    obtain ⟨some, rfl⟩ := formOf_eq_some.mp form
    exact unknown (splits_scopeText some).1.recognizable
  rw [cleanScopes_many order rfl, (List.perm_insertionSort _ _).count_eq, List.count_append, List.count_eq_zero.mpr absent,
    List.count_filter (by simpa using unknown), Nat.add_zero]

theorem cleanScopes_single_length (order : MapOrders) (scope : Str) : (cleanScopes order [scope]).length ≤ 1 := by
  rw [cleanScopes]
  split
  · exact le_rfl
  · split
    · exact Nat.zero_le 1
    · exact le_rfl

end Normal

/-- `CleanScopes` normalises exactly the lists of recognizable scopes: any other scope is kept
once more when it is given once more. -/
theorem normalises_iff (scopes : List Str) : Normalises scopes ↔ ∀ scope ∈ scopes, Recognizable scope := by
  refine ⟨fun normal scope member => ?_, normalises_of_recognizable⟩
  by_contra unknown
  have same := normal.repeated .ascending .ascending (scope :: scopes) scope member (.refl _)
  have counts := congrArg (List.count scope) same
  match scopes with
  | [] => cases member
  | [single] =>
    rw [count_unrecognizable unknown, ← List.mem_singleton.mp member, List.count_cons_self, List.count_cons_self] at counts
    have few := (List.count_le_length (a := scope)).trans (cleanScopes_single_length .ascending scope)
    omega
  | first :: second :: rest =>
    rw [count_unrecognizable unknown, count_unrecognizable unknown, List.count_cons_self] at counts
    omega

/-- A scope that is not recognizable stays twice, and after a scope without actions was dropped
it is no longer what it was. -/
theorem cleanScopes_keeps_unknown :
    cleanScopes .ascending ["unknown".toList, "unknown".toList] = ["unknown".toList, "unknown".toList] ∧
    cleanScopes .ascending ["invalid:b,a".toList, "no:actions:".toList] = ["invalid:b,a".toList] ∧
    cleanScopes .ascending ["invalid:b,a".toList] = ["invalid:a,b".toList] ∧
    ¬ Normalises ["unknown".toList, "unknown".toList] := by
  refine ⟨by decide +kernel, by decide +kernel, by decide +kernel, fun normal => ?_⟩
  have twice : cleanScopes .ascending ["unknown".toList, "unknown".toList] = ["unknown".toList, "unknown".toList] := by
    decide +kernel
  have once := (normal.sorted .ascending).nodup
  rw [twice] at once
  simp at once

end OrasGo.Auth
