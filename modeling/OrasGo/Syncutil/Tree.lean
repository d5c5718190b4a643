import OrasGo.Syncutil.Go

/-! The tree of goroutines under the outermost `Go`: who started a group, when
its creator may leave it, and how a failure travels up and a cancellation down. -/

namespace OrasGo.Syncutil
open Interleaving
variable {U I S : Type} {UAns : U → Type}

/-- Where a goroutine is: the group whose `Go` it is in, whether a `Go` of its
own has failed, the error it has reported to its own group, and whether it
holds a permit. -/
structure Place where
  inside : Option Nat := none
  failed : Bool := false
  reported : Option (Option Error) := none
  holding : Bool := false

/-- What `Go` demands of its callback when it returns. -/
def WentThrough (err : Option Error) (l : Place) : Prop :=
  l.inside = none ∧ l.reported = none ∧ (l.failed = true → err ≠ none)

section Program
variable (limited : Bool) (r : Label I → Label I → Prop) (blocking : U → Bool) (fact : (op : U) → UAns op → Prop)

/-- A goroutine whose `Go` has failed, or that holds a permit, does nothing that
may block, and every item it hands to `Go` is below its own in the order `r`.
`fact` is what its own operations answer. Permits exist only when `limited`. -/
def treeGhost (label : Label I) : Ghost (Op U I) (Ans UAns) Place where
  pre op l := l.reported = none ∧ (op.blocking blocking = true → l.failed = false ∧ l.holding = false) ∧ match op with
    | .spawn g item => l.inside = some g ∧ r (some (g, item)) label
    | .wait g => l.inside = some g
    | .report g err => (∃ item, label = some (g, item)) ∧ l.inside = none ∧ (l.failed = true → err ≠ none)
    | .compareAndSwap g _ => ∃ item, label = some (g, item)
    | .withContext | .regionStart | .user _ => l.inside = none
    | .regionEnd | .load _ => True
  next op answer l l' := match op, answer with
    | .withContext, (g : Nat) => l' = { l with inside := some g }
    | .spawn _ _, none => l' = l
    | .spawn _ _, some _ => l' = { l with inside := none, failed := true }
    | .wait _, answer => l' = { l with inside := none, failed := answer.isSome }
    | .report _ err, _ => l' = { l with reported := some err }
    | .regionStart, answer => l' = { l with holding := limited && answer.isNone }
    | .regionEnd, _ => l' = { l with holding := false }
    | .user op, answer => fact op answer ∧ l' = l
    | _, _ => l' = l

def treePost (label : Label I) (value : Option Error) (l : Place) : Prop :=
  l.inside = none ∧ l.holding = false ∧ (l.failed = true → value ≠ none) ∧ (label ≠ none → l.reported = some value)

/-- What `Go` leaves behind for its caller. -/
def wentOut (err : Option Error) (l : Place) : Prop :=
  l = { failed := err.isSome }

theorem tree_goLoop {label : Label I} {g : Nat} {items : List I}
    (below : ∀ item ∈ items, r (some (g, item)) label) :
    wp (treeGhost limited r blocking fact label) (goLoop g items : Code U I UAns _) wentOut
      { inside := some g } := by
  induction items with
  | nil =>
    simp only [goLoop, wait, call, Prog.perform, wp_call]
    refine ⟨⟨rfl, fun _ => ⟨rfl, rfl⟩, rfl⟩, ?_⟩
    rintro answer _ rfl
    rfl
  | cons item rest ih =>
    simp only [goLoop, spawn, call, Prog.perform_bind, wp_call]
    refine ⟨⟨rfl, fun _ => ⟨rfl, rfl⟩, rfl, below item List.mem_cons_self⟩, fun answer l moved => ?_⟩
    cases answer with
    | none =>
      cases moved
      exact ih fun item member => below item (List.mem_cons_of_mem _ member)
    | some err =>
      cases moved
      simp only [load, call, Prog.perform_bind, wp_call]
      refine ⟨⟨rfl, (fun blocks => by cases blocks), trivial⟩, fun egErr l moved => ?_⟩
      cases moved
      cases egErr <;> rfl

theorem tree_go {label : Label I} {items : List I}
    (below : ∀ g, ∀ item ∈ items, r (some (g, item)) label) :
    wp (treeGhost limited r blocking fact label) (go items : Code U I UAns _) wentOut {} := by
  simp only [go, withContext, call, Prog.perform_bind, wp_call]
  refine ⟨⟨rfl, fun _ => ⟨rfl, rfl⟩, rfl⟩, fun g l moved => ?_⟩
  cases moved
  exact tree_goLoop limited r blocking fact (below g)

theorem tree_main {items : List I} (below : ∀ g, ∀ item ∈ items, r (some (g, item)) none) :
    wp (treeGhost limited r blocking fact none) (go items : Code U I UAns _) (treePost (none : Label I)) {} := by
  refine wp_mono _ (fun err l out => ?_) (tree_go limited r blocking fact below)
  cases out
  exact ⟨rfl, rfl, by cases err <;> simp, fun other => absurd rfl other⟩

/-- What the callback of `Go` has to guarantee. -/
def TreeBody (fn : I → Code U I UAns (Option Error)) : Prop :=
  ∀ g item, wp (treeGhost limited r blocking fact (some (g, item))) (fn item) WentThrough { holding := limited }

variable {limited r blocking fact}

theorem tree_goroutine {fn : I → Code U I UAns (Option Error)} (body : TreeBody limited r blocking fact fn)
    (g : Nat) (item : I) :
    wp (treeGhost limited r blocking fact (some (g, item))) (goroutine fn g item) (treePost (some (g, item)))
      { holding := limited } := by
  refine wp_seq _ (body g item) fun err l ⟨outside, silent, failing⟩ => ?_
  have finish : wp (@treeGhost U I UAns limited r blocking fact (some (g, item)))
      (do regionEnd; report g err; return err) (treePost (some (g, item))) l := by
    simp only [regionEnd, report, call, Prog.perform_bind, wp_call]
    refine ⟨⟨silent, (fun blocks => by cases blocks), trivial⟩, ?_⟩
    rintro _ _ rfl
    refine ⟨⟨silent, (fun blocks => by cases blocks), ⟨item, rfl⟩, outside, failing⟩, ?_⟩
    rintro _ _ rfl
    exact ⟨outside, rfl, failing, fun _ => rfl⟩
  cases err with
  | none => exact finish
  | some e =>
    simp only [compareAndSwap, call, Prog.perform_bind, wp_call]
    refine ⟨⟨silent, (fun blocks => by cases blocks), item, rfl⟩, ?_⟩
    rintro _ _ rfl
    exact finish

end Program

/-- Goroutines of group `g` that have not returned to the group. -/
def pendingIn (g : Nat) (ghost : Label I × Place) : Bool :=
  ghost.1.any (fun started => started.1 = g) && ghost.2.reported.isNone

/-- The creator of group `g` is in its `Go` at place `l`, or has left it. -/
def LeftBy (s : Shared S) (g : Nat) (group : Group) (l : Place) : Prop :=
  l.inside = some g ∨ s.ctxDone group.ctx = true ∧ (l.failed = false → group.pending = 0 ∧ group.err = none)

/-- The tree of goroutines. `creator g` runs the `Go` that made group `g`; a
group that its creator has left is cancelled, and it is finished without error
unless the creator failed with it. -/
structure TreeInv (r : Label I → Label I → Prop) (creator : Nat → Nat) (s : Shared S)
    (ghosts : List (Label I × Place)) : Prop where
  main : ∀ t, (ghosts.map Prod.fst)[t]? = some none → t = 0
  member : ∀ t g item l, ghosts[t]? = some (some (g, item), l) → creator g < t ∧
    (∃ label, (ghosts.map Prod.fst)[creator g]? = some label ∧ r (some (g, item)) label) ∧
    ∃ group, s.groups[g]? = some group ∧ s.ctx t = group.ctx ∧
      (∀ err, l.reported = some (some err) → group.err ≠ none)
  inside : ∀ t label l g, ghosts[t]? = some (label, l) → l.inside = some g →
    g < s.groups.length ∧ creator g = t
  group : ∀ g group, s.groups[g]? = some group → group.ctx = g :: s.ctx (creator g) ∧
    (group.err ≠ none → group.cancelled = true) ∧ group.pending = ghosts.countP (pendingIn g) ∧
    ∃ label l, ghosts[creator g]? = some (label, l) ∧ LeftBy s g group l

variable {r : Label I → Label I → Prop} {creator : Nat → Nat} {s s' : Shared S}
  {ghosts : List (Label I × Place)} {t : Nat} {label : Label I} {l l' : Place}

theorem ctxDone_mono (cancelled : s.cancelled = true → s'.cancelled = true)
    (groups : ∀ (g : Nat) (group : Group), s.groups[g]? = some group → group.cancelled = true →
      ∃ group' : Group, s'.groups[g]? = some group' ∧ group'.cancelled = true)
    {ctx : List Nat} (ended : s.ctxDone ctx = true) : s'.ctxDone ctx = true := by
  simp only [Shared.ctxDone, Bool.or_eq_true, List.any_eq_true, Option.any_eq_true] at ended ⊢
  rcases ended with ended | ⟨g, member, group, found, ended⟩
  · exact .inl (cancelled ended)
  · obtain ⟨group', found', ended'⟩ := groups g group found ended
    exact .inr ⟨g, member, group', found', ended'⟩

theorem setGroup_getElem? {g g' : Nat} {group : Group} (atG : s.groups[g']? = some group) (group' : Group) :
    (s.setGroup g group').groups[g']? = some (if g' = g then group' else group) := by
  obtain ⟨inside, _⟩ := List.getElem?_eq_some_iff.mp atG
  split
  · subst g'
    exact List.getElem?_set_self inside
  · rename_i other
    exact (List.getElem?_set_ne (Ne.symm other)).trans atG

theorem ctxDone_setGroup {g : Nat} (group' : Group)
    (cancelled : ∀ group, s.groups[g]? = some group → group.cancelled = true → group'.cancelled = true) {ctx : List Nat}
    (ended : s.ctxDone ctx = true) : (s.setGroup g group').ctxDone ctx = true := by
  refine ctxDone_mono (s := s) ?_ ?_ ended
  · exact fun expired => expired
  intro g' group atG ended
  refine ⟨_, setGroup_getElem? atG group', ?_⟩
  split
  · subst g'
    exact cancelled group atG ended
  · exact ended

theorem ghost_set_exists {P : Place → Prop} {u : Nat} (found : ghosts[t]? = some (label, l)) (moves : P l → P l')
    (old : ∃ label l, ghosts[u]? = some (label, l) ∧ P l) :
    ∃ label₁ l₁, (ghosts.set t (label, l'))[u]? = some (label₁, l₁) ∧ P l₁ := by
  obtain ⟨label₁, l₁, atU, holds⟩ := old
  by_cases same : u = t
  · subst same
    cases found.symm.trans atU
    exact ⟨label, l', List.getElem?_set_self (List.getElem?_eq_some_iff.mp found).1, moves holds⟩
  · exact ⟨label₁, l₁, (List.getElem?_set_ne (Ne.symm same)).trans atU, holds⟩

theorem pending_set (found : ghosts[t]? = some (label, l)) (l' : Place) (g : Nat) :
    (ghosts.set t (label, l')).countP (pendingIn g) + (if pendingIn g (label, l) then 1 else 0) =
      ghosts.countP (pendingIn g) + (if pendingIn g (label, l') then 1 else 0) :=
  countP_set_add _ found _

section

variable (inv : TreeInv r creator s ghosts)
include inv

/-- A step of goroutine `t` that touches no group but `g`, and that one only as
stated, keeps the tree. -/
theorem TreeInv.setGroup {g : Nat} (found : ghosts[t]? = some (label, l)) (group' : Group) (l' : Place)
    (changed : ∀ group, s.groups[g]? = some group → group'.ctx = group.ctx ∧
      (group.cancelled = true → group'.cancelled = true) ∧ (group.err ≠ none → group'.err ≠ none) ∧
      (group'.err ≠ none → group'.cancelled = true) ∧
      group'.pending = (ghosts.set t (label, l')).countP (pendingIn g) ∧
      ∃ label'' l'', (ghosts.set t (label, l'))[creator g]? = some (label'', l'') ∧
        LeftBy (s.setGroup g group') g group' l'')
    (reported : ∀ g' item e, label = some (g', item) → l'.reported = some (some e) →
      l.reported = some (some e) ∨ g' = g ∧ group'.err ≠ none)
    (inside : ∀ g', l'.inside = some g' → l.inside = some g')
    (others : ∀ g', g' ≠ g → (l.inside = some g' → l'.inside = some g') ∧
      pendingIn g' (label, l') = pendingIn g' (label, l)) (failed : l'.failed = false → l.failed = false) :
    TreeInv r creator (s.setGroup g group') (ghosts.set t (label, l')) := by
  have length : s.groups.length = (s.setGroup g group').groups.length := List.length_set.symm
  have labels : (ghosts.set t (label, l')).map Prod.fst = ghosts.map Prod.fst := map_set_same _ found rfl
  refine ⟨by rw [labels]; exact inv.main, ?_, ?_, ?_⟩
  · intro t' g' item l'' atT
    have old : ∃ l₀, ghosts[t']? = some (some (g', item), l₀) ∧ ∀ e, l''.reported = some (some e) →
        l₀.reported = some (some e) ∨ g' = g ∧ group'.err ≠ none := by
      rcases getElem?_set_cases atT with ⟨rfl, same⟩ | ⟨_, old⟩
      · cases same
        exact ⟨l, found, fun e => reported g' item e rfl⟩
      · exact ⟨l'', old, fun e => .inl⟩
    obtain ⟨l₀, atT, reported⟩ := old
    obtain ⟨older, below, before, atG', same, failing⟩ := inv.member t' g' item l₀ atT
    refine ⟨older, labels.symm ▸ below, _, setGroup_getElem? atG' group', ?_⟩
    split
    · subst g'
      obtain ⟨ctx, _, err, _⟩ := changed before atG'
      refine ⟨same.trans ctx.symm, fun e said => ?_⟩
      rcases reported e said with earlier | ⟨_, now⟩
      · exact err (failing e earlier)
      · exact now
    · rename_i here
      refine ⟨same, fun e said => ?_⟩
      rcases reported e said with earlier | ⟨now, _⟩
      · exact failing e earlier
      · exact absurd now here
  · intro t' label'' l'' g' atT within
    rcases getElem?_set_cases atT with ⟨rfl, same⟩ | ⟨_, old⟩
    · cases same
      exact length ▸ inv.inside _ label l g' found (inside g' within)
    · exact length ▸ inv.inside t' label'' l'' g' old within
  · intro g' before atG'
    rcases getElem?_set_cases atG' with ⟨rfl, same⟩ | ⟨other, old⟩
    · cases same
      have atG := List.getElem?_eq_getElem (length ▸ (List.getElem?_eq_some_iff.mp atG').1)
      obtain ⟨ctx, _, _, closed, pending, left⟩ := changed _ atG
      exact ⟨ctx.trans (inv.group _ _ atG).1, closed, pending, left⟩
    · obtain ⟨path, shut, count, label'', l₁, atCreator, state⟩ := inv.group g' before old
      have kept := pending_set found l' g'
      rw [(others g' other).2] at kept
      refine ⟨path, shut, by omega, ghost_set_exists found (fun state => ?_) ⟨label'', l₁, atCreator, ?_⟩⟩
      · exact state.imp (others g' other).1 fun left => ⟨left.1, fun fine => left.2 (failed fine)⟩
      · exact state.imp id fun left => ⟨ctxDone_setGroup group' (fun group atG => (changed group atG).2.1) left.1, left.2⟩

/-- Permits play no part in the tree. -/
theorem TreeInv.hold (found : ghosts[t]? = some (label, l)) (holding : Bool) :
    TreeInv r creator s (ghosts.set t (label, { l with holding })) := by
  -- no group is touched: there is none at this place
  have kept := inv.setGroup (g := s.groups.length) found { ctx := [] } { l with holding } (fun group atG => by simp at atG)
    (fun _ _ _ _ said => .inl said) (fun _ within => within) (fun _ _ => ⟨id, rfl⟩) id
  rwa [Shared.setGroup, List.set_eq_of_length_le le_rfl] at kept

theorem TreeInv.frame (groups : s'.groups = s.groups) (ctx : s'.ctx = s.ctx)
    (cancelled : s.cancelled = true → s'.cancelled = true) :
    TreeInv r creator s' ghosts := by
  refine ⟨inv.main, ?_, groups ▸ inv.inside, ?_⟩
  · rw [groups, ctx]
    exact inv.member
  · intro g group atG
    rw [groups] at atG
    obtain ⟨path, shut, count, label, l, atCreator, state⟩ := inv.group g group atG
    refine ⟨by rw [ctx]; exact path, shut, count, label, l, atCreator, state.imp id fun left => ?_⟩
    refine ⟨ctxDone_mono (s := s) cancelled (fun g group found ended => ⟨group, ?_, ended⟩) left.1, left.2⟩
    rw [groups]
    exact found

theorem TreeInv.unused :
    ghosts.countP (pendingIn s.groups.length) = 0 := by
  refine List.countP_eq_zero.mpr fun ⟨label, l⟩ known pending => ?_
  obtain ⟨t, atT⟩ := List.mem_iff_getElem?.mp known
  cases label with
  | none => simp [pendingIn] at pending
  | some started =>
    obtain ⟨g, item⟩ := started
    obtain ⟨_, _, group, atG, _⟩ := inv.member t g item l atT
    simp only [pendingIn, Option.any_some, Bool.and_eq_true, decide_eq_true_eq] at pending
    rw [pending.1, List.getElem?_eq_none le_rfl] at atG
    cases atG

theorem TreeInv.withContext (found : ghosts[t]? = some (label, l)) (outside : l.inside = none) :
    TreeInv r (Function.update creator s.groups.length t)
      { s with groups := s.groups ++ [{ ctx := s.groups.length :: s.ctx t }] }
      (ghosts.set t (label, { l with inside := some s.groups.length })) := by
  have known : ∀ {g : Nat} {group : Group}, s.groups[g]? = some group →
      Function.update creator s.groups.length t g = creator g ∧
        (s.groups ++ [{ ctx := s.groups.length :: s.ctx t }])[g]? = some group := by
    intro g group atG
    have older : g < s.groups.length := (List.getElem?_eq_some_iff.mp atG).1
    exact ⟨Function.update_of_ne older.ne _ _, by rw [List.getElem?_append_left older]; exact atG⟩
  have unchanged : ∀ g, (ghosts.set t (label, { l with inside := some s.groups.length })).countP
      (pendingIn g) = ghosts.countP (pendingIn g) := fun g =>
    Nat.add_right_cancel (pending_set found { l with inside := some s.groups.length } g)
  have ended : ∀ {ctx : List Nat}, s.ctxDone ctx = true →
      Shared.ctxDone { s with groups := s.groups ++ [{ ctx := s.groups.length :: s.ctx t }] } ctx = true := by
    intro ctx expired
    refine ctxDone_mono (s := s) ?_ ?_ expired
    · exact fun expired => expired
    · exact fun g group atG expired => ⟨group, (known atG).2, expired⟩
  have labels : (ghosts.set t (label, { l with inside := some s.groups.length })).map Prod.fst = ghosts.map Prod.fst :=
    map_set_same _ found rfl
  refine ⟨by rw [labels]; exact inv.main, ?_, ?_, ?_⟩
  · intro t' g item l'' atT
    have old : ∃ l₀, ghosts[t']? = some (some (g, item), l₀) ∧ l₀.reported = l''.reported := by
      rcases getElem?_set_cases atT with ⟨rfl, same⟩ | ⟨_, old⟩
      · cases same
        exact ⟨l, found, rfl⟩
      · exact ⟨l'', old, rfl⟩
    obtain ⟨l₀, atT, reported⟩ := old
    obtain ⟨older, below, group, atG, same, failing⟩ := inv.member t' g item l₀ atT
    rw [(known atG).1, labels]
    exact ⟨older, below, group, (known atG).2, same, fun e said => failing e (reported.trans said)⟩
  · intro t' label'' l'' g atT within
    rcases getElem?_set_cases atT with ⟨rfl, same⟩ | ⟨_, old⟩
    · cases same
      cases within
      exact ⟨by simp, Function.update_self ..⟩
    · obtain ⟨older, made⟩ := inv.inside t' label'' l'' g old within
      exact ⟨by simp; omega, (Function.update_of_ne older.ne _ _).trans made⟩
  · intro g group atG
    rw [unchanged]
    rcases getElem?_concat_cases atG with old | ⟨rfl, rfl⟩
    · obtain ⟨path, shut, count, label'', l₁, atCreator, state⟩ := inv.group g group old
      rw [(known old).1]
      refine ⟨path, shut, count, ghost_set_exists found (fun state => ?_) ⟨label'', l₁, atCreator, ?_⟩⟩
      · exact .inr (state.resolve_left fun within => by cases outside.symm.trans within)
      · exact state.imp id fun left => ⟨ended left.1, left.2⟩
    · rw [Function.update_self]
      exact ⟨rfl, by simp, inv.unused.symm, label, _, List.getElem?_set_self (List.getElem?_eq_some_iff.mp found).1, .inl rfl⟩

theorem TreeInv.spawn {g : Nat} {item : I} {group : Group} {limiter : Option Nat} {started holding : Bool}
    (found : ghosts[t]? = some (label, l)) (within : l.inside = some g) (atG : s.groups[g]? = some group)
    (below : r (some (g, item)) label) :
    TreeInv r creator (s.start ghosts.length g group limiter started)
      (ghosts ++ [(some (g, item), ({ holding } : Place))]) := by
  have made : creator g = t := (inv.inside t label l g found within).2
  have young : t < ghosts.length := (List.getElem?_eq_some_iff.mp found).1
  have stays : ∀ {t' : Nat} {ghost}, ghosts[t']? = some ghost →
      (ghosts ++ [((some (g, item) : Label I), ({ holding } : Place))])[t']? = some ghost ∧
        Function.update s.ctx ghosts.length group.ctx t' = s.ctx t' := by
    intro t' ghost atT
    have old : t' < ghosts.length := (List.getElem?_eq_some_iff.mp atT).1
    exact ⟨by rw [List.getElem?_append_left old]; exact atT, Function.update_of_ne old.ne _ _⟩
  have ended : ∀ {ctx : List Nat}, s.ctxDone ctx = true →
      (s.start ghosts.length g group limiter started).ctxDone ctx = true := by
    intro ctx expired
    refine ctxDone_setGroup (s := s) { group with pending := group.pending + 1 } (fun group' atG' => ?_) expired
    cases atG.symm.trans atG'
    exact id
  have groups : ∀ {g' : Nat} {before : Group}, s.groups[g']? = some before →
      (s.start ghosts.length g group limiter started).groups[g']? =
        some (if g' = g then { group with pending := group.pending + 1 } else before) :=
    fun atG' => setGroup_getElem? atG' { group with pending := group.pending + 1 }
  refine ⟨?_, ?_, ?_, ?_⟩
  · intro t' atT
    rw [List.map_append] at atT
    rcases getElem?_concat_cases atT with old | ⟨_, new⟩
    · exact inv.main t' old
    · cases new
  · intro t' g' item' l'' atT
    rcases getElem?_concat_cases atT with old | ⟨rfl, new⟩
    · obtain ⟨older, ⟨label'', atCreator, below⟩, before, atG', same, failing⟩ := inv.member t' g' item' l'' old
      obtain ⟨l₁, atCreator⟩ := ghost_at_label atCreator
      refine ⟨older, ⟨label'', label_of_ghost (stays atCreator).1, below⟩, _, groups atG', ?_⟩
      rw [← (stays old).2] at same
      split
      · subst g'
        cases atG.symm.trans atG'
        exact ⟨same, failing⟩
      · exact ⟨same, failing⟩
    · cases new
      refine ⟨made ▸ young, ⟨label, made ▸ label_of_ghost (stays found).1, below⟩, _, groups atG, ?_⟩
      rw [if_pos rfl]
      exact ⟨Function.update_self .., fun _ said => by cases said⟩
  · intro t' label'' l'' g' atT within'
    rcases getElem?_concat_cases atT with old | ⟨_, new⟩
    · obtain ⟨known, maker⟩ := inv.inside t' label'' l'' g' old within'
      exact ⟨by simpa [Shared.start] using known, maker⟩
    · cases new
      cases within'
  · intro g' before atG'
    rw [List.countP_append, List.countP_singleton]
    rcases getElem?_set_cases atG' with ⟨rfl, same⟩ | ⟨other, old⟩
    · cases same
      obtain ⟨path, shut, count, _⟩ := inv.group _ group atG
      refine ⟨?_, shut, ?_, label, l, made ▸ (stays found).1, .inl within⟩
      · rw [made] at path ⊢
        exact path.trans (congrArg _ (stays found).2.symm)
      · simp [pendingIn, count]
    · obtain ⟨path, shut, count, label'', l₁, atCreator, state⟩ := inv.group g' before old
      refine ⟨path.trans (congrArg _ (stays atCreator).2.symm), shut, ?_, label'', l₁, (stays atCreator).1, ?_⟩
      · simp [pendingIn, count, Ne.symm other]
      · exact state.imp id fun left => ⟨ended left.1, left.2⟩

end

end OrasGo.Syncutil
