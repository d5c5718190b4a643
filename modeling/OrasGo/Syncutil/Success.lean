import OrasGo.Syncutil.Go

/-! A `Go` without a limiter whose callbacks all succeed succeeds itself. -/

namespace OrasGo.Syncutil
open Interleaving
variable {U I S : Type} {UAns : U → Type} {good : I → Prop} {fact : (op : U) → UAns op → Prop}
  {fn : I → Code U I UAns (Option Error)} {user : S → Nat → Bool → (op : U) → UAns op → Option S}

/-- Only good items are handed to `Go`, and nobody ever gets an error from it.
`fact` is what the callback's own operations answer. -/
def successGhost (good : I → Prop) (fact : (op : U) → UAns op → Prop) : Ghost (Op U I) (Ans UAns) Unit where
  pre op _ := match op with
    | .spawn _ item => good item
    | .compareAndSwap _ _ => False
    | .report _ err => err = none
    | _ => True
  next op answer _ _ := match op, answer with
    | .regionStart, answer => answer = none
    | .spawn _ _, answer => answer = none
    | .wait _, answer => answer = none
    | .user op, answer => fact op answer
    | _, _ => True

theorem success_goLoop {items : List I} (all : ∀ item ∈ items, good item) (g : Nat) :
    wp (successGhost good fact) (goLoop g items : Code U I UAns _) (fun err _ => err = none) () := by
  induction items with
  | nil => exact ⟨trivial, fun answer _ moved => moved⟩
  | cons item rest ih =>
    refine ⟨all item List.mem_cons_self, fun answer _ moved => ?_⟩
    cases moved
    exact ih fun item member => all item (List.mem_cons_of_mem _ member)

theorem success_go {items : List I} (all : ∀ item ∈ items, good item) :
    wp (successGhost good fact) (go items : Code U I UAns _) (fun err _ => err = none) () :=
  ⟨trivial, fun g _ _ => success_goLoop all g⟩

theorem success_goroutine {item : I} {g : Nat}
    (body : wp (successGhost good fact) (fn item) (fun err _ => err = none) ()) :
    wp (successGhost good fact) (goroutine fn g item) (fun err _ => err = none) () := by
  refine wp_seq _ body fun err _ success => ?_
  subst success
  exact ⟨trivial, fun _ _ _ => ⟨rfl, fun _ _ _ => rfl⟩⟩

/-- No group has an error. -/
structure SuccessInv (s : Shared S) : Prop where
  unlimited : s.limiter = none
  running : s.crashed = false
  nil : ∀ (g : Nat) group, s.groups[g]? = some group → group.err = none

section

variable {s : Shared S} (inv : SuccessInv s)
include inv

theorem SuccessInv.setGroup {g : Nat} {group : Group} (nil : group.err = none) : SuccessInv (s.setGroup g group) := by
  refine ⟨inv.unlimited, inv.running, fun g' group' found => ?_⟩
  simp only [Shared.setGroup] at found
  rw [List.getElem?_set] at found
  split at found
  · split at found
    · cases found
      exact nil
    · cases found
  · exact inv.nil g' group' found

theorem SuccessInv.withContext {ctx : List Nat} :
    SuccessInv { s with groups := s.groups ++ [{ ctx }] } := by
  refine ⟨inv.unlimited, inv.running, fun g group found => ?_⟩
  rcases List.mem_append.mp (List.mem_of_getElem? found) with old | new
  · obtain ⟨g', found'⟩ := List.mem_iff_getElem?.mp old
    exact inv.nil g' group found'
  · cases List.mem_singleton.mp new
    rfl

end

theorem success_sound (body : ∀ item, good item → wp (successGhost good fact) (fn item) (fun err _ => err = none) ())
    (answers : ∀ s t ended op answer s', user s t ended op answer = some s' → fact op answer) :
    Sound (fun _ => successGhost good fact) (fun _ err _ => err = none) (machine fn user)
      (fun s _ => SuccessInv s) := by
  intro s ghosts t label l op answer s' spawned inv found pre performed
  have responded := (perform_eq_some.mp performed).2
  cases op with
  | regionStart =>
    have limiter := respond_unlimited inv.unlimited responded
    obtain ⟨rfl, ⟨rfl, ⟨nil, _⟩ | ⟨_, limited⟩⟩ | ⟨_, _, free, _, rfl⟩⟩ := respond_regionStart responded
    · exact ⟨(), [], nil, .nil, inv⟩
    · rw [inv.unlimited] at limited
      cases limited
    · cases limiter
  | regionEnd =>
    have limiter := respond_unlimited inv.unlimited responded
    obtain ⟨rfl, rfl⟩ := respond_regionEnd responded
    exact ⟨(), [], trivial, .nil, limiter, inv.running, inv.nil⟩
  | withContext =>
    obtain ⟨_, rfl, rfl⟩ := respond_withContext responded
    exact ⟨(), [], trivial, .nil, inv.withContext⟩
  | spawn g item =>
    have limiter := respond_unlimited inv.unlimited responded
    obtain ⟨group, atG, ⟨rfl, rfl, _, rfl⟩ | ⟨_, _, limited, _⟩⟩ := respond_spawn responded
    · refine ⟨(), [(some (g, item), ())], rfl, .cons ⟨rfl, success_goroutine (body item pre)⟩ .nil, ?_⟩
      have counted : SuccessInv (s.setGroup g { group with pending := group.pending + 1 }) :=
        inv.setGroup (inv.nil g group atG)
      exact ⟨limiter, inv.running, counted.nil⟩
    · rw [inv.unlimited] at limited
      cases limited
  | load g =>
    obtain ⟨rfl, rfl⟩ := respond_load responded
    exact ⟨(), [], trivial, .nil, inv⟩
  | wait g =>
    obtain ⟨group, atG, _, rfl, rfl, rfl⟩ := respond_wait responded
    have nil := inv.nil g group atG
    exact ⟨(), [], nil, .nil, inv.setGroup nil⟩
  | compareAndSwap g err => exact absurd pre id
  | report g err =>
    obtain ⟨group, atG, rfl, rfl⟩ := respond_report responded
    change err = none at pre
    subst pre
    exact ⟨(), [], trivial, .nil, inv.setGroup (inv.nil g group atG)⟩
  | user op =>
    obtain ⟨user', answered, rfl, rfl⟩ := respond_user responded
    exact ⟨(), [], answers _ _ _ _ _ _ answered, .nil, ⟨inv.unlimited, inv.running, inv.nil⟩⟩

/-- If the callback succeeds on good items and hands only good items to `Go`,
then a `Go` without a limiter on good items never fails and never panics. -/
theorem success_reach (body : ∀ item, good item → wp (successGhost good fact) (fn item) (fun err _ => err = none) ())
    (answers : ∀ s t ended op answer s', user s t ended op answer = some s' → fact op answer)
    {items : List I} (all : ∀ item ∈ items, good item) {user₀ : S} {σ : State U I UAns S}
    (reach : Reach (machine fn user) (initial none user₀ items) σ) :
    σ.shared.crashed = false ∧ ∀ t err, σ.Returned t err → err = none := by
  have start : Outline (fun _ => successGhost good fact) (fun _ err _ => err = none) (fun s _ => SuccessInv s)
      (initial none user₀ items : State U I UAns S) := by
    refine ⟨[(none, ())], .cons ⟨rfl, success_go all⟩ .nil, rfl, rfl, fun g group found => ?_⟩
    cases found
  obtain ⟨ghosts, fits, inv⟩ := start.reach (success_sound body answers)
    (fun s _ s' inv moved => by obtain ⟨_, _, rfl⟩ := moved; exact ⟨inv.unlimited, inv.running, inv.nil⟩) reach
  refine ⟨inv.running, fun t err ⟨label, found⟩ => ?_⟩
  obtain ⟨_, _, post⟩ := ghost_of_thread fits found
  exact post

end OrasGo.Syncutil
