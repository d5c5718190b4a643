import OrasGo.Base.Credits
import OrasGo.Syncutil.Go

/-! Runs of `Go` end when the callbacks have a budget for what they do. -/

namespace OrasGo.Syncutil
open Interleaving
variable {U I S : Type} {UAns : U → Type}

/-- Every operation costs one credit, and starting a goroutine what the new one
gets. The answer to an operation of the callback may bring new credits. -/
def creditGhost (child : Nat) (may : I → Prop) (allowed : U → Prop) (fact : (op : U) → UAns op → Prop)
    (gain : (op : U) → UAns op → Nat) : Ghost (Op U I) (Ans UAns) Nat where
  pre op l := match op with
    | .spawn _ item => child < l ∧ may item
    | .user op => 0 < l ∧ allowed op
    | _ => 0 < l
  next op answer l l' := match op, answer with
    | .spawn _ _, none => l' + (child + 1) = l
    | .user op, answer => fact op answer ∧ l' + 1 = l + gain op answer
    | _, _ => l' + 1 = l

section Program
variable {child : Nat} {may : I → Prop} {allowed : U → Prop} {fact : (op : U) → UAns op → Prop}
  {gain : (op : U) → UAns op → Nat}

theorem credit_goLoop {items : List I} (all : ∀ item ∈ items, may item) (g left l : Nat)
    (enough : items.length * (child + 1) + 2 + left ≤ l) :
    wp (creditGhost child may allowed fact gain) (goLoop g items : Code U I UAns _) (fun _ l' => left ≤ l') l := by
  induction items generalizing l with
  | nil =>
    refine ⟨show 0 < l by omega, fun answer l' moved => ?_⟩
    change l' + 1 = l at moved
    change left ≤ l'
    omega
  | cons item rest ih =>
    rw [List.length_cons, Nat.succ_mul] at enough
    refine ⟨⟨by omega, all item List.mem_cons_self⟩, fun answer l' moved => ?_⟩
    cases answer with
    | none =>
      change l' + (child + 1) = l at moved
      exact ih (fun item member => all item (List.mem_cons_of_mem _ member)) l' (by omega)
    | some err =>
      change l' + 1 = l at moved
      refine ⟨show 0 < l' by omega, fun egErr l'' moved => ?_⟩
      change l'' + 1 = l' at moved
      cases egErr <;> exact show left ≤ l'' by omega

theorem credit_go {items : List I} (all : ∀ item ∈ items, may item) (left l : Nat)
    (enough : items.length * (child + 1) + 3 + left ≤ l) :
    wp (creditGhost child may allowed fact gain) (go items : Code U I UAns _) (fun _ l' => left ≤ l') l := by
  refine ⟨show 0 < l by omega, fun g l' moved => ?_⟩
  change l' + 1 = l at moved
  exact credit_goLoop all g left l' (by omega)

/-- The callback leaves three credits for the end of its goroutine. -/
theorem credit_goroutine {fn : I → Code U I UAns (Option Error)} {item : I} {g l : Nat}
    (body : wp (creditGhost child may allowed fact gain) (fn item) (fun _ l' => 3 ≤ l') l) :
    wp (creditGhost child may allowed fact gain) (goroutine fn g item) (fun _ _ => True) l := by
  refine wp_seq _ body fun err l enough => ?_
  have finish (l : Nat) (enough : 2 ≤ l) : wp (@creditGhost U I UAns child may allowed fact gain)
      (do regionEnd; report g err; return err) (fun _ _ => True) l := by
    refine ⟨show 0 < l by omega, fun _ l' moved => ⟨?_, fun _ _ _ => trivial⟩⟩
    change l' + 1 = l at moved
    change 0 < l'
    omega
  cases err with
  | none => exact finish l (by omega)
  | some e =>
    refine ⟨show 0 < l by omega, fun _ l' moved => finish l' ?_⟩
    change l' + 1 = l at moved
    omega

end Program

section Terminates
variable {child : Nat} {may : I → Prop} {allowed : U → Prop} {fact : (op : U) → UAns op → Prop}
  {gain : (op : U) → UAns op → Nat} {fn : I → Code U I UAns (Option Error)}
  {user : S → Nat → Bool → (op : U) → UAns op → Option S} {potential : S → Nat}

/-- The credits of the goroutines, those that answers can still bring, and one
for the cancellation by the caller. -/
def credits (potential : S → Nat) (s : Shared S) (ghosts : List (Label I × Nat)) : Nat :=
  held ghosts + potential s.user + if s.cancelled then 0 else 1

theorem credit_spends (body : ∀ item, may item →
      wp (creditGhost child may allowed fact gain) (fn item) (fun _ l' => 3 ≤ l') child)
    (answers : ∀ s t ended op answer s', user s t ended op answer = some s' → allowed op →
      fact op answer ∧ potential s' + gain op answer ≤ potential s) :
    Spends (fun _ => creditGhost child may allowed fact gain) (fun _ _ _ => True) (machine fn user)
      (fun n s ghosts => credits potential s ghosts = n) := by
  intro n s ghosts t label l op answer s' spawned count found pre performed
  have responded := (perform_eq_some.mp performed).2
  have spend (cost : 0 < l) (user : s'.user = s.user) (cancelled : s'.cancelled = s.cancelled) :
      ∃ m < n, ∃ l', l' + 1 = l ∧ credits potential s' (ghosts.set t (label, l') ++ []) = m := by
    have sum := held_set found (l - 1)
    refine ⟨_, ?_, l - 1, by omega, rfl⟩
    simp only [credits, List.append_nil, user, cancelled] at count ⊢
    omega
  cases op with
  | spawn g item =>
    obtain ⟨cost, good⟩ := pre
    obtain ⟨group, _, ⟨rfl, rfl, _⟩ | ⟨err, rfl, _, _, _, rfl, rfl⟩⟩ := respond_spawn responded
    · have user := respond_user_kept responded (by simp)
      have cancelled := (respond_frame responded).1
      have sum := held_set found (l - (child + 1))
      refine ⟨_, ?_, l - (child + 1), [(some (g, item), child)], show _ = _ by omega,
        .cons ⟨rfl, credit_goroutine (body item good)⟩ .nil, rfl⟩
      simp only [credits, held_append, user, cancelled] at count ⊢
      simp only [held] at count sum ⊢
      omega
    · obtain ⟨m, fewer, l', moved, rest⟩ := spend (by omega) rfl rfl
      exact ⟨m, fewer, l', [], moved, .nil, rest⟩
  | regionStart | regionEnd | withContext | load | wait | compareAndSwap | report =>
    obtain ⟨user, rfl⟩ := respond_quiet responded (by simp) (by simp)
    obtain ⟨m, fewer, l', moved, rest⟩ := spend pre user (respond_frame responded).1
    exact ⟨m, fewer, l', [], moved, .nil, rest⟩
  | user op =>
    obtain ⟨cost, good⟩ := pre
    obtain ⟨user', answered, rfl, rfl⟩ := respond_user responded
    obtain ⟨true, paid⟩ := answers _ _ _ _ _ _ answered good
    have sum := held_set found (l + gain op answer - 1)
    refine ⟨_, ?_, l + gain op answer - 1, [], ⟨true, by omega⟩, .nil, rfl⟩
    simp only [credits, List.append_nil] at count ⊢
    omega

/-- No infinite run: what the callback does on an item it may get is paid by
`child` credits and by what the answers to its operations bring, and these are
bounded by `potential`. -/
theorem credit_acc (body : ∀ item, may item →
      wp (creditGhost child may allowed fact gain) (fn item) (fun _ l' => 3 ≤ l') child)
    (answers : ∀ s t ended op answer s', user s t ended op answer = some s' → allowed op →
      fact op answer ∧ potential s' + gain op answer ≤ potential s)
    {items : List I} (all : ∀ item ∈ items, may item) (limiter : Option Nat) (user₀ : S) :
    Acc (fun σ' σ => Step (machine fn user) σ σ') (initial limiter user₀ items) := by
  refine Outline.acc (credit_spends body answers) ?_
    ⟨[(none, items.length * (child + 1) + 3)], .cons ⟨rfl, ?_⟩ .nil, rfl⟩
  · rintro n s ghosts s' count ⟨running, _, rfl⟩
    refine ⟨_, ?_, rfl⟩
    simp only [credits, running, Bool.false_eq_true, if_true, if_false] at count ⊢
    omega
  · exact wp_mono _ (fun _ _ _ => trivial) (credit_go all 0 _ (by omega))

end Terminates

end OrasGo.Syncutil
