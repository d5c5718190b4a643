import OrasGo.Base.Pool

/-! Termination of a pool by an outline that spends credits: each step, of a
thread or of the surroundings, lowers what is left. -/

namespace Interleaving
variable {Op : Type} {Ans : Op → Type} {S τ α L : Type} {γ : τ → Ghost Op Ans L} {post : τ → α → L → Prop}

/-- The obligation of an outline in which `I n` says that at most `n` credits
are left: each answer costs at least one. -/
def Spends (γ : τ → Ghost Op Ans L) (post : τ → α → L → Prop) (M : Machine Op Ans S τ α)
    (I : Nat → S → List (τ × L) → Prop) : Prop :=
  ∀ n s ghosts t label l op a s' spawned, I n s ghosts → ghosts[t]? = some (label, l) →
    (γ label).pre op l → M.perform s t ghosts.length op a = some (s', spawned) →
    ∃ m < n, ∃ l' new, (γ label).next op a l l' ∧ List.Forall₂ (Fits γ post) spawned new ∧
      I m s' (ghosts.set t (label, l') ++ new)

theorem Outline.acc {M : Machine Op Ans S τ α} {I : Nat → S → List (τ × L) → Prop}
    (spends : Spends γ post M I)
    (env : ∀ n s ghosts s', I n s ghosts → M.env s s' → ∃ m < n, I m s' ghosts) {n : Nat}
    {σ : Pool Op Ans S τ α} (outline : Outline γ post (I n) σ) : Acc (fun σ' σ => Step M σ σ') σ := by
  induction n using Nat.strongRecOn generalizing σ with
  | ind n ih =>
    obtain ⟨ghosts, fits, holds⟩ := outline
    refine ⟨_, fun σ' step => ?_⟩
    cases step with
    | env moved =>
      obtain ⟨m, fewer, holds'⟩ := env _ _ _ _ holds moved
      exact ih m fewer ⟨ghosts, fits, holds'⟩
    | thread t moved =>
      cases moved with
      | @answer label op next a s spawned found performed =>
        obtain ⟨l, atGhost, pre, follows⟩ := ghost_of_thread fits found
        rw [fits.length_eq] at performed
        obtain ⟨m, fewer, l', new, moved, started, holds'⟩ := spends _ _ _ _ _ _ _ _ _ _ holds atGhost pre performed
        refine ih m fewer ⟨_, ?_, holds'⟩
        exact List.rel_append (Forall₂.set fits t ⟨rfl, follows a l' moved⟩) started

/-- What the threads hold together. -/
def held : List (τ × Nat) → Nat
  | [] => 0
  | (_, l) :: ghosts => l + held ghosts

theorem held_append (ghosts new : List (τ × Nat)) : held (ghosts ++ new) = held ghosts + held new := by
  induction ghosts with
  | nil => simp only [List.nil_append, held, Nat.zero_add]
  | cons ghost rest ih =>
    simp only [List.cons_append, held, ih]
    omega

theorem held_set {ghosts : List (τ × Nat)} {t l : Nat} {label : τ} (found : ghosts[t]? = some (label, l)) (l' : Nat) :
    held (ghosts.set t (label, l')) + l = held ghosts + l' := by
  induction ghosts generalizing t with
  | nil => simp at found
  | cons ghost rest ih =>
    cases t with
    | zero =>
      cases Option.some.inj found
      simp only [held, List.set_cons_zero]
      omega
    | succ t =>
      have later := ih found
      simp only [held, List.set_cons_succ] at later ⊢
      omega

/-- A run that cannot go on forever and in which every state outside `Q` has a
next one ends in `Q`. -/
theorem exists_reach {M : Machine Op Ans S τ α} {Q : Pool Op Ans S τ α → Prop}
    {σ : Pool Op Ans S τ α} (terminates : Acc (fun σ' σ => Step M σ σ') σ)
    (progress : ∀ σ', Reach M σ σ' → Q σ' ∨ ∃ σ'', Step M σ' σ'') : ∃ σ', Reach M σ σ' ∧ Q σ' := by
  induction terminates with
  | intro σ _ ih =>
    rcases progress σ .refl with done | ⟨σ', step⟩
    · exact ⟨σ, .refl, done⟩
    · obtain ⟨σ'', reach, done⟩ := ih σ' step fun σ'' reach => progress σ'' (.head step reach)
      exact ⟨σ'', .head step reach, done⟩

end Interleaving
