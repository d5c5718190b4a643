import OrasGo.Syncutil.Go

/-! Proof outlines for the callback of `Go` that speak of its own operations only. -/

namespace OrasGo.Syncutil
open Interleaving
variable {U I S L : Type} {UAns : U → Type}

/-- The outline `γ` of the callback's operations, among those of `Go`. `calm`
holds whenever the goroutine may have to wait for others. -/
def callbackGhost (γ : Label I → Ghost U UAns L) (calm : Label I → L → Prop) (label : Label I) :
    Ghost (Op U I) (Ans UAns) L where
  pre op l := match op with
    | .regionStart | .spawn _ _ | .wait _ => calm label l
    | .user op => (γ label).pre op l
    | _ => True
  next op answer l l' := match op, answer with
    | .user op, answer => (γ label).next op answer l l'
    | _, _ => l' = l

section Program
variable {γ : Label I → Ghost U UAns L} {calm : Label I → L → Prop} {label : Label I} {l : L}

theorem callback_goLoop (quiet : calm label l) (g : Nat) (items : List I) :
    wp (callbackGhost γ calm label) (goLoop g items : Code U I UAns _) (fun _ l' => l' = l) l := by
  induction items with
  | nil =>
    simp only [goLoop, wait, call, Prog.perform, wp_call]
    refine ⟨quiet, ?_⟩
    rintro answer _ rfl
    rfl
  | cons item rest ih =>
    simp only [goLoop, spawn, call, Prog.perform_bind, wp_call]
    refine ⟨quiet, ?_⟩
    rintro answer _ rfl
    cases answer with
    | none => exact ih
    | some err =>
      simp only [load, call, Prog.perform_bind, wp_call]
      refine ⟨trivial, ?_⟩
      rintro egErr _ rfl
      cases egErr <;> rfl

theorem callback_go (quiet : calm label l) (items : List I) :
    wp (callbackGhost γ calm label) (go items : Code U I UAns _) (fun _ l' => l' = l) l := by
  simp only [go, withContext, call, Prog.perform_bind, wp_call]
  refine ⟨trivial, ?_⟩
  rintro g _ rfl
  exact callback_goLoop quiet g items

theorem callback_goroutine {fn : I → Code U I UAns (Option Error)} {item : I} {g : Nat}
    {post : Option Error → L → Prop}
    (body : wp (callbackGhost γ calm (some (g, item))) (fn item) post l) :
    wp (callbackGhost γ calm (some (g, item))) (goroutine fn g item) post l := by
  refine wp_seq _ body fun err l' finished => ?_
  cases err <;>
    simp [compareAndSwap, regionEnd, report, call, callbackGhost, finished]

end Program

section Run
variable {γ : Label I → Ghost U UAns L} {calm : Label I → L → Prop} {post : Label I → Option Error → L → Prop}
  {J : S → List (Label I × L) → Prop} {fresh : L} {fn : I → Code U I UAns (Option Error)}
  {user : S → Nat → Bool → (op : U) → UAns op → Option S}

section

variable (body : ∀ g item, wp (callbackGhost γ calm (some (g, item))) (fn item) (post (some (g, item))) fresh)
include body

/-- An invariant `J` of the callback's state that its operations keep, and that
new goroutines start in with ghost state `fresh`, is kept by every operation. -/
theorem callback_sound (keeps : CallbackKeeps γ fresh user J) :
    Sound (callbackGhost γ calm) post (machine fn user) fun s ghosts => J s.user ghosts := by
  intro s ghosts t label l op answer s' spawned inv found pre performed
  have responded := (perform_eq_some.mp performed).2
  cases op with
  | spawn g item =>
    obtain ⟨group, atG, ⟨rfl, rfl, _, rfl⟩ | ⟨err, rfl, _, expired, _, rfl, rfl⟩⟩ := respond_spawn responded
    · refine ⟨l, [(some (g, item), fresh)], rfl, .cons ⟨rfl, callback_goroutine (body g item)⟩ .nil, ?_⟩
      rw [set_same found]
      exact keeps.start _ _ _ inv
    · exact .stay found rfl inv
  | user op =>
    obtain ⟨user', answered, rfl, rfl⟩ := respond_user responded
    obtain ⟨l', moved, inv'⟩ := keeps.answers _ _ _ _ _ _ _ _ _ inv found pre answered
    exact .move _ moved inv'
  | regionStart | regionEnd | withContext | load | wait | compareAndSwap | report =>
    obtain ⟨kept, rfl⟩ := respond_quiet responded (by simp) (by simp)
    exact .stay found rfl (kept ▸ inv)

theorem callback_outline (keeps : CallbackKeeps γ fresh user J) {σ₀ σ : State U I UAns S}
    (initially : Outline (callbackGhost γ calm) post (fun s ghosts => J s.user ghosts) σ₀)
    (reach : Reach (machine fn user) σ₀ σ) :
    Outline (callbackGhost γ calm) post (fun s ghosts => J s.user ghosts) σ := by
  refine initially.reach (callback_sound body keeps) ?_ reach
  rintro s ghosts s' inv ⟨_, _, rfl⟩
  exact inv

theorem callback_reach (main : calm none fresh ∧ ∀ err, post none err fresh) (keeps : CallbackKeeps γ fresh user J)
    {limiter : Option Nat} {user₀ : S} {items : List I} (first : J user₀ [(none, fresh)]) {σ : State U I UAns S}
    (reach : Reach (machine fn user) (initial limiter user₀ items) σ) :
    Outline (callbackGhost γ calm) post (fun s ghosts => J s.user ghosts) σ := by
  have initially : Outline (callbackGhost γ calm) post (fun s ghosts => J s.user ghosts)
      (initial limiter user₀ items : State U I UAns S) := by
    refine ⟨[(none, fresh)], .cons ⟨rfl, ?_⟩ .nil, first⟩
    refine wp_mono _ (fun err l same => ?_) (callback_go main.1 items)
    cases same
    exact main.2 err
  exact callback_outline body keeps initially reach

end

end Run

end OrasGo.Syncutil
