import Mathlib.Data.Finmap
import Mathlib.Data.List.Forall2
import OrasGo.Base.Program

/-! Pools of programs over one shared state, run in every interleaving: the
invariant rule for a proof that annotates each thread with a ghost state. -/

namespace Interleaving

structure Thread (Op : Type) (Ans : Op → Type) (τ α : Type) where
  label : τ
  prog : Prog Op Ans α

structure Pool (Op : Type) (Ans : Op → Type) (S τ α : Type) where
  shared : S
  threads : List (Thread Op Ans τ α)

/-- `perform s t n op answer` is the shared state after thread `t` of a pool of
`n` threads got `answer` for `op`, with the threads started by it, when that
answer is possible. `env` is what the surroundings may do on their own. -/
structure Machine (Op : Type) (Ans : Op → Type) (S τ α : Type) where
  perform : S → Nat → Nat → (op : Op) → Ans op → Option (S × List (Thread Op Ans τ α))
  env : S → S → Prop

variable {Op : Type} {Ans : Op → Type} {S τ α : Type}

inductive StepBy (M : Machine Op Ans S τ α) (t : Nat) : Pool Op Ans S τ α → Pool Op Ans S τ α → Prop
  | answer {σ label op next a s spawned} :
      σ.threads[t]? = some ⟨label, .call op next⟩ →
      M.perform σ.shared t σ.threads.length op a = some (s, spawned) →
      StepBy M t σ ⟨s, σ.threads.set t ⟨label, next a⟩ ++ spawned⟩

inductive Step (M : Machine Op Ans S τ α) : Pool Op Ans S τ α → Pool Op Ans S τ α → Prop
  | thread {σ σ'} (t : Nat) : StepBy M t σ σ' → Step M σ σ'
  | env {σ s} : M.env σ.shared s → Step M σ ⟨s, σ.threads⟩

abbrev Reach (M : Machine Op Ans S τ α) : Pool Op Ans S τ α → Pool Op Ans S τ α → Prop :=
  Relation.ReflTransGen (Step M)

def Pool.Returned (σ : Pool Op Ans S τ α) (t : Nat) (value : α) : Prop :=
  ∃ label, σ.threads[t]? = some ⟨label, .ret value⟩

/-- Thread `t` still has an operation to perform. -/
def Pool.Unfinished (σ : Pool Op Ans S τ α) (t : Nat) : Prop :=
  ∃ label op next, σ.threads[t]? = some ⟨label, .call op next⟩

/-- What thread `t` has returned. -/
def Pool.returned? (σ : Pool Op Ans S τ α) (t : Nat) : Option α :=
  match σ.threads[t]? with
  | some ⟨_, .ret value⟩ => some value
  | _ => none

variable {σ : Pool Op Ans S τ α} {t : Nat} {M : Machine Op Ans S τ α} {σ' : Pool Op Ans S τ α}
  {oracle : S → Nat → (op : Op) → Ans op}

theorem Pool.returned?_eq_some {value : α} :
    σ.returned? t = some value ↔ σ.Returned t value := by
  unfold Pool.returned?
  constructor
  · intro returned
    split at returned
    · rename_i label value' found
      cases returned
      exact ⟨label, found⟩
    · cases returned
  · rintro ⟨label, found⟩
    rw [found]

/-- A thread keeps its label, and once it has returned it stays as it is. -/
theorem Step.thread_kept (step : Step M σ σ') {th : Thread Op Ans τ α} (found : σ.threads[t]? = some th) :
    ∃ th', σ'.threads[t]? = some th' ∧ th'.label = th.label ∧ ∀ value, th.prog = .ret value → th' = th := by
  cases step with
  | env _ => exact ⟨th, found, rfl, fun _ _ => rfl⟩
  | thread t' moved =>
    cases moved with
    | @answer label op next a s spawned atT _ =>
      have inside : t < σ.threads.length := (List.getElem?_eq_some_iff.mp found).1
      by_cases same : t' = t
      · subst same
        cases atT.symm.trans found
        refine ⟨⟨label, next a⟩, ?_, rfl, nofun⟩
        rw [List.getElem?_append_left (by simpa using inside), List.getElem?_set_self inside]
      · refine ⟨th, ?_, rfl, fun _ _ => rfl⟩
        rw [List.getElem?_append_left (by simpa using inside), List.getElem?_set_ne same]
        exact found

theorem Pool.Returned.step {value : α} (returned : σ.Returned t value) (step : Step M σ σ') : σ'.Returned t value := by
  obtain ⟨label, found⟩ := returned
  obtain ⟨th', found', _, same⟩ := step.thread_kept found
  exact ⟨label, same value rfl ▸ found'⟩

theorem Reach.invariant {P : Pool Op Ans S τ α → Prop} (keep : ∀ σ σ', P σ → Step M σ σ' → P σ')
    (reach : Reach M σ σ') (start : P σ) : P σ' := by
  induction reach with
  | refl => exact start
  | tail _ step ih => exact keep _ _ ih step

theorem Reach.thread_exists {th : Thread Op Ans τ α} (reach : Reach M σ σ') (found : σ.threads[t]? = some th) :
    ∃ th', σ'.threads[t]? = some th' := by
  refine Reach.invariant (P := fun σ => ∃ th', σ.threads[t]? = some th') ?_ reach ⟨th, found⟩
  rintro σ₁ σ₂ ⟨th', found'⟩ step
  obtain ⟨th'', found'', _⟩ := step.thread_kept found'
  exact ⟨th'', found''⟩

/-- Thread `t` performs its next operation and gets the answer of `oracle`. -/
def Pool.step? (M : Machine Op Ans S τ α) (oracle : S → Nat → (op : Op) → Ans op) (t : Nat)
    (σ : Pool Op Ans S τ α) : Option (Pool Op Ans S τ α) :=
  match σ.threads[t]? with
  | some ⟨label, .call op next⟩ =>
    (M.perform σ.shared t σ.threads.length op (oracle σ.shared t op)).map fun (s, spawned) =>
      ⟨s, σ.threads.set t ⟨label, next (oracle σ.shared t op)⟩ ++ spawned⟩
  | _ => none

/-- The run in which, round by round, each thread that can takes one step. -/
def Pool.rounds (M : Machine Op Ans S τ α) (oracle : S → Nat → (op : Op) → Ans op) :
    Nat → Pool Op Ans S τ α → Pool Op Ans S τ α
  | 0, σ => σ
  | n + 1, σ => rounds M oracle n
    ((List.range σ.threads.length).foldl (fun σ t => (σ.step? M oracle t).getD σ) σ)

theorem Pool.step?_stepBy (moved : σ.step? M oracle t = some σ') : StepBy M t σ σ' := by
  unfold Pool.step? at moved
  split at moved
  · rename_i label op next found
    obtain ⟨⟨s, spawned⟩, performed, rfl⟩ := Option.map_eq_some_iff.mp moved
    exact .answer found performed
  · cases moved

theorem Pool.turns_reach (turns : List Nat) (σ : Pool Op Ans S τ α) :
    Reach M σ (turns.foldl (fun σ t => (σ.step? M oracle t).getD σ) σ) := by
  induction turns generalizing σ with
  | nil => exact .refl
  | cons t rest ih =>
    rw [List.foldl_cons]
    cases moved : σ.step? M oracle t with
    | none => exact ih σ
    | some σ' => exact .head (.thread t (Pool.step?_stepBy moved)) (ih σ')

theorem Pool.rounds_reach (n : Nat) (σ : Pool Op Ans S τ α) : Reach M σ (σ.rounds M oracle n) := by
  induction n generalizing σ with
  | zero => exact .refl
  | succ n ih => exact (Pool.turns_reach _ σ).trans (ih _)

/-- Thread `t` runs for a while on its own. -/
inductive Solo (M : Machine Op Ans S τ α) (t n : Nat) : S → Prog Op Ans α → S → Prog Op Ans α → Prop
  | refl {s p} : Solo M t n s p s p
  | step {s s' s'' op next a p} : M.perform s t n op a = some (s', []) → Solo M t n s' (next a) s'' p →
      Solo M t n s (.call op next) s'' p

theorem Solo.reach {s s' : S} {p p' : Prog Op Ans α} {label : τ} {threads : List (Thread Op Ans τ α)}
    (solo : Solo M t threads.length s p s' p') (found : threads[t]? = some ⟨label, p⟩) :
    Reach M ⟨s, threads⟩ ⟨s', threads.set t ⟨label, p'⟩⟩ := by
  generalize length : threads.length = n at solo
  induction solo generalizing threads with
  | refl =>
    obtain ⟨_, same⟩ := List.getElem?_eq_some_iff.mp found
    rw [← same, List.set_getElem_self]
  | @step s s₁ s₂ op next a p performed _ ih =>
    have moved : StepBy M t ⟨s, threads⟩ ⟨s₁, threads.set t ⟨label, next a⟩ ++ []⟩ :=
      .answer (σ := ⟨s, threads⟩) found (length ▸ performed)
    rw [List.append_nil] at moved
    have inside : t < threads.length := (List.getElem?_eq_some_iff.mp found).1
    have rest := ih (List.getElem?_set_self inside) (List.length_set.trans length)
    rw [List.set_set] at rest
    exact .head (.thread t moved) rest

section Outline
variable {L : Type} (γ : τ → Ghost Op Ans L) (post : τ → α → L → Prop)

/-- A thread and the ghost state a proof outline gives it. -/
def Fits (th : Thread Op Ans τ α) (g : τ × L) : Prop :=
  g.1 = th.label ∧ wp (γ th.label) th.prog (post th.label) g.2

/-- Every thread satisfies its outline at some ghost state, and the ghost
states together satisfy the invariant `I` of the shared state. -/
def Outline (I : S → List (τ × L) → Prop) (σ : Pool Op Ans S τ α) : Prop :=
  ∃ ghosts, List.Forall₂ (Fits γ post) σ.threads ghosts ∧ I σ.shared ghosts

/-- The answer `a` moves the ghost state `l` of thread `t`, and the invariant holds in the new
shared state `s`, with the threads that were started. -/
abbrev Answered (I : S → List (τ × L) → Prop) (s : S) (ghosts : List (τ × L)) (t : Nat) (label : τ) (l : L) (op : Op)
    (a : Ans op) (spawned : List (Thread Op Ans τ α)) : Prop :=
  ∃ l' new, (γ label).next op a l l' ∧ List.Forall₂ (Fits γ post) spawned new ∧ I s (ghosts.set t (label, l') ++ new)

/-- The proof obligation of an outline for the shared state: each answer the
machine can give moves the ghost state and keeps the invariant. -/
def Sound (M : Machine Op Ans S τ α) (I : S → List (τ × L) → Prop) : Prop :=
  ∀ s ghosts t label l op a s' spawned, I s ghosts → ghosts[t]? = some (label, l) →
    (γ label).pre op l → M.perform s t ghosts.length op a = some (s', spawned) →
    Answered γ post I s' ghosts t label l op a spawned

variable {β : Type} {xs : List β} {x y : β} {n : Nat} {M : Machine Op Ans S τ α} {σ σ' : Pool Op Ans S τ α}

theorem Forall₂.set {δ : Type} {R : β → δ → Prop} {ys : List δ} {y : δ} (all : List.Forall₂ R xs ys) (n : Nat)
    (related : R x y) :
    List.Forall₂ R (xs.set n x) (ys.set n y) := by
  induction all generalizing n with
  | nil => exact .nil
  | cons head tail ih =>
    cases n with
    | zero => exact .cons related tail
    | succ n => exact .cons head (ih n)

theorem Forall₂.getElem? {δ : Type} {R : β → δ → Prop} {ys : List δ} (all : List.Forall₂ R xs ys)
    (found : xs[n]? = some x) : ∃ y, ys[n]? = some y ∧ R x y := by
  induction all generalizing n with
  | nil => simp at found
  | cons head tail ih =>
    cases n with
    | zero =>
      cases Option.some.inj found
      exact ⟨_, rfl, head⟩
    | succ n => exact ih found

theorem set_same (found : xs[n]? = some x) :
    xs.set n x = xs := by
  obtain ⟨inside, same⟩ := List.getElem?_eq_some_iff.mp found
  rw [← same, List.set_getElem_self]

theorem map_set_same {δ : Type} (f : β → δ) (found : xs[n]? = some x) (same : f y = f x) :
    (xs.set n y).map f = xs.map f := by
  rw [List.map_set, same]
  exact set_same (by rw [List.getElem?_map, found]; rfl)

theorem Reach.labels (quiet : ∀ s t n op a s' spawned, M.perform s t n op a = some (s', spawned) → spawned = [])
    (reach : Reach M σ σ') :
    σ'.threads.map Thread.label = σ.threads.map Thread.label := by
  refine Reach.invariant (P := fun σ' => σ'.threads.map Thread.label = σ.threads.map Thread.label) ?_ reach rfl
  intro σ₁ σ₂ labels step
  cases step with
  | env _ => exact labels
  | thread t moved =>
    cases moved with
    | @answer label op next a s spawned found performed =>
      obtain rfl := quiet _ _ _ _ _ _ _ performed
      rw [List.append_nil, ← labels]
      exact map_set_same Thread.label found rfl

theorem lookup_insert_cases {κ : Type} [DecidableEq κ] {m : Finmap fun _ : κ => β} {k a : κ} {b d : β}
    (found : (m.insert a b).lookup k = some d) : k = a ∧ d = b ∨ k ≠ a ∧ m.lookup k = some d := by
  by_cases same : k = a
  · subst same
    rw [Finmap.lookup_insert] at found
    exact .inl ⟨rfl, (Option.some.inj found).symm⟩
  · rw [Finmap.lookup_insert_of_ne _ same] at found
    exact .inr ⟨same, found⟩

theorem of_ite_some {p : Prop} {_ : Decidable p} {a b : β} (done : (if p then some a else none) = some b) : p ∧ a = b :=
  (Option.ite_none_right_eq_some.mp done).imp_right Option.some.inj

theorem mem_set_or_eq {z : β} (found : xs[n]? = some x) (member : z ∈ xs) : z ∈ xs.set n y ∨ z = x := by
  obtain ⟨m, atM⟩ := List.mem_iff_getElem?.mp member
  by_cases same : n = m
  · subst same
    exact .inr (Option.some.inj (atM.symm.trans found))
  · refine .inl (List.mem_of_getElem? ((List.getElem?_set_ne same).trans atM))

theorem getElem?_set_cases {m : Nat} (found : (xs.set n x)[m]? = some y) :
    m = n ∧ y = x ∨ m ≠ n ∧ xs[m]? = some y := by
  by_cases same : m = n
  · subst same
    have inside : m < xs.length := by simpa using (List.getElem?_eq_some_iff.mp found).1
    rw [List.getElem?_set_self inside] at found
    exact .inl ⟨rfl, (Option.some.inj found).symm⟩
  · rw [List.getElem?_set_ne (Ne.symm same)] at found
    exact .inr ⟨same, found⟩

theorem getElem?_concat_cases (found : (xs ++ [x])[n]? = some y) :
    xs[n]? = some y ∨ n = xs.length ∧ y = x := by
  rw [List.getElem?_append] at found
  split at found
  · exact .inl found
  · have last := (List.getElem?_eq_some_iff.mp found).1
    have here : n - xs.length = 0 := by simpa using last
    rw [here] at found
    exact .inr ⟨by omega, (Option.some.inj found).symm⟩

theorem countP_set_add (p : β → Bool) (found : xs[n]? = some x) (y : β) :
    (xs.set n y).countP p + (if p x then 1 else 0) = xs.countP p + (if p y then 1 else 0) := by
  obtain ⟨inside, same⟩ := List.getElem?_eq_some_iff.mp found
  rw [List.countP_set inside, same]
  by_cases counted : p x = true
  · have positive : 0 < xs.countP p := List.countP_pos_iff.mpr ⟨_, List.mem_of_getElem? found, counted⟩
    rw [if_pos counted]
    omega
  · rw [if_neg counted]
    omega

theorem mem_set_self (found : xs[n]? = some x) :
    y ∈ xs.set n y :=
  List.mem_set (List.getElem?_eq_some_iff.mp found).1 y

variable {γ post}

section Answer
variable {I : S → List (τ × L) → Prop} {s : S} {ghosts : List (τ × L)} {t : Nat} {label : τ} {l : L} {op : Op} {a : Ans op}

theorem Answered.move (l' : L) (moved : (γ label).next op a l l') (kept : I s (ghosts.set t (label, l'))) :
    Answered γ post I s ghosts t label l op a [] :=
  ⟨l', [], moved, .nil, by rwa [List.append_nil]⟩

theorem Answered.stay (found : ghosts[t]? = some (label, l)) (moved : (γ label).next op a l l) (kept : I s ghosts) :
    Answered γ post I s ghosts t label l op a [] :=
  Answered.move l moved (by rwa [set_same found])

end Answer

section Fits
variable {threads : List (Thread Op Ans τ α)} {ghosts : List (τ × L)} {t : Nat} {label : τ}

theorem label_of_ghost {l : L} (found : ghosts[t]? = some (label, l)) : (ghosts.map Prod.fst)[t]? = some label := by
  rw [List.getElem?_map, found]
  rfl

theorem ghost_at_label (found : (ghosts.map Prod.fst)[t]? = some label) : ∃ l, ghosts[t]? = some (label, l) := by
  rw [List.getElem?_map] at found
  obtain ⟨⟨_, l⟩, there, rfl⟩ := Option.map_eq_some_iff.mp found
  exact ⟨l, there⟩

theorem ghost_of_label (member : label ∈ ghosts.map Prod.fst) : ∃ (t : Nat) (l : L), ghosts[t]? = some (label, l) := by
  obtain ⟨⟨_, l⟩, inside, rfl⟩ := List.mem_map.mp member
  obtain ⟨t, found⟩ := List.mem_iff_getElem?.mp inside
  exact ⟨t, l, found⟩

theorem ghost_of_thread (fits : List.Forall₂ (Fits γ post) threads ghosts) {prog : Prog Op Ans α}
    (found : threads[t]? = some ⟨label, prog⟩) : ∃ l, ghosts[t]? = some (label, l) ∧ wp (γ label) prog (post label) l := by
  obtain ⟨⟨_, l⟩, atT, same, holds⟩ := Forall₂.getElem? fits found
  cases same
  exact ⟨l, atT, holds⟩

theorem thread_of_ghost (fits : List.Forall₂ (Fits γ post) threads ghosts) {l : L}
    (found : ghosts[t]? = some (label, l)) : ∃ prog, threads[t]? = some ⟨label, prog⟩ ∧ wp (γ label) prog (post label) l := by
  obtain ⟨⟨_, prog⟩, atT, same, holds⟩ := Forall₂.getElem? fits.flip found
  cases same
  exact ⟨prog, atT, holds⟩

end Fits

theorem Outline.step {I : S → List (τ × L) → Prop} (sound : Sound γ post M I)
    (env : ∀ s ghosts s', I s ghosts → M.env s s' → I s' ghosts) (outline : Outline γ post I σ) (step : Step M σ σ') :
    Outline γ post I σ' := by
  obtain ⟨ghosts, fits, holds⟩ := outline
  cases step with
  | env moved => exact ⟨ghosts, fits, env _ _ _ holds moved⟩
  | thread t moved =>
    cases moved with
    | @answer label op next a s spawned found performed =>
      obtain ⟨l, atGhost, pre, follows⟩ := ghost_of_thread fits found
      rw [fits.length_eq] at performed
      obtain ⟨l', new, moved, started, holds'⟩ :=
        sound _ _ _ _ _ _ _ _ _ holds atGhost pre performed
      refine ⟨_, ?_, holds'⟩
      exact List.rel_append (Forall₂.set fits t ⟨rfl, follows a l' moved⟩) started

theorem Outline.reach {I : S → List (τ × L) → Prop} (sound : Sound γ post M I)
    (env : ∀ s ghosts s', I s ghosts → M.env s s' → I s' ghosts) (outline : Outline γ post I σ) (reach : Reach M σ σ') :
    Outline γ post I σ' :=
  Reach.invariant (fun _ _ held step => held.step sound env step) reach outline

end Outline

end Interleaving
