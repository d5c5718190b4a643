import OrasGo.Base.Pool

/-! Runs that remember what has happened, and runs all of whose steps meet a
condition. -/

namespace Interleaving
variable {Op : Type} {Ans : Op → Type} {S τ α : Type}

/-- A thread got an answer for an operation. -/
structure Event (Op : Type) (Ans : Op → Type) where
  thread : Nat
  op : Op
  answer : Ans op

/-- The machine that keeps a history of the run beside its state: `note` adds to it what a thread
has done, in which state and with which answer. -/
def Machine.recorded {H : Type} (M : Machine Op Ans S τ α) (note : S → Nat → (op : Op) → Ans op → H → H) :
    Machine Op Ans (S × H) τ α where
  perform s t n op a := (M.perform s.1 t n op a).map fun out => ((out.1, note s.1 t op a s.2), out.2)
  env s s' := M.env s.1 s'.1 ∧ s'.2 = s.2

/-- The machine that keeps the events of the run. -/
def Machine.traced (M : Machine Op Ans S τ α) : Machine Op Ans (S × List (Event Op Ans)) τ α :=
  M.recorded fun _ t op a log => log ++ [⟨t, op, a⟩]

def Pool.traced {H : Type} (σ : Pool Op Ans S τ α) (history : H) : Pool Op Ans (S × H) τ α :=
  ⟨(σ.shared, history), σ.threads⟩

def Pool.forget (σ : Pool Op Ans (S × List (Event Op Ans)) τ α) : Pool Op Ans S τ α := ⟨σ.shared.1, σ.threads⟩

theorem Pool.returned_traced {H : Type} {σ : Pool Op Ans S τ α} {history : H} {t : Nat} {value : α} :
    (σ.traced history).Returned t value ↔ σ.Returned t value :=
  Iff.rfl

/-- The machine without the steps that `allowed` forbids. -/
def Machine.restrict (M : Machine Op Ans S τ α) (allowed : S → (op : Op) → Ans op → Bool) :
    Machine Op Ans S τ α where
  perform s t n op a := if allowed s op a then M.perform s t n op a else none
  env := M.env

variable {M : Machine Op Ans S τ α} {H : Type} {note : S → Nat → (op : Op) → Ans op → H → H}

theorem recorded_perform {s s' : S × H} {t n : Nat} {op : Op} {a : Ans op} {spawned : List (Thread Op Ans τ α)} :
    (M.recorded note).perform s t n op a = some (s', spawned) ↔
      M.perform s.1 t n op a = some (s'.1, spawned) ∧ s'.2 = note s.1 t op a s.2 := by
  obtain ⟨after, history⟩ := s'
  simp only [Machine.recorded, Option.map_eq_some_iff, Prod.mk.injEq]
  constructor
  · rintro ⟨out, performed, ⟨rfl, noted⟩, rfl⟩
    exact ⟨performed, noted.symm⟩
  · rintro ⟨performed, noted⟩
    exact ⟨_, performed, ⟨rfl, noted.symm⟩, rfl⟩

theorem traced_perform {s s' : S × List (Event Op Ans)} {t n : Nat} {op : Op} {a : Ans op}
    {spawned : List (Thread Op Ans τ α)} :
    M.traced.perform s t n op a = some (s', spawned) ↔
      M.perform s.1 t n op a = some (s'.1, spawned) ∧ s'.2 = s.2 ++ [⟨t, op, a⟩] :=
  recorded_perform

theorem restrict_perform {allowed : S → (op : Op) → Ans op → Bool} {s : S} {t n : Nat} {op : Op} {a : Ans op}
    {out : S × List (Thread Op Ans τ α)} :
    (M.restrict allowed).perform s t n op a = some out ↔
      allowed s op a = true ∧ M.perform s t n op a = some out := by
  simp only [Machine.restrict, Option.ite_none_right_eq_some]

theorem restrict_eq {allowed : S → (op : Op) → Ans op → Bool} (all : ∀ s op a, allowed s op a = true) :
    M.restrict allowed = M := by
  simp only [Machine.restrict, all, if_true]

/-- Every run of the machine has its history. -/
theorem Reach.recorded {σ σ' : Pool Op Ans S τ α} (reach : Reach M σ σ') (start : H) :
    ∃ history, Reach (M.recorded note) (σ.traced start) (σ'.traced history) := by
  induction reach with
  | refl => exact ⟨start, .refl⟩
  | tail _ step ih =>
    obtain ⟨history, reach⟩ := ih
    cases step with
    | env moved => exact ⟨history, reach.tail (.env (s := (_, history)) ⟨moved, rfl⟩)⟩
    | thread t moved =>
      cases moved with
      | @answer label op next a s spawned found performed =>
        exact ⟨_, reach.tail (.thread t (.answer (s := (s, _)) found (recorded_perform.mpr ⟨performed, rfl⟩)))⟩

theorem Reach.forget {σ σ' : Pool Op Ans (S × List (Event Op Ans)) τ α} (reach : Reach M.traced σ σ') :
    Reach M σ.forget σ'.forget := by
  refine Relation.ReflTransGen.lift Pool.forget ?_ _ _ reach
  intro σ₁ σ₂ step
  cases step with
  | env moved => exact .env moved.1
  | thread t moved =>
    cases moved with
    | answer found performed => exact .thread t (.answer found (traced_perform.mp performed).1)

theorem Reach.unrestricted {allowed : S → (op : Op) → Ans op → Bool} {σ σ' : Pool Op Ans S τ α}
    (reach : Reach (M.restrict allowed) σ σ') : Reach M σ σ' := by
  refine Relation.ReflTransGen.lift id ?_ _ _ reach
  intro σ₁ σ₂ step
  cases step with
  | env moved => exact .env moved
  | thread t moved =>
    cases moved with
    | answer found performed => exact .thread t (.answer found (restrict_perform.mp performed).2)

end Interleaving
