import OrasGo.Base.Pool

/-! Machines in which each operation has at most one answer: it either blocks or is
replied to. -/

namespace Interleaving

variable {Op : Type} {Ans : Op → Type} {S τ α : Type} [∀ op, DecidableEq (Ans op)]

/-- The answer to an operation of thread `t`, the state after it and the threads it
starts; `none` as long as it blocks. -/
abbrev Reply (Op : Type) (Ans : Op → Type) (S τ α : Type) :=
  S → Nat → Nat → (op : Op) → Option (Ans op × S × List (Thread Op Ans τ α))

namespace Reply
variable (reply : Reply Op Ans S τ α)

def perform (s : S) (t n : Nat) (op : Op) (a : Ans op) : Option (S × List (Thread Op Ans τ α)) :=
  (reply s t n op).bind fun r => if a = r.1 then some r.2 else none

def machine : Machine Op Ans S τ α where
  perform := reply.perform
  env _ _ := False

variable {reply}

theorem perform_eq_some {s : S} {t n : Nat} {op : Op} {a : Ans op} {out : S × List (Thread Op Ans τ α)} :
    reply.machine.perform s t n op a = some out ↔ reply s t n op = some (a, out) := by
  constructor
  · intro performed
    obtain ⟨⟨a', out'⟩, replied, same⟩ := Option.bind_eq_some_iff.mp performed
    obtain ⟨rfl, same⟩ := Option.ite_none_right_eq_some.mp same
    cases Option.some.inj same
    exact replied
  · intro replied
    exact Option.bind_eq_some_iff.mpr ⟨_, replied, if_pos rfl⟩

end Reply

namespace Pool
variable {reply : Reply Op Ans S τ α}

/-- The step of thread `t`, unless it has returned or is blocked. -/
def turn (reply : Reply Op Ans S τ α) (t : Nat) (σ : Pool Op Ans S τ α) : Option (Pool Op Ans S τ α) :=
  match σ.threads[t]? with
  | some ⟨label, .call op next⟩ =>
    (reply σ.shared t σ.threads.length op).map fun r => ⟨r.2.1, σ.threads.set t ⟨label, next r.1⟩ ++ r.2.2⟩
  | _ => none

theorem turn_eq_some {t : Nat} {σ σ' : Pool Op Ans S τ α} : σ.turn reply t = some σ' ↔ StepBy reply.machine t σ σ' := by
  constructor
  · intro moved
    unfold turn at moved
    split at moved
    · rename_i label op next found
      obtain ⟨⟨a, out⟩, replied, rfl⟩ := Option.map_eq_some_iff.mp moved
      exact .answer found (Reply.perform_eq_some.mpr replied)
    · cases moved
  · intro moved
    cases moved with
    | answer found performed =>
      rw [turn, found]
      exact Option.map_eq_some_iff.mpr ⟨_, Reply.perform_eq_some.mp performed, rfl⟩

/-- The run in which the threads take the given turns. -/
def play (reply : Reply Op Ans S τ α) (turns : List Nat) (σ : Pool Op Ans S τ α) : Pool Op Ans S τ α :=
  turns.foldl (fun σ t => (σ.turn reply t).getD σ) σ

theorem play_reach (turns : List Nat) (σ : Pool Op Ans S τ α) : Reach reply.machine σ (σ.play reply turns) := by
  induction turns generalizing σ with
  | nil => exact .refl
  | cons t rest ih =>
    change Reach _ _ (play reply rest ((σ.turn reply t).getD σ))
    cases moved : σ.turn reply t with
    | none => exact ih σ
    | some σ' => exact .head (.thread t (turn_eq_some.mp moved)) (ih σ')

/-- No thread can take a step, though one has not returned. -/
def Stuck (reply : Reply Op Ans S τ α) (σ : Pool Op Ans S τ α) : Prop :=
  (∃ t, σ.Unfinished t) ∧ ∀ σ', ¬ Step reply.machine σ σ'

theorem Stuck.blocked {σ : Pool Op Ans S τ α} (stuck : σ.Stuck reply) {t : Nat} {label : τ} {op : Op}
    {next : Ans op → Prog Op Ans α} (found : σ.threads[t]? = some ⟨label, .call op next⟩) :
    reply σ.shared t σ.threads.length op = none := by
  cases replied : reply σ.shared t σ.threads.length op with
  | none => rfl
  | some r => exact absurd (.thread t (.answer found (Reply.perform_eq_some.mpr replied))) (stuck.2 _)

end Pool

end Interleaving
