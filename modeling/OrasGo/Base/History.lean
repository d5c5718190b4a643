import OrasGo.Base.Program

/-! What one program has done so far: its operations with their answers. -/

namespace Interleaving
variable {Op : Type} {Ans : Op → Type} {α : Type}

/-- An operation with its answer. -/
abbrev Exchange (Op : Type) (Ans : Op → Type) := (op : Op) × Ans op

/-- The program may begin with these operations, if they are answered so. -/
inductive Prog.Begins : Prog Op Ans α → List (Exchange Op Ans) → Prop
  | start (p : Prog Op Ans α) : Begins p []
  | answer {op : Op} {next : Ans op → Prog Op Ans α} (a : Ans op) {rest : List (Exchange Op Ans)} :
      Begins (next a) rest → Begins (.call op next) (⟨op, a⟩ :: rest)

/-- The ghost state that keeps the past. -/
def pastGhost (pre : List (Exchange Op Ans) → Op → Prop) : Ghost Op Ans (List (Exchange Op Ans)) where
  pre op past := pre past op
  next op a past past' := past' = past ++ [⟨op, a⟩]

/-- Each operation of a run meets its precondition in view of those before it. -/
theorem Prog.Begins.pre {pre : List (Exchange Op Ans) → Op → Prop} {p : Prog Op Ans α}
    {post : α → List (Exchange Op Ans) → Prop} {past run : List (Exchange Op Ans)} (begins : p.Begins run)
    (holds : wp (pastGhost pre) p post past) {before after : List (Exchange Op Ans)} {e : Exchange Op Ans}
    (split : run = before ++ e :: after) : pre (past ++ before) e.1 := by
  induction begins generalizing past before with
  | start p => cases before <;> cases split
  | @answer op next a rest _ ih =>
    cases before with
    | nil =>
      cases split
      rw [List.append_nil]
      exact holds.1
    | cons first before =>
      cases split
      have later := ih (holds.2 a _ rfl) rfl
      rwa [List.append_assoc] at later

/-- The run of a program whose operations are answered without regard to the past. -/
def Prog.exchanges (reply : (op : Op) → Ans op) : Prog Op Ans α → List (Exchange Op Ans)
  | .ret _ => []
  | .call op next => ⟨op, reply op⟩ :: (next (reply op)).exchanges reply

theorem Prog.begins_exchanges (reply : (op : Op) → Ans op) (p : Prog Op Ans α) : p.Begins (p.exchanges reply) := by
  induction p with
  | ret value => exact .start _
  | call op next ih => exact .answer _ (ih _)

end Interleaving
