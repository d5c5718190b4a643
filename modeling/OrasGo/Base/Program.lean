import Mathlib.Logic.Relation

/-! Sequential programs that talk to their surroundings through operations,
and the weakest preconditions of such a program over a ghost state. -/

namespace Interleaving

/-- A program seen from outside: it has returned, or it is about to perform
one operation and goes on with whatever answer it gets. -/
inductive Prog (Op : Type) (Ans : Op → Type) (α : Type) : Type
  | ret (value : α) : Prog Op Ans α
  | call (op : Op) (next : Ans op → Prog Op Ans α) : Prog Op Ans α

namespace Prog
variable {Op : Type} {Ans : Op → Type} {α β : Type}

protected def bind : Prog Op Ans α → (α → Prog Op Ans β) → Prog Op Ans β
  | ret value, f => f value
  | call op next, f => call op (fun answer => (next answer).bind f)

def perform (op : Op) : Prog Op Ans (Ans op) := call op ret

instance : Monad (Prog Op Ans) where
  pure := ret
  bind := Prog.bind

@[simp] theorem pure_eq_ret (value : α) : (pure value : Prog Op Ans α) = ret value := rfl

@[simp] theorem ret_bind (value : α) (f : α → Prog Op Ans β) : (ret value >>= f) = f value := rfl

@[simp] theorem call_bind (op : Op) (next : Ans op → Prog Op Ans α) (f : α → Prog Op Ans β) :
    (call op next >>= f) = call op (fun answer => next answer >>= f) := rfl

@[simp] theorem perform_bind (op : Op) (f : Ans op → Prog Op Ans β) :
    (perform op >>= f) = call op f := rfl

theorem bind_assoc {δ : Type} (p : Prog Op Ans α) (f : α → Prog Op Ans β) (g : β → Prog Op Ans δ) :
    (p >>= f) >>= g = p >>= fun value => f value >>= g := by
  induction p with
  | ret value => rfl
  | call op next ih => exact congrArg (call op) (funext ih)

/-- The program alone on a state, where `reply` answers its operations. -/
def run {S : Type} (reply : S → (op : Op) → Ans op × S) : Prog Op Ans α → S → α × S
  | ret value, s => (value, s)
  | call op next, s => run reply (next (reply s op).1) (reply s op).2

section Run
variable {S : Type} (reply : S → (op : Op) → Ans op × S)

@[simp] theorem run_ret (value : α) (s : S) : (ret value : Prog Op Ans α).run reply s = (value, s) := rfl

@[simp] theorem run_call (op : Op) (next : Ans op → Prog Op Ans α) (s : S) :
    (call op next).run reply s = (next (reply s op).1).run reply (reply s op).2 := rfl

theorem run_bind (p : Prog Op Ans α) (f : α → Prog Op Ans β) (s : S) :
    (p >>= f).run reply s = (f (p.run reply s).1).run reply (p.run reply s).2 := by
  induction p generalizing s with
  | ret value => rfl
  | call op next ih => exact ih _ _

end Run

/-- The program in which each operation is carried out by a program of its own. -/
def handle {Op' : Type} {Ans' : Op' → Type} (handler : (op : Op) → Prog Op' Ans' (Ans op)) :
    Prog Op Ans α → Prog Op' Ans' α
  | ret value => ret value
  | call op next => handler op >>= fun answer => handle handler (next answer)

/-- One operation of the program has been answered. -/
inductive Later : Prog Op Ans α → Prog Op Ans α → Prop
  | answer (op : Op) (next : Ans op → Prog Op Ans α) (a : Ans op) : Later (next a) (call op next)

theorem later_wellFounded : WellFounded (@Later Op Ans α) := by
  constructor
  intro p
  induction p with
  | ret value => exact ⟨_, fun q h => by cases h⟩
  | call op next ih =>
    refine ⟨_, fun q h => ?_⟩
    cases h with
    | answer _ _ a => exact ih a

end Prog

/-- What a proof keeps in mind beside a program: `pre` must hold when an
operation is issued, `next` says how the ghost state moves with the answer. An
answer without a `next` is one the proof has ruled out. -/
structure Ghost (Op : Type) (Ans : Op → Type) (L : Type) where
  pre : Op → L → Prop
  next : (op : Op) → Ans op → L → L → Prop

section Wp
variable {Op : Type} {Ans : Op → Type} {L α β : Type} (γ : Ghost Op Ans L)

def wp : Prog Op Ans α → (α → L → Prop) → L → Prop
  | .ret value, post, l => post value l
  | .call op next, post, l =>
    γ.pre op l ∧ ∀ answer l', γ.next op answer l l' → wp (next answer) post l'

@[simp] theorem wp_ret (value : α) (post : α → L → Prop) (l : L) :
    wp γ (.ret value) post l ↔ post value l := Iff.rfl

@[simp] theorem wp_call (op : Op) (next : Ans op → Prog Op Ans α) (post : α → L → Prop) (l : L) :
    wp γ (.call op next) post l ↔
      γ.pre op l ∧ ∀ answer l', γ.next op answer l l' → wp γ (next answer) post l' := Iff.rfl

theorem wp_bind (p : Prog Op Ans α) (f : α → Prog Op Ans β) (post : β → L → Prop) (l : L) :
    wp γ (p >>= f) post l ↔ wp γ p (fun value l' => wp γ (f value) post l') l := by
  induction p generalizing l with
  | ret value => rfl
  | call op next ih =>
    simp only [Prog.call_bind, wp_call]
    exact and_congr_right fun _ => forall_congr' fun answer => forall_congr' fun l' =>
      imp_congr_right fun _ => ih answer l'

variable {p : Prog Op Ans α} {l : L}

theorem wp_mono {post post' : α → L → Prop} (imp : ∀ value l', post value l' → post' value l') (h : wp γ p post l) :
    wp γ p post' l := by
  induction p generalizing l with
  | ret value => exact imp value l h
  | call op next ih => exact ⟨h.1, fun answer l' moved => ih answer (h.2 answer l' moved)⟩

/-- The usual rule for a sequence: the first part establishes `mid`, and from
`mid` the rest establishes `post`. -/
theorem wp_seq {f : α → Prog Op Ans β} {mid : α → L → Prop} {post : β → L → Prop} (first : wp γ p mid l)
    (rest : ∀ value l', mid value l' → wp γ (f value) post l') : wp γ (p >>= f) post l :=
  (wp_bind γ p f post l).mpr (wp_mono γ rest first)

/-- An outline of a program is one of the program with its operations carried out, if each of these
does to the ghost state what the operation may do. -/
theorem wp_handle {Op' : Type} {Ans' : Op' → Type} {γ' : Ghost Op' Ans' L}
    {handler : (op : Op) → Prog Op' Ans' (Ans op)}
    (carries : ∀ op l, γ.pre op l → wp γ' (handler op) (fun answer l' => γ.next op answer l l') l)
    {post : α → L → Prop} (holds : wp γ p post l) : wp γ' (p.handle handler) post l := by
  induction p generalizing l with
  | ret value => exact holds
  | call op next ih => exact wp_seq γ' (carries op l holds.1) fun answer l' moved => ih answer (holds.2 answer l' moved)

end Wp

end Interleaving
