import Mathlib.Data.Fintype.EquivFin
import Mathlib.Logic.Relation

/-! Going up a relation: where it has to end, and how far one has come. -/

namespace Ancestry
open Relation
variable {α : Type} {r : α → α → Prop} {a b : α} {n : Nat}

/-- No cycle can be reached. -/
def Acyclic (r : α → α → Prop) (a : α) : Prop := ∀ b, ReflTransGen r a b → ¬ TransGen r b b

/-- Where finitely many nodes are above and none is above itself, every way up ends. -/
theorem Acyclic.acc {above : Finset α} (finite : ∀ b, ReflTransGen r a b → b ∈ above) (acyclic : Acyclic r a) :
    Acc (fun x y => r y x) a := by
  let Above := { b // ReflTransGen r a b }
  have : Finite Above := Finite.of_injective (fun b : Above => (⟨b.1, finite b.1 b.2⟩ : above))
    fun x y same => Subtype.ext (congrArg (fun z => z.1) same)
  have : IsTrans Above fun x y => TransGen r y.1 x.1 := ⟨fun _ _ _ first second => second.trans first⟩
  have : Std.Irrefl fun x y : Above => TransGen r y.1 x.1 := ⟨fun x cycle => acyclic x.1 x.2 cycle⟩
  have ends := (Finite.wellFounded_of_trans_of_irrefl fun x y : Above => TransGen r y.1 x.1).apply ⟨a, .refl⟩
  suffices lift : ∀ x : Above, Acc (fun x y : Above => TransGen r y.1 x.1) x → Acc (fun x y => r y x) x.1 from
    lift _ ends
  intro x accessible
  induction accessible with
  | intro x _ ih => exact ⟨_, fun y up => ih ⟨y, x.2.tail up⟩ (.single up)⟩

/-- If every node goes on or is a stop, some stop is above. -/
theorem exists_stop {P Q : α → Prop} (ends : Acc (fun x y => r y x) a)
    (goesOn : ∀ b, P b → Q b ∨ ∃ c, r b c ∧ P c) (here : P a) : ∃ b, ReflTransGen r a b ∧ P b ∧ Q b := by
  induction ends with
  | intro a _ ih =>
    rcases goesOn a here with stop | ⟨c, up, there⟩
    · exact ⟨a, .refl, here, stop⟩
    · obtain ⟨b, above, found⟩ := ih c up there
      exact ⟨b, .head up above, found⟩

/-- Exactly so many steps lead from the one to the other. -/
inductive Steps (r : α → α → Prop) (a : α) : Nat → α → Prop
  | refl : Steps r a 0 a
  | tail {n : Nat} {b c : α} : Steps r a n b → r b c → Steps r a (n + 1) c

theorem Steps.reach (steps : Steps r a n b) : ReflTransGen r a b := by
  induction steps with
  | refl => exact .refl
  | tail _ up ih => exact ih.tail up

/-- At most so many steps lead from the one to the other. -/
def Within (r : α → α → Prop) (a : α) (n : Nat) (b : α) : Prop := ∃ m ≤ n, Steps r a m b

end Ancestry
