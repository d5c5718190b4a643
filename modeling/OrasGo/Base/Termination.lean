import Mathlib.Data.Multiset.Basic
import Mathlib.Logic.Hydra
import OrasGo.Base.Pool

/-! A pool terminates when every thread only starts threads of smaller rank. -/

namespace Interleaving
variable {Op : Type} {Ans : Op → Type} {S τ α : Type}

/-- A thread is below another one if its label is, or if it is the same thread
with fewer operations left. -/
def Thread.Below (r : τ → τ → Prop) : Thread Op Ans τ α → Thread Op Ans τ α → Prop :=
  InvImage (Prod.Lex r Prog.Later) (fun th => (th.label, th.prog))

variable {r : τ → τ → Prop}

theorem Thread.below_wellFounded (wf : WellFounded r) :
    WellFounded (@Thread.Below Op Ans τ α r) :=
  InvImage.wf _ (WellFounded.prod_lex wf Prog.later_wellFounded)

theorem coe_set_add {β : Type} {xs : List β} {n : Nat} {x y : β} (found : xs[n]? = some x) :
    ((xs.set n y : List β) : Multiset β) + {x} = (xs : Multiset β) + {y} := by
  induction xs generalizing n with
  | nil => simp at found
  | cons z zs ih =>
    cases n with
    | zero =>
      have same : z = x := Option.some.inj found
      subst same
      change (y ::ₘ (zs : Multiset β)) + {z} = (z ::ₘ (zs : Multiset β)) + {y}
      rw [← Multiset.singleton_add, ← Multiset.singleton_add, add_right_comm,
        add_comm ({y} : Multiset β), add_right_comm]
    | succ n =>
      change (z ::ₘ ((zs.set n y : List β) : Multiset β)) + {x} = (z ::ₘ (zs : Multiset β)) + {y}
      rw [Multiset.cons_add, Multiset.cons_add, ih found]

theorem StepBy.cutExpand {M : Machine Op Ans S τ α} {t : Nat} {σ σ' : Pool Op Ans S τ α} (step : StepBy M t σ σ')
    (smaller : ∀ label op next a s spawned, σ.threads[t]? = some ⟨label, .call op next⟩ →
      M.perform σ.shared t σ.threads.length op a = some (s, spawned) →
      ∀ th ∈ spawned, r th.label label) :
    Relation.CutExpand (Thread.Below r) (σ'.threads : Multiset (Thread Op Ans τ α)) σ.threads := by
  cases step with
  | @answer label op next a s spawned found performed =>
    refine ⟨{⟨label, next a⟩} + (spawned : Multiset (Thread Op Ans τ α)), ⟨label, .call op next⟩, ?_, ?_⟩
    · intro th member
      rcases Multiset.mem_add.mp member with same | started
      · cases Multiset.mem_singleton.mp same
        exact Prod.Lex.right _ (.answer op next a)
      · exact Prod.Lex.left _ _ (smaller _ _ _ _ _ _ found performed th started)
    · rw [← Multiset.coe_add, add_right_comm, coe_set_add found, add_assoc]

/-- No infinite run: `fuel` bounds what the surroundings do, and each thread
step replaces one thread by smaller ones. -/
theorem acc_step {M : Machine Op Ans S τ α} (wf : WellFounded r) {P : Pool Op Ans S τ α → Prop}
    (keep : ∀ σ σ', P σ → Step M σ σ' → P σ') (fuel : S → Nat) (envFuel : ∀ s s', M.env s s' → fuel s' < fuel s)
    (stepFuel : ∀ s t n op a s' spawned, M.perform s t n op a = some (s', spawned) → fuel s' = fuel s)
    (smaller : ∀ σ t label op next a s spawned, P σ → σ.threads[t]? = some ⟨label, .call op next⟩ →
      M.perform σ.shared t σ.threads.length op a = some (s, spawned) →
      ∀ th ∈ spawned, r th.label label) {σ : Pool Op Ans S τ α} (start : P σ) : Acc (fun σ' σ => Step M σ σ') σ := by
  have order : WellFounded (InvImage
      (Prod.Lex (· < ·) (Relation.CutExpand (@Thread.Below Op Ans τ α r)))
      (fun σ : Pool Op Ans S τ α => (fuel σ.shared, (σ.threads : Multiset _)))) :=
    InvImage.wf _ (WellFounded.prod_lex wellFounded_lt (Thread.below_wellFounded wf).cutExpand)
  induction σ using order.induction with
  | _ σ ih =>
    refine ⟨_, fun σ' step => ih σ' ?_ (keep _ _ start step)⟩
    cases step with
    | env moved => exact Prod.Lex.left _ _ (envFuel _ _ moved)
    | thread t moved =>
      have cut := moved.cutExpand (smaller σ t · · · · · · start)
      cases moved with
      | @answer label op next a s spawned found performed =>
        refine Prod.lex_def.mpr (Or.inr ⟨stepFuel _ _ _ _ _ _ _ performed, cut⟩)

end Interleaving
