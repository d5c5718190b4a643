import OrasGo.Syncutil.Go

/-! The permits of a limiter under callbacks that end and restart their regions
as they like. -/

namespace OrasGo.Syncutil
open Interleaving
variable {U I S : Type} {UAns : U → Type} {fn : I → Code U I UAns (Option Error)}
  {user : S → Nat → Bool → (op : U) → UAns op → Option S}

/-- The free permits and the goroutines that hold one make up the limit. -/
structure Balanced (limit : Nat) (s : Shared S) (n : Nat) : Prop where
  fresh : ∀ t, n ≤ t → s.started t = false
  free : ∃ free, s.limiter = some free ∧ free + (List.range n).countP s.started = limit

theorem range_countP_update {n t : Nat} (inside : t < n) (started : Nat → Bool) (value : Bool) :
    (List.range n).countP (Function.update started t value) + (if started t then 1 else 0) =
      (List.range n).countP started + (if value then 1 else 0) := by
  have each (f : Nat → Bool) : (List.range n).countP f = ((List.range n).map f).countP id := by
    rw [List.countP_map]
    rfl
  have moved : (List.range n).map (Function.update started t value) = ((List.range n).map started).set t value := by
    refine List.ext_getElem? fun i => ?_
    rw [List.getElem?_map, List.getElem?_set, List.getElem?_map, List.length_map, List.length_range]
    by_cases same : t = i
    · subst same
      simp [inside]
    · rw [if_neg same]
      by_cases lt : i < n
      · simp [lt, Function.update_of_ne (Ne.symm same)]
      · simp [lt]
  have atT : ((List.range n).map started)[t]? = some (started t) := by
    simp [inside]
  rw [each, moved, each started]
  exact countP_set_add id atT value

section

variable {limit : Nat} {s : Shared S} {n : Nat} (balanced : Balanced limit s n)
include balanced

theorem Balanced.update {t free : Nat} {s' : Shared S} {value : Bool} (inside : t < n)
    (started : s'.started = Function.update s.started t value) (limiter : s'.limiter = some free)
    (balance : ∀ free', s.limiter = some free' →
      free + (if value then 1 else 0) = free' + (if s.started t then 1 else 0)) : Balanced limit s' n := by
  obtain ⟨free', before, total⟩ := balanced.free
  have counted := range_countP_update inside s.started value
  have exchanged := balance free' before
  refine ⟨fun t' outside => ?_, free, limiter, by rw [started]; omega⟩
  rw [started, Function.update_of_ne (by omega)]
  exact balanced.fresh t' outside

theorem Balanced.start {g free : Nat} {group : Group} (limited : s.limiter = some (free + 1)) :
    Balanced limit (s.start n g group (some free) true) (n + 1) := by
  obtain ⟨free', before, total⟩ := balanced.free
  cases limited.symm.trans before
  have others : (List.range n).countP (Function.update s.started n true) = (List.range n).countP s.started :=
    List.countP_congr fun t inside => by rw [Function.update_of_ne (List.mem_range.mp inside).ne]
  refine ⟨fun t outside => ?_, free, rfl, ?_⟩
  · change Function.update s.started n true t = false
    rw [Function.update_of_ne (by omega)]
    exact balanced.fresh t (by omega)
  · change free + (List.range (n + 1)).countP (Function.update s.started n true) = limit
    rw [List.range_succ, List.countP_append, others]
    simp only [List.countP_singleton, Function.update_self, if_true]
    omega

theorem Balanced.frame {s' : Shared S} (started : s'.started = s.started) (limiter : s'.limiter = s.limiter) :
    Balanced limit s' n :=
  ⟨by rw [started]; exact balanced.fresh, by rw [started, limiter]; exact balanced.free⟩

theorem respond_balanced {t : Nat} {s' : Shared S} {op : Op U I} {answer : Ans UAns op}
    {spawned : List (Goroutine U I UAns)} (inside : t < n)
    (done : respond fn user s t n op answer = some (s', spawned)) : Balanced limit s' (n + spawned.length) := by
  rcases (respond_frame done).2.2.2 with ⟨rfl, started, limiter⟩ | rfl | rfl | ⟨g, item, rfl⟩
  · exact balanced.frame started limiter
  · obtain ⟨rfl, ⟨rfl, _⟩ | ⟨_, idle, free, limited, rfl⟩⟩ := respond_regionStart done
    · exact balanced
    · refine balanced.update inside rfl rfl fun free' before => ?_
      cases limited.symm.trans before
      rw [idle]
      rfl
  · obtain ⟨rfl, rfl⟩ := respond_regionEnd done
    obtain ⟨free, limited, _⟩ := balanced.free
    have returned : (if s.started t then s.limiter.map (· + 1) else s.limiter) =
        some (free + if s.started t then 1 else 0) := by
      rw [limited]
      split <;> rfl
    refine balanced.update inside rfl returned fun free' before => ?_
    cases limited.symm.trans before
    rfl
  · obtain ⟨group, _, ⟨_, rfl, permitted, rfl⟩ | ⟨_, _, _, _, _, rfl, rfl⟩⟩ := respond_spawn done
    · obtain ⟨free, limited, _⟩ := balanced.free
      rw [limited] at permitted ⊢
      cases free with
      | zero => exact absurd rfl permitted
      | succ free => exact balanced.start limited
    · exact balanced

end

theorem balanced_reach {limit : Nat} {user₀ : S} {items : List I} {σ : State U I UAns S}
    (reach : Reach (machine fn user) (initial (some limit) user₀ items) σ) :
    Balanced limit σ.shared σ.threads.length := by
  refine Reach.invariant (P := fun σ => Balanced limit σ.shared σ.threads.length) ?_ reach ?_
  · intro σ₁ σ₂ balanced step
    cases step with
    | env moved =>
      obtain ⟨_, _, rfl⟩ := moved
      exact balanced.frame rfl rfl
    | thread t moved =>
      cases moved with
      | answer found performed =>
        have inside := (List.getElem?_eq_some_iff.mp found).1
        rw [List.length_append, List.length_set]
        exact respond_balanced balanced inside (perform_eq_some.mp performed).2
  · exact ⟨fun _ _ => rfl, limit, rfl, rfl⟩

end OrasGo.Syncutil
