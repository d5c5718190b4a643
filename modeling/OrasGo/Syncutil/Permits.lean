import OrasGo.Syncutil.Balance
import OrasGo.Syncutil.Tree

/-! Permits of the semaphore: who holds one, and that a goroutine never waits
for others while it holds one. -/

namespace OrasGo.Syncutil
open Interleaving
variable {U I S : Type} {UAns : U → Type}

/-- The regions that are started are those of the goroutines that hold a permit by their outline. -/
def HoldersStarted (started : Nat → Bool) (ghosts : List (Label I × Place)) : Prop :=
  ∀ t label l, ghosts[t]? = some (label, l) → started t = l.holding

section

variable {started : Nat → Bool} {ghosts : List (Label I × Place)} (agree : HoldersStarted started ghosts)
include agree

theorem HoldersStarted.set (t : Nat) (label : Label I) (l : Place) :
    HoldersStarted (Function.update started t l.holding) (ghosts.set t (label, l)) := by
  intro t' label' l' found
  rcases getElem?_set_cases found with ⟨rfl, same⟩ | ⟨other, old⟩
  · cases same
    exact Function.update_self ..
  · rw [Function.update_of_ne other]
    exact agree t' label' l' old

theorem HoldersStarted.keep {t : Nat} {label : Label I} {l l' : Place} (found : ghosts[t]? = some (label, l))
    (same : l'.holding = l.holding) : HoldersStarted started (ghosts.set t (label, l')) := by
  have kept := agree.set t label l'
  rwa [same, ← agree t label l found, Function.update_eq_self] at kept

theorem HoldersStarted.append (label : Label I) (l : Place) :
    HoldersStarted (Function.update started ghosts.length l.holding) (ghosts ++ [(label, l)]) := by
  intro t label' l' found
  rcases getElem?_concat_cases found with old | ⟨rfl, same⟩
  · rw [Function.update_of_ne (List.getElem?_eq_some_iff.mp old).1.ne]
    exact agree t label' l' old
  · cases same
    exact Function.update_self ..

end

/-- The permits are balanced, and held by those that the proof outlines say. -/
structure PermitInv (limit : Nat) (s : Shared S) (ghosts : List (Label I × Place)) : Prop where
  balanced : Balanced limit s ghosts.length
  agree : HoldersStarted s.started ghosts

section Sound
variable {r : Label I → Label I → Prop} {blocking : U → Bool} {fact : (op : U) → UAns op → Prop}
  {fn : I → Code U I UAns (Option Error)} {user : S → Nat → Bool → (op : U) → UAns op → Option S}

theorem permit_sound (limit : Nat) (body : TreeBody true r blocking fact fn)
    (answers : ∀ s t ended op answer s', user s t ended op answer = some s' → fact op answer) :
    Sound (treeGhost true r blocking fact) treePost (machine fn user) (PermitInv (S := S) limit) := by
  intro s ghosts t label l op answer s' spawned inv found ⟨_, ready, _⟩ performed
  have responded := (perform_eq_some.mp performed).2
  have balanced := respond_balanced inv.balanced (List.getElem?_eq_some_iff.mp found).1 responded
  have moves {l' : Place} {new : List (Label I × Place)} (length : spawned.length = new.length)
      (agree : HoldersStarted s'.started (ghosts.set t (label, l') ++ new)) :
      PermitInv limit s' (ghosts.set t (label, l') ++ new) :=
    ⟨by rwa [List.length_append, List.length_set, ← length], agree⟩
  have keeps {l' : Place} (none : spawned = []) (started : s'.started = s.started) (same : l'.holding = l.holding) :
      PermitInv limit s' (ghosts.set t (label, l') ++ []) :=
    moves (by rw [none]; rfl) (by rw [started, List.append_nil]; exact inv.agree.keep found same)
  cases op with
  | regionStart =>
    obtain ⟨free, limited, _⟩ := inv.balanced.free
    have idle : s.started t = false := (inv.agree t label l found).trans (ready rfl).2
    obtain ⟨rfl, ⟨rfl, ⟨_, busy | unlimited⟩ | ⟨refused, _⟩⟩ | ⟨rfl, _, _, _, rfl⟩⟩ := respond_regionStart responded
    · cases idle.symm.trans busy
    · cases unlimited.symm.trans limited
    · refine ⟨_, [], rfl, .nil, keeps rfl rfl ?_⟩
      cases answer with
      | none => exact absurd rfl refused
      | some err => exact (ready rfl).2.symm
    · refine ⟨_, [], rfl, .nil, moves rfl ?_⟩
      rw [List.append_nil]
      exact inv.agree.set t label { l with holding := true }
  | regionEnd =>
    obtain ⟨rfl, rfl⟩ := respond_regionEnd responded
    refine ⟨_, [], rfl, .nil, moves rfl ?_⟩
    rw [List.append_nil]
    exact inv.agree.set t label { l with holding := false }
  | spawn g item =>
    obtain ⟨group, _, ⟨rfl, rfl, _, rfl⟩ | ⟨err, rfl, _, _, _, rfl, rfl⟩⟩ := respond_spawn responded
    · obtain ⟨free, limited, _⟩ := inv.balanced.free
      refine ⟨l, [(some (g, item), { holding := true })], rfl, .cons ⟨rfl, tree_goroutine body g item⟩ .nil, moves rfl ?_⟩
      rw [set_same found, Shared.start, limited]
      exact inv.agree.append _ { holding := true }
    · exact ⟨_, [], rfl, .nil, keeps rfl rfl rfl⟩
  | user op =>
    obtain ⟨user', answered, rfl, rfl⟩ := respond_user responded
    exact ⟨_, [], ⟨answers _ _ _ _ _ _ answered, rfl⟩, .nil, keeps rfl rfl rfl⟩
  | withContext | load | wait | compareAndSwap | report =>
    obtain ⟨rfl, started, _⟩ := (respond_frame responded).2.2.2.resolve_right (by simp)
    exact ⟨_, [], rfl, .nil, keeps rfl started rfl⟩

/-- A goroutine that is about to block, and one that has returned, hold no
permit; and when nobody holds one, all are free. -/
structure Permits (blocking : U → Bool) (limit : Nat) (σ : State U I UAns S) : Prop where
  waiting : ∀ (t : Nat) label op next, σ.threads[t]? = some ⟨label, .call op next⟩ →
    op.blocking blocking = true → σ.shared.started t = false
  returned : ∀ t value, σ.Returned t value → σ.shared.started t = false
  free : (∀ t < σ.threads.length, σ.shared.started t = false) → σ.shared.limiter = some limit

theorem permits_reach {limit : Nat} {user₀ : S} {items : List I} {σ : State U I UAns S}
    (body : TreeBody true r blocking fact fn)
    (answers : ∀ s t ended op answer s', user s t ended op answer = some s' → fact op answer)
    (below : ∀ g, ∀ item ∈ items, r (some (g, item)) none)
    (reach : Reach (machine fn user) (initial (some limit) user₀ items) σ) :
    Permits blocking limit σ := by
  have start : Outline (treeGhost true r blocking fact) treePost (PermitInv limit)
      (initial (some limit) user₀ items : State U I UAns S) := by
    refine ⟨[(none, {})], .cons ⟨rfl, tree_main _ _ _ _ below⟩ .nil, ⟨fun _ _ => rfl, limit, rfl, rfl⟩, ?_⟩
    intro t label l found
    cases t with
    | zero => cases found; rfl
    | succ t => cases found
  have env : ∀ (s : Shared S) (ghosts : List (Label I × Place)) s', PermitInv limit s ghosts →
      (machine fn user).env s s' → PermitInv limit s' ghosts := by
    rintro s ghosts s' inv ⟨_, _, rfl⟩
    exact ⟨inv.balanced.frame rfl rfl, inv.agree⟩
  obtain ⟨ghosts, fits, inv⟩ := start.reach (permit_sound limit body answers) env reach
  refine ⟨?_, ?_, ?_⟩
  · intro t label op next found blocks
    obtain ⟨l, atT, ⟨_, ready, _⟩, _⟩ := ghost_of_thread fits found
    exact (inv.agree t label l atT).trans (ready blocks).2
  · rintro t value ⟨label, found⟩
    obtain ⟨l, atT, _, idle, _⟩ := ghost_of_thread fits found
    exact (inv.agree t label l atT).trans idle
  · intro idle
    obtain ⟨free, limiter, total⟩ := inv.balanced.free
    have none : (List.range ghosts.length).countP σ.shared.started = 0 := by
      refine List.countP_eq_zero.mpr fun t inside => ?_
      rw [idle t (by rw [fits.length_eq]; exact List.mem_range.mp inside)]
      exact Bool.false_ne_true
    rw [limiter, ← total, none, Nat.add_zero]

end Sound

end OrasGo.Syncutil
