import OrasGo.Syncutil.Go

/-! Proof outlines for the callback of `Go` that also keep the items it has
started goroutines for; a `Go` that returns nil has started one for each item. -/

namespace OrasGo.Syncutil
open Interleaving
variable {U I S L : Type} {UAns : U → Type}

/-- The outline `γ` of the callback's operations, beside the list of the items
the goroutine has started another one for. -/
def startedGhost (γ : Label I → Ghost U UAns L) (label : Label I) :
    Ghost (Op U I) (Ans UAns) (List I × L) where
  pre op l := match op with
    | .user op => (γ label).pre op l.2
    | _ => True
  next op answer l l' := match op, answer with
    | .spawn _ item, none => l' = (item :: l.1, l.2)
    | .user op, answer => l'.1 = l.1 ∧ (γ label).next op answer l.2 l'.2
    | _, _ => l' = l

section Program
variable {γ : Label I → Ghost U UAns L} {label : Label I}

/-- What `Go` leaves behind for its caller. -/
def AllStarted (items : List I) (l : List I × L) (err : Option Error) (l' : List I × L) : Prop :=
  l'.2 = l.2 ∧ (err = none → ∀ item, item ∈ l.1 ∨ item ∈ items → item ∈ l'.1)

theorem started_goLoop (g : Nat) (items : List I) (l : List I × L) :
    wp (startedGhost γ label) (goLoop g items : Code U I UAns _) (AllStarted items l) l := by
  induction items generalizing l with
  | nil =>
    refine ⟨trivial, ?_⟩
    rintro answer _ rfl
    refine ⟨rfl, fun _ item member => ?_⟩
    exact member.resolve_right List.not_mem_nil
  | cons item rest ih =>
    refine ⟨trivial, fun answer l' moved => ?_⟩
    cases answer with
    | none =>
      cases moved
      refine wp_mono _ (fun err l' ⟨same, all⟩ => ⟨same, fun success item' member => ?_⟩) (ih (item :: l.1, l.2))
      refine all success item' ?_
      simp only [List.mem_cons] at member ⊢
      rcases member with old | rfl | later
      · exact .inl (.inr old)
      · exact .inl (.inl rfl)
      · exact .inr later
    | some err =>
      cases moved
      refine ⟨trivial, ?_⟩
      rintro egErr _ rfl
      cases egErr <;> exact ⟨rfl, nofun⟩

theorem started_go (items : List I) (l : List I × L) :
    wp (startedGhost γ label) (go items : Code U I UAns _) (AllStarted items l) l := by
  refine ⟨trivial, fun g l' moved => ?_⟩
  cases moved
  exact started_goLoop g items _

theorem started_goroutine {fn : I → Code U I UAns (Option Error)} {item : I} {g : Nat}
    {post : Option Error → List I × L → Prop} {l : List I × L}
    (body : wp (startedGhost γ (some (g, item))) (fn item) post l) :
    wp (startedGhost γ (some (g, item))) (goroutine fn g item) post l := by
  refine wp_seq _ body fun err l' finished => ?_
  cases err <;>
    simp [compareAndSwap, regionEnd, report, call, startedGhost, finished]

end Program

/-- Every item listed has a goroutine. -/
def StartedInv (ghosts : List (Label I × List I × L)) : Prop :=
  ∀ ghost ∈ ghosts, ∀ item ∈ ghost.2.1, ∃ g, some (g, item) ∈ ghosts.map Prod.fst

section Invariant
variable {ghosts : List (Label I × List I × L)} {t g : Nat} {label : Label I} {l l' : List I × L} {item : I}

theorem StartedInv.move (inv : StartedInv ghosts) (found : ghosts[t]? = some (label, l)) (same : l'.1 = l.1) :
    StartedInv (ghosts.set t (label, l')) := by
  intro ghost member item listed
  rw [map_set_same (y := (label, l')) _ found rfl]
  rcases List.mem_or_eq_of_mem_set member with old | rfl
  · exact inv ghost old item listed
  · exact inv _ (List.mem_of_getElem? found) item (same ▸ listed)

theorem StartedInv.spawn {fresh : L} (inv : StartedInv ghosts) (found : ghosts[t]? = some (label, l)) :
    StartedInv (ghosts.set t (label, item :: l.1, l.2) ++ [(some (g, item), [], fresh)]) := by
  have labels : (ghosts.set t (label, item :: l.1, l.2) ++ [(some (g, item), [], fresh)]).map Prod.fst =
      ghosts.map Prod.fst ++ [some (g, item)] := by
    rw [List.map_append, map_set_same (y := (label, item :: l.1, l.2)) _ found rfl]
    rfl
  have older : ∀ ghost ∈ ghosts, ∀ item' ∈ ghost.2.1,
      ∃ g', some (g', item') ∈ ghosts.map Prod.fst ++ [some (g, item)] := by
    intro ghost member item' listed
    obtain ⟨g', started⟩ := inv ghost member item' listed
    exact ⟨g', List.mem_append_left _ started⟩
  intro ghost member item' listed
  rw [labels]
  rcases List.mem_append.mp member with old | new
  · rcases List.mem_or_eq_of_mem_set old with same | rfl
    · exact older ghost same item' listed
    · rcases List.mem_cons.mp listed with rfl | before
      · exact ⟨g, List.mem_append_right _ List.mem_cons_self⟩
      · exact older (label, l) (List.mem_of_getElem? found) item' before
  · cases List.mem_singleton.mp new
    cases listed

end Invariant

/-- The ghost states without the items. -/
def own (ghosts : List (Label I × List I × L)) : List (Label I × L) := ghosts.map fun ghost => (ghost.1, ghost.2.2)

section Reach
variable {γ : Label I → Ghost U UAns L} {post : Label I → Option Error → List I × L → Prop}
  {J : S → List (Label I × L) → Prop} {fresh : L} {fn : I → Code U I UAns (Option Error)}
  {user : S → Nat → Bool → (op : U) → UAns op → Option S}

theorem started_sound
    (body : ∀ g item, wp (startedGhost γ (some (g, item))) (fn item) (post (some (g, item))) ([], fresh))
    (keeps : CallbackKeeps γ fresh user J) :
    Sound (startedGhost γ) post (machine fn user)
      (fun s ghosts => StartedInv ghosts ∧ J s.user (own ghosts)) := by
  intro s ghosts t label l op answer s' spawned ⟨inv, held⟩ found pre performed
  have responded := (perform_eq_some.mp performed).2
  have atOwn : (own ghosts)[t]? = some (label, l.2) := by
    rw [own, List.getElem?_map, found]
    rfl
  cases op with
  | spawn g item =>
    obtain ⟨group, _, ⟨rfl, rfl, _, rfl⟩ | ⟨err, rfl, _, _, _, rfl, rfl⟩⟩ := respond_spawn responded
    · refine ⟨_, [(some (g, item), [], fresh)], rfl, .cons ⟨rfl, started_goroutine (body g item)⟩ .nil,
        inv.spawn found, ?_⟩
      have same : own (ghosts.set t (label, item :: l.1, l.2) ++ [(some (g, item), [], fresh)]) =
          own ghosts ++ [(some (g, item), fresh)] := by
        rw [own, List.map_append, List.map_set]
        exact congrArg (· ++ _) (set_same atOwn)
      rw [same]
      exact keeps.start _ _ _ held
    · exact .stay found rfl ⟨inv, held⟩
  | user op =>
    obtain ⟨user', answered, rfl, rfl⟩ := respond_user responded
    obtain ⟨l', moved, held'⟩ := keeps.answers _ _ _ _ _ _ _ _ _ held atOwn pre answered
    refine .move (l.1, l') ⟨rfl, moved⟩ ⟨inv.move found rfl, ?_⟩
    simp only [own, List.map_set]
    exact held'
  | regionStart | regionEnd | withContext | load | wait | compareAndSwap | report =>
    obtain ⟨kept, rfl⟩ := respond_quiet responded (by simp) (by simp)
    exact .stay found rfl ⟨inv, kept ▸ held⟩

/-- An invariant `J` of the callback's state that its operations keep, and that
new goroutines start in with ghost state `fresh`, holds throughout the run, as
does `StartedInv`. -/
theorem started_outline {items : List I} {limiter : Option Nat} {user₀ : S} {σ : State U I UAns S}
    (body : ∀ g item, wp (startedGhost γ (some (g, item))) (fn item) (post (some (g, item))) ([], fresh))
    (main : ∀ err l, AllStarted items ([], fresh) err l → post none err l)
    (keeps : CallbackKeeps γ fresh user J)
    (first : J user₀ [(none, fresh)])
    (reach : Reach (machine fn user) (initial limiter user₀ items) σ) :
    Outline (startedGhost γ) post (fun s ghosts => StartedInv ghosts ∧ J s.user (own ghosts)) σ := by
  have initially : Outline (startedGhost γ) post (fun s ghosts => StartedInv ghosts ∧ J s.user (own ghosts))
      (initial limiter user₀ items : State U I UAns S) := by
    refine ⟨[(none, [], fresh)], .cons ⟨rfl, wp_mono _ main (started_go items _)⟩ .nil, ?_, first⟩
    intro ghost member item listed
    cases List.mem_singleton.mp member
    cases listed
  refine initially.reach (started_sound body keeps) ?_ reach
  rintro s ghosts s' held ⟨_, _, rfl⟩
  exact held

theorem StartedInv.thread {σ : State U I UAns S} {ghosts : List (Label I × List I × L)} {t : Nat}
    {label : Label I} {l : List I × L} {item : I} (inv : StartedInv ghosts)
    (fits : List.Forall₂ (Fits (startedGhost γ) post) σ.threads ghosts)
    (found : ghosts[t]? = some (label, l)) (listed : item ∈ l.1) :
    ∃ (t g : Nat) (prog : Code U I UAns (Option Error)), σ.threads[t]? = some ⟨some (g, item), prog⟩ := by
  obtain ⟨g, labelled⟩ := inv _ (List.mem_of_getElem? found) item listed
  obtain ⟨t', l', atT'⟩ := ghost_of_label labelled
  obtain ⟨prog, found', _⟩ := thread_of_ghost fits atT'
  exact ⟨t', g, prog, found'⟩

end Reach

section Items
variable {fn : I → Code U I UAns (Option Error)} {user : S → Nat → Bool → (op : U) → UAns op → Option S}

/-- The outline that says nothing of the callback's own operations. -/
def noGhost (_ : Label I) : Ghost U UAns Unit where
  pre _ _ := True
  next _ _ _ _ := True

theorem started_any {α : Type} (label : Label I) (prog : Code U I UAns α) (l : List I × Unit) :
    wp (startedGhost noGhost label) prog (fun _ _ => True) l := by
  induction prog generalizing l with
  | ret value => trivial
  | call op next ih => exact ⟨by cases op <;> trivial, fun answer l' _ => ih answer l'⟩

/-- When the outermost `Go` has returned nil, each of its items has a goroutine. -/
theorem started_reach {limiter : Option Nat} {user₀ : S} {items : List I} {σ : State U I UAns S}
    (reach : Reach (machine fn user) (initial limiter user₀ items) σ)
    (success : σ.threads[0]? = some ⟨none, .ret none⟩) {item : I} (member : item ∈ items) :
    ∃ (t g : Nat) (prog : Code U I UAns (Option Error)), σ.threads[t]? = some ⟨some (g, item), prog⟩ := by
  have body (g : Nat) (item : I) : wp (startedGhost noGhost (some (g, item))) (fn item)
      (fun err l => some (g, item) = none → AllStarted items ([], ()) err l) ([], ()) :=
    wp_mono _ nofun (started_any _ _ _)
  have outline : Outline (startedGhost noGhost) (fun label err l => label = none → AllStarted items ([], ()) err l)
      (fun _ ghosts => StartedInv ghosts ∧ True) σ :=
    started_outline (J := fun _ _ => True) body (fun _ _ started _ => started)
      ⟨fun _ _ _ held => held, fun _ _ _ _ _ _ _ _ _ held _ _ _ => ⟨(), trivial, held⟩⟩ trivial reach
  obtain ⟨ghosts, fits, inv, _⟩ := outline
  obtain ⟨l, atMain, post⟩ := ghost_of_thread fits success
  exact inv.thread fits atMain ((post rfl).2 rfl item (.inr member))

end Items

end OrasGo.Syncutil
