import OrasGo.Syncutil.Tree

/-! The tree of goroutines in every reachable state. -/

namespace OrasGo.Syncutil
open Interleaving
variable {U I S : Type} {UAns : U → Type} {limited : Bool} {r : Label I → Label I → Prop} {blocking : U → Bool}
  {fact : (op : U) → UAns op → Prop}
  {fn : I → Code U I UAns (Option Error)} {user : S → Nat → Bool → (op : U) → UAns op → Option S}

section Sound
variable {creator : Nat → Nat} {s : Shared S} {ghosts : List (Label I × Place)} {t g : Nat}
  {label : Label I} {l : Place} {group : Group}

theorem TreeInv.egErr (inv : TreeInv r creator s ghosts) (found : ghosts[t]? = some (label, l))
    (atG : s.groups[g]? = some group) (err : Option Error) :
    TreeInv r creator (s.setGroup g { group with egErr := err }) ghosts := by
  obtain ⟨_, shut, count, label₁, l₁, atCreator, state⟩ := inv.group g group atG
  have same : ∀ group', s.groups[g]? = some group' → group' = group := fun _ there =>
    Option.some.inj (there.symm.trans atG)
  have kept := inv.setGroup (g := g) found { group with egErr := err } l ?_
    (fun _ _ _ _ said => .inl said) (fun _ within => within) (fun _ _ => ⟨id, rfl⟩) id
  · rwa [set_same found] at kept
  intro _ there
  rw [same _ there, set_same found]
  refine ⟨rfl, id, id, shut, count, label₁, l₁, atCreator, state.imp id fun left => ⟨?_, left.2⟩⟩
  exact ctxDone_setGroup _ (fun _ there => same _ there ▸ id) left.1

theorem pendingIn_reported {l l' : Place} (same : l'.reported = l.reported) (g : Nat) :
    pendingIn g (label, l') = pendingIn g (label, l) := by
  simp only [pendingIn, same]

theorem TreeInv.leave (inv : TreeInv r creator s ghosts) (found : ghosts[t]? = some (label, l))
    (within : l.inside = some g) (fine : l.failed = false) (atG : s.groups[g]? = some group)
    (cancelled failed : Bool) (kept : group.cancelled = true → cancelled = true)
    (expired : cancelled = true ∨ s.ctxDone group.ctx = true)
    (clean : failed = false → group.pending = 0 ∧ group.err = none) :
    TreeInv r creator (s.setGroup g { group with cancelled := cancelled })
      (ghosts.set t (label, { l with inside := none, failed := failed })) := by
  obtain ⟨path, shut, count, _⟩ := inv.group g group atG
  obtain rfl : creator g = t := (inv.inside t label l g found within).2
  have same := pending_set found { l with inside := none, failed := failed } g
  rw [show pendingIn g (label, { l with inside := none, failed := failed }) = pendingIn g (label, l) from
    pendingIn_reported rfl g] at same
  refine inv.setGroup found _ _ (fun _ there => ?_) (fun _ _ _ _ said => .inl said)
    (fun _ within' => by cases within') (fun g' other => ?_) fun _ => fine
  · cases atG.symm.trans there
    refine ⟨rfl, kept, id, fun failing => kept (shut failing), count.trans (by omega), label, _,
      List.getElem?_set_self (List.getElem?_eq_some_iff.mp found).1, .inr ⟨?_, clean⟩⟩
    rcases expired with expired | expired
    · simp only [Shared.ctxDone, Bool.or_eq_true, List.any_eq_true, Option.any_eq_true]
      refine .inr ⟨g, ?_, _, setGroup_getElem? atG _, by rw [if_pos rfl]; exact expired⟩
      rw [path]
      exact List.mem_cons_self
    · refine ctxDone_setGroup _ (fun _ there => ?_) expired
      cases atG.symm.trans there
      exact kept
  · refine ⟨fun within' => ?_, pendingIn_reported rfl g'⟩
    rw [within] at within'
    exact absurd (Option.some.inj within').symm other

theorem TreeInv.report {item : I} (inv : TreeInv r creator s ghosts)
    (found : ghosts[t]? = some (some (g, item), l)) (silent : l.reported = none)
    (atG : s.groups[g]? = some group) (err : Option Error) :
    TreeInv r creator (s.setGroup g (group.report err))
      (ghosts.set t (some (g, item), { l with reported := some err })) := by
  obtain ⟨path, shut, count, label₁, l₁, atCreator, state⟩ := inv.group g group atG
  obtain ⟨older, _⟩ := inv.member t g item l found
  obtain ⟨ctx, pending, _, recorded, closes⟩ := group.report_fields err
  have cancelled : group.cancelled = true → (group.report err).cancelled = true := fun before => by rw [closes, before]; rfl
  have failing : group.err ≠ none ∨ err ≠ none → (group.report err).err ≠ none := fun one none => by
    rw [recorded, Option.or_eq_none_iff] at none
    exact one.elim (· none.1) (· none.2)
  have closed : (group.report err).err ≠ none → (group.report err).cancelled = true := fun failed => by
    rw [recorded] at failed
    rw [closes]
    cases before : group.err with
    | none => cases err <;> simp [before] at failed ⊢
    | some e => rw [shut (by simp [before])]; rfl
  have moved := pending_set found { l with reported := some err } g
  simp only [pendingIn, silent, Option.any_some, decide_true, Option.isNone_none, Bool.and_self, if_true,
    Option.isNone_some, Bool.and_false, Bool.false_eq_true, if_false] at moved
  refine inv.setGroup found _ _ (fun _ there => ?_) (fun g' item' e same said => ?_) (fun _ within => within)
    (fun g' other => ⟨id, ?_⟩) id
  · cases atG.symm.trans there
    refine ⟨ctx, cancelled, fun before => failing (.inl before), closed, by omega, label₁, l₁,
      (List.getElem?_set_ne older.ne').trans atCreator, state.imp id fun left => ⟨?_, fun fine => ?_⟩⟩
    · refine ctxDone_setGroup _ (fun _ there => ?_) (ctx ▸ left.1)
      cases atG.symm.trans there
      exact cancelled
    · have empty := (left.2 fine).1
      omega
  · cases same
    cases said
    exact .inr ⟨rfl, failing (.inr (by simp))⟩
  · simp [pendingIn, Ne.symm other]

theorem tree_sound (body : TreeBody limited r blocking fact fn)
    (answers : ∀ s t ended op answer s', user s t ended op answer = some s' → fact op answer) :
    Sound (treeGhost limited r blocking fact) treePost (machine fn user)
      (fun (s : Shared S) ghosts => ∃ creator, TreeInv r creator s ghosts) := by
  rintro s ghosts t label l op answer s' spawned ⟨creator, inv⟩ found ⟨silent, ready, pre⟩ performed
  have responded := (perform_eq_some.mp performed).2
  cases op with
  | regionStart =>
    obtain ⟨rfl, ⟨rfl, _⟩ | ⟨_, _, free, _, rfl⟩⟩ := respond_regionStart responded
    all_goals exact .move _ rfl ⟨creator, (inv.hold found _).frame rfl rfl id⟩
  | regionEnd =>
    obtain ⟨rfl, rfl⟩ := respond_regionEnd responded
    exact .move _ rfl ⟨creator, (inv.hold found _).frame rfl rfl id⟩
  | withContext =>
    obtain ⟨rfl, rfl, rfl⟩ := respond_withContext responded
    exact .move _ rfl ⟨Function.update creator s.groups.length t, inv.withContext found pre⟩
  | spawn g item =>
    obtain ⟨group, atG, ⟨rfl, rfl, _, rfl⟩ | ⟨err, rfl, _, expired, _, rfl, rfl⟩⟩ := respond_spawn responded
    · refine ⟨l, [(some (g, item), { holding := limited })], rfl, .cons ⟨rfl, tree_goroutine body g item⟩ .nil, creator, ?_⟩
      rw [set_same found]
      exact inv.spawn found pre.1 atG pre.2
    · have left := inv.leave found pre.1 (ready rfl).1 atG group.cancelled true id (.inr expired) (by simp)
      refine .move _ rfl ⟨creator, left.frame ?_ rfl id⟩
      exact (set_same atG).symm
  | load g =>
    obtain ⟨rfl, rfl⟩ := respond_load responded
    exact .stay found rfl ⟨creator, inv⟩
  | wait g =>
    obtain ⟨group, atG, finished, rfl, rfl, rfl⟩ := respond_wait responded
    refine .move _ rfl ⟨creator, inv.leave found pre (ready rfl).1 atG true group.err.isSome (fun _ => rfl) (.inl rfl) fun fine => ?_⟩
    exact ⟨finished, Option.not_isSome_iff_eq_none.mp (by rw [fine]; exact Bool.false_ne_true)⟩
  | compareAndSwap g err =>
    obtain ⟨group, atG, rfl, rfl⟩ := respond_compareAndSwap responded
    split
    · exact .stay found rfl ⟨creator, inv.egErr found atG _⟩
    · exact .stay found rfl ⟨creator, inv.frame rfl rfl id⟩
  | report g err =>
    obtain ⟨group, atG, rfl, rfl⟩ := respond_report responded
    obtain ⟨⟨item, rfl⟩, _⟩ := pre
    exact .move _ rfl ⟨creator, inv.report found silent atG err⟩
  | user op =>
    obtain ⟨user', answered, rfl, rfl⟩ := respond_user responded
    exact .stay found ⟨answers _ _ _ _ _ _ answered, rfl⟩ ⟨creator, inv.frame rfl rfl id⟩

end Sound

theorem tree_reach {limiter : Option Nat} {user₀ : S} {items : List I} {σ : State U I UAns S}
    (body : TreeBody limited r blocking fact fn)
    (answers : ∀ s t ended op answer s', user s t ended op answer = some s' → fact op answer)
    (below : ∀ g, ∀ item ∈ items, r (some (g, item)) none)
    (reach : Reach (machine fn user) (initial limiter user₀ items) σ) :
    Outline (treeGhost limited r blocking fact) treePost (fun s ghosts => ∃ creator, TreeInv r creator s ghosts) σ := by
  have start : Outline (treeGhost limited r blocking fact) treePost
      (fun s ghosts => ∃ creator, TreeInv r creator s ghosts)
      (initial limiter user₀ items : State U I UAns S) := by
    refine ⟨[(none, {})], .cons ⟨rfl, tree_main _ _ _ _ below⟩ .nil, fun _ => 0, ?_, ?_, ?_, ?_⟩
    · intro t found
      cases t with
      | zero => rfl
      | succ t => cases found
    · intro t g item l found
      cases t <;> cases found
    · intro t label l g found within
      cases t with
      | zero => cases found; cases within
      | succ t => cases found
    · intro g group atG
      cases atG
  refine start.reach (tree_sound body answers) ?_ reach
  rintro s ghosts s' ⟨creator, inv⟩ ⟨_, _, rfl⟩
  exact ⟨creator, inv.frame rfl rfl fun _ => rfl⟩

/-- What the tree says about the programs the goroutines have still to run. -/
structure Tree (r : Label I → Label I → Prop) (blocking : U → Bool) (creator : Nat → Nat)
    (σ : State U I UAns S) : Prop where
  main : ∀ (t : Nat) prog, σ.threads[t]? = some ⟨none, prog⟩ → t = 0
  parent : ∀ (t : Nat) g item prog, σ.threads[t]? = some ⟨some (g, item), prog⟩ → creator g < t ∧
    ∃ label prog', σ.threads[creator g]? = some ⟨label, prog'⟩ ∧ r (some (g, item)) label
  ctx : ∀ (t : Nat) g item prog, σ.threads[t]? = some ⟨some (g, item), prog⟩ →
    σ.shared.ctx t = g :: σ.shared.ctx (creator g) ∧ ∃ group, σ.shared.groups[g]? = some group
  failed : ∀ (t : Nat) g item err, σ.threads[t]? = some ⟨some (g, item), .ret (some err)⟩ →
    (∃ group, σ.shared.groups[g]? = some group ∧ group.cancelled = true) ∧
    ¬ σ.Returned (creator g) none ∧
    ∀ label op next, σ.threads[creator g]? = some ⟨label, .call op next⟩ →
      op.blocking blocking = true → (∃ item, op = .spawn g item) ∨ op = .wait g
  expired : ∀ (t : Nat) g item prog value, σ.threads[t]? = some ⟨some (g, item), prog⟩ →
    σ.Returned (creator g) value → σ.shared.ctxDone (σ.shared.ctx t) = true
  nil : ∀ (t : Nat) g item prog, σ.threads[t]? = some ⟨some (g, item), prog⟩ →
    σ.Returned (creator g) none → prog = .ret none
  spawning : ∀ (t : Nat) label g item next, σ.threads[t]? = some ⟨label, .call (.spawn g item) next⟩ →
    r (some (g, item)) label ∧ ∃ group, σ.shared.groups[g]? = some group
  waiting : ∀ (t : Nat) label g next, σ.threads[t]? = some ⟨label, .call (.wait g) next⟩ → creator g = t ∧
    ∃ group, σ.shared.groups[g]? = some group ∧ (0 < group.pending →
      ∃ (t' : Nat) (item : I) (op : Op U I) (next : Ans UAns op → Code U I UAns (Option Error)),
        σ.threads[t']? = some ⟨some (g, item), .call op next⟩)
  returning : ∀ (t : Nat) label g op next, σ.threads[t]? = some ⟨label, .call op next⟩ →
    (∃ err, op = .report g err) ∨ (∃ err, op = .compareAndSwap g err) → ∃ item, label = some (g, item)

section Facts
variable {creator : Nat → Nat} {s : Shared S} {ghosts : List (Label I × Place)}
  {threads : List (Goroutine U I UAns)}

theorem reported_returns {label : Label I} {prog : Code U I UAns (Option Error)} {l : Place}
    {value : Option Error} (fits : wp (treeGhost limited r blocking fact label) prog (treePost label) l)
    (member : label ≠ none) (reported : l.reported = some value) : prog = .ret value := by
  cases prog with
  | ret value' =>
    have same := fits.2.2.2 member
    rw [reported] at same
    cases same
    rfl
  | call op next =>
    have silent := fits.1.1
    rw [reported] at silent
    cases silent

theorem TreeInv.tree (fits : List.Forall₂ (Fits (treeGhost limited r blocking fact) treePost) threads ghosts)
    (inv : TreeInv r creator s ghosts) : Tree r blocking creator ⟨s, threads⟩ := by
  refine ⟨?_, ?_, ?_, ?_, ?_, ?_, ?_, ?_, ?_⟩
  · intro t prog found
    obtain ⟨l, atT, _⟩ := ghost_of_thread fits found
    exact inv.main t (label_of_ghost atT)
  · intro t g item prog found
    obtain ⟨l, atT, _⟩ := ghost_of_thread fits found
    obtain ⟨older, ⟨label, atCreator, below⟩, _⟩ := inv.member t g item l atT
    obtain ⟨l', atCreator⟩ := ghost_at_label atCreator
    obtain ⟨prog', found', _⟩ := thread_of_ghost fits atCreator
    exact ⟨older, label, prog', found', below⟩
  · intro t g item prog found
    obtain ⟨l, atT, _⟩ := ghost_of_thread fits found
    obtain ⟨_, _, group, atG, same, _⟩ := inv.member t g item l atT
    exact ⟨same.trans (inv.group g group atG).1, group, atG⟩
  · intro t g item err found
    obtain ⟨l, atT, _, _, _, said⟩ := ghost_of_thread fits found
    obtain ⟨_, _, group, atG, _, failing⟩ := inv.member t g item l atT
    have broken : group.err ≠ none := failing err (said (by simp))
    obtain ⟨_, shut, _, label, l', atCreator, state⟩ := inv.group g group atG
    have within : l'.failed = false → l'.inside = some g := fun fine =>
      state.resolve_right fun ⟨_, clean⟩ => broken (clean fine).2
    refine ⟨⟨group, atG, shut broken⟩, ?_, ?_⟩
    · rintro ⟨label', found'⟩
      obtain ⟨l₁, atCreator₁, outside, _, fine, _⟩ := ghost_of_thread fits found'
      cases atCreator.symm.trans atCreator₁
      have unfailed : l'.failed = false := by simpa using fine
      cases outside.symm.trans (within unfailed)
    · intro label' op next found' blocks
      obtain ⟨l₁, atCreator₁, ⟨_, ready, pre⟩, _⟩ := ghost_of_thread fits found'
      cases atCreator.symm.trans atCreator₁
      have still := within (ready blocks).1
      cases op with
      | spawn g' item' =>
        cases pre.1.symm.trans still
        exact .inl ⟨item', rfl⟩
      | wait g' =>
        cases pre.symm.trans still
        exact .inr rfl
      | regionStart | user => cases pre.symm.trans still
      | _ => cases blocks
  · rintro t g item prog value found ⟨label, found'⟩
    obtain ⟨l, atT, _⟩ := ghost_of_thread fits found
    obtain ⟨_, _, group, atG, same, _⟩ := inv.member t g item l atT
    obtain ⟨_, _, _, label', l', atCreator, state⟩ := inv.group g group atG
    obtain ⟨l₁, atCreator₁, outside, _⟩ := ghost_of_thread fits found'
    cases atCreator.symm.trans atCreator₁
    rcases state with within | ⟨expired, _⟩
    · cases outside.symm.trans within
    · exact same.symm ▸ expired
  · rintro t g item prog found ⟨label, found'⟩
    obtain ⟨l, atT, outline⟩ := ghost_of_thread fits found
    obtain ⟨_, _, group, atG, _, failing⟩ := inv.member t g item l atT
    obtain ⟨_, _, count, label', l', atCreator, state⟩ := inv.group g group atG
    obtain ⟨l₁, atCreator₁, outside, _, fine, _⟩ := ghost_of_thread fits found'
    cases atCreator.symm.trans atCreator₁
    have unfailed : l'.failed = false := by simpa using fine
    rcases state with within | ⟨_, clean⟩
    · cases outside.symm.trans within
    · have none := List.countP_eq_zero.mp (count.symm.trans (clean unfailed).1) _ (List.mem_of_getElem? atT)
      cases said : l.reported with
      | none => simp [pendingIn, said] at none
      | some value =>
        cases value with
        | none => exact reported_returns outline (by simp) said
        | some err => exact absurd (clean unfailed).2 (failing err said)
  · intro t label g item next found
    obtain ⟨l, atT, ⟨_, _, within, below⟩, _⟩ := ghost_of_thread fits found
    exact ⟨below, _, List.getElem?_eq_getElem (inv.inside t label l g atT within).1⟩
  · intro t label g next found
    obtain ⟨l, atT, ⟨_, _, within⟩, _⟩ := ghost_of_thread fits found
    obtain ⟨known, made⟩ := inv.inside t label l g atT within
    have atG := List.getElem?_eq_getElem known
    refine ⟨made, _, atG, fun some => ?_⟩
    rw [(inv.group g _ atG).2.2.1] at some
    obtain ⟨⟨label', l'⟩, member, pending⟩ := List.countP_pos_iff.mp some
    obtain ⟨t', atT'⟩ := List.mem_iff_getElem?.mp member
    simp only [pendingIn, Bool.and_eq_true, Option.any_eq_true, decide_eq_true_eq,
      Option.isNone_iff_eq_none] at pending
    obtain ⟨⟨⟨g', item⟩, rfl, rfl⟩, silent⟩ := pending
    obtain ⟨prog, found', outline⟩ := thread_of_ghost fits atT'
    cases prog with
    | ret value => cases silent.symm.trans (outline.2.2.2 (by simp))
    | call op next => exact ⟨t', item, op, next, found'⟩
  · intro t label g op next found which
    obtain ⟨l, atT, ⟨_, _, pre⟩, _⟩ := ghost_of_thread fits found
    rcases which with ⟨err, rfl⟩ | ⟨err, rfl⟩
    · exact pre.1
    · exact pre

end Facts

end OrasGo.Syncutil
