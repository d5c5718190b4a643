import OrasGo.Base.Termination
import OrasGo.File.Store

/-! Pushes to one store always come to an end. -/

namespace OrasGo.File
open Interleaving

/-- The name whose lock a call holds, where it waits for no other. -/
def heldGhost : Ghost Op Ans (Option String) where
  pre
    | .lock _, held | .nameExists _, held => held = none
    | .unlock name _, held => held = some name
    | _, _ => True
  next
    | .lock name, _, _, held' => held' = some name
    | .unlock _ _, _, _, held' => held' = none
    | _, _, held, held' => held' = held

section Held
variable {opts : Options} {cd : Codec} {held : Option String} {expected : Descriptor} {content : Source}

/-- The program leaves the locks of the call as they are. -/
abbrev Neutral {α : Type} (program : Code α) (held : Option String) : Prop :=
  wp heldGhost program (fun _ held' => held' = held) held

theorem neutral_read (source : Source) : Neutral source.read held := by
  cases source with
  | memory content => rfl
  | file path => exact ⟨trivial, fun _ _ same => same⟩

theorem neutral_copyBuffer (path : String) : Neutral (copyBuffer cd path expected content) held := by
  unfold copyBuffer
  split
  · rfl
  · refine wp_seq _ (neutral_read content) ?_
    rintro (err | stream) _ rfl
    · rfl
    · refine ⟨trivial, ?_⟩
      rintro ⟨n, _ | err⟩ _ rfl
      · cases (pieceReader .eof false).copyBuffer cd [stream] expected <;> rfl
      · rfl

theorem neutral_saveFile (path : String) : Neutral (saveFile cd path expected content) held := by
  refine wp_seq _ (neutral_copyBuffer path) ?_
  rintro (_ | err) _ rfl
  · refine ⟨trivial, ?_⟩
    rintro _ _ rfl
    exact ⟨trivial, fun _ _ same => same⟩
  · exact ⟨trivial, fun _ _ same => same⟩

theorem neutral_pushNamed (name : String) : Neutral (pushNamed opts cd name expected content) held := by
  have resolved : Neutral (resolveWritePath opts name) held := by
    by_cases outside : opts.allowPathTraversalOnWrite = false ∧ opts.escapes (opts.absPath name) = true
    · rw [resolveWritePath, if_pos outside]
      rfl
    rw [resolveWritePath, if_neg outside]
    split
    · refine ⟨trivial, ?_⟩
      rintro (_ | _ | err) _ rfl <;> rfl
    · rfl
  refine wp_seq _ resolved ?_
  rintro (err | target) _ rfl
  · rfl
  change wp _ (if _ then _ else _) _ _
  split
  · refine ⟨trivial, ?_⟩
    rintro (_ | err) _ rfl
    · refine ⟨trivial, ?_⟩
      rintro (err | gzip) _ rfl
      · rfl
      · change wp _ (saveFile cd gzip expected content >>= _) _ _
        refine wp_seq _ (neutral_saveFile gzip) ?_
        rintro (_ | err) _ rfl
        · refine ⟨trivial, ?_⟩
          rintro ⟨_ | err, written⟩ _ rfl <;> rfl
        · rfl
    · rfl
  · refine ⟨trivial, ?_⟩
    rintro (_ | err) _ rfl
    · refine ⟨trivial, ?_⟩
      rintro (_ | err) _ rfl
      · exact neutral_saveFile target
      · rfl
    · rfl

theorem neutral_push : Neutral (push opts cd expected content) none := by
  by_cases unnamed : title expected = ""
  · rw [push, if_pos unnamed]
    split
    · rfl
    · refine wp_seq _ (neutral_read content) ?_
      rintro (err | stream) _ rfl
      · rfl
      · exact ⟨trivial, fun _ _ same => same⟩
  · rw [push, if_neg unnamed]
    refine ⟨rfl, ?_⟩
    rintro (_ | _) _ rfl
    · change wp _ (pushNamed opts cd (title expected) expected content >>= _) _ _
      refine wp_seq _ (neutral_pushNamed _) ?_
      rintro err _ rfl
      exact ⟨rfl, fun _ _ same => same⟩
    · exact ⟨rfl, fun _ _ same => same⟩

theorem neutral_fetch (target : Descriptor) : Neutral (fetch target) none := by
  have content : Neutral (fetchContent target) none := by
    refine ⟨trivial, ?_⟩
    rintro (_ | path) _ rfl
    · refine ⟨trivial, ?_⟩
      rintro (err | content) _ rfl <;> rfl
    · refine ⟨trivial, ?_⟩
      rintro (_ | _ | err) _ rfl <;> rfl
  refine ⟨trivial, ?_⟩
  rintro (_ | _) _ rfl
  · change wp _ (if _ then _ else _) _ _
    split
    · exact content
    · refine ⟨rfl, ?_⟩
      rintro (_ | _) _ rfl
      · rfl
      · exact content
  · rfl

theorem neutral_storeSuccessors (node : Descriptor) : Neutral (storeSuccessors cd node) none := by
  unfold storeSuccessors
  split
  · refine wp_seq _ (neutral_fetch node) ?_
    rintro (err | source) _ rfl
    · rfl
    · refine wp_seq _ (neutral_read source) ?_
      rintro stream _ rfl
      rfl
  · rfl

theorem neutral_restoreAll (nodes : List Descriptor) : Neutral (restoreAll opts cd nodes) none := by
  induction nodes with
  | nil => rfl
  | cons successor rest ih =>
    have restored : Neutral (restore opts cd successor) none := by
      refine wp_seq _ (neutral_fetch _) ?_
      rintro (err | source) _ rfl
      · rfl
      · refine wp_seq _ neutral_push ?_
        rintro err _ rfl
        rfl
    rw [restoreAll]
    split
    · exact ih
    · refine ⟨rfl, ?_⟩
      rintro (_ | _) _ rfl
      · change wp _ (restore opts cd successor >>= _) _ _
        refine wp_seq _ restored ?_
        rintro (_ | err) _ rfl
        · exact ih
        · change wp _ (if _ then _ else _) _ _
          split
          · exact ih
          · rfl
      · exact ih

theorem neutral_restoreDuplicates (desc : Descriptor) : Neutral (restoreDuplicates opts cd desc) none := by
  refine wp_seq _ (neutral_storeSuccessors desc) ?_
  rintro (err | nodes) _ rfl
  · rfl
  · exact neutral_restoreAll nodes

theorem neutral_index (node : Descriptor) : Neutral (index cd node) none := by
  refine wp_seq _ (neutral_storeSuccessors node) ?_
  rintro (err | nodes) _ rfl
  · rfl
  · refine ⟨trivial, ?_⟩
    rintro _ _ rfl
    rfl

theorem neutral_storePush (bytes : Bytes) : Neutral (storePush opts cd expected bytes) none := by
  refine ⟨trivial, ?_⟩
  rintro (_ | _) _ rfl
  · change wp _ (push opts cd expected (.memory bytes) >>= _) _ _
    refine wp_seq _ neutral_push ?_
    rintro (_ | err) _ rfl
    · change wp _ (if _ then _ else _) _ _
      split
      · exact neutral_index expected
      · refine wp_seq _ (neutral_restoreDuplicates expected) ?_
        rintro (_ | err) _ rfl
        · exact neutral_index expected
        · rfl
    · rfl
  · rfl

end Held

/-- The locks are those that the calls hold. -/
structure HeldInv (s : State) (ghosts : List (Call × Option String)) : Prop where
  holds : ∀ (t : Nat) call name, ghosts[t]? = some (call, some name) → s.holder name = some t
  held : ∀ (t : Nat) name, s.holder name = some t → ∃ call, ghosts[t]? = some (call, some name)

variable {opts : Options} {cd : Codec}

theorem holder_perform {s s' : State} {t : Nat} {op : Op} {a : Ans op} (notLock : ∀ name, op ≠ .lock name)
    (notUnlock : ∀ name pushed, op ≠ .unlock name pushed) (moved : perform cd s t op a = some s') : s'.holder = s.holder := by
  cases op with
  | lock name => exact absurd rfl (notLock name)
  | unlock name pushed => exact absurd rfl (notUnlock name pushed)
  | isClosedSet | nameExists | load =>
    obtain ⟨_, rfl⟩ := of_ite_some moved
    rfl
  | mkdirAll | close | store | indexNode =>
    cases moved
    rfl
  | stat path =>
    cases a with
    | absent =>
      obtain ⟨_, rfl⟩ := of_ite_some moved
      rfl
    | present | failed => cases moved; rfl
  | openFile path =>
    cases a with
    | present =>
      obtain ⟨_, rfl⟩ := Option.ite_none_left_eq_some.mp moved |>.imp_right Option.some.inj
      rfl
    | absent =>
      obtain ⟨_, rfl⟩ := of_ite_some moved
      rfl
    | failed => cases moved; rfl
  | create path => cases a <;> cases moved <;> rfl
  | createTemp | read =>
    cases a with
    | ok =>
      obtain ⟨_, rfl⟩ := of_ite_some moved
      rfl
    | error => cases moved; rfl
  | fallbackFetch desc =>
    cases a <;> obtain ⟨_, rfl⟩ := of_ite_some moved <;> rfl
  | fallbackPush desc content =>
    cases a with
    | none =>
      obtain ⟨_, rfl⟩ := of_ite_some moved
      rfl
    | some => cases moved; rfl
  | write path content =>
    obtain ⟨_, rfl⟩ := of_ite_some moved
    rfl
  | extractTarGzip target name gzip checksum =>
    cases moved
    rw [State.setFiles_eq]

section Keep
variable {s s' : State} {ghosts : List (Call × Option String)} {t : Nat} {call : Call} {held : Option String}

theorem HeldInv.same (inv : HeldInv s ghosts) (same : s'.holder = s.holder) (found : ghosts[t]? = some (call, held)) :
    HeldInv s' (ghosts.set t (call, held)) := by
  rw [set_same found]
  exact ⟨fun t' call' name found' => same ▸ inv.holds t' call' name found', fun t' name held' => inv.held t' name (same ▸ held')⟩

/-- The call now holds what `held'` says, and the others hold what they held. -/
theorem HeldInv.set (inv : HeldInv s ghosts) (found : ghosts[t]? = some (call, held)) {held' : Option String}
    (holder : ∀ name t', s'.holder name = some t' ↔ t' = t ∧ held' = some name ∨ t' ≠ t ∧ s.holder name = some t') :
    HeldInv s' (ghosts.set t (call, held')) where
  holds t' call' name found' := by
    rcases getElem?_set_cases found' with ⟨rfl, same⟩ | ⟨other, before⟩
    · cases same
      exact (holder name t').mpr (.inl ⟨rfl, rfl⟩)
    · exact (holder name t').mpr (.inr ⟨other, inv.holds t' call' name before⟩)
  held t' name holds := by
    rcases (holder name t').mp holds with ⟨rfl, rfl⟩ | ⟨other, before⟩
    · exact ⟨call, List.getElem?_set_self (List.getElem?_eq_some_iff.mp found).1⟩
    · obtain ⟨call', before⟩ := inv.held t' name before
      exact ⟨call', (List.getElem?_set_ne (Ne.symm other)).trans before⟩

/-- What a call holds is the name of its ghost state. -/
theorem HeldInv.name_eq (inv : HeldInv s ghosts) (found : ghosts[t]? = some (call, held)) {name : String}
    (holds : s.holder name = some t) : held = some name := by
  obtain ⟨_, before⟩ := inv.held t name holds
  cases found.symm.trans before
  rfl

theorem HeldInv.acquire (inv : HeldInv s ghosts) (found : ghosts[t]? = some (call, none)) {name : String}
    (free : s.holder name = none) : HeldInv (s.acquire name t) (ghosts.set t (call, some name)) := by
  refine inv.set found fun name' t' => ?_
  by_cases same : name' = name
  · subst same
    simp [State.acquire, free, eq_comm]
  · have mine : s.holder name' = some t' → t' ≠ t := by
      rintro holds rfl
      cases inv.name_eq found holds
    simpa [State.acquire, same, Ne.symm same] using mine

theorem HeldInv.release (inv : HeldInv s ghosts) {name : String} (found : ghosts[t]? = some (call, some name)) (pushed : Bool) :
    HeldInv (s.release name pushed) (ghosts.set t (call, none)) := by
  refine inv.set found fun name' t' => ?_
  by_cases same : name' = name
  · subst same
    have mine := inv.holds t call name' found
    simp [State.release, mine, eq_comm]
  · have mine : s.holder name' = some t' → t' ≠ t := by
      rintro holds rfl
      exact same (Option.some.inj (inv.name_eq found holds)).symm
    simpa [State.release, same] using mine

end Keep

theorem held_sound : Sound (fun _ => heldGhost) (fun _ _ held => held = none) (machine cd) HeldInv := by
  intro s ghosts t call held op a s' spawned inv found pre performed
  obtain ⟨s₁, moved, same⟩ := Option.map_eq_some_iff.mp performed
  cases same
  suffices kept : ∃ held', heldGhost.next op a held held' ∧ HeldInv s' (ghosts.set t (call, held')) by
    obtain ⟨held', next, inv'⟩ := kept
    exact .move held' next inv'
  cases op with
  | lock name =>
    obtain ⟨⟨free, _⟩, rfl⟩ := of_ite_some moved
    obtain rfl : held = none := pre
    exact ⟨_, rfl, inv.acquire found free⟩
  | unlock name pushed =>
    obtain ⟨_, rfl⟩ := of_ite_some moved
    obtain rfl : held = some name := pre
    exact ⟨_, rfl, inv.release found pushed⟩
  | _ => exact ⟨held, rfl, inv.same (holder_perform (by simp) (by simp) moved) found⟩

theorem perform_exists (cd : Codec) (s : State) (t : Nat) (op : Op) (free : ∀ name, op = .lock name ∨ op = .nameExists name →
      s.holder name = none) (own : ∀ name pushed, op = .unlock name pushed → s.holder name = some t) :
    ∃ a s', perform cd s t op a = some s' := by
  cases op with
  | isClosedSet => exact ⟨s.closed, s, if_pos rfl⟩
  | nameExists name => exact ⟨s.taken name, s, if_pos ⟨free name (.inr rfl), rfl⟩⟩
  | lock name => exact ⟨s.taken name, _, if_pos ⟨free name (.inl rfl), rfl⟩⟩
  | unlock name pushed => exact ⟨(), _, if_pos (own name pushed rfl)⟩
  | load digest => exact ⟨s.digestToPath digest, s, if_pos rfl⟩
  | stat path | openFile path => exact ⟨.failed .notFound, s, rfl⟩
  | mkdirAll path | close path | create path | fallbackPush desc content => exact ⟨some .notFound, s, rfl⟩
  | createTemp | read path => exact ⟨.error .notFound, s, rfl⟩
  | fallbackFetch desc =>
    refine ⟨.error .unsupported, s, ?_⟩
    simp [perform, Error.is]
  | write path content =>
    refine ⟨(0, some .notFound), s.setFile path (content.take 0 ++ ((s.files path).getD []).drop 0), ?_⟩
    simp [perform]
  | extractTarGzip target name gzip checksum => exact ⟨(none, []), _, rfl⟩
  | store | indexNode => exact ⟨(), _, rfl⟩

theorem held_reach {s : State} (unheld : ∀ name, s.holder name = none) {calls : List Call}
    {σ : Pool Op Ans State Call (Option Error)} (reach : Reach (machine cd) (start opts cd s calls) σ) :
    Outline (fun _ => heldGhost) (fun _ _ held => held = none) HeldInv σ := by
  refine Outline.reach held_sound (fun _ _ _ _ impossible => impossible.elim) ⟨calls.map fun call => (call, none), ?_, ?_⟩ reach
  · simp only [start, List.forall₂_map_left_iff, List.forall₂_map_right_iff, List.forall₂_same]
    exact fun call _ => ⟨rfl, neutral_storePush call.content⟩
  · refine ⟨fun t call name found => ?_, fun t name held => ?_⟩
    · obtain ⟨_, _, same⟩ := List.mem_map.mp (List.mem_of_getElem? found)
      cases same
    · cases (unheld name).symm.trans held

/-- No call waits for ever: somebody can take a step as long as a call has not returned. -/
theorem push_progress {s : State} (unheld : ∀ name, s.holder name = none) {calls : List Call}
    {σ : Pool Op Ans State Call (Option Error)} (reach : Reach (machine cd) (start opts cd s calls) σ) {t : Nat}
    (unfinished : σ.Unfinished t) : ∃ σ', Step (machine cd) σ σ' := by
  obtain ⟨ghosts, fits, inv⟩ := held_reach unheld reach
  obtain ⟨label, op, next, found⟩ := unfinished
  have moves {t : Nat} {label : Call} {op : Op} {next : Ans op → Code (Option Error)}
      (found : σ.threads[t]? = some ⟨label, .call op next⟩)
      (free : ∀ name, op = .lock name ∨ op = .nameExists name → σ.shared.holder name = none) :
      ∃ σ', Step (machine cd) σ σ' := by
    obtain ⟨held, atT, pre, _⟩ := ghost_of_thread fits found
    have own name pushed (same : op = .unlock name pushed) : σ.shared.holder name = some t := by
      subst same
      obtain rfl : held = some name := pre
      exact inv.holds t label name atT
    obtain ⟨a, s', performed⟩ := perform_exists cd σ.shared t op free own
    exact ⟨_, .thread t (.answer found (show (perform cd σ.shared t op a).map _ = _ by rw [performed]; rfl))⟩
  by_cases free : ∀ name, op = .lock name ∨ op = .nameExists name → σ.shared.holder name = none
  · exact moves found free
  -- The call waits for another one, and that one waits for nobody.
  push Not at free
  obtain ⟨name, _, taken⟩ := free
  obtain ⟨t', holding⟩ := Option.ne_none_iff_exists'.mp taken
  obtain ⟨call', atT'⟩ := inv.held t' name holding
  obtain ⟨prog', found', outline⟩ := thread_of_ghost fits atT'
  cases prog' with
  | ret result => cases outline
  | call op' next' =>
    refine moves found' ?_
    rintro name' (rfl | rfl) <;> cases outline.1

theorem push_terminates (s : State) (calls : List Call) :
    Acc (fun σ' σ => Step (machine cd) σ σ') (start opts cd s calls) := by
  have wf : WellFounded (fun _ _ : Call => False) := ⟨fun call => ⟨_, fun _ impossible => impossible.elim⟩⟩
  refine acc_step wf (P := fun _ => True) (fun _ _ _ _ => trivial) (fun _ => 0) (fun _ _ => False.elim)
    (fun _ _ _ _ _ _ _ _ => rfl) (fun σ t label op next a s spawned _ _ performed th member => ?_) trivial
  obtain ⟨_, _, same⟩ := Option.map_eq_some_iff.mp performed
  cases same
  cases member

end OrasGo.File
