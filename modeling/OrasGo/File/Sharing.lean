import OrasGo.File.Restore

/-! What holds between the steps of pushes that go well. -/

namespace OrasGo.File
open Interleaving

abbrev Ghosts := List (Call × Local)

/-- The file of the name is there, or its call is about to say so. -/
def Closed (s : State) (ghosts : Ghosts) (name : String) : Prop :=
  s.taken name = true ∨ ∃ g ∈ ghosts, g.2.stored = some name

variable (sc : Scene)

/-- The file has its content, and no call writes it or will do so. -/
structure Complete (s : State) (ghosts : Ghosts) (path : String) (content : Bytes) : Prop where
  file : s.files path = some content
  closed : ∀ name ∈ sc.names, sc.opts.absPath name = path → Closed s ghosts name
  unwritten : ∀ g ∈ ghosts, ∀ content', g.2.writing ≠ some (path, content')

/-- The locks of call `t`, and the file it writes: that of its name, or a temporary one. -/
structure Local.Locks (s : State) (t : Nat) (l : Local) : Prop where
  pushing : ∀ name, l.pushing = some name → name ∈ sc.names ∧ s.holder name = some t ∧ s.taken name = false
  stored : ∀ name, l.stored = some name → s.holder name = some t ∧ l.pushing = none ∧ l.writing = none
  writing : ∀ path content, l.writing = some (path, content) → s.files path = some content ∧
    ((∃ name, l.pushing = some name ∧ path = sc.opts.absPath name) ∨ ∀ name ∈ sc.names, sc.opts.absPath name ≠ path)

/-- What a call has found and done. -/
structure Local.Facts (s : State) (ghosts : Ghosts) (call : Call) (l : Local) : Prop where
  source : ∀ path content, l.source = some (path, content) → Complete sc s ghosts path content
  inFallback : ∀ k ∈ l.inFallback, s.fallback k ≠ none
  recorded : l.recorded = true → s.digestToPath call.expected.digest ≠ none
  saved : l.saved = true → (s.digestToPath call.expected.digest ≠ none ∨ s.fallback (fromOCI call.expected) ≠ none) ∧
    (title call.expected ≠ "" → s.taken (title call.expected) = true)
  restored : l.restored = true → s.taken (title sc.layer) = true
  indexed : l.indexed = true → fromOCI call.expected ∈ s.graph.nodes ∧
    fromOCI call.expected ∈ s.graph.predecessorSet (fromOCI sc.layer)

/-- The bytes are those of the layer. -/
def IsLayer (content : Bytes) : Prop :=
  Settles sc sc.layer.digest content ∧ (content.length : Int) = sc.layer.size

structure Inv (s : State) (ghosts : Ghosts) : Prop where
  opened : s.closed = false
  calls : ∀ (t : Nat) call l, ghosts[t]? = some (call, l) → call ∈ sc.calls ∧ l.Locks sc s t ∧ l.Facts sc s ghosts call
  apart : ∀ (t t' : Nat) call call' l l' path content content', t ≠ t' → ghosts[t]? = some (call, l) →
    ghosts[t']? = some (call', l') → l.writing = some (path, content) → l'.writing ≠ some (path, content')
  recorded : ∀ digest path, s.digestToPath digest = some path →
    ∃ content, Complete sc s ghosts path content ∧ Settles sc digest content
  fallback : ∀ desc content, s.fallback (fromOCI desc) = some content → Matches sc.cd desc content
  layer : s.digestToPath sc.layer.digest ≠ none ∨ s.fallback (fromOCI sc.layer) ≠ none
  file : Closed s ghosts (title sc.layer) → ∃ content, Complete sc s ghosts sc.path content ∧ IsLayer sc content

/-- A step of call `t` leaves alone what others rely on: their locks and files, the complete files,
and everything that is known to be there. -/
structure Evolves (s : State) (ghosts : Ghosts) (t : Nat) (l : Local) (s' : State) (l' : Local) : Prop where
  opened : s'.closed = s.closed
  holder : ∀ name t', t' ≠ t → s.holder name = some t' → s'.holder name = some t' ∧ s'.taken name = s.taken name
  taken : ∀ name, s.taken name = true → s'.taken name = true
  stored : ∀ name, l.stored = some name → l'.stored = some name ∨ s'.taken name = true
  complete : ∀ path content, Complete sc s ghosts path content →
    s'.files path = some content ∧ ∀ content', l'.writing ≠ some (path, content')
  others : ∀ (t' : Nat) call l₂ path content, t' ≠ t → ghosts[t']? = some (call, l₂) → l₂.writing = some (path, content) →
    s'.files path = some content ∧ ∀ content', l'.writing ≠ some (path, content')
  digests : ∀ digest, s.digestToPath digest ≠ none → s'.digestToPath digest ≠ none
  fallback : ∀ k, s.fallback k ≠ none → s'.fallback k ≠ none
  nodes : ∀ k ∈ s.graph.nodes, k ∈ s'.graph.nodes
  predecessors : ∀ k, ∀ n ∈ s.graph.predecessorSet k, n ∈ s'.graph.predecessorSet k

section Evolve
variable {sc} {s s' : State} {ghosts : Ghosts} {t : Nat} {call : Call} {l l' : Local}

section

variable (ev : Evolves sc s ghosts t l s' l') (found : ghosts[t]? = some (call, l))
include ev found

theorem Evolves.closed {name : String} (closed : Closed s ghosts name) : Closed s' (ghosts.set t (call, l')) name := by
  rcases closed with taken | ⟨g, member, stored⟩
  · exact .inl (ev.taken name taken)
  · rcases mem_set_or_eq (y := (call, l')) found member with other | rfl
    · exact .inr ⟨g, other, stored⟩
    · exact (ev.stored name stored).elim (fun kept => .inr ⟨_, mem_set_self found, kept⟩) .inl

theorem Evolves.keeps {path : String} {content : Bytes} (complete : Complete sc s ghosts path content) :
    Complete sc s' (ghosts.set t (call, l')) path content where
  file := (ev.complete path content complete).1
  closed name used same := ev.closed found (complete.closed name used same)
  unwritten g member := by
    rcases List.mem_or_eq_of_mem_set member with before | rfl
    · exact complete.unwritten g before
    · exact (ev.complete path content complete).2

theorem Evolves.facts {call' : Call} {l₂ : Local} (facts : l₂.Facts sc s ghosts call') :
    l₂.Facts sc s' (ghosts.set t (call, l')) call' where
  source path content reads := ev.keeps found (facts.source path content reads)
  inFallback k member := ev.fallback k (facts.inFallback k member)
  recorded flag := ev.digests _ (facts.recorded flag)
  saved flag := ⟨(facts.saved flag).1.imp (ev.digests _) (ev.fallback _), fun named => ev.taken _ ((facts.saved flag).2 named)⟩
  restored flag := ev.taken _ (facts.restored flag)
  indexed flag := ⟨ev.nodes _ (facts.indexed flag).1, ev.predecessors _ _ (facts.indexed flag).2⟩

end

theorem Evolves.locks (ev : Evolves sc s ghosts t l s' l') {t' : Nat} {call' : Call} {l₂ : Local} (other : t' ≠ t)
    (found' : ghosts[t']? = some (call', l₂)) (locks : l₂.Locks sc s t') : l₂.Locks sc s' t' where
  pushing name pushing := by
    obtain ⟨used, held, free⟩ := locks.pushing name pushing
    obtain ⟨held', same⟩ := ev.holder name t' other held
    exact ⟨used, held', same.trans free⟩
  stored name stored :=
    ⟨(ev.holder name t' other (locks.stored name stored).1).1, (locks.stored name stored).2⟩
  writing path content writing :=
    ⟨(ev.others t' call' l₂ path content other found' writing).1, (locks.writing path content writing).2⟩

/-- The invariant after a step, from what the step is to show of its own call and of what is new. -/
theorem Inv.evolve (inv : Inv sc s ghosts) (found : ghosts[t]? = some (call, l)) (ev : Evolves sc s ghosts t l s' l')
    (locks : l'.Locks sc s' t) (facts : l'.Facts sc s' (ghosts.set t (call, l')) call)
    (recorded : ∀ digest path, s'.digestToPath digest = some path → s.digestToPath digest = some path ∨
      ∃ content, Complete sc s' (ghosts.set t (call, l')) path content ∧ Settles sc digest content)
    (fallback : ∀ desc content, s'.fallback (fromOCI desc) = some content → Matches sc.cd desc content)
    (file : Closed s' (ghosts.set t (call, l')) (title sc.layer) → Closed s ghosts (title sc.layer) ∨
      ∃ content, Complete sc s' (ghosts.set t (call, l')) sc.path content ∧ IsLayer sc content) :
    Inv sc s' (ghosts.set t (call, l')) where
  opened := ev.opened.trans inv.opened
  calls t' call' l₂ found' := by
    rcases getElem?_set_cases found' with ⟨rfl, same⟩ | ⟨other, before⟩
    · cases same
      exact ⟨(inv.calls t' call l found).1, locks, facts⟩
    · obtain ⟨member, locks', facts'⟩ := inv.calls t' call' l₂ before
      exact ⟨member, ev.locks other before locks', ev.facts found facts'⟩
  apart t₁ t₂ call₁ call₂ l₁ l₂ path content content' differ found₁ found₂ writing writing' := by
    rcases getElem?_set_cases found₁ with ⟨rfl, same⟩ | ⟨other₁, before₁⟩
    · cases same
      rcases getElem?_set_cases found₂ with ⟨rfl, _⟩ | ⟨other₂, before₂⟩
      · exact differ rfl
      · exact (ev.others t₂ call₂ l₂ path content' other₂ before₂ writing').2 content writing
    · rcases getElem?_set_cases found₂ with ⟨rfl, same⟩ | ⟨_, before₂⟩
      · cases same
        exact (ev.others t₁ call₁ l₁ path content other₁ before₁ writing).2 content' writing'
      · exact inv.apart t₁ t₂ call₁ call₂ l₁ l₂ path content content' differ before₁ before₂ writing writing'
  recorded digest path stored := by
    rcases recorded digest path stored with before | new
    · obtain ⟨content, complete, settles⟩ := inv.recorded digest path before
      exact ⟨content, ev.keeps found complete, settles⟩
    · exact new
  fallback := fallback
  layer := inv.layer.imp (ev.digests _) (ev.fallback _)
  file closed := by
    rcases file closed with before | new
    · obtain ⟨content, complete, layer⟩ := inv.file before
      exact ⟨content, ev.keeps found complete, layer⟩
    · exact new

theorem closed_before (found : ghosts[t]? = some (call, l)) (s' : State) (l' : Local) (taken : s'.taken = s.taken)
    (stored : l'.stored = l.stored) {name : String} (closed : Closed s' (ghosts.set t (call, l')) name) :
    Closed s ghosts name := by
  rcases closed with flag | ⟨g, member, done⟩
  · exact .inl (taken ▸ flag)
  · rcases List.mem_or_eq_of_mem_set member with before | rfl
    · exact .inr ⟨g, before, done⟩
    · exact .inr ⟨_, List.mem_of_getElem? found, stored ▸ done⟩

section

variable (inv : Inv sc s ghosts) (found : ghosts[t]? = some (call, l))
include inv found

theorem Inv.files (s' : State) (l' : Local) (files : s'.files = s.files)
    (writing : ∀ path content, l'.writing = some (path, content) → l.writing = some (path, content)) :
    (∀ path content, Complete sc s ghosts path content →
      s'.files path = some content ∧ ∀ content', l'.writing ≠ some (path, content')) ∧
    ∀ (t' : Nat) call l₂ path content, t' ≠ t → ghosts[t']? = some (call, l₂) → l₂.writing = some (path, content) →
      s'.files path = some content ∧ ∀ content', l'.writing ≠ some (path, content') := by
  rw [files]
  refine ⟨fun path content complete => ⟨complete.file, fun content' again => ?_⟩,
    fun t' call' l₂ path content other found' written =>
      ⟨((inv.calls t' call' l₂ found').2.1.writing path content written).1, fun content' again => ?_⟩⟩
  · exact complete.unwritten _ (List.mem_of_getElem? found) content' (writing _ _ again)
  · exact inv.apart t t' call call' l l₂ path content' content (Ne.symm other) found found' (writing _ _ again) written

theorem Inv.still : Evolves sc s ghosts t l s l where
  opened := rfl
  holder _ _ _ held := ⟨held, rfl⟩
  taken _ := id
  stored _ := .inl
  complete := (inv.files found s l rfl fun _ _ => id).1
  others := (inv.files found s l rfl fun _ _ => id).2
  digests _ := id
  fallback _ := id
  nodes _ := id
  predecessors _ _ := id

theorem Inv.note (pushing : l'.pushing = l.pushing) (stored : l'.stored = l.stored) (writing : l'.writing = l.writing)
    (facts : l'.Facts sc s ghosts call) :
    Inv sc s (ghosts.set t (call, l')) := by
  obtain ⟨complete, others⟩ := inv.files found s l' rfl (fun _ _ again => writing ▸ again)
  have ev : Evolves sc s ghosts t l s l' :=
    { inv.still found with stored := fun name done => .inl (stored.trans done), complete, others }
  obtain ⟨_, locks, _⟩ := inv.calls t call l found
  refine inv.evolve found ev ⟨?_, ?_, ?_⟩ (ev.facts found facts) (fun _ _ => .inl) inv.fallback
    (fun closed => .inl (closed_before found s l' rfl stored closed))
  · rw [pushing]
    exact locks.pushing
  · rw [stored, pushing, writing]
    exact locks.stored
  · rw [writing, pushing]
    exact locks.writing

theorem Inv.acquire (idle : l.Idle) {name : String} (used : name ∈ sc.names) (unheld : s.holder name = none)
    (free : s.taken name = false) :
    Inv sc (s.acquire name t) (ghosts.set t (call, l.acquire name)) := by
  have ev : Evolves sc s ghosts t l (s.acquire name t) (l.acquire name) := by
    refine { inv.still found with holder := fun name' t' _ held => ⟨?_, rfl⟩ }
    have differ : name' ≠ name := by
      rintro rfl
      cases unheld.symm.trans held
    exact (Function.update_of_ne differ _ _).trans held
  refine inv.evolve found ev ⟨?_, ?_, ?_⟩ { ev.facts found (inv.calls t call l found).2.2 with } (fun _ _ => .inl) inv.fallback
    (fun closed => .inl (closed_before found (s.acquire name t) (l.acquire name) rfl rfl closed))
  · rintro name' same
    obtain rfl : name = name' := Option.some.inj same
    exact ⟨used, Function.update_self _ _ _, free⟩
  · intro name' stored
    cases idle.stored.symm.trans stored
  · intro path content writing
    cases idle.writing.symm.trans writing

end

theorem taken_release {name name' : String} :
    (s.release name true).taken name' = true ↔ s.taken name' = true ∨ name' = name := by
  by_cases same : name' = name
  · simp [State.release, same]
  · simp [State.release, same]

section

variable (inv : Inv sc s ghosts)
include inv

theorem Inv.release (found : ghosts[t]? = some (call, l)) {name : String} (stored : l.stored = some name) :
    Inv sc (s.release name true) (ghosts.set t (call, l.release sc call name)) := by
  obtain ⟨_, locks, facts⟩ := inv.calls t call l found
  obtain ⟨held, pushing, writing⟩ := locks.stored name stored
  have own : (s.release name true).taken name = true := taken_release.mpr (.inr rfl)
  have ev : Evolves sc s ghosts t l (s.release name true) (l.release sc call name) := by
    refine { inv.still found with
      holder := fun name' t' other held' => ?_, taken := fun name' flag => taken_release.mpr (.inl flag)
      stored := fun name' done => .inr ?_ }
    · have differ : name' ≠ name := by
        rintro rfl
        cases held.symm.trans held'
        exact other rfl
      exact ⟨(Function.update_of_ne differ _ _).trans held', Function.update_of_ne differ _ _⟩
    · cases stored.symm.trans done
      exact own
  have facts' := ev.facts found facts
  refine inv.evolve found ev ⟨?_, ?_, ?_⟩ { facts' with saved := ?_, restored := ?_ } (fun _ _ => .inl) inv.fallback ?_
  · intro name' impossible
    cases pushing.symm.trans impossible
  · intro name' impossible
    cases impossible
  · intro path content impossible
    cases writing.symm.trans impossible
  · intro flag
    rcases Bool.or_eq_true_iff.mp flag with before | new
    · exact facts'.saved before
    · obtain ⟨recorded, same⟩ := Bool.and_eq_true_iff.mp new
      exact ⟨.inl (facts'.recorded recorded), fun _ => of_decide_eq_true same ▸ own⟩
  · intro flag
    rcases Bool.or_eq_true_iff.mp flag with before | same
    · exact facts'.restored before
    · exact of_decide_eq_true same ▸ own
  · rintro (flag | ⟨g, member, done⟩)
    · rcases taken_release.mp flag with before | same
      · exact .inl (.inl before)
      · exact .inl (.inr ⟨_, List.mem_of_getElem? found, same ▸ stored⟩)
    · rcases List.mem_or_eq_of_mem_set member with before | rfl
      · exact .inl (.inr ⟨g, before, done⟩)
      · cases done

theorem Inv.open (found : ghosts[t]? = some (call, l)) {name : String} (pushing : l.pushing = some name) :
    ¬ Closed s ghosts name := by
  obtain ⟨_, held, free⟩ := (inv.calls t call l found).2.1.pushing name pushing
  rintro (taken | ⟨⟨call', l₂⟩, member, stored⟩)
  · cases free.symm.trans taken
  · obtain ⟨t', found'⟩ := List.mem_iff_getElem?.mp member
    obtain ⟨held', none, _⟩ := (inv.calls t' call' l₂ found').2.1.stored name stored
    cases held.symm.trans held'
    cases found.symm.trans found'
    cases pushing.symm.trans none

theorem Inv.begin (found : ghosts[t]? = some (call, l)) {path : String}
    (free : ∀ content, ¬ Complete sc s ghosts path content)
    (alone : ∀ (t' : Nat) call' l₂ content, t' ≠ t → ghosts[t']? = some (call', l₂) → l₂.writing ≠ some (path, content))
    (stored : l.stored = none)
    (own : (∃ name, l.pushing = some name ∧ path = sc.opts.absPath name) ∨ ∀ name ∈ sc.names, sc.opts.absPath name ≠ path)
    {content : Bytes} :
    Inv sc (s.setFile path content) (ghosts.set t (call, l.write path content)) := by
  have other {path' : String} (differ : path' ≠ path) : (s.setFile path content).files path' = s.files path' :=
    Function.update_of_ne differ _ _
  have ev : Evolves sc s ghosts t l (s.setFile path content) (l.write path content) := by
    refine { inv.still found with
      complete := fun path' content' complete => ?_
      others := fun t' call' l₂ path' content' elsewhere found' writing => ?_ }
    · have differ : path' ≠ path := by
        rintro rfl
        exact free content' complete
      exact ⟨(other differ).trans complete.file, fun _ same => differ (Prod.mk.inj (Option.some.inj same)).1.symm⟩
    · have differ : path' ≠ path := by
        rintro rfl
        exact alone t' call' l₂ content' elsewhere found' writing
      exact ⟨(other differ).trans ((inv.calls t' call' l₂ found').2.1.writing path' content' writing).1,
        fun _ same => differ (Prod.mk.inj (Option.some.inj same)).1.symm⟩
  obtain ⟨_, locks, facts⟩ := inv.calls t call l found
  refine inv.evolve found ev ⟨locks.pushing, ?_, ?_⟩ { ev.facts found facts with } (fun _ _ => .inl) inv.fallback
    (fun closed => .inl (closed_before found (s.setFile path content) (l.write path content) rfl rfl closed))
  · intro name impossible
    cases stored.symm.trans impossible
  · intro path' content' same
    obtain ⟨rfl, rfl⟩ := Prod.mk.inj (Option.some.inj same)
    exact ⟨Function.update_self _ _ _, own⟩

theorem Inv.record (proper : sc.Proper) (found : ghosts[t]? = some (call, l)) {name path : String} {content : Bytes}
    {digest : Digest} (pushing : l.pushing = some name) (writing : l.writing = some (path, content))
    (settles : Settles sc digest content)
    (own : name = title sc.layer → path = sc.path ∧ (content.length : Int) = sc.layer.size ∧ digest = sc.layer.digest) :
    Inv sc (s.record digest path) (ghosts.set t (call, l.store call digest)) := by
  obtain ⟨_, locks, facts⟩ := inv.calls t call l found
  obtain ⟨used, held, free⟩ := locks.pushing name pushing
  obtain ⟨file, whose⟩ := locks.writing path content writing
  obtain ⟨complete, others⟩ := inv.files found (s.record digest path) (l.store call digest) rfl
    (fun _ _ impossible => by cases impossible)
  have digests (digest' : Digest) (known : s.digestToPath digest' ≠ none) : (s.record digest path).digestToPath digest' ≠ none := by
    by_cases same : digest' = digest
    · simp [State.record, same]
    · simpa [State.record, same] using known
  have ev : Evolves sc s ghosts t l (s.record digest path) (l.store call digest) := by
    refine { inv.still found with stored := fun name' stored => ?_, complete, others, digests }
    cases pushing.symm.trans (locks.stored name' stored).2.1
  have done : Closed (s.record digest path) (ghosts.set t (call, l.store call digest)) name :=
    .inr ⟨_, mem_set_self found, pushing⟩
  have whole : Complete sc (s.record digest path) (ghosts.set t (call, l.store call digest)) path content := by
    refine ⟨file, fun name' used' same => ?_, fun ⟨call', l₂⟩ member content' writing' => ?_⟩
    · rcases whose with ⟨name₂, pushing₂, rfl⟩ | temporary
      · cases pushing.symm.trans pushing₂
        cases proper.apart name' used' name used same
        exact done
      · exact absurd same (temporary name' used')
    · obtain ⟨t', found'⟩ := List.mem_iff_getElem?.mp member
      rcases getElem?_set_cases found' with ⟨_, same⟩ | ⟨other, before⟩
      · cases same
        cases writing'
      · exact inv.apart t t' call call' l l₂ path content content' (Ne.symm other) found before writing writing'
  have facts' := ev.facts found facts
  refine inv.evolve found ev ⟨?_, ?_, ?_⟩ { facts' with recorded := ?_ } ?_ inv.fallback ?_
  · intro name' impossible
    cases impossible
  · intro name' stored
    cases pushing.symm.trans stored
    exact ⟨held, rfl, rfl⟩
  · intro path' content' impossible
    cases impossible
  · intro flag
    rcases Bool.or_eq_true_iff.mp flag with before | same
    · exact facts'.recorded before
    · simp [State.record, ← of_decide_eq_true same]
  · intro digest' path' stored
    by_cases same : digest' = digest
    · subst same
      obtain rfl : path = path' := by simpa [State.record] using stored
      exact .inr ⟨content, whole, settles⟩
    · exact .inl (by simpa [State.record, same] using stored)
  · rintro (flag | ⟨g, member, stored⟩)
    · exact .inl (.inl flag)
    · rcases List.mem_or_eq_of_mem_set member with before | rfl
      · exact .inl (.inr ⟨g, before, stored⟩)
      · obtain rfl : name = title sc.layer := Option.some.inj (pushing.symm.trans stored)
        obtain ⟨rfl, size, rfl⟩ := own rfl
        exact .inr ⟨content, whole, settles, size⟩

theorem Inv.keep (found : ghosts[t]? = some (call, l)) {desc : Descriptor} {content : Bytes}
    (matching : Matches sc.cd desc content) : Inv sc (s.keep desc content) (ghosts.set t (call, l.keep call desc)) := by
  obtain ⟨_, locks, facts⟩ := inv.calls t call l found
  have fallback (k : Key) (known : s.fallback k ≠ none) : (s.keep desc content).fallback k ≠ none := by
    by_cases same : k = fromOCI desc
    · simp [State.keep, same]
    · simpa [State.keep, same] using known
  have ev : Evolves sc s ghosts t l (s.keep desc content) (l.keep call desc) := { inv.still found with fallback }
  have facts' := ev.facts found facts
  refine inv.evolve found ev { locks with } { facts' with saved := ?_ } (fun _ _ => .inl) ?_
    (fun closed => .inl (closed_before found (s.keep desc content) (l.keep call desc) rfl rfl closed))
  · intro flag
    rcases Bool.or_eq_true_iff.mp flag with before | new
    · exact facts'.saved before
    · obtain ⟨same, unnamed⟩ := Bool.and_eq_true_iff.mp new
      refine ⟨.inr ?_, fun named => absurd (of_decide_eq_true unnamed) named⟩
      simp [State.keep, of_decide_eq_true same]
  · intro desc' content' kept
    by_cases same : fromOCI desc' = fromOCI desc
    · obtain rfl : content = content' := by simpa [State.keep, same] using kept
      obtain ⟨_, digest, size⟩ := fromOCI_eq_iff.mp same
      exact ⟨size ▸ matching.size, size ▸ matching.allocated, digest ▸ matching.algorithm, digest ▸ matching.verified⟩
    · exact inv.fallback desc' content' (by simpa [State.keep, same] using kept)

theorem Inv.index (proper : sc.Proper) (found : ghosts[t]? = some (call, l)) :
    Inv sc (s.index call.expected (call.nodes sc.cd))
      (ghosts.set t (call, { l with indexed := true })) := by
  obtain ⟨mine, locks, facts⟩ := inv.calls t call l found
  have ev : Evolves sc s ghosts t l (s.index call.expected (call.nodes sc.cd)) { l with indexed := true } :=
    { inv.still found with
      nodes := fun k known => (Graph.Memory.mem_indexNode_nodes _ _ _).mpr (.inr known)
      predecessors := fun k n known => (Graph.Memory.mem_indexNode_predecessorSet _ _ _).mpr (.inl known) }
  refine inv.evolve found ev { locks with } { ev.facts found facts with indexed := fun _ => ⟨?_, ?_⟩ }
    (fun _ _ => .inl) inv.fallback
    (fun closed => .inl (closed_before found (s.index call.expected (call.nodes sc.cd))
      { l with indexed := true } rfl rfl closed))
  · exact (Graph.Memory.mem_indexNode_nodes _ _ _).mpr (.inl rfl)
  · exact (Graph.Memory.mem_indexNode_predecessorSet _ _ _).mpr
      (.inr ⟨rfl, List.mem_map_of_mem (proper.valid call mine).layer⟩)

theorem Inv.extract (found : ghosts[t]? = some (call, l)) {written : List (String × Bytes)}
    (fresh : ∀ file ∈ written, s.files file.1 = none) : Inv sc (s.setFiles written) (ghosts.set t (call, l)) := by
  have kept {path : String} {content : Bytes} (there : s.files path = some content) :
      (s.setFiles written).files path = some content := by
    refine (State.setFiles_files fun file member => ?_).trans there
    rintro rfl
    cases (fresh file member).symm.trans there
  rw [State.setFiles_eq]
  obtain ⟨_, locks, facts⟩ := inv.calls t call l found
  have ev : Evolves sc s ghosts t l { s with files := (s.setFiles written).files } l := by
    refine { inv.still found with
      complete := fun path content complete => ?_
      others := fun t' call' l₂ path content other found' writing => ?_ }
    · exact ⟨kept complete.file, complete.unwritten _ (List.mem_of_getElem? found)⟩
    · exact ⟨kept ((inv.calls t' call' l₂ found').2.1.writing path content writing).1, fun content' again =>
        inv.apart t t' call call' l l₂ path content' content (Ne.symm other) found found' again writing⟩
  refine inv.evolve found ev ⟨locks.pushing, locks.stored, fun path content writing => ?_⟩ (ev.facts found facts)
    (fun _ _ => .inl) inv.fallback
    (fun closed => .inl (closed_before found { s with files := (s.setFiles written).files } l rfl rfl closed))
  exact ⟨kept (locks.writing path content writing).1, (locks.writing path content writing).2⟩

end

end Evolve

end OrasGo.File
