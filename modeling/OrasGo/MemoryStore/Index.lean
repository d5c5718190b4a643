import OrasGo.Base.Reply
import OrasGo.MemoryStore.Store
import OrasGo.Registry.Listing

/-! Any number of goroutines push to one `memory.Store`. Once all have returned, the graph
knows every manifest of the storage that can be parsed. -/

namespace OrasGo.MemoryStore
open Interleaving Iteration Graph

/-- A call of `Push`. -/
structure Call where
  expected : Descriptor
  content : Stream

def Call.code (cd : Codec) (call : Call) : Code (Option Error) :=
  push cd call.expected (call.content.run (readAllFrom cd call.expected))

instance (op : StoreOp) : DecidableEq (StoreAns op) :=
  match op with
  | .load _ => inferInstanceAs (DecidableEq (Option Bytes))
  | .loadOrStore _ _ => inferInstanceAs (DecidableEq Bool)
  | .index _ _ => inferInstanceAs (DecidableEq Unit)

/-- Every operation is answered at once. -/
def reply : Reply StoreOp StoreAns Store Call (Option Error) := fun s _ _ op =>
  some ((s.reply op).1, (s.reply op).2, [])

abbrev Run := Pool StoreOp StoreAns Store Call (Option Error)

/-- The calls are about to be made on `New()`. -/
def start (cd : Codec) (calls : List Call) : Run := ⟨{}, calls.map fun call => ⟨call, call.code cd⟩⟩

section Perform
variable {s s' : Store} {t n : Nat} {spawned : List (Thread StoreOp StoreAns Call (Option Error))}

theorem perform_eq {op : StoreOp} {a : StoreAns op} (done : reply.machine.perform s t n op a = some (s', spawned)) :
    a = (s.reply op).1 ∧ s' = (s.reply op).2 ∧ spawned = [] := by
  have replied := Option.some.inj (Reply.perform_eq_some.mp done)
  simp only [Prod.mk.injEq] at replied
  exact ⟨replied.1.symm, replied.2.1.symm, replied.2.2.symm⟩

theorem labels_start {cd : Codec} {calls : List Call} {σ : Run} (reach : Reach reply.machine (start cd calls) σ) :
    σ.threads.map Thread.label = calls := by
  rw [Reach.labels (fun _ _ _ _ _ _ _ done => (perform_eq done).2.2) reach, start, List.map_map]
  exact List.map_id calls

end Perform

/-- How far a push has come: it has stored nothing, found the content there, stored it, fetched
it again to parse it, or indexed it. -/
inductive Phase
  | start
  | present
  | stored (value : Bytes)
  | loaded (value : Bytes)
  | indexed (value : Bytes)

/-- What the push has stored. -/
def Phase.value : Phase → Option Bytes
  | .stored value | .loaded value | .indexed value => some value
  | _ => none

def indexGhost (cd : Codec) (call : Call) : Ghost StoreOp StoreAns Phase where
  pre op l := match op with
    | .load key => key = fromOCI call.expected ∧ (l = .start ∨ ∃ value, l = .stored value)
    | .loadOrStore key _ => key = fromOCI call.expected ∧ l = .start
    | .index node nodes => node = call.expected ∧ ∃ value,
        successors cd (fun _ => .ok value) call.expected = .ok nodes ∧ (l = .stored value ∨ l = .loaded value)
  next op answer l l' := match op, answer with
    | .load _, none => l = .start ∧ l' = .start
    | .load _, some value => l = .start ∧ l' = .present ∨ l = .stored value ∧ l' = .loaded value
    | .loadOrStore _ _, true => l' = .present
    | .loadOrStore _ value, false => l' = .stored value
    | .index _ _, _ => ∃ value, l' = .indexed value

/-- A push that has stored its content returns after it has indexed it, or because it cannot
be parsed. -/
def indexPost (cd : Codec) (call : Call) (_ : Option Error) : Phase → Prop
  | .stored _ => False
  | .loaded value => ∃ err, successors cd (fun _ => .ok value) call.expected = .error err
  | _ => True

theorem wp_addNode (cd : Codec) {call : Call} {value : Bytes} {l : Phase}
    (reached : isManifest call.expected = false ∧ l = .stored value ∨ l = .loaded value) :
    wp (indexGhost cd call) (addNode call.expected (successors cd (fun _ => .ok value) call.expected))
      (indexPost cd call) l := by
  cases parsed : successors cd (fun _ => .ok value) call.expected with
  | error err =>
    rcases reached with ⟨leaf, _⟩ | rfl
    · cases (successors_of_not_isManifest leaf).symm.trans parsed
    · exact ⟨err, parsed⟩
  | ok nodes =>
    refine ⟨⟨rfl, value, parsed, reached.imp_left And.right⟩, fun _ l' moved => ?_⟩
    obtain ⟨value, rfl⟩ := moved
    exact trivial

theorem wp_index {cd : Codec} {call : Call} {value : Bytes} :
    wp (indexGhost cd call) (index cd call.expected) (indexPost cd call) (.stored value) := by
  unfold index fetchSuccessors
  cases manifest : isManifest call.expected with
  | false =>
    have leaf : successors cd (fun _ => .ok value) call.expected = .ok [] := successors_of_not_isManifest manifest
    have outline := wp_addNode cd (.inl ⟨manifest, rfl⟩ : _ ∨ Phase.stored value = .loaded value)
    rw [leaf] at outline
    exact outline
  | true =>
    refine ⟨⟨rfl, .inr ⟨value, rfl⟩⟩, fun answer l moved => ?_⟩
    cases answer with
    | none => cases moved.1
    | some found =>
      rcases moved with ⟨impossible, _⟩ | ⟨same, rfl⟩
      · cases impossible
      cases same
      exact wp_addNode cd (.inr rfl)

theorem wp_code (cd : Codec) (call : Call) : wp (indexGhost cd call) (call.code cd) (indexPost cd call) .start := by
  refine ⟨⟨rfl, .inl rfl⟩, fun answer l moved => ?_⟩
  cases answer with
  | some value =>
    rcases moved with ⟨_, rfl⟩ | ⟨impossible, _⟩
    · exact trivial
    · cases impossible
  | none =>
    obtain ⟨_, rfl⟩ := moved
    cases call.content.run (readAllFrom cd call.expected) with
    | error err => exact trivial
    | ok value =>
      refine ⟨⟨rfl, rfl⟩, fun loaded l moved => ?_⟩
      cases loaded with
      | true =>
        cases moved
        exact trivial
      | false =>
        cases moved
        exact wp_index

/-- Every stored content has been stored by some push, and the graph is that of the nodes which
have been indexed. -/
structure IndexInv (cd : Codec) (s : Store) (ghosts : List (Call × Phase)) : Prop where
  owner : ∀ key value, s.storage.lookup key = some value →
    ∃ call l, (call, l) ∈ ghosts ∧ fromOCI call.expected = key ∧ l.value = some value
  holds : ∀ call l value, (call, l) ∈ ghosts → l.value = some value →
    s.storage.lookup (fromOCI call.expected) = some value
  known : ∀ call value, (call, .indexed value) ∈ ghosts → fromOCI call.expected ∈ s.graph.nodes
  nodes : ∀ k d, s.graph.nodes.lookup k = some d → fromOCI d = k ∧ k ∈ s.storage
  edges : ∀ n k, n ∈ s.graph.predecessorSet k ↔ n ∈ s.graph.nodes ∧ Edge cd s.fetch n k

section Invariant
variable {cd : Codec} {s : Store} {ghosts : List (Call × Phase)} {t : Nat} {call : Call} {l l' : Phase}

theorem IndexInv.move (inv : IndexInv cd s ghosts) (found : ghosts[t]? = some (call, l)) (same : l'.value = l.value)
    (known : ∀ value, l' = .indexed value → fromOCI call.expected ∈ s.graph.nodes) :
    IndexInv cd s (ghosts.set t (call, l')) := by
  refine ⟨fun key value stored => ?_, fun call' l₁ value member => ?_, fun call' value member => ?_, inv.nodes, inv.edges⟩
  · obtain ⟨call', l₁, member, key', value'⟩ := inv.owner key value stored
    rcases mem_set_or_eq found member with kept | moved
    · exact ⟨call', l₁, kept, key', value'⟩
    · cases moved
      exact ⟨call, l', mem_set_self found, key', same.trans value'⟩
  · intro holds
    rcases List.mem_or_eq_of_mem_set member with old | new
    · exact inv.holds call' l₁ value old holds
    · cases new
      exact inv.holds call l value (List.mem_of_getElem? found) (same.symm.trans holds)
  · rcases List.mem_or_eq_of_mem_set member with old | new
    · exact inv.known call' value old
    · cases new
      exact known value rfl

theorem IndexInv.store {value : Bytes} (inv : IndexInv cd s ghosts) (found : ghosts[t]? = some (call, .start))
    (absent : fromOCI call.expected ∉ s.storage) :
    IndexInv cd { s with storage := s.storage.insert (fromOCI call.expected) value }
      (ghosts.set t (call, .stored value)) := by
  have other {key : Key} (present : key ∈ s.storage) : key ≠ fromOCI call.expected := by
    rintro rfl
    exact absent present
  refine ⟨fun key value' stored => ?_, fun call' l₁ value' member => ?_, fun call' value' member => ?_,
    fun k d atK => ?_, fun n k => ?_⟩
  · obtain ⟨rfl, rfl⟩ | ⟨_, stored⟩ := lookup_insert_cases stored
    · exact ⟨call, .stored value', mem_set_self found, rfl, rfl⟩
    · obtain ⟨call', l₁, member, key', value'⟩ := inv.owner key value' stored
      rcases mem_set_or_eq found member with kept | moved
      · exact ⟨call', l₁, kept, key', value'⟩
      · cases moved
        cases value'
  · intro holds
    rcases List.mem_or_eq_of_mem_set member with old | new
    · have before := inv.holds call' l₁ value' old holds
      rw [Finmap.lookup_insert_of_ne _ (other (Finmap.mem_of_lookup_eq_some before))]
      exact before
    · cases new
      cases Option.some.inj holds
      exact Finmap.lookup_insert _
  · rcases List.mem_or_eq_of_mem_set member with old | new
    · exact inv.known call' value' old
    · cases new
  · obtain ⟨key, present⟩ := inv.nodes k d atK
    exact ⟨key, Finmap.mem_insert.mpr (.inr present)⟩
  · rw [show n ∈ Graph.Memory.predecessorSet s.graph k ↔ _ from inv.edges n k]
    refine and_congr_right fun node => ?_
    obtain ⟨d, atN⟩ := Finmap.mem_iff.mp node
    obtain ⟨content, stored⟩ := Finmap.mem_iff.mp (inv.nodes n d atN).2
    have before : s.fetch n.plain = .ok content := Store.fetch_of_lookup stored
    have after : Store.fetch { s with storage := s.storage.insert (fromOCI call.expected) value } n.plain = .ok content := by
      refine Store.fetch_of_lookup ?_
      rw [← stored]
      exact Finmap.lookup_insert_of_ne _ (other (inv.nodes n d atN).2)
    unfold Edge
    rw [successors_congr rfl (before.trans after.symm)]

theorem IndexInv.index {value : Bytes} {nodes : List Descriptor} (inv : IndexInv cd s ghosts)
    (found : ghosts[t]? = some (call, l)) (stored : l.value = some value)
    (parsed : successors cd (fun _ => .ok value) call.expected = .ok nodes) :
    IndexInv cd { s with graph := s.graph.indexNode call.expected nodes } (ghosts.set t (call, .indexed value)) := by
  have content := inv.holds call l value (List.mem_of_getElem? found) stored
  have read : successors cd s.fetch (fromOCI call.expected).plain = .ok nodes := by
    rw [successors_plain s.fetch_byKey, ← parsed]
    exact successors_congr rfl (Store.fetch_of_lookup content)
  refine IndexInv.move ⟨inv.owner, inv.holds, fun call' value' member => ?_, fun k d atK => ?_, fun n k => ?_⟩ found
    stored.symm fun _ _ => ?_
  · exact (s.graph.mem_indexNode_nodes call.expected nodes).mpr (.inr (inv.known call' value' member))
  · obtain ⟨rfl, rfl⟩ | ⟨_, atK⟩ := lookup_insert_cases atK
    · exact ⟨rfl, Finmap.mem_of_lookup_eq_some content⟩
    · exact inv.nodes k d atK
  · have edge : Edge cd s.fetch (fromOCI call.expected) k ↔ k ∈ nodes.map fromOCI := by
      simp only [Edge, read, Except.ok.injEq, List.mem_map]
      constructor
      · rintro ⟨_, rfl, member⟩
        exact member
      · exact fun member => ⟨nodes, rfl, member⟩
    have fetched : Store.fetch { s with graph := s.graph.indexNode call.expected nodes } = s.fetch := Store.fetch_congr rfl
    rw [Graph.Memory.mem_indexNode_predecessorSet, Graph.Memory.mem_indexNode_nodes, inv.edges, ← edge, fetched]
    constructor
    · rintro (⟨node, listed⟩ | ⟨rfl, listed⟩)
      · exact ⟨.inr node, listed⟩
      · exact ⟨.inl rfl, listed⟩
    · rintro ⟨rfl | node, listed⟩
      · exact .inr ⟨rfl, listed⟩
      · exact .inl ⟨node, listed⟩
  · exact (s.graph.mem_indexNode_nodes call.expected nodes).mpr (.inl rfl)

theorem index_sound : Sound (indexGhost cd) (indexPost cd) reply.machine (IndexInv cd) := by
  intro s ghosts t call l op a s' spawned inv found pre performed
  obtain ⟨rfl, rfl, rfl⟩ := perform_eq performed
  have notes {l' : Phase} (unindexed : ∀ value, l' ≠ .indexed value) (same : l'.value = l.value) :
      IndexInv cd s (ghosts.set t (call, l')) :=
    inv.move found same fun value indexed => absurd indexed (unindexed value)
  cases op with
  | load key =>
    obtain ⟨rfl, rfl | ⟨value, rfl⟩⟩ := pre
    · cases answer : s.storage.lookup (fromOCI call.expected) with
      | none =>
        refine .move .start ?_ (notes (by simp) rfl)
        simp only [Store.reply, answer]
        exact ⟨rfl, rfl⟩
      | some value =>
        refine .move .present ?_ (notes (by simp) rfl)
        simp only [Store.reply, answer]
        exact .inl ⟨rfl, rfl⟩
    · have answer := inv.holds call (.stored value) value (List.mem_of_getElem? found) rfl
      refine .move (.loaded value) ?_ (notes (by simp) rfl)
      simp only [Store.reply, answer]
      exact .inr ⟨rfl, rfl⟩
  | loadOrStore key value =>
    obtain ⟨rfl, rfl⟩ := pre
    cases answer : s.storage.lookup (fromOCI call.expected) with
    | some value' =>
      simp only [Store.reply, answer]
      exact .move .present rfl (notes (by simp) rfl)
    | none =>
      simp only [Store.reply, answer]
      exact .move (.stored value) rfl (inv.store found (Finmap.lookup_eq_none.mp answer))
  | index node nodes =>
    obtain ⟨rfl, value, parsed, reached⟩ := pre
    refine .move (.indexed value) ⟨value, rfl⟩ ?_
    rcases reached with rfl | rfl
    · exact inv.index found rfl parsed
    · exact inv.index found rfl parsed

theorem index_reach {calls : List Call} {σ : Run} (reach : Reach reply.machine (start cd calls) σ) :
    Outline (indexGhost cd) (indexPost cd) (IndexInv cd) σ := by
  have initially : Outline (indexGhost cd) (indexPost cd) (IndexInv cd) (start cd calls) := by
    have fresh {call : Call} {l : Phase} (member : (call, l) ∈ calls.map fun call => (call, Phase.start)) : l = .start := by
      obtain ⟨_, _, same⟩ := List.mem_map.mp member
      exact (Prod.mk.inj same).2.symm
    refine ⟨calls.map fun call => (call, .start), ?_, ?_, ?_, ?_, ?_, ?_⟩
    · rw [start, List.forall₂_map_left_iff, List.forall₂_map_right_iff, List.forall₂_same]
      exact fun call _ => ⟨rfl, wp_code cd call⟩
    · intro key value stored
      simp [start] at stored
    · intro call l value member holds
      rw [fresh member] at holds
      cases holds
    · intro call value member
      cases fresh member
    · intro k d atK
      simp [start] at atK
    · intro n k
      exact iff_of_false (by simp [start, Graph.Memory.predecessorSet]) fun node => Finmap.notMem_empty node.1
  exact initially.reach index_sound (fun _ _ _ _ impossible => absurd impossible id) reach

end Invariant

section Complete
variable {cd : Codec} {calls : List Call} {σ : Run}

/-- All calls have returned. -/
def Done (calls : List Call) (σ : Run) : Prop := ∀ t call, calls[t]? = some call → ∃ result, σ.Returned t result

/-- The graph has exactly the stored nodes that can be parsed. -/
theorem mem_nodes_iff {ghosts : List (Call × Phase)} (reach : Reach reply.machine (start cd calls) σ)
    (done : Done calls σ) (fits : List.Forall₂ (Fits (indexGhost cd) (indexPost cd)) σ.threads ghosts)
    (inv : IndexInv cd σ.shared ghosts) {k : Key} {nodes : List Descriptor}
    (parsed : successors cd σ.shared.fetch k.plain = .ok nodes) : k ∈ σ.shared.graph.nodes ↔ k ∈ σ.shared.storage := by
  constructor
  · intro node
    obtain ⟨d, atK⟩ := Finmap.mem_iff.mp node
    exact (inv.nodes k d atK).2
  · intro present
    obtain ⟨value, stored⟩ := Finmap.mem_iff.mp present
    obtain ⟨call, l, member, rfl, holds⟩ := inv.owner k value stored
    obtain ⟨t, atGhost⟩ := List.mem_iff_getElem?.mp member
    obtain ⟨prog, atT, outline⟩ := thread_of_ghost fits atGhost
    have listed : calls[t]? = some call := by
      rw [← labels_start reach, List.getElem?_map, atT]
      rfl
    obtain ⟨result, label, returned⟩ := done t call listed
    cases returned.symm.trans atT
    have read : successors cd σ.shared.fetch (fromOCI call.expected).plain =
        successors cd (fun _ => .ok value) call.expected :=
      (successors_plain σ.shared.fetch_byKey _).trans (successors_congr rfl (Store.fetch_of_lookup stored))
    cases l with
    | start | present => cases holds
    | stored => exact absurd outline id
    | loaded value' =>
      cases Option.some.inj holds
      obtain ⟨err, failed⟩ := outline
      cases failed.symm.trans (read.symm.trans parsed)
    | indexed value' => exact inv.known call value' member

theorem map_predecessors {ghosts : List (Call × Phase)} (inv : IndexInv cd σ.shared ghosts) (order : Enumeration Key)
    (node : Descriptor) : (σ.shared.predecessors order node).map fromOCI =
      order.list (σ.shared.graph.predecessorSet (fromOCI node)) := by
  rw [Store.predecessors, Graph.Memory.predecessorList, List.map_map]
  refine (List.map_congr_left fun k member => ?_).trans (List.map_id _)
  obtain ⟨d, atK⟩ := Finmap.mem_iff.mp ((inv.edges k (fromOCI node)).mp ((order.mem _ k).mp member)).1
  change fromOCI ((σ.shared.graph.nodes.lookup k).getD {}) = k
  rw [atK]
  exact (inv.nodes k d atK).1

/-- Once all pushes have returned, `Predecessors` and `Referrers` know everything that is stored. -/
theorem pushes_indexed (cd : Codec) (calls : List Call) (σ : Run) (reach : Reach reply.machine (start cd calls) σ)
    (done : Done calls σ) :
    (∀ order node, ((σ.shared.predecessors order node).map fromOCI).Nodup ∧
      ∀ k, k ∈ (σ.shared.predecessors order node).map fromOCI ↔
        k ∈ σ.shared.storage ∧ Edge cd σ.shared.fetch k (fromOCI node)) ∧
    ∀ order desc artifactType, isManifest desc = true → ∃ results,
      Registry.referrers cd σ.shared.fetch (σ.shared.predecessors order desc) desc artifactType = .ok results ∧
      (results.map fromOCI).Nodup ∧
      ∀ k, k ∈ results.map fromOCI ↔
        k ∈ σ.shared.storage ∧ Registry.ReferrerOf cd σ.shared.fetch desc artifactType k.plain := by
  obtain ⟨ghosts, fits, inv⟩ := index_reach reach
  have distinct (order : Enumeration Key) (node : Descriptor) :
      ((σ.shared.predecessors order node).map fromOCI).Nodup := by
    rw [map_predecessors inv]
    exact order.nodup _
  have mem (order : Enumeration Key) (node : Descriptor) (k : Key) :
      k ∈ (σ.shared.predecessors order node).map fromOCI ↔
        k ∈ σ.shared.storage ∧ Edge cd σ.shared.fetch k (fromOCI node) := by
    rw [map_predecessors inv, order.mem, inv.edges]
    refine and_congr_left fun edge => ?_
    obtain ⟨nodes, parsed, _⟩ := edge
    exact mem_nodes_iff reach done fits inv parsed
  refine ⟨fun order node => ⟨distinct order node, mem order node⟩, fun order desc artifactType manifest => ?_⟩
  have readable (node : Descriptor) (member : node ∈ σ.shared.predecessors order desc) :
      ∃ header, Registry.readHeader cd σ.shared.fetch node = .ok header := by
    obtain ⟨_, nodes, parsed, _⟩ := (mem order desc (fromOCI node)).mp (List.mem_map_of_mem member)
    rw [successors_plain σ.shared.fetch_byKey] at parsed
    exact Registry.readHeader_of_successors parsed
  obtain ⟨results, listed, sub, exact'⟩ := Registry.filterReferrers_exact artifactType readable
  refine ⟨results, by rw [Registry.referrers, if_pos manifest, listed], sub.nodup (distinct order desc), fun k => ?_⟩
  have plain {node : Descriptor} (same : fromOCI node = k) :
      Registry.ReferrerOf cd σ.shared.fetch desc artifactType node ↔
        Registry.ReferrerOf cd σ.shared.fetch desc artifactType k.plain := by
    unfold Registry.ReferrerOf
    rw [Registry.readHeader_congr (b := k.plain) same (σ.shared.fetch_byKey _ _ same)]
  rw [exact' k]
  constructor
  · rintro ⟨node, member, same, refers⟩
    exact ⟨((mem order desc k).mp (same ▸ List.mem_map_of_mem member)).1, (plain same).mp refers⟩
  · rintro ⟨stored, header, read, ⟨found, subject, equal⟩, asked⟩
    obtain ⟨nodes, parsed, listed⟩ := Registry.subject_mem_successors read subject
    have edge : Edge cd σ.shared.fetch k (fromOCI desc) :=
      ⟨nodes, parsed, found, listed, contentEqual_iff.mp equal⟩
    obtain ⟨node, member, same⟩ := List.mem_map.mp ((mem order desc k).mpr ⟨stored, edge⟩)
    exact ⟨node, member, same, (plain same).mpr ⟨header, read, ⟨found, subject, equal⟩, asked⟩⟩

end Complete

namespace Raced

/-- An artifact that refers to an image is pushed before the image, which is pushed twice. -/
def calls : List Call := [⟨Sample.referrer, { chunks := [Sample.referrerBytes] }⟩,
  ⟨Sample.image, { chunks := [Sample.imageBytes] }⟩, ⟨Sample.image, { chunks := [Sample.imageBytes] }⟩]

def run : Run := (start Sample.codec calls).play reply [0, 1, 2, 0, 2, 1, 0, 2, 0, 2]

theorem run_returned : run.returned? 0 = some none ∧
    run.returned? 1 = some (some (Cas.alreadyExists (fromOCI Sample.image))) ∧ run.returned? 2 = some none ∧
    run.shared.storage.lookup (fromOCI Sample.referrer) = some Sample.referrerBytes ∧
    successors Sample.codec (fun _ => .ok Sample.referrerBytes) Sample.referrer =
      .ok [Sample.image, Sample.emptyConfig] := by
  decide +kernel

end Raced

/-- The artifact is a predecessor of the image. -/
theorem pushes_indexed_artifact : Reach reply.machine (start Sample.codec Raced.calls) Raced.run ∧
    Done Raced.calls Raced.run ∧
    ∀ order, fromOCI Sample.referrer ∈ (Raced.run.shared.predecessors order Sample.image).map fromOCI := by
  obtain ⟨first, second, third, stored, parsed⟩ := Raced.run_returned
  have reach : Reach reply.machine (start Sample.codec Raced.calls) Raced.run := Pool.play_reach _ _
  generalize Raced.run = run at *
  have done : Done Raced.calls run := by
    intro t call listed
    rcases t with _ | _ | _ | t
    · exact ⟨_, Pool.returned?_eq_some.mp first⟩
    · exact ⟨_, Pool.returned?_eq_some.mp second⟩
    · exact ⟨_, Pool.returned?_eq_some.mp third⟩
    · cases listed
  have present : fromOCI Sample.referrer ∈ run.shared.storage := Finmap.mem_iff.mpr ⟨_, stored⟩
  have fetched : run.shared.fetch Sample.referrer = .ok Sample.referrerBytes := Store.fetch_of_lookup stored
  have read := (successors_congr rfl fetched).trans parsed
  have edge : Edge Sample.codec run.shared.fetch (fromOCI Sample.referrer) (fromOCI Sample.image) :=
    edge_of_mem (Store.fetch_byKey _) read List.mem_cons_self
  have complete := (pushes_indexed _ _ _ reach done).1
  exact ⟨reach, done, fun order => ((complete order Sample.image).2 _).mpr ⟨present, edge⟩⟩

end OrasGo.MemoryStore
