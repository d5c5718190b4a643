import OrasGo.Oci.Calls

/-! What `Store.GC` keeps, and when `gcIndex` comes to an end. -/

namespace OrasGo.Oci
open Graph Iteration

section Passes
variable {cd : Codec} {blobs : Blobs} {sched : String → Scheduler cd (Storage.fetch blobs)} {fuel : Nat}
  {chosen : String → Descriptor → Prop} {entries : List (String × Descriptor)} {r r₁ r' : Rebuilt}
  {ref : String} {desc : Descriptor}

/-- An entry of the references is indexed and tagged anew. -/
structure Adds (cd : Codec) (blobs : Blobs) (ref : String) (desc : Descriptor) (r r' : Rebuilt) : Prop where
  readable : Readable cd (Storage.fetch blobs) (fromOCI desc)
  nodes : ∀ k, k ∈ r'.graph.nodes ↔ k ∈ r.graph.nodes ∨ Indexed cd (Storage.fetch blobs) desc k
  references : ∀ x, x ∈ r'.tagResolver.index ↔ x ∈ r.tagResolver.index ∨ x = ref ∨ x = desc.digest
  descriptors : ∀ x d, r'.tagResolver.index.lookup x = some d →
    r.tagResolver.index.lookup x = some d ∨ fromOCI d = fromOCI desc

/-- The chosen ones of the entries are indexed and tagged anew. -/
structure Pass (cd : Codec) (blobs : Blobs) (chosen : String → Descriptor → Prop)
    (entries : List (String × Descriptor)) (r r' : Rebuilt) : Prop where
  readable : ∀ ref desc, (ref, desc) ∈ entries → chosen ref desc →
    Readable cd (Storage.fetch blobs) (fromOCI desc)
  nodes : ∀ k, k ∈ r'.graph.nodes ↔ k ∈ r.graph.nodes ∨
    ∃ ref desc, (ref, desc) ∈ entries ∧ chosen ref desc ∧ Indexed cd (Storage.fetch blobs) desc k
  references : ∀ x, x ∈ r'.tagResolver.index ↔ x ∈ r.tagResolver.index ∨
    ∃ ref desc, (ref, desc) ∈ entries ∧ chosen ref desc ∧ (x = ref ∨ x = desc.digest)
  descriptors : ∀ x d, r'.tagResolver.index.lookup x = some d → r.tagResolver.index.lookup x = some d ∨
    ∃ ref desc, (ref, desc) ∈ entries ∧ chosen ref desc ∧ fromOCI d = fromOCI desc

theorem exists_mem_cons {P : String → Descriptor → Prop} :
    (∃ ref' desc', (ref', desc') ∈ (ref, desc) :: entries ∧ P ref' desc') ↔
      P ref desc ∨ ∃ ref' desc', (ref', desc') ∈ entries ∧ P ref' desc' := by
  constructor
  · rintro ⟨ref', desc', member, found⟩
    rcases List.mem_cons.mp member with head | member
    · cases head
      exact .inl found
    · exact .inr ⟨ref', desc', member, found⟩
  · rintro (found | ⟨ref', desc', member, found⟩)
    · exact ⟨ref, desc, List.mem_cons_self, found⟩
    · exact ⟨ref', desc', List.mem_cons_of_mem _ member, found⟩

theorem Pass.nil : Pass cd blobs chosen [] r r := by
  constructor <;> simp

theorem Pass.skip (other : ¬ chosen ref desc) (pass : Pass cd blobs chosen entries r r') :
    Pass cd blobs chosen ((ref, desc) :: entries) r r' := by
  refine ⟨fun ref' desc' member picked => ?_, fun k => ?_, fun x => ?_, fun x d found => ?_⟩
  · rcases List.mem_cons.mp member with head | member
    · cases head
      exact absurd picked other
    · exact pass.readable ref' desc' member picked
  · rw [pass.nodes, exists_mem_cons]
    simp only [other, false_and, false_or]
  · rw [pass.references, exists_mem_cons]
    simp only [other, false_and, false_or]
  · rw [exists_mem_cons]
    simpa only [other, false_and, false_or] using pass.descriptors x d found

theorem Pass.add (picked : chosen ref desc) (adds : Adds cd blobs ref desc r r₁)
    (pass : Pass cd blobs chosen entries r₁ r') : Pass cd blobs chosen ((ref, desc) :: entries) r r' := by
  refine ⟨fun ref' desc' member picked' => ?_, fun k => ?_, fun x => ?_, fun x d found => ?_⟩
  · rcases List.mem_cons.mp member with head | member
    · cases head
      exact adds.readable
    · exact pass.readable ref' desc' member picked'
  · rw [pass.nodes, adds.nodes, exists_mem_cons, or_assoc]
    simp only [picked, true_and]
  · rw [pass.references, adds.references, exists_mem_cons, or_assoc]
    simp only [picked, true_and]
  · rw [exists_mem_cons]
    rcases pass.descriptors x d found with middle | later
    · exact (adds.descriptors x d middle).imp_right fun same => .inl ⟨picked, same⟩
    · exact .inr (.inr later)

theorem mem_tag {m : Resolver.Memory} {x : String} : x ∈ (m.tag desc ref).index ↔ x ∈ m.index ∨ x = ref := by
  rw [Resolver.Memory.tag, Finmap.mem_insert, or_comm]

/-- The tagged entries are those that the first loop of `gcIndex` indexes. -/
def IsTag (ref : String) (desc : Descriptor) : Prop := ref ≠ desc.digest

theorem indexTagged_ok (done : indexTagged sched entries r = .ok r') :
    Pass cd blobs IsTag entries r r' ∧
      ∀ d, d ∈ r'.tagged ↔ d ∈ r.tagged ∨ ∃ ref desc, (ref, desc) ∈ entries ∧ IsTag ref desc ∧ desc.digest = d := by
  induction entries generalizing r with
  | nil =>
    cases done
    exact ⟨.nil, by simp⟩
  | cons entry entries ih =>
    obtain ⟨ref, desc⟩ := entry
    simp only [exists_mem_cons]
    unfold indexTagged at done
    split at done
    · rename_i same
      have untagged : ¬ IsTag ref desc := fun tag => tag same
      obtain ⟨pass, tagged⟩ := ih done
      exact ⟨pass.skip untagged, fun d => by simp only [tagged, untagged, false_and, false_or]⟩
    · rename_i tag
      rcases (sched ref).indexAll_cases (Storage.fetch_byKey blobs) r.graph desc with
        ⟨err, graph, called, _⟩ | ⟨graph, called, readable, indexed⟩
      · rw [called] at done
        cases done
      · rw [called] at done
        obtain ⟨pass, tagged⟩ := ih done
        refine ⟨pass.add tag ⟨readable, indexed, fun x => ?_, fun x d found => ?_⟩, fun d => ?_⟩
        · rw [mem_tag, mem_tag, or_assoc, or_comm (a := x = desc.digest)]
        · simp only [Resolver.Memory.tag_lookup] at found
          split at found
          · cases found
            exact .inr rfl
          split at found
          · cases found
            exact .inr rfl
          · exact .inl found
        · have picked : IsTag ref desc := tag
          simp only [tagged, Finset.mem_insert, picked, true_and, eq_comm (a := d)]
          tauto

/-- The first loop fails only on a tagged manifest that cannot be read. -/
theorem indexTagged_isOk (readable : ∀ ref desc, (ref, desc) ∈ entries → IsTag ref desc →
    Readable cd (Storage.fetch blobs) (fromOCI desc)) : ∃ r', indexTagged sched entries r = .ok r' := by
  induction entries generalizing r with
  | nil => exact ⟨r, rfl⟩
  | cons entry entries ih =>
    obtain ⟨ref, desc⟩ := entry
    have rest := fun r => ih (r := r) fun ref' desc' member => readable ref' desc' (List.mem_cons_of_mem _ member)
    unfold indexTagged
    split
    · exact rest r
    · rename_i tag
      rcases (sched ref).indexAll_cases (Storage.fetch_byKey blobs) r.graph desc with
        ⟨err, graph, _, broken⟩ | ⟨graph, called, _, _⟩
      · exact absurd (readable ref desc List.mem_cons_self tag) broken
      · rw [called]
        exact rest _

/-- A round of the unbounded loop that finds no subject in the graph is repeated forever. -/
theorem subjectLoop_hangs {sched : Scheduler cd (Storage.fetch blobs)} {found : Descriptor}
    (read : subject cd (Storage.fetch blobs) desc = .ok (some found)) (outside : fromOCI found ∉ r.graph.nodes)
    (fuel : Nat) : subjectLoop sched desc r fuel = none := by
  have absent : r.graph.contains found = false := by
    rw [← Bool.not_eq_true, Memory.contains_iff]
    exact outside
  induction fuel with
  | zero => rfl
  | succ n ih => simp only [subjectLoop, read, absent, Bool.false_eq_true, if_false, ih]

theorem subjectLoop_ok {sched : Scheduler cd (Storage.fetch blobs)}
    (done : subjectLoop sched desc r fuel = some (.ok r')) :
    subject cd (Storage.fetch blobs) desc = .ok none ∧ r' = r ∨
      ∃ found graph, subject cd (Storage.fetch blobs) desc = .ok (some found) ∧ fromOCI found ∈ r.graph.nodes ∧
        Readable cd (Storage.fetch blobs) (fromOCI desc) ∧
        (∀ k, k ∈ graph.nodes ↔ k ∈ r.graph.nodes ∨ Indexed cd (Storage.fetch blobs) desc k) ∧
        r' = { r with tagResolver := r.tagResolver.tag (deleteAnnotationRefName desc) desc.digest, graph } := by
  cases fuel with
  | zero => cases done
  | succ n =>
    cases read : subject cd (Storage.fetch blobs) desc with
    | error err =>
      simp only [subjectLoop, read] at done
      cases done
    | ok subject =>
      cases subject with
      | none =>
        simp only [subjectLoop, read] at done
        cases done
        exact .inl ⟨rfl, rfl⟩
      | some found =>
        by_cases inside : fromOCI found ∈ r.graph.nodes
        · simp only [subjectLoop, read, Memory.contains_iff.mpr inside, if_true] at done
          rcases sched.indexAll_cases (Storage.fetch_byKey blobs) r.graph desc with
            ⟨err, graph, called, _⟩ | ⟨graph, called, readable, indexed⟩
          · rw [called] at done
            cases done
          · rw [called] at done
            cases done
            exact .inr ⟨found, graph, rfl, inside, readable, indexed, rfl⟩
        · rw [subjectLoop_hangs read inside] at done
          cases done

/-- The untagged entries that the second loop of `gcIndex` indexes, if it comes to an end. -/
def IsReferrer (cd : Codec) (blobs : Blobs) (tagged : Finset Digest) (ref : String) (desc : Descriptor) : Prop :=
  ref = desc.digest ∧ desc.digest ∉ tagged ∧ ∃ found, subject cd (Storage.fetch blobs) desc = .ok (some found)

theorem indexReferrers_ok (done : indexReferrers sched fuel entries r = some (.ok r')) :
    Pass cd blobs (IsReferrer cd blobs r.tagged) entries r r' ∧ ∀ desc found, (desc.digest, desc) ∈ entries →
      desc.digest ∉ r.tagged → subject cd (Storage.fetch blobs) desc = .ok (some found) →
      fromOCI found ∈ r'.graph.nodes := by
  induction entries generalizing r with
  | nil =>
    cases done
    exact ⟨.nil, by simp⟩
  | cons entry entries ih =>
    obtain ⟨ref, desc⟩ := entry
    unfold indexReferrers at done
    split at done
    · rename_i skipped
      obtain ⟨pass, inside⟩ := ih done
      refine ⟨pass.skip fun ⟨same, untagged, _⟩ => skipped.elim (· same) untagged, fun d found member untagged => ?_⟩
      rcases List.mem_cons.mp member with head | member
      · cases head
        exact absurd untagged (skipped.elim (absurd rfl) not_not_intro)
      · exact inside d found member untagged
    · rename_i listed
      obtain ⟨same, untagged⟩ := not_or.mp listed
      rw [not_not] at same
      cases looped : subjectLoop (sched ref) desc r fuel with
      | none =>
        rw [looped] at done
        cases done
      | some result =>
        rw [looped] at done
        cases result with
        | error err => cases done
        | ok r₁ =>
          rcases subjectLoop_ok looped with ⟨absent, rfl⟩ | ⟨found, graph, read, present, readable, indexed, rfl⟩
          · obtain ⟨pass, inside⟩ := ih done
            refine ⟨pass.skip fun ⟨_, _, found, read⟩ => (by cases absent.symm.trans read),
              fun d found member untagged read => ?_⟩
            rcases List.mem_cons.mp member with head | member
            · cases head
              cases absent.symm.trans read
            · exact inside d found member untagged read
          · obtain ⟨pass, inside⟩ := ih done
            refine ⟨pass.add ⟨same, untagged, found, read⟩ ⟨readable, indexed, fun x => ?_, fun x d found => ?_⟩,
              fun d found' member untagged read' => ?_⟩
            · rw [mem_tag, same, or_self]
            · rw [Resolver.Memory.tag_lookup] at found
              split at found
              · cases found
                exact .inr rfl
              · exact .inl found
            · rcases List.mem_cons.mp member with head | member
              · cases head
                cases read.symm.trans read'
                exact (pass.nodes _).mpr (.inl ((indexed _).mpr (.inl present)))
              · exact inside d found' member untagged read'

/-- The second loop ends if all the subjects are in the graph from the start. -/
theorem indexReferrers_isSome (inside : ∀ desc found, (desc.digest, desc) ∈ entries → desc.digest ∉ r.tagged →
    subject cd (Storage.fetch blobs) desc = .ok (some found) → fromOCI found ∈ r.graph.nodes) :
    ∃ result, indexReferrers sched 1 entries r = some result := by
  induction entries generalizing r with
  | nil => exact ⟨_, rfl⟩
  | cons entry entries ih =>
    obtain ⟨ref, desc⟩ := entry
    have rest := fun d found member => inside d found (List.mem_cons_of_mem (ref, desc) member)
    unfold indexReferrers
    split
    · exact ih rest
    · rename_i listed
      obtain ⟨same, untagged⟩ := not_or.mp listed
      rw [not_not] at same
      subst same
      cases read : subject cd (Storage.fetch blobs) desc with
      | error err => exact ⟨.error err, by simp only [subjectLoop, read]⟩
      | ok subject =>
        cases subject with
        | none =>
          simp only [subjectLoop, read]
          exact ih rest
        | some found =>
          have present := Memory.contains_iff.mpr (inside desc found List.mem_cons_self untagged read)
          simp only [subjectLoop, read, present, if_true]
          rcases (sched desc.digest).indexAll_cases (Storage.fetch_byKey blobs) r.graph desc with
            ⟨err, graph, called, _⟩ | ⟨graph, called, _, indexed⟩
          · exact ⟨_, by rw [called]⟩
          · rw [called]
            exact ih fun d found' member untagged' read' =>
              (indexed _).mpr (.inl (rest d found' member untagged' read'))

/-- The second loop hangs on a subject outside of the graph, unless another
manifest is indexed or found to be broken before. -/
theorem indexReferrers_hangs {found : Descriptor} (member : (desc.digest, desc) ∈ entries)
    (untagged : desc.digest ∉ r.tagged) (read : subject cd (Storage.fetch blobs) desc = .ok (some found))
    (others : ∀ d, (d.digest, d) ∈ entries → d.digest ∉ r.tagged →
      subject cd (Storage.fetch blobs) d = .ok none ∨
        ∃ found, subject cd (Storage.fetch blobs) d = .ok (some found) ∧ fromOCI found ∉ r.graph.nodes) :
    indexReferrers sched fuel entries r = none := by
  induction entries with
  | nil => cases member
  | cons entry entries ih =>
    obtain ⟨ref, d⟩ := entry
    have rest := fun other later => others other (List.mem_cons_of_mem (ref, d) later)
    unfold indexReferrers
    split
    · rename_i skipped
      refine ih ((List.mem_cons.mp member).resolve_left fun head => ?_) rest
      cases head
      exact skipped.elim (absurd rfl) untagged
    · rename_i listed
      obtain ⟨same, fresh⟩ := not_or.mp listed
      rw [not_not] at same
      subst same
      rcases others d List.mem_cons_self fresh with absent | ⟨other, read', outside'⟩
      · cases fuel with
        | zero => rfl
        | succ n =>
          simp only [subjectLoop, absent]
          refine ih ((List.mem_cons.mp member).resolve_left fun head => ?_) rest
          obtain ⟨_, rfl⟩ := Prod.mk.inj head
          cases absent.symm.trans read
      · rw [subjectLoop_hangs read' outside']

end Passes

theorem isKnownAlgorithm_of_validate {d : Digest} (valid : Digest.validate d = true) :
    isKnownAlgorithm (Digest.algorithm d) = true := by
  unfold Digest.validate algorithmSize at valid
  simp only [isKnownAlgorithm, Bool.or_eq_true, decide_eq_true_eq]
  split at valid
  · cases valid
  · rename_i size found
    split at found
    · exact .inl (.inl ‹_›)
    split at found
    · exact .inr ‹_›
    split at found
    · exact .inl (.inr ‹_›)
    · cases found

theorem sweep_lookup {ctx : Digest → Option Error} {reachable : Finset Digest} {files : List Digest}
    {blobs blobs' : Blobs} (swept : sweep ctx reachable files blobs = (none, blobs')) (d : Digest) :
    blobs'.lookup d =
      if d ∈ files ∧ Digest.validate d = true ∧ d ∉ reachable then none else blobs.lookup d := by
  induction files generalizing blobs with
  | nil =>
    cases swept
    simp only [List.not_mem_nil, false_and, if_false]
  | cons file files ih =>
    have skip (kept : Digest.validate file = true → file ∈ reachable) :
        (d ∈ file :: files ∧ Digest.validate d = true ∧ d ∉ reachable) ↔
          (d ∈ files ∧ Digest.validate d = true ∧ d ∉ reachable) := by
      refine ⟨fun ⟨member, valid, outside⟩ => ⟨(List.mem_cons.mp member).resolve_left ?_, valid, outside⟩,
        fun ⟨member, rest⟩ => ⟨List.mem_cons_of_mem _ member, rest⟩⟩
      rintro rfl
      exact outside (kept valid)
    unfold sweep at swept
    split at swept
    · rename_i unknown
      rw [ih swept]
      refine if_congr (skip fun valid => ?_).symm rfl rfl
      cases unknown.symm.trans (isKnownAlgorithm_of_validate valid)
    split at swept
    · cases swept
    split at swept
    · rename_i kept
      rw [ih swept]
      refine if_congr (skip fun valid => ?_).symm rfl rfl
      exact kept.resolve_left fun invalid => by cases invalid.symm.trans valid
    · rename_i swept'
      obtain ⟨valid, outside⟩ := not_or.mp swept'
      rw [Bool.not_eq_false] at valid
      rw [ih swept]
      by_cases same : d = file
      · subst same
        simp only [Finmap.lookup_erase, ite_self, List.mem_cons_self, valid, outside, not_false_eq_true, and_self,
          if_true]
      · simp only [Finmap.lookup_erase_ne same, List.mem_cons, same, false_or]

namespace Store
variable {cd : Codec} {s s' : Store}

/-- The descriptor has a tag. -/
def Tagged (s : Store) (desc : Descriptor) : Prop :=
  ∃ ref, s.tagResolver.index.lookup ref = some desc ∧ ref ≠ desc.digest

/-- The descriptor is listed by its digest, and its digest has no tag. -/
def Untagged (s : Store) (desc : Descriptor) : Prop :=
  s.tagResolver.index.lookup desc.digest = some desc ∧ ∀ other, s.Tagged other → other.digest ≠ desc.digest

/-- The descriptors that `gcIndex` indexes. -/
def Root (cd : Codec) (s : Store) (desc : Descriptor) : Prop :=
  s.Tagged desc ∨ s.Untagged desc ∧ ∃ found, subject cd (Storage.fetch s.blobs) desc = .ok (some found)

/-- What a `gcIndex` that returned nil did. -/
structure Collected (cd : Codec) (s s' : Store) : Prop where
  readable : ∀ desc, s.Root cd desc → Readable cd (Storage.fetch s.blobs) (fromOCI desc)
  nodes : ∀ k, k ∈ s'.graph.nodes ↔ ∃ desc, s.Root cd desc ∧ Indexed cd (Storage.fetch s.blobs) desc k
  subjects : ∀ desc found, s.Untagged desc → subject cd (Storage.fetch s.blobs) desc = .ok (some found) →
    fromOCI found ∈ s'.graph.nodes
  kept : ∀ desc, s.Untagged desc →
    (desc.digest ∈ s'.tagResolver.index ↔ ∃ found, subject cd (Storage.fetch s.blobs) desc = .ok (some found))
  descriptors : ∀ x d, s'.tagResolver.index.lookup x = some d → ∃ desc, s.Root cd desc ∧ fromOCI d = fromOCI desc
  frame : s' = { s with tagResolver := s'.tagResolver, graph := s'.graph }

theorem tagged_entries {order : Enumeration String} {P : Descriptor → Prop} :
    (∃ ref desc, (ref, desc) ∈ order.entries s.tagResolver.index ∧ IsTag ref desc ∧ P desc) ↔
      ∃ desc, s.Tagged desc ∧ P desc := by
  simp only [Enumeration.mem_entries, Tagged, IsTag]
  exact ⟨fun ⟨ref, desc, found, tag, holds⟩ => ⟨desc, ⟨ref, found, tag⟩, holds⟩,
    fun ⟨desc, ⟨ref, found, tag⟩, holds⟩ => ⟨ref, desc, found, tag, holds⟩⟩

/-- The nodes of the graph of tagged content. -/
def TaggedNode (cd : Codec) (s : Store) (k : Key) : Prop :=
  ∃ desc, s.Tagged desc ∧ Indexed cd (Storage.fetch s.blobs) desc k

section
variable {sched : String → Scheduler cd (Storage.fetch s.blobs)} {order : Enumeration String} {r r' : Rebuilt}

section

variable (done : indexTagged sched (order.entries s.tagResolver.index) {} = .ok r)
include done

theorem indexTagged_nodes (k : Key) :
    k ∈ r.graph.nodes ↔ s.TaggedNode cd k := by
  have empty : k ∉ ({} : Rebuilt).graph.nodes := Finmap.notMem_empty
  rw [(indexTagged_ok done).1.nodes, or_iff_right empty, tagged_entries]
  rfl

theorem untagged_iff {order' : Enumeration String} {desc : Descriptor} :
    (desc.digest, desc) ∈ order'.entries s.tagResolver.index ∧ desc.digest ∉ r.tagged ↔ s.Untagged desc := by
  rw [Enumeration.mem_entries, (indexTagged_ok done).2, or_iff_right (Finset.notMem_empty _), tagged_entries,
    not_exists]
  simp only [not_and]
  rfl

theorem referrer_entries {order' : Enumeration String} {P : Descriptor → Prop} :
    (∃ ref desc, (ref, desc) ∈ order'.entries s.tagResolver.index ∧
      IsReferrer cd s.blobs r.tagged ref desc ∧ P desc) ↔
    ∃ desc, (s.Untagged desc ∧ ∃ found, subject cd (Storage.fetch s.blobs) desc = .ok (some found)) ∧ P desc := by
  constructor
  · rintro ⟨ref, desc, listed, ⟨rfl, fresh, read⟩, holds⟩
    exact ⟨desc, ⟨(untagged_iff done).mp ⟨listed, fresh⟩, read⟩, holds⟩
  · rintro ⟨desc, ⟨untagged, read⟩, holds⟩
    obtain ⟨listed, fresh⟩ := (untagged_iff done).mpr untagged
    exact ⟨desc.digest, desc, listed, ⟨rfl, fresh, read⟩, holds⟩

theorem untagged_fresh {desc : Descriptor} (untagged : s.Untagged desc) : desc.digest ∉ r.tagResolver.index := by
  rw [(indexTagged_ok done).1.references, or_iff_right Finmap.notMem_empty]
  rintro ⟨ref, other, listed, tag, same | same⟩
  · rw [Enumeration.mem_entries, ← same, untagged.1] at listed
    cases listed
    exact tag same.symm
  · exact untagged.2 other ⟨ref, Enumeration.mem_entries.mp listed, tag⟩ same.symm

end

end

variable {choices : GCChoices cd s.blobs} {desc : Descriptor}

theorem gcIndex_ok {fuel : Nat} (collected : s.gcIndex choices fuel = some (none, s')) : s.Collected cd s' := by
  unfold gcIndex at collected
  split at collected
  · cases collected
  rename_i r tagged
  split at collected
  · cases collected
  · cases collected
  rename_i r' referrers
  cases collected
  have first := (indexTagged_ok tagged).1
  obtain ⟨second, inside⟩ := indexReferrers_ok referrers
  have roots {P : Descriptor → Prop} : (∃ desc, s.Root cd desc ∧ P desc) ↔ (∃ desc, s.Tagged desc ∧ P desc) ∨
      ∃ desc, (s.Untagged desc ∧ ∃ found, subject cd (Storage.fetch s.blobs) desc = .ok (some found)) ∧ P desc := by
    simp only [Root, or_and_right, exists_or]
  refine ⟨fun desc root => ?_, fun k => ?_, fun desc found untagged read => ?_, fun desc untagged => ?_,
    fun x d found => ?_, rfl⟩
  · rcases root with ⟨ref, found, tag⟩ | ⟨untagged, read⟩
    · exact first.readable ref desc (Enumeration.mem_entries.mpr found) tag
    · obtain ⟨listed, fresh⟩ := (untagged_iff tagged).mpr untagged
      exact second.readable _ desc listed ⟨rfl, fresh, read⟩
  · rw [second.nodes, indexTagged_nodes tagged, referrer_entries tagged, roots]
    rfl
  · obtain ⟨listed, fresh⟩ := (untagged_iff tagged).mpr untagged
    exact inside desc found listed fresh read
  · rw [second.references, or_iff_right (untagged_fresh tagged untagged)]
    constructor
    · rintro ⟨ref, other, listed, ⟨rfl, _, read⟩, same⟩
      rw [or_self] at same
      rw [Enumeration.mem_entries, ← same, untagged.1] at listed
      cases listed
      exact read
    · intro read
      obtain ⟨listed, fresh⟩ := (untagged_iff tagged).mpr untagged
      exact ⟨desc.digest, desc, listed, ⟨rfl, fresh, read⟩, .inl rfl⟩
  · rw [roots]
    rcases second.descriptors x d found with old | later
    · rcases first.descriptors x d old with impossible | earlier
      · cases impossible
      · exact .inl (tagged_entries.mp earlier)
    · exact .inr ((referrer_entries tagged).mp later)

/-- `gcIndex` hangs if it comes first to a manifest with a subject outside of the
graph of tagged content. -/
theorem gcIndex_hangs (readable : ∀ desc, s.Tagged desc → Readable cd (Storage.fetch s.blobs) (fromOCI desc))
    {found : Descriptor} (untagged : s.Untagged desc)
    (read : subject cd (Storage.fetch s.blobs) desc = .ok (some found)) (outside : ¬ s.TaggedNode cd (fromOCI found))
    (first : choices.untagged = .startingWith desc.digest) (fuel : Nat) :
    s.gcIndex choices fuel = none := by
  obtain ⟨r, tagged⟩ : ∃ r, indexTagged choices.sched (choices.tagged.entries s.tagResolver.index) {} = .ok r :=
    indexTagged_isOk fun ref desc listed tag => readable desc ⟨ref, Enumeration.mem_entries.mp listed, tag⟩
  obtain ⟨rest, entries⟩ := Enumeration.startingWith_entries untagged.1
  have fresh : desc.digest ∉ r.tagged :=
    ((untagged_iff tagged).mpr untagged : (desc.digest, desc) ∈ choices.tagged.entries s.tagResolver.index ∧ _).2
  have hangs : subjectLoop (choices.sched desc.digest) desc r fuel = none :=
    subjectLoop_hangs read (fun member => outside ((indexTagged_nodes tagged _).mp member)) fuel
  simp only [gcIndex, tagged, first, entries, indexReferrers, ne_eq, not_true_eq_false, fresh, or_self, if_false, hangs]

theorem gcIndex_never_ends (bare : ∀ desc, ¬ s.Tagged desc) {found : Descriptor}
    (listed : s.tagResolver.index.lookup desc.digest = some desc)
    (read : subject cd (Storage.fetch s.blobs) desc = .ok (some found))
    (others : ∀ d, s.tagResolver.index.lookup d.digest = some d →
      ∃ subject?, subject cd (Storage.fetch s.blobs) d = .ok subject?) (choices : GCChoices cd s.blobs) (fuel : Nat) :
    s.gcIndex choices fuel = none := by
  obtain ⟨r, tagged⟩ : ∃ r, indexTagged choices.sched (choices.tagged.entries s.tagResolver.index) {} = .ok r :=
    indexTagged_isOk fun ref desc listed tag => absurd ⟨ref, Enumeration.mem_entries.mp listed, tag⟩ (bare desc)
  have outside (k : Key) : k ∉ r.graph.nodes := fun member =>
    ((indexTagged_nodes tagged k).mp member).elim fun other found => bare other found.1
  have fresh : desc.digest ∉ r.tagged := fun member => by
    obtain ⟨other, tag, _⟩ := tagged_entries.mp (((indexTagged_ok tagged).2 _).mp member |>.resolve_left (Finset.notMem_empty _))
    exact bare other tag
  have hangs : indexReferrers choices.sched fuel (choices.untagged.entries s.tagResolver.index) r = none := by
    refine indexReferrers_hangs (Enumeration.mem_entries.mpr listed) fresh read fun d member _ => ?_
    obtain ⟨_ | other, read⟩ := others d (Enumeration.mem_entries.mp member)
    · exact .inl read
    · exact .inr ⟨other, read, outside _⟩
  simp only [gcIndex, tagged, hangs]

theorem gcIndex_fails (tagged : s.Tagged desc) (broken : ¬ Readable cd (Storage.fetch s.blobs) (fromOCI desc))
    (choices : GCChoices cd s.blobs) (fuel : Nat) :
    ∃ err, s.gcIndex choices fuel = some (some err, s) := by
  unfold gcIndex
  split
  · exact ⟨_, rfl⟩
  · rename_i r done
    obtain ⟨ref, found, tag⟩ := tagged
    exact absurd ((indexTagged_ok done).1.readable ref desc (Enumeration.mem_entries.mpr found) tag) broken

theorem gcIndex_isSome (inside : ∀ desc found, s.Untagged desc →
      subject cd (Storage.fetch s.blobs) desc = .ok (some found) → s.TaggedNode cd (fromOCI found))
    (choices : GCChoices cd s.blobs) : ∃ err s', s.gcIndex choices 1 = some (err, s') := by
  unfold gcIndex
  split
  · exact ⟨_, _, rfl⟩
  · rename_i r tagged
    obtain ⟨result, ended⟩ :
        ∃ result, indexReferrers choices.sched 1 (choices.untagged.entries s.tagResolver.index) r = some result :=
      indexReferrers_isSome fun desc found listed fresh read => (indexTagged_nodes tagged _).mpr
        (inside desc found ((untagged_iff tagged).mp ⟨listed, fresh⟩) read)
    rw [ended]
    cases result with
    | error | ok => exact ⟨_, _, rfl⟩

/-- `GC` keeps what the rebuilt graph knows and what is no digest. -/
theorem gc_ok {fuel : Nat} (collected : s.gc choices fuel = some (none, s')) :
    s.Collected cd { s' with blobs := s.blobs } ∧ ∀ d, s'.blobs.lookup d =
      if Digest.validate d = true ∧ d ∉ s'.graph.digestSet then none else s.blobs.lookup d := by
  unfold gc at collected
  split at collected
  · cases collected
  · cases collected
  · rename_i s₁ indexed
    have rebuilt := gcIndex_ok indexed
    have blobs : s₁.blobs = s.blobs := by rw [rebuilt.frame]
    rcases swept : sweep choices.ctx s₁.graph.digestSet (choices.files.list s₁.blobs.keys) s₁.blobs with ⟨err, blobs'⟩
    simp only [swept, Option.some.injEq, Prod.mk.injEq] at collected
    obtain ⟨rfl, rfl⟩ := collected
    refine ⟨by simpa only [← blobs] using rebuilt, fun d => ?_⟩
    simp only [sweep_lookup swept d, choices.files.mem, Finmap.mem_keys, blobs]
    by_cases stored : d ∈ s.blobs
    · simp only [stored, true_and]
    · simp only [stored, false_and, Finmap.lookup_eq_none.mpr stored, ite_self]

end Store

/-- When `GC` returns nil, the blobs that remain are those the rebuilt graph
knows, all that is stored below its roots is among them, and the graph holds
nothing else. -/
theorem gc_exact {cd : Codec} (json : cd.JSONErrors) {s s' : Store} (choices : GCChoices cd s.blobs) (fuel : Nat)
    (nil : s.gc choices fuel = some (none, s')) :
    (∀ d, Digest.validate d = true → (d ∈ s'.blobs ↔ d ∈ s.blobs ∧ d ∈ s'.graph.digestSet)) ∧
    (∀ root k content, (s.Tagged root ∨ s.Untagged root ∧ ∃ found,
        subject cd (Storage.fetch s.blobs) root = .ok (some found) ∧ fromOCI found ∈ s'.graph.nodes) →
      Reachable cd (Storage.fetch s.blobs) (fromOCI root) k → s.blobs.lookup k.digest = some content →
      s'.blobs.lookup k.digest = some content) ∧
    ∀ k ∈ s'.graph.nodes, ∃ root, (s.Tagged root ∨ s.Untagged root ∧ ∃ found,
        subject cd (Storage.fetch s.blobs) root = .ok (some found)) ∧
      Reachable cd (Storage.fetch s.blobs) (fromOCI root) k := by
  obtain ⟨collected, remains⟩ := Store.gc_ok nil
  refine ⟨fun d valid => ?_, fun root k content chosen below stored => ?_, fun k member => ?_⟩
  · rw [← Finmap.lookup_isSome, ← Finmap.lookup_isSome, remains d]
    by_cases known : d ∈ s'.graph.digestSet
    · simp only [known, not_true_eq_false, and_false, if_false, and_true]
    · simp only [known, valid, not_false_eq_true, and_self, if_true, Option.isSome_none, Bool.false_eq_true,
        and_false]
  · have isRoot : s.Root cd root := chosen.imp_right fun ⟨untagged, found, read, _⟩ => ⟨untagged, found, read⟩
    have indexed := Storage.successors_of_stored json (Finmap.mem_of_lookup_eq_some stored)
      (collected.readable root isRoot k below)
    have known : k.digest ∈ s'.graph.digestSet :=
      Memory.mem_digestSet.mpr ⟨k, (collected.nodes k).mpr ⟨root, isRoot, below, indexed⟩, rfl⟩
    rw [remains, if_neg fun gone => gone.2 known, stored]
  · obtain ⟨root, isRoot, below, _⟩ := (collected.nodes k).mp member
    exact ⟨root, isRoot, below⟩

set_option maxRecDepth 10000

namespace Swept
open Sample

noncomputable def imaged : Store := (({} : Store).push codec orders image imageBytes).2

noncomputable def second : Store := (imaged.push codec orders artifact artifactBytes).2

noncomputable def third : Store := (second.push codec orders referrer referrerBytes).2

/-- A tagged image with a referrer, and an untagged artifact. -/
noncomputable def store : Store := (third.tag orders image "v1").2

noncomputable def collected : Store := ((store.gc (choices store) 1).getD (none, store)).2

theorem collected_keys : (store.gc (choices store) 1).map Prod.fst = some none ∧
    store.tagResolver.index.lookup "v1" = some image ∧ store.blobs.lookup image.digest = some imageBytes ∧
    Digest.validate artifact.digest = true ∧ artifact.digest ∈ store.blobs ∧
    collected.blobs.keys = {image.digest, referrer.digest} ∧ fromOCI config ∈ collected.graph.nodes := by
  decide +kernel

end Swept

theorem gc_exact_image :
    Swept.store.gc (Sample.choices Swept.store) 1 = some (none, Swept.collected) ∧
    Sample.artifact.digest ∈ Swept.store.blobs ∧ Sample.artifact.digest ∉ Swept.collected.graph.digestSet ∧
    Swept.collected.blobs.lookup Sample.image.digest = some Sample.imageBytes ∧
    ∃ root, (Swept.store.Tagged root ∨ Swept.store.Untagged root ∧ ∃ found,
        subject Sample.codec (Storage.fetch Swept.store.blobs) root = .ok (some found)) ∧
      Reachable Sample.codec (Storage.fetch Swept.store.blobs) (fromOCI root) (fromOCI Sample.config) := by
  obtain ⟨nil, tagged, stored, valid, before, after, known⟩ := Swept.collected_keys
  have ended : Swept.store.gc (Sample.choices Swept.store) 1 = some (none, Swept.collected) :=
    Sample.returned_nil nil _
  obtain ⟨exact, kept, sound⟩ := gc_exact (ofTable_jsonErrors _ _ _) (Sample.choices Swept.store) 1 ended
  have gone : Sample.artifact.digest ∉ Swept.collected.blobs := by
    rw [← Finmap.mem_keys, after]
    decide
  exact ⟨ended, before, fun kept => gone ((exact _ valid).mpr ⟨before, kept⟩),
    kept Sample.image (fromOCI Sample.image) _ (.inl ⟨"v1", tagged, by decide⟩) .refl stored,
    sound _ known⟩

/-- `found` is the subject of `desc`. -/
def SubjectOf (cd : Codec) (blobs : Blobs) (desc found : Descriptor) : Prop :=
  subject cd (Storage.fetch blobs) desc = .ok (some found)

/-- The chain of subjects of the descriptor reaches the graph of tagged content. -/
def ChainReaches (cd : Codec) (s : Store) (desc : Descriptor) : Prop :=
  ∃ found, Relation.TransGen (SubjectOf cd s.blobs) desc found ∧ s.TaggedNode cd (fromOCI found)

/-- `gcIndex` ends and keeps what it should, whatever the order of iteration,
exactly if it fails on a tagged manifest or no untagged manifest has a subject
outside of the graph of tagged content. -/
theorem gcIndex_terminates_iff (cd : Codec) (s : Store) :
    (∀ choices : GCChoices cd s.blobs, ∃ fuel err s', s.gcIndex choices fuel = some (err, s') ∧
      (err = none → ∀ desc, s.Untagged desc → (desc.digest ∈ s'.tagResolver.index ↔ ChainReaches cd s desc))) ↔
    (∃ desc, s.Tagged desc ∧ ¬ Readable cd (Storage.fetch s.blobs) (fromOCI desc)) ∨
      ∀ desc found, s.Untagged desc → SubjectOf cd s.blobs desc found → s.TaggedNode cd (fromOCI found) := by
  constructor
  · intro always
    by_contra neither
    obtain ⟨readable, outside⟩ := not_or.mp neither
    push Not at readable outside
    obtain ⟨desc, found, untagged, read, outside⟩ := outside
    obtain ⟨fuel, err, s', ended, _⟩ := always {
      tagged := .startingWith desc.digest
      untagged := .startingWith desc.digest
      files := .startingWith desc.digest
      sched := fun _ => .roundRobin 0 (Storage.fetch_byKey _) (Storage.fetch_finite _ _)
      ctx := fun _ => none }
    rw [Store.gcIndex_hangs readable untagged read outside rfl] at ended
    cases ended
  · rintro (⟨desc, tagged, broken⟩ | inside) choices
    · obtain ⟨err, failed⟩ := Store.gcIndex_fails tagged broken choices 0
      exact ⟨0, some err, s, failed, fun impossible => by cases impossible⟩
    · obtain ⟨err, s', ended⟩ := Store.gcIndex_isSome inside choices
      refine ⟨1, err, s', ended, ?_⟩
      rintro rfl desc untagged
      rw [(Store.gcIndex_ok ended).kept desc untagged]
      constructor
      · rintro ⟨found, read⟩
        exact ⟨found, .single read, inside desc found untagged read⟩
      · rintro ⟨_, chain, _⟩
        obtain ⟨found, read, _⟩ := Relation.TransGen.head'_iff.mp chain
        exact ⟨found, read⟩

namespace Endless
open Sample

noncomputable def imaged : Store := (({} : Store).push codec orders image imageBytes).2

/-- An image and an artifact that refers to it, without tags. -/
noncomputable def store : Store := (imaged.push codec orders referrer referrerBytes).2

theorem store_tags : ((({} : Store).push codec orders image imageBytes).1 = none ∧
      (imaged.push codec orders referrer referrerBytes).1 = none) ∧
    store.tagResolver.index.keys = {image.digest, referrer.digest} ∧
    store.tagResolver.index.lookup image.digest = some image ∧
    store.tagResolver.index.lookup referrer.digest = some referrer ∧
    subject codec (Storage.fetch store.blobs) image = .ok none ∧
    subject codec (Storage.fetch store.blobs) referrer = .ok (some image) := by
  decide +kernel

theorem listed {ref : String} {desc : Descriptor} (found : store.tagResolver.index.lookup ref = some desc) :
    ref = desc.digest ∧ (desc = image ∨ desc = referrer) := by
  obtain ⟨_, keys, first, second, _⟩ := store_tags
  have member := Finmap.mem_keys.mpr (Finmap.mem_of_lookup_eq_some found)
  rw [keys, Finset.mem_insert, Finset.mem_singleton] at member
  rcases member with rfl | rfl
  · cases first.symm.trans found
    exact ⟨rfl, .inl rfl⟩
  · cases second.symm.trans found
    exact ⟨rfl, .inr rfl⟩

theorem subjectOf {desc found : Descriptor} (read : SubjectOf codec store.blobs desc found) : found = image := by
  unfold SubjectOf subject at read
  split at read
  · unfold fetchAndUnmarshal at read
    split at read
    · cases read
    · rcases ofTable_subject read with ⟨manifest, listed, some⟩ | ⟨index, listed, _⟩
      · simp only [List.mem_cons, Prod.mk.injEq, List.not_mem_nil, or_false] at listed
        rcases listed with ⟨_, rfl⟩ | ⟨_, rfl⟩ | ⟨_, rfl⟩
        · cases some
        · cases some
        · exact (Option.some.inj some).symm
      · cases listed
  · cases read

end Endless

/-- `gcIndex` does not end on an image and its referrer without tags, though the
chains of subjects are acyclic. -/
theorem gcIndex_endless :
    Run Sample.codec (fun _ _ => True) Endless.store ∧
    WellFounded (fun found desc => SubjectOf Sample.codec Endless.store.blobs desc found) ∧
    Endless.store.Untagged Sample.referrer ∧ ¬ ChainReaches Sample.codec Endless.store Sample.referrer ∧
    ∀ (choices : GCChoices Sample.codec Endless.store.blobs) (fuel : Nat),
      Endless.store.gcIndex choices fuel = none := by
  obtain ⟨⟨first, second⟩, keys, _, listed, absent, read⟩ := Endless.store_tags
  have bare (desc : Descriptor) : ¬ Endless.store.Tagged desc := fun ⟨_, found, tag⟩ => tag (Endless.listed found).1
  have atImage : Acc (fun found desc => SubjectOf Sample.codec Endless.store.blobs desc found) Sample.image :=
    ⟨_, fun found read => by cases absent.symm.trans read⟩
  refine ⟨(Run.start.push trivial first).push trivial second, ⟨fun desc => ⟨_, fun found read => ?_⟩⟩,
    ⟨listed, fun other tagged => absurd tagged (bare other)⟩, ?_, ?_⟩
  · rw [Endless.subjectOf read]
    exact atImage
  · rintro ⟨_, _, other, tagged, _⟩
    exact bare other tagged
  · refine Store.gcIndex_never_ends bare listed read fun d found => ?_
    rcases (Endless.listed found).2 with rfl | rfl
    · exact ⟨_, absent⟩
    · exact ⟨_, read⟩

end OrasGo.Oci
