import OrasGo.Oci.Calls

/-! When the two maps of a resolver agree. `Tag` leaves a reference in the set of
the digest it was tagged with before. -/

namespace OrasGo.Resolver

/-- A call that changes a resolver. -/
inductive Change
  | tag (desc : Descriptor) (reference : String)
  | untag (reference : String)

namespace Memory

def apply (m : Memory) : Change → Memory
  | .tag desc reference => m.tag desc reference
  | .untag reference => m.untag reference

/-- The resolver after a sequence of calls on a fresh one. -/
def after (changes : List Change) : Memory := changes.foldl apply {}

/-- The set of each digest holds the references that resolve to it. -/
def Agrees (m : Memory) : Prop :=
  ∀ d r, r ∈ (m.tags.lookup d).getD ∅ ↔ ∃ desc, m.index.lookup r = some desc ∧ desc.digest = d

/-- The call gives a reference another digest than it resolves to. -/
def Moves (m : Memory) : Change → Prop
  | .tag desc reference => ∃ old, m.index.lookup reference = some old ∧ old.digest ≠ desc.digest
  | .untag _ => False

theorem agrees_fresh : Agrees {} := by
  intro d r
  constructor
  · intro impossible
    exact absurd impossible (Finset.notMem_empty r)
  · rintro ⟨desc, impossible, _⟩
    cases impossible

theorem tag_tags (m : Memory) (desc : Descriptor) (reference : String) (d : Digest) :
    ((m.tag desc reference).tags.lookup d).getD ∅ =
      if d = desc.digest then insert reference ((m.tags.lookup d).getD ∅) else (m.tags.lookup d).getD ∅ := by
  by_cases same : d = desc.digest
  · subst same
    simp only [tag, Finmap.lookup_insert, Option.getD_some, if_true]
  · simp only [tag, Finmap.lookup_insert_of_ne _ same, same, if_false]

theorem untag_tags {m : Memory} {reference : String} {desc : Descriptor}
    (found : m.index.lookup reference = some desc) (d : Digest) :
    ((m.untag reference).tags.lookup d).getD ∅ =
      if d = desc.digest then ((m.tags.lookup d).getD ∅).erase reference else (m.tags.lookup d).getD ∅ := by
  simp only [untag, found]
  by_cases same : d = desc.digest
  · subst same
    simp only [if_true]
    split
    · rename_i empty
      rw [Finmap.lookup_erase, Option.getD_none, empty]
    · rw [Finmap.lookup_insert, Option.getD_some]
  · simp only [same, if_false]
    split
    · rw [Finmap.lookup_erase_ne same]
    · rw [Finmap.lookup_insert_of_ne _ same]

section

variable {m : Memory} (agrees : m.Agrees)
include agrees

theorem Agrees.untag (reference : String) : (m.untag reference).Agrees := by
  intro d r
  rw [untag_lookup]
  cases found : m.index.lookup reference with
  | none =>
    have unchanged : m.untag reference = m := by simp only [Memory.untag, found]
    rw [unchanged, agrees d r]
    by_cases same : r = reference
    · subst same
      simp only [found, if_true]
    · simp only [same, if_false]
  | some desc =>
    rw [untag_tags found]
    by_cases same : r = reference
    · subst same
      have resolves := agrees d r
      simp only [found, Option.some.injEq, exists_eq_left'] at resolves
      simp only [if_true, reduceCtorEq, false_and, exists_false, iff_false]
      split
      · exact Finset.notMem_erase r _
      · rename_i other
        intro member
        exact other (resolves.mp member).symm
    · simp only [same, if_false, ← agrees d r]
      split
      · rw [Finset.mem_erase]
        exact and_iff_right same
      · rfl

/-- A call of `Tag` keeps the maps in agreement exactly if it moves no reference. -/
theorem Agrees.tag_iff (desc : Descriptor) (reference : String) :
    (m.tag desc reference).Agrees ↔ ¬ m.Moves (.tag desc reference) := by
  constructor
  · rintro agrees' ⟨old, found, other⟩
    have before : reference ∈ (m.tags.lookup old.digest).getD ∅ := (agrees _ _).mpr ⟨old, found, rfl⟩
    have stale : reference ∈ ((m.tag desc reference).tags.lookup old.digest).getD ∅ := by
      rw [tag_tags, if_neg other]
      exact before
    obtain ⟨new, resolved, same⟩ := (agrees' _ _).mp stale
    rw [tag_lookup, if_pos rfl] at resolved
    cases resolved
    exact other same.symm
  · intro keeps d r
    rw [tag_tags, tag_lookup]
    by_cases same : r = reference
    · subst same
      simp only [if_true, Option.some.injEq, exists_eq_left']
      split
      · rename_i own
        exact ⟨fun _ => own.symm, fun _ => Finset.mem_insert_self r _⟩
      · rename_i other
        refine ⟨fun member => ?_, fun own => absurd own.symm other⟩
        obtain ⟨old, found, digest⟩ := (agrees d r).mp member
        by_contra moved
        exact keeps ⟨old, found, fun stays => moved (stays.symm.trans digest)⟩
    · simp only [same, if_false, ← agrees d r]
      split
      · rw [Finset.mem_insert]
        exact or_iff_right same
      · rfl

theorem Agrees.apply_iff (change : Change) :
    (m.apply change).Agrees ↔ ¬ m.Moves change := by
  cases change with
  | tag desc reference => exact agrees.tag_iff desc reference
  | untag reference => exact ⟨fun _ impossible => impossible, fun _ => agrees.untag reference⟩

theorem mem_tagSet {desc : Descriptor} {r : String} :
    r ∈ m.tagSet desc ↔ ∃ found, m.index.lookup r = some found ∧ found.digest = desc.digest :=
  agrees desc.digest r

end

end Memory

end OrasGo.Resolver

namespace OrasGo.Oci
open Resolver

/-- `isTagged` looks for an element other than the digest in the set of the digest. -/
theorem Store.isTagged_iff (s : Store) (desc : Descriptor) :
    s.isTagged desc = true ↔ ∃ r ∈ s.tagResolver.tagSet desc, r ≠ desc.digest := by
  unfold Store.isTagged
  dsimp only
  by_cases own : desc.digest ∈ s.tagResolver.tagSet desc
  · simp only [own, if_true, decide_eq_true_eq]
    constructor
    · intro several
      obtain ⟨r, member, other⟩ := Finset.exists_mem_ne several desc.digest
      exact ⟨r, member, other⟩
    · rintro ⟨r, member, other⟩
      exact Finset.one_lt_card.mpr ⟨r, member, desc.digest, own, other⟩
  · simp only [own, if_false, decide_eq_true_eq]
    constructor
    · intro some
      obtain ⟨r, member⟩ := Finset.card_pos.mp some
      exact ⟨r, member, fun same => own (same ▸ member)⟩
    · rintro ⟨r, member, _⟩
      exact Finset.card_pos.mpr ⟨r, member⟩

/-- `TagSet` returns the references that resolve to the digest, and `isTagged`
tells whether one of them is not the digest itself. -/
def TagSetExact (m : Resolver.Memory) : Prop :=
  (∀ desc r, r ∈ m.tagSet desc ↔ ∃ found, m.index.lookup r = some found ∧ found.digest = desc.digest) ∧
  ∀ s : Store, s.tagResolver = m → ∀ desc, s.isTagged desc = true ↔
    ∃ r found, r ≠ desc.digest ∧ m.index.lookup r = some found ∧ found.digest = desc.digest

theorem tagSetExact_iff (m : Resolver.Memory) : TagSetExact m ↔ m.Agrees := by
  constructor
  · rintro ⟨exact, _⟩ d r
    exact exact { digest := d } r
  · intro agrees
    refine ⟨fun desc r => Memory.mem_tagSet agrees, ?_⟩
    rintro s rfl desc
    rw [Store.isTagged_iff]
    constructor
    · rintro ⟨r, member, other⟩
      obtain ⟨found, resolved, same⟩ := (Memory.mem_tagSet agrees).mp member
      exact ⟨r, found, other, resolved, same⟩
    · rintro ⟨r, found, other, resolved, same⟩
      exact ⟨r, (Memory.mem_tagSet agrees).mpr ⟨found, resolved, same⟩, other⟩

/-- The reverse index agrees with the references all along a sequence of calls on
a fresh resolver exactly if no call moves a reference to another digest. -/
theorem tagSet_exact_iff (changes : List Change) :
    (∀ done, done <+: changes → TagSetExact (Memory.after done)) ↔
      ∀ done change, done ++ [change] <+: changes → ¬ (Memory.after done).Moves change := by
  simp only [tagSetExact_iff]
  have step (done : List Change) (change : Change) :
      Memory.after (done ++ [change]) = (Memory.after done).apply change := by
    simp only [Memory.after, List.foldl_append, List.foldl_cons, List.foldl_nil]
  constructor
  · intro always done change within
    have before := always done ((List.prefix_append done [change]).trans within)
    have next := always _ within
    rw [step] at next
    exact (before.apply_iff change).mp next
  · intro never done within
    induction done using List.reverseRecOn with
    | nil => exact Memory.agrees_fresh
    | append_singleton done change ih =>
      have before := ih ((List.prefix_append done [change]).trans within)
      rw [step]
      exact (before.apply_iff change).mpr (never done change within)

/-- A tag that was moved from an image to an artifact still counts as one of the image. -/
theorem tagSet_keeps_moved_tag :
    "v1" ∈ (Memory.after [.tag Sample.image "v1", .tag Sample.artifact "v1"]).tagSet Sample.image ∧
    (Memory.after [.tag Sample.image "v1", .tag Sample.artifact "v1"]).index.lookup "v1" = some Sample.artifact ∧
    Sample.artifact.digest ≠ Sample.image.digest ∧
    Store.isTagged { tagResolver := Memory.after [.tag Sample.image "v1", .tag Sample.artifact "v1"] } Sample.image =
      true := by
  decide +kernel

end OrasGo.Oci
