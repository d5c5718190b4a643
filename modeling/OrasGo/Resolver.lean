import OrasGo.Descriptor

/-! `resolver.Memory`, the references of a store and the reverse index from
digests to references. -/

namespace OrasGo.Resolver

structure Memory where
  index : Finmap (fun _ : String => Descriptor) := ∅
  tags : Finmap (fun _ : Digest => Finset String) := ∅

namespace Memory

/-- `Memory.Resolve`. -/
def resolve (m : Memory) (reference : String) : Except Error Descriptor :=
  match m.index.lookup reference with
  | some desc => .ok desc
  | none => .error (.wrap reference .notFound)

/-- `Memory.Tag`, which leaves the reference in the set of the digest it was
tagged with before. -/
def tag (m : Memory) (desc : Descriptor) (reference : String) : Memory where
  index := m.index.insert reference desc
  tags := m.tags.insert desc.digest (insert reference ((m.tags.lookup desc.digest).getD ∅))

/-- `Memory.Untag`. -/
def untag (m : Memory) (reference : String) : Memory :=
  match m.index.lookup reference with
  | none => m
  | some desc =>
    let tagSet := ((m.tags.lookup desc.digest).getD ∅).erase reference
    { index := m.index.erase reference
      tags := if tagSet = ∅ then m.tags.erase desc.digest
        else m.tags.insert desc.digest tagSet }

/-- `Memory.TagSet`. -/
def tagSet (m : Memory) (desc : Descriptor) : Finset String := (m.tags.lookup desc.digest).getD ∅

theorem tag_lookup (m : Memory) (desc : Descriptor) (reference r : String) :
    (m.tag desc reference).index.lookup r = if r = reference then some desc else m.index.lookup r := by
  by_cases same : r = reference
  · subst same
    simp only [tag, Finmap.lookup_insert, if_true]
  · simp only [tag, Finmap.lookup_insert_of_ne _ same, if_neg same]

theorem untag_lookup (m : Memory) (reference r : String) :
    (m.untag reference).index.lookup r = if r = reference then none else m.index.lookup r := by
  unfold untag
  cases found : m.index.lookup reference with
  | none =>
    by_cases same : r = reference
    · subst same
      simp only [found, if_true]
    · simp only [if_neg same]
  | some desc =>
    by_cases same : r = reference
    · subst same
      simp only [Finmap.lookup_erase, if_true]
    · simp only [Finmap.lookup_erase_ne same, if_neg same]

end Memory

end OrasGo.Resolver
