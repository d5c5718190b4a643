import Mathlib.Logic.Relation
import OrasGo.Content

/-! The content graph that `content.Successors` spans over what can be fetched. -/

namespace OrasGo

/-- The descriptor with nothing but the key. -/
def Key.plain (k : Key) : Descriptor := { mediaType := k.mediaType, digest := k.digest, size := k.size }

@[simp] theorem fromOCI_keyPlain (k : Key) : fromOCI k.plain = k := rfl

/-- The fetcher does not tell apart two descriptors with one key. -/
def Fetcher.ByKey (fetch : Fetcher) : Prop := ∀ a b, fromOCI a = fromOCI b → fetch a = fetch b

namespace Graph
variable (cd : Codec) (fetch : Fetcher)

/-- `child` is a successor of `parent`. -/
def Edge (parent child : Key) : Prop :=
  ∃ nodes, successors cd fetch parent.plain = .ok nodes ∧ ∃ node ∈ nodes, fromOCI node = child

/-- The nodes below `root`, itself included. -/
def Reachable (root : Key) : Key → Prop := Relation.ReflTransGen (Edge cd fetch) root

/-- The node is there and cannot be read. -/
def Broken (k : Key) : Prop :=
  ∃ err, successors cd fetch k.plain = .error err ∧ Error.is .notFound err = false

/-- Everything below the node is absent or can be read. -/
def Readable (root : Key) : Prop := ∀ k, Reachable cd fetch root k → ¬ Broken cd fetch k

/-- What `IndexAll` of a descriptor adds to a graph: the nodes below it that are there. -/
def Indexed (desc : Descriptor) (k : Key) : Prop :=
  Reachable cd fetch (fromOCI desc) k ∧ ∃ nodes, successors cd fetch k.plain = .ok nodes

variable {cd fetch}

theorem successors_plain (byKey : fetch.ByKey) (desc : Descriptor) :
    successors cd fetch (fromOCI desc).plain = successors cd fetch desc :=
  successors_congr rfl (byKey _ _ rfl)

theorem edge_of_mem (byKey : fetch.ByKey) {desc node : Descriptor} {nodes : List Descriptor}
    (found : successors cd fetch desc = .ok nodes) (member : node ∈ nodes) :
    Edge cd fetch (fromOCI desc) (fromOCI node) :=
  ⟨nodes, (successors_plain byKey desc).trans found, node, member, rfl⟩

theorem not_broken_cases {k : Key} (fine : ¬ Broken cd fetch k) :
    (∃ nodes, successors cd fetch k.plain = .ok nodes) ∨
      ∃ err, successors cd fetch k.plain = .error err ∧ Error.is .notFound err = true := by
  cases found : successors cd fetch k.plain with
  | ok nodes => exact .inl ⟨nodes, rfl⟩
  | error err =>
    refine .inr ⟨err, rfl, ?_⟩
    by_contra other
    exact fine ⟨err, found, by simpa using other⟩

end Graph

end OrasGo
