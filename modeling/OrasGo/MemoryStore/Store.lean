import OrasGo.Cas.Memory
import OrasGo.Content.CopyBuffer
import OrasGo.Graph.Memory
import OrasGo.Graph.Reachable
import OrasGo.Resolver

/-! `memory.Store`, whose methods are programs over the operations of the storage and of
the graph. They run alone on a state, or among other goroutines. -/

namespace OrasGo.MemoryStore
open Interleaving Iteration

structure Store where
  storage : Cas.Contents := ∅
  resolver : Resolver.Memory := {}
  graph : Graph.Memory := {}

/-- The operations that other goroutines see as one step. `index` is what `graph.Memory` does
under its lock. -/
inductive StoreOp
  | load (key : Key)
  | loadOrStore (key : Key) (value : Bytes)
  | index (node : Descriptor) (successors : List Descriptor)

@[reducible] def StoreAns : StoreOp → Type
  | .load _ => Option Bytes
  | .loadOrStore _ _ => Bool
  | .index _ _ => Unit

abbrev Code := Prog StoreOp StoreAns

def load (key : Key) : Code (Option Bytes) := Prog.perform (StoreOp.load key)

def loadOrStore (key : Key) (value : Bytes) : Code Bool := Prog.perform (StoreOp.loadOrStore key value)

def indexNode (node : Descriptor) (successors : List Descriptor) : Code Unit :=
  Prog.perform (StoreOp.index node successors)

/-- `content.Successors` on the storage. A node that is no manifest is not fetched. -/
def fetchSuccessors (cd : Codec) (node : Descriptor) : Code (Except Error (List Descriptor)) := do
  if isManifest node then
    let fetched ← Cas.fetch load node
    return successors cd (fun _ => fetched) node
  else return .ok []

/-- The end of `graph.Memory.Index`, with what `content.Successors` has returned. -/
def addNode (node : Descriptor) : Except Error (List Descriptor) → Code (Option Error)
  | .error err => return some err
  | .ok nodes => do
    indexNode node nodes
    return none

/-- `graph.Memory.Index` on the storage. -/
def index (cd : Codec) (node : Descriptor) : Code (Option Error) := fetchSuccessors cd node >>= addNode node

/-- `Store.Push`, where `read` is what `ReadAll` makes of the reader. -/
def push (cd : Codec) (expected : Descriptor) (read : Except Error Bytes) : Code (Option Error) := do
  match ← Cas.push load loadOrStore expected (return read) with
  | some err => return some err
  | none => index cd expected

namespace Store

/-- The answer to an operation. -/
def reply (s : Store) : (op : StoreOp) → StoreAns op × Store
  | .load key => (s.storage.lookup key, s)
  | .loadOrStore key value =>
    match s.storage.lookup key with
    | some _ => (true, s)
    | none => (false, { s with storage := s.storage.insert key value })
  | .index node nodes => ((), { s with graph := s.graph.indexNode node nodes })

/-- `Store.Fetch`, with the content that the reader delivers. -/
def fetch (s : Store) (target : Descriptor) : Except Error Bytes := ((Cas.fetch load target).run reply s).1

/-- `Store.Exists`. -/
def contains (s : Store) (target : Descriptor) : Bool := ((Cas.contains load target).run reply s).1

/-- `Store.Resolve`. -/
def resolve (s : Store) (reference : String) : Except Error Descriptor := s.resolver.resolve reference

/-- `Store.Predecessors`. -/
def predecessors (s : Store) (order : Enumeration Key) (node : Descriptor) : List Descriptor :=
  s.graph.predecessorList order node

/-- `Store.Push` by the only goroutine. -/
def push (cd : Codec) (s : Store) (expected : Descriptor) (read : Except Error Bytes) : Option Error × Store :=
  (MemoryStore.push cd expected read).run reply s

theorem fetch_of_lookup {s : Store} {target : Descriptor} {content : Bytes}
    (stored : s.storage.lookup (fromOCI target) = some content) : s.fetch target = .ok content := by
  simp only [fetch, Cas.fetch, load, Prog.perform_bind, Prog.run_call, reply, stored]
  rfl

theorem fetch_of_not_mem {s : Store} {target : Descriptor} (absent : fromOCI target ∉ s.storage) :
    s.fetch target = .error (Cas.notFound (fromOCI target)) := by
  simp only [fetch, Cas.fetch, load, Prog.perform_bind, Prog.run_call, reply, Finmap.lookup_eq_none.mpr absent]
  rfl

theorem contains_eq (s : Store) (target : Descriptor) : s.contains target = (s.storage.lookup (fromOCI target)).isSome := by
  simp only [contains, Cas.contains, load, Prog.perform_bind, Prog.run_call, reply, Prog.pure_eq_ret, Prog.run_ret]

theorem fetch_byKey (s : Store) : Fetcher.ByKey s.fetch := by
  intro a b same
  simp only [fetch, Cas.fetch, same]

theorem fetch_congr {s s' : Store} (same : s'.storage = s.storage) : s'.fetch = s.fetch := by
  funext target
  by_cases present : fromOCI target ∈ s.storage
  · obtain ⟨content, stored⟩ := Finmap.mem_iff.mp present
    rw [fetch_of_lookup stored, fetch_of_lookup (same ▸ stored)]
  · rw [fetch_of_not_mem present, fetch_of_not_mem (same ▸ present)]

theorem run_fetchSuccessors (cd : Codec) (s : Store) (node : Descriptor) :
    (fetchSuccessors cd node).run reply s = (successors cd s.fetch node, s) := by
  unfold fetchSuccessors
  cases manifest : isManifest node with
  | false => simp [successors_of_not_isManifest manifest]
  | true =>
    have same : successors cd (fun _ => s.fetch node) node = successors cd s.fetch node := successors_congr rfl rfl
    have fetched : (Cas.fetch load node).run reply s = (s.fetch node, s) := by
      refine Prod.ext rfl ?_
      simp only [Cas.fetch, load, Prog.perform_bind, Prog.run_call, reply]
      cases s.storage.lookup (fromOCI node) <;> rfl
    simp only [if_true, Prog.run_bind, fetched, Prog.pure_eq_ret, Prog.run_ret, same]

/-- `Index` adds the node with its successors, or fails and adds nothing. -/
theorem run_index_ok {cd : Codec} {s : Store} {node : Descriptor} {nodes : List Descriptor}
    (found : successors cd s.fetch node = .ok nodes) :
    (index cd node).run reply s = (none, { s with graph := s.graph.indexNode node nodes }) := by
  rw [index, Prog.run_bind, run_fetchSuccessors, found]
  rfl

theorem run_index_error {cd : Codec} {s : Store} {node : Descriptor} {err : Error}
    (failed : successors cd s.fetch node = .error err) : (index cd node).run reply s = (some err, s) := by
  rw [index, Prog.run_bind, run_fetchSuccessors, failed]
  rfl

section Push
variable {cd : Codec} {s : Store} {expected : Descriptor}

theorem push_present {read : Except Error Bytes} (present : fromOCI expected ∈ s.storage) :
    s.push cd expected read = (some (Cas.alreadyExists (fromOCI expected)), s) := by
  obtain ⟨content, found⟩ := Finmap.mem_iff.mp present
  simp only [push, MemoryStore.push, Cas.push, load, Prog.perform_bind, Prog.call_bind, Prog.run_call, reply, found]
  rfl

theorem push_refused {err : Error} (absent : fromOCI expected ∉ s.storage) :
    s.push cd expected (.error err) = (some err, s) := by
  simp only [push, MemoryStore.push, Cas.push, load, Prog.perform_bind, Prog.call_bind, Prog.run_call, reply,
    Finmap.lookup_eq_none.mpr absent]
  rfl

/-- `Push` stores and then indexes; nothing is undone. -/
theorem push_stored {content : Bytes} (absent : fromOCI expected ∉ s.storage) : s.push cd expected (.ok content) =
    (index cd expected).run reply { s with storage := s.storage.insert (fromOCI expected) content } := by
  have none := Finmap.lookup_eq_none.mpr absent
  simp only [push, MemoryStore.push, Cas.push, load, Prog.perform_bind, Prog.call_bind, Prog.run_call, reply, none,
    Prog.pure_eq_ret, Prog.ret_bind, Cas.store, loadOrStore, Bool.false_eq_true, if_false]

end Push

end Store

end OrasGo.MemoryStore
