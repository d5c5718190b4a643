import Mathlib.Data.List.Count
import Mathlib.Logic.Relation

/-! `syncutil.Pool`: an item is shared by the holders of its key and dropped with the last of them. -/

namespace OrasGo.Syncutil
variable {K T : Type} [DecidableEq K]

/-- `Pool`. An item is its address, and `values` and `refCount` hold the fields of all items ever
made, those that have left the map included. A count stays far below the largest `int`. -/
structure KeyedPool (K T : Type) where
  items : K → Option Nat := fun _ => none
  values : List T := []
  refCount : Nat → Int := fun _ => 0

/-- `items[key] = entry`, or `delete(items, key)`. -/
def KeyedPool.enter (p : KeyedPool K T) (key : K) (entry : Option Nat) : KeyedPool K T :=
  { p with items := fun k => if k = key then entry else p.items k }

/-- `item.refCount += n`. -/
def KeyedPool.count (p : KeyedPool K T) (item : Nat) (n : Int) : KeyedPool K T :=
  { p with refCount := fun i => if i = item then p.refCount i + n else p.refCount i }

/-- `Get`, which holds the lock from end to end. `created` is what `New` returns in this call. -/
def KeyedPool.get (p : KeyedPool K T) (key : K) (created : T) : Nat × KeyedPool K T :=
  match p.items key with
  | some item => (item, p.count item 1)
  | none =>
    let item := p.values.length
    (item, ({ p with values := p.values ++ [created] }.enter key item).count item 1)

/-- The function that `Get` returns, which has captured the key and the item. -/
def KeyedPool.release (p : KeyedPool K T) (key : K) (item : Nat) : KeyedPool K T :=
  let p := p.count item (-1)
  if p.refCount item ≤ 0 then p.enter key none else p

/-- What a call of `Get` has captured for its release. -/
structure Holder (K : Type) where
  key : K
  item : Nat

/-- A pool with the calls that have not released what they got. -/
structure Holding (K T : Type) where
  pool : KeyedPool K T := {}
  holders : List (Holder K) := []

namespace Holding

/-- A critical section. A holder releases once, and then it is none. -/
inductive Step : Holding K T → Holding K T → Prop
  | get (s : Holding K T) (key : K) (created : T) :
    Step s ⟨(s.pool.get key created).2, ⟨key, (s.pool.get key created).1⟩ :: s.holders⟩
  | release (pool : KeyedPool K T) (before : List (Holder K)) (h : Holder K) (after : List (Holder K)) :
    Step ⟨pool, before ++ h :: after⟩ ⟨pool.release h.key h.item, before ++ after⟩

structure Inv (s : Holding K T) : Prop where
  held : ∀ h ∈ s.holders, s.pool.items h.key = some h.item
  counted : ∀ key item, s.pool.items key = some item → s.pool.refCount item = s.holders.countP (·.key == key)
  used : ∀ key item, s.pool.items key = some item → 0 < s.pool.refCount item
  apart : ∀ key key' item, s.pool.items key = some item → s.pool.items key' = some item → key = key'
  made : ∀ item, s.pool.values.length ≤ item → s.pool.refCount item = 0

variable {s : Holding K T}

theorem Inv.get (inv : s.Inv) (key : K) (created : T) :
    Inv ⟨(s.pool.get key created).2, ⟨key, (s.pool.get key created).1⟩ :: s.holders⟩ := by
  obtain ⟨held, counted, used, apart, made⟩ := inv
  cases found : s.pool.items key with
  | some item =>
    simp only [KeyedPool.get, found, KeyedPool.count]
    refine ⟨by grind, ?_, by grind, by grind, by grind⟩
    -- The count that rises is the key's own: no other key has the item.
    intro k i entry
    have total := counted k i entry
    have mine := apart k key i entry
    grind
  | none =>
    -- The new item starts from a count of zero, and so does the key.
    have fresh := made s.pool.values.length (Nat.le_refl _)
    have nobody : s.holders.countP (·.key == key) = 0 := by
      rw [List.countP_eq_zero]
      grind
    simp only [KeyedPool.get, found, KeyedPool.enter, KeyedPool.count]
    constructor <;> grind

theorem Inv.release {pool : KeyedPool K T} {before after : List (Holder K)} {h : Holder K}
    (inv : Inv ⟨pool, before ++ h :: after⟩) : Inv ⟨pool.release h.key h.item, before ++ after⟩ := by
  obtain ⟨held, counted, used, apart, made⟩ := inv
  have mine := held h (by simp)
  have total := counted h.key h.item mine
  simp only [KeyedPool.release, KeyedPool.enter, KeyedPool.count, if_true]
  split
  · -- The holder was the last one of its key, so the entry that goes is its own.
    rename_i last
    have nobody : (before ++ after).countP (·.key == h.key) = 0 := by
      simp only [List.countP_append, List.countP_cons, beq_self_eq_true, if_true] at total ⊢
      omega
    have others := List.countP_eq_zero.mp nobody
    constructor <;> grind
  · rename_i more
    constructor <;> grind

theorem Inv.reached (steps : Relation.ReflTransGen Step {} s) : s.Inv := by
  induction steps with
  | refl => exact ⟨by simp, by simp, by simp, by simp, by simp⟩
  | tail _ step inv =>
    cases step with
    | get => exact inv.get _ _
    | release => exact inv.release

/-- At any moment of any interleaving the holders of a key share one item, the pool has an entry
for exactly the keys that are held, counted by their holders, and a key that nobody holds gets an
item made in the call. -/
theorem holders_share_by_key (steps : Relation.ReflTransGen Step {} s) :
    (∀ h ∈ s.holders, ∀ h' ∈ s.holders, h.key = h'.key → h.item = h'.item) ∧
      (∀ key, (s.pool.items key).isSome ↔ ∃ h ∈ s.holders, h.key = key) ∧
      (∀ key item, s.pool.items key = some item → s.pool.refCount item = s.holders.countP (·.key == key)) ∧
      ∀ key created, (∀ h ∈ s.holders, h.key ≠ key) →
        s.pool.values[(s.pool.get key created).1]? = none ∧
          (s.pool.get key created).2.values[(s.pool.get key created).1]? = some created := by
  have inv := Inv.reached steps
  have entries : ∀ key, (s.pool.items key).isSome ↔ ∃ h ∈ s.holders, h.key = key := by
    intro key
    constructor
    · intro there
      obtain ⟨item, found⟩ := Option.isSome_iff_exists.mp there
      have positive : 0 < s.holders.countP (·.key == key) := by
        have := inv.counted key item found
        have := inv.used key item found
        omega
      simpa using List.countP_pos_iff.mp positive
    · rintro ⟨h, mem, rfl⟩
      simp [inv.held h mem]
  refine ⟨?_, entries, inv.counted, ?_⟩
  · intro h mem h' mem' same
    have one := inv.held h mem
    rw [same, inv.held h' mem'] at one
    exact (Option.some.inj one).symm
  · intro key created nobody
    have absent : s.pool.items key = none := by
      rw [← Option.not_isSome_iff_eq_none, entries]
      rintro ⟨h, mem, same⟩
      exact nobody h mem same
    simp [KeyedPool.get, absent, KeyedPool.enter, KeyedPool.count]

/-- Two calls for one key share an item, while a call for the other key has its own. The shared
item goes with the second release, and the next call for its key makes another. -/
theorem holders_share_by_key_twice : ∃ s : Holding Bool Unit, Relation.ReflTransGen Step {} s ∧
    s.holders = [⟨true, 2⟩, ⟨false, 1⟩] ∧ (s.pool.items true).isSome = true ∧
      s.pool.refCount 1 = s.holders.countP (·.key == false) := by
  have both : Relation.ReflTransGen Step ({} : Holding Bool Unit) _ :=
    ((Relation.ReflTransGen.single (.get _ true ())).tail (.get _ false ())).tail (.get _ true ())
  have steps := ((both.tail (.release _ [] ⟨true, 0⟩ [⟨false, 1⟩, ⟨true, 0⟩])).tail
    (.release _ [⟨false, 1⟩] ⟨true, 0⟩ [])).tail (.get _ true ())
  obtain ⟨_, entries, counted, _⟩ := holders_share_by_key steps
  exact ⟨_, steps, rfl, (entries true).mpr ⟨_, List.mem_cons_self, rfl⟩, counted false 1 rfl⟩

end Holding
end OrasGo.Syncutil
