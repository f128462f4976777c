/-
An arena hands out a key for every value put into it.

Keys are never reused: a removed value leaves an empty slot behind, and its
key reads nothing from then on.
-/
namespace Divisi

/-- Names a value of type `α` in an arena. -/
structure Key (α : Type) where
  slot : Nat
  deriving Repr

instance {α : Type} : DecidableEq (Key α) := fun k l =>
  decidable_of_iff (k.slot = l.slot) (by cases k; cases l; simp)

instance {α : Type} : Inhabited (Key α) := ⟨⟨0⟩⟩

structure Arena (α : Type) where
  slots : Array (Option α) := #[]
  deriving DecidableEq

namespace Arena

variable {α : Type}

def get? (a : Arena α) (k : Key α) : Option α := a.slots[k.slot]?.join

/-- The value at `k`, or the default where there is none. -/
def get [Inhabited α] (a : Arena α) (k : Key α) : α := (a.get? k).getD default

def contains (a : Arena α) (k : Key α) : Bool := (a.get? k).isSome

/-- How many values the arena holds. -/
def size (a : Arena α) : Nat := a.slots.countP Option.isSome

/-- The key that the next value put in receives. -/
def fresh (a : Arena α) : Key α := ⟨a.slots.size⟩

def insert (a : Arena α) (x : α) : Arena α := ⟨a.slots.push (some x)⟩

/-- Replaces the value at `k`; a key that reads nothing stays that way. -/
def modify (a : Arena α) (k : Key α) (f : α → α) : Arena α :=
  ⟨a.slots.modify k.slot (Option.map f)⟩

def set (a : Arena α) (k : Key α) (x : α) : Arena α := a.modify k fun _ => x

def remove (a : Arena α) (k : Key α) : Arena α := ⟨a.slots.modify k.slot fun _ => none⟩

def removeAll (a : Arena α) (ks : List (Key α)) : Arena α := ks.foldl remove a

/-! ## What each operation leaves to be read -/

@[simp] theorem get?_fresh (a : Arena α) : a.get? a.fresh = none := by
  simp [get?, fresh]

@[simp] theorem get?_insert_fresh (a : Arena α) (x : α) : (a.insert x).get? a.fresh = some x := by
  simp [get?, insert, fresh]

theorem get?_insert (a : Arena α) (x : α) (k : Key α) :
    (a.insert x).get? k = if k = a.fresh then some x else a.get? k := by
  obtain ⟨n⟩ := k
  simp only [get?, insert, fresh, Array.getElem?_push, Key.mk.injEq]
  split <;> simp

theorem get?_modify (a : Arena α) (k l : Key α) (f : α → α) :
    (a.modify k f).get? l = if k = l then (a.get? l).map f else a.get? l := by
  obtain ⟨n⟩ := k
  obtain ⟨m⟩ := l
  simp only [get?, modify, Array.getElem?_modify, Key.mk.injEq]
  split
  · cases a.slots[m]? <;> simp
  · rfl

theorem get?_set (a : Arena α) (k l : Key α) (x : α) :
    (a.set k x).get? l = if k = l then (a.get? l).map (fun _ => x) else a.get? l :=
  get?_modify a k l _

theorem get?_remove (a : Arena α) (k l : Key α) :
    (a.remove k).get? l = if k = l then none else a.get? l := by
  obtain ⟨n⟩ := k
  obtain ⟨m⟩ := l
  simp only [get?, remove, Array.getElem?_modify, Key.mk.injEq]
  split
  · cases a.slots[m]? <;> simp
  · rfl

end Arena

end Divisi
