/-
One value for each of the three voices of a staff.
-/
namespace Divisi

structure PerVoice (α : Type) where
  one : α
  two : α
  three : α
  deriving Repr, DecidableEq

namespace PerVoice

variable {α β : Type}

instance [Inhabited α] : Inhabited (PerVoice α) := ⟨⟨default, default, default⟩⟩

def all (x : α) : PerVoice α := ⟨x, x, x⟩

/-- The value of a voice, by its number. -/
def get? (p : PerVoice α) : Nat → Option α
  | 1 => some p.one
  | 2 => some p.two
  | 3 => some p.three
  | _ => none

/-- Changes the value of a voice; other numbers than 1 to 3 change nothing. -/
def set (p : PerVoice α) (voice : Nat) (x : α) : PerVoice α :=
  match voice with
  | 1 => { p with one := x }
  | 2 => { p with two := x }
  | 3 => { p with three := x }
  | _ => p

/-- The values with their voice numbers, in order. -/
def toList (p : PerVoice α) : List (Nat × α) := [(1, p.one), (2, p.two), (3, p.three)]

def map (p : PerVoice α) (f : α → β) : PerVoice β := ⟨f p.one, f p.two, f p.three⟩

theorem get?_set (p : PerVoice α) (v w : Nat) (x : α) :
    (p.set v x).get? w = if v = w then (p.get? w).map (fun _ => x) else p.get? w := by
  unfold set
  split <;> (unfold get?; split <;> simp_all)

theorem mem_toList {p : PerVoice α} {v : Nat} {x : α} :
    (v, x) ∈ p.toList ↔ p.get? v = some x := by
  unfold get? toList
  split <;> simp_all [eq_comm]

end PerVoice

end Divisi
