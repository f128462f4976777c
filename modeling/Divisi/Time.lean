/-
Musical time.

Spans and offsets are exact fractions of a whole note, so that tuplets of any
depth add up to a measure or do not. Numerators and denominators are integers of
64 bits. Written values stay far below that, but spans whose denominators have
little in common may leave the range when they are added up: a sum or a difference
is formed over the least common denominator, and there is none if a number on the
way does not fit (`add?`, `sub?`). Comparison always works. Floating point appears
only in the spacing weight of a span, which nothing is compared with.
-/
namespace Divisi

/-- A span, or an offset from the start of a measure, in whole notes. -/
abbrev Time := Rat

namespace Time

/-- An integer fits in 64 bits. -/
def Fits (n : Int) : Prop := -9223372036854775808 ≤ n ∧ n ≤ 9223372036854775807

instance (n : Int) : Decidable (Fits n) := inferInstanceAs (Decidable (_ ∧ _))

/-- The numerator of a span over a multiple of its denominator. -/
def scaled (den : Nat) (t : Time) : Int := t.num * (den / t.den : Nat)

/-- All that is formed on the way to a sum or a difference fits. -/
def Formable (op : Int → Int → Int) (t u : Time) : Prop :=
  let den := t.den.lcm u.den
  Fits den ∧ Fits (t.scaled den) ∧ Fits (u.scaled den) ∧ Fits (op (t.scaled den) (u.scaled den))

instance (op : Int → Int → Int) (t u : Time) : Decidable (Formable op t u) :=
  inferInstanceAs (Decidable (_ ∧ _ ∧ _ ∧ _))

def combine? (op : Int → Int → Int) (t u : Time) : Option Time :=
  let den := t.den.lcm u.den
  if Formable op t u then some (mkRat (op (t.scaled den) (u.scaled den)) den) else none

def add? (t u : Time) : Option Time := combine? (· + ·) t u

def sub? (t u : Time) : Option Time := combine? (· - ·) t u

/-- The end of spans that follow one another from `start` on, added up one after
the other. -/
def end? (start : Time) (spans : List Time) : Option Time := spans.foldlM add? start

/-- Lowest terms, `3/4`; a whole number of whole notes has no denominator. -/
def text (t : Time) : String :=
  if t.den = 1 then s!"{t.num}" else s!"{t.num}/{t.den}"

def toFloat (t : Time) : Float := Float.ofInt t.num / Float.ofNat t.den

/-- The weight of a span in horizontal spacing: its length raised to the
packing exponent. -/
def weight (t : Time) (exponent : Float) : Float := t.toFloat.pow exponent

/-- The packing exponent of a score that gives none. -/
def defaultPacking : Float := 0.8

/-- The exact length of spans that follow one another. -/
def total (spans : List Time) : Time := spans.foldr (· + ·) 0

@[simp] theorem total_nil : total [] = 0 := rfl

@[simp] theorem total_cons (t : Time) (spans : List Time) :
    total (t :: spans) = t + total spans := rfl

end Time

/-- The length of a written note value. Value 4 is a quarter, 0 a double
whole; each dot adds half of what was added before. -/
def noteValue (value dots : Nat) : Time :=
  (if value = 0 then 2 else 1 / (value : Time)) * (2 - 1 / (Nat.pow 2 dots : Time))

end Divisi
