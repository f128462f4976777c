/-
Written note values.

A value is a base followed by dots, `4`, `2.`, `8..`; the base is a power of
two up to 256, or `1/2` for a double whole. The single letter `m` fills the
measure whatever its length.
-/
import Divisi.Fault
import Divisi.Text.Blank
import Divisi.Text.Numeral

namespace Divisi

inductive WrittenTime where
  | wholeMeasure
  | note (value dots : Nat)
  deriving Repr, DecidableEq

namespace WrittenTime

/-- The bases that have a note of their own. -/
def values : List Nat := [1, 2, 4, 8, 16, 32, 64, 128, 256]

/-- Reads the base of a value; the double whole is 0. The whole text is what
an error shows. -/
def base (text : String) (cs : List Char) : Except Flaw Nat :=
  if cs = ['1', '/', '2'] then .ok 0
  else match Text.natural? 65536 cs with
    | none => .error (.timeValue text)
    | some n => if n ∈ values then .ok n else .error (.powerOfTwo text)

/-- Reads a written value; white space at either end is no part of it. -/
def parse (text : String) : Except Flaw WrittenTime :=
  let cs := Text.trim text.toList
  let shown := String.ofList cs
  let dots := cs.dropWhile (· ≠ '.')
  if cs = ['m'] then .ok .wholeMeasure
  else if dots.any (· ≠ '.') then .error (.timeValue shown)
  else if dots.length > maxDots then .error (.dots shown)
  else (base shown (cs.takeWhile (· ≠ '.'))).map fun value => .note value dots.length

end WrittenTime

end Divisi
