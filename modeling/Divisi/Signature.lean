/-
Time signatures.
-/
import Divisi.Time
import Divisi.Text.Blank
import Divisi.Text.Numeral

namespace Divisi

/-- `beats` notes of value `unit` to the measure. -/
structure Signature where
  beats : Nat := 4
  unit : Nat := 4
  deriving Repr, DecidableEq

namespace Signature

/-- The length of one full measure. -/
def duration (s : Signature) : Time := (s.beats : Time) / (s.unit : Time)

/-- Either number of a signature: from 1 to 255. -/
def part? (cs : List Char) : Option Nat :=
  (Text.natural? 256 (Text.trim cs)).filter (· ≠ 0)

/-- Reads `3/4`; white space may surround either number. -/
def parse? (text : String) : Option Signature :=
  let cs := Text.trim text.toList
  match cs.dropWhile (· ≠ '/') with
  | [] => none
  | _ :: rest => do
    let beats ← part? (cs.takeWhile (· ≠ '/'))
    let unit ← part? rest
    return { beats, unit }

end Signature

end Divisi
