/-
Pitches: a letter, a written accidental and an octave.

A pitch is written as its letter, an optional accidental and the octave:
`c4`, `f#5`, `bb3` (B flat), `b3` (B natural, nothing printed). Double sharps
are `x` or `##`, flats also `&`. `Pitch.name` writes the one spelling that is
read back as the same pitch.
-/
import Divisi.Text.Blank
import Divisi.Text.Numeral

namespace Divisi

/-- The letters of an octave, from its bottom up. -/
inductive Letter where
  | c | d | e | f | g | a | b
  deriving Repr, DecidableEq, Inhabited

namespace Letter

/-- Position within the octave, C at the bottom. -/
def ordinal : Letter → Nat
  | c => 0
  | d => 1
  | e => 2
  | f => 3
  | g => 4
  | a => 5
  | b => 6

def char : Letter → Char
  | c => 'c'
  | d => 'd'
  | e => 'e'
  | f => 'f'
  | g => 'g'
  | a => 'a'
  | b => 'b'

/-- Reads a letter in either case. -/
def ofChar? (x : Char) : Option Letter :=
  match x.toLower with
  | 'c' => some c
  | 'd' => some d
  | 'e' => some e
  | 'f' => some f
  | 'g' => some g
  | 'a' => some a
  | 'b' => some b
  | _ => none

end Letter

/-- A written accidental; with `none` nothing is printed. -/
inductive Accidental where
  | none | sharp | flat | natural | doubleSharp | doubleFlat
  deriving Repr, DecidableEq, Inhabited

namespace Accidental

def sign : Accidental → String
  | none => ""
  | sharp => "#"
  | flat => "b"
  | natural => "n"
  | doubleSharp => "x"
  | doubleFlat => "bb"

/-- Reads an accidental in any of its spellings. -/
def ofChars? : List Char → Option Accidental
  | [] => some none
  | ['#'] => some sharp
  | ['x'] | ['#', '#'] => some doubleSharp
  | ['b'] | ['&'] => some flat
  | ['b', 'b'] | ['&', '&'] => some doubleFlat
  | ['n'] => some natural
  | _ => .none

@[simp] theorem ofChars?_sign (x : Accidental) : ofChars? x.sign.toList = some x := by
  cases x <;> rfl

end Accidental

structure Pitch where
  letter : Letter
  accidental : Accidental
  octave : Int
  deriving Repr, DecidableEq, Inhabited

namespace Pitch

/-- Where the octave begins: at the first digit or minus sign. -/
def opensOctave (c : Char) : Bool := c.isDigit || c == '-'

/-- Reads the accidental and the octave that follow a letter. Octaves run
from 0 to 9. -/
def ofTail? (letter : Letter) (tail : List Char) : Option Pitch := do
  let accidental ← Accidental.ofChars? (tail.takeWhile fun c => !opensOctave c)
  let octave ← Text.integer? (tail.dropWhile fun c => !opensOctave c)
  if 0 ≤ octave ∧ octave ≤ 9 then return { letter, accidental, octave } else failure

/-- Reads a pitch; white space at either end is no part of it. -/
def parse? (text : String) : Option Pitch :=
  match Text.trim text.toList with
  | [] => none
  | first :: tail => (Letter.ofChar? first).bind fun letter => ofTail? letter tail

/-- `f#5`, `bb3`. -/
def name (p : Pitch) : String :=
  p.letter.char.toString ++ p.accidental.sign ++ s!"{p.octave}"

/-- The diatonic step on the staff, the accidental aside; higher is higher. -/
def step (p : Pitch) : Int := p.octave * 7 + p.letter.ordinal

end Pitch

end Divisi
