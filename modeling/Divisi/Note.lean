/-
Note heads.
-/
import Divisi.Pitch

namespace Divisi

/-- Where a slur leads: a position in the next group, possibly in another
voice. -/
structure SlurTarget where
  letter : Letter
  octave : Int
  toVoice : Option Nat := none
  deriving Repr, DecidableEq

/-- One note head of a group. -/
structure Note extends Pitch where
  small : Bool := false
  /-- The head stands in parentheses. -/
  paren : Bool := false
  /-- The accidental stands in parentheses. -/
  accParen : Bool := false
  tie : Bool := false
  tiedToVoice : Option Nat := none
  tiedFromOther : Bool := false
  slurTo : List SlurTarget := []
  slurredFromOther : Bool := false
  deriving Repr, DecidableEq, Inhabited

namespace Note

/-- Same letter and octave, the accidental aside. -/
def samePosition (x y : Note) : Bool := x.letter == y.letter && x.octave == y.octave

/-- A tie or slur of the note leaves the voice or arrives from another. -/
def crossesVoices (n : Note) : Bool :=
  n.tiedToVoice.isSome || n.tiedFromOther || n.slurredFromOther ||
    n.slurTo.any fun target => target.toVoice.isSome

/-- A tie or slur leads on into the next group. -/
def continues (n : Note) : Bool := n.tie || !n.slurTo.isEmpty

/-- Highest first, in the order given where two stand on the same step. -/
def highestFirst (x y : Note) : Bool := y.step ≤ x.step

end Note

end Divisi
