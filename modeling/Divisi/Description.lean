/-
Score descriptions: what a writer gives, before any of it is checked.

The values are of the right kind (a number is a number) and missing fields
have their defaults, but pitches, written values, voice and staff numbers are
still as they were written.
-/
import Divisi.Group
import Divisi.Request

namespace Divisi

namespace Description

/-- A note head; one that is given as a pitch alone has the defaults. -/
structure Head where
  pitch : String := ""
  tie : Bool := false
  slur : List String := []
  paren : Bool := false
  accParen : Bool := false
  small : Bool := false
  tieToVoice : Option Nat := none
  slurToVoice : Option Nat := none
  tiedFromOther : Bool := false
  slurredFromOther : Bool := false
  tag : Option String := none

structure Tuplet where
  loc : Span := .none
  num : Nat
  inTimeOf : Option Nat := none
  side : Side := .default
  print : TupletPrint := .default

structure Group where
  time : String := ""
  notes : List Head := []
  rest : Bool := false
  space : Bool := false
  measureRepeat : Bool := false
  grace : Bool := false
  beam : Span := .none
  breakBeam : Bool := false
  beamTo : Reach := .none
  stemTo : Reach := .none
  beamSlope : Option Float := none
  stemLen : Option Float := none
  stemDir : Option Direction := none
  headShape : Option String := none
  tuplet : Option Tuplet := none
  slashAlt : Int := 0
  offset : Option String := none
  withList : List String := []
  roll : Span := .none
  rollDir : Option Direction := none
  small : Bool := false
  tag : Option String := none

structure Syllable where
  time : String := ""
  text : String := ""

/-- One staff of a measure; the voices in ascending order. -/
structure Stave where
  staff : Nat := 1
  voices : List (Nat × List Group) := []
  verses : List (List Syllable) := []

structure Change where
  staff : Option Nat := none
  voice : Option Nat := none
  time : Option String := none
  visible : Option Bool := none
  request : Option Request := none

/-- An entry of the music: a change or a measure, if it is well made. -/
structure Entry where
  change : Option Change := none
  measure : Option (List Stave) := none

end Description

structure Description where
  title : Option String := none
  composer : Option String := none
  time : Option String := none
  packing : Option Float := none
  staffs : Option Nat := none
  visible : Option Bool := none
  request : Option Request := none
  music : List Description.Entry := []

end Divisi
