/-
Hands: what one chord holds on one staff.

A hand has at most one group for each voice. Which hand a group is in does not
change while voices are combined, since a group that is folded into another
leaves a space where it stood; so hands are laid out once.
-/
import Divisi.Score

namespace Divisi

structure Hand where
  /-- Index of the measure in the item list. -/
  item : Nat
  /-- Number of the measure. -/
  measure : Nat
  /-- Index of the chord in the measure. -/
  chord : Nat
  staff : Nat
  voices : PerVoice (Option GroupKey)
  /-- The request in force for the staff where the hand stands. -/
  request : Option Request

namespace Hand

/-- The group of a voice in the hand. -/
def voice? (h : Hand) (voice : Nat) : Option GroupKey := (h.voices.get? voice).join

def holds (h : Hand) (key : GroupKey) : Bool :=
  h.voices.one == some key || h.voices.two == some key || h.voices.three == some key

/-! ## Seating the groups of a chord -/

/-- The voices of each staff seated so far, by ascending staff. -/
abbrev Seats := List (Nat × PerVoice (Option GroupKey))

/-- Gives a group the seat of its voice, if that is still free. -/
def Seats.take (staff voice : Nat) (key : GroupKey) : Seats → Option Seats
  | [] => some [(staff, (PerVoice.all none).set voice (some key))]
  | (other, voices) :: rest =>
    if staff < other then
      some ((staff, (PerVoice.all none).set voice (some key)) :: (other, voices) :: rest)
    else if staff = other then
      if (voices.get? voice).join.isSome then none
      else some ((other, voices.set voice (some key)) :: rest)
    else (take staff voice key rest).map ((other, voices) :: ·)

/-- Seats one member of a chord by the staff and voice that its group names. -/
def seat (groups : Arena Group) (measure : Nat) (start : Time) (seats : Seats) (key : GroupKey) :
    Except Fault Seats :=
  match groups.get? key with
  | none => .error (.inconsistent measure .deadMember)
  | some group =>
    if ¬(1 ≤ group.voice ∧ group.voice ≤ maxVoices) then
      .error (.inconsistent measure (.strayVoice group.voice))
    else match seats.take group.staff group.voice key with
      | none => .error (.inconsistent measure (.voiceTwice group.staff group.voice start))
      | some seats => .ok seats

/-- The hands of one chord, by ascending staff. -/
def ofChord (groups : Arena Group) (p : Placed) (chord : Chord) (index : Nat) :
    Except Fault (List Hand) := do
  let seats ← chord.groups.foldlM (seat groups p.measure.number chord.start) []
  return seats.map fun (staff, voices) =>
    { item := p.item, measure := p.measure.number, chord := index, staff, voices
      request := p.inForce.request staff }

/-- The hands of one measure, chord by chord. -/
def ofMeasure (groups : Arena Group) (p : Placed) : Except Fault (List Hand) := do
  let hands ← p.measure.chords.zipIdx.mapM fun (chord, index) => ofChord groups p chord index
  return hands.flatten

end Hand

end Divisi
