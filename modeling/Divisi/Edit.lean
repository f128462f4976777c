/-
Edits of a loaded score by hand.

An edit changes fields of one group, or takes groups out of where they are
listed. It does not look at what the rest of the score says about them, so
that an edited score may be inconsistent.
-/
import Divisi.Erasure
import Divisi.Score

namespace Divisi

namespace Group

/-- New values for some fields of a group. The voice and the staff are those
that the group itself names, wherever it is listed; a tie is that of every
note. -/
structure Revision where
  voice : Option Nat := none
  staff : Option Nat := none
  beam : Option Span := none
  duration : Option Time := none
  tie : Option Bool := none
  grace : Option Bool := none

def revise (g : Group) (r : Revision) : Group :=
  let g := { g with
    voice := r.voice.getD g.voice
    staff := r.staff.getD g.staff
    beam := r.beam.getD g.beam
    duration := r.duration.getD g.duration
    grace := r.grace.getD g.grace }
  match r.tie with
  | none => g
  | some tie => g.mapNotes fun note => { note with tie }

end Group

/-- A voice of a staff in the measure at an index of the item list. -/
structure Layer where
  item : Nat
  staff : Nat
  voice : Nat
  deriving Repr, DecidableEq

/-- What can be done to a score by hand. -/
inductive Edit where
  | revise (key : GroupKey) (revision : Group.Revision)
  /-- A space takes the place of a group. -/
  | blank (key : GroupKey)
  /-- A group is removed, and stays listed. -/
  | remove (key : GroupKey)
  /-- An entry is taken out of a voice list, its group is kept. -/
  | unlist (layer : Layer) (index : Nat)
  /-- A voice is no longer present. -/
  | silence (layer : Layer)
  /-- A voice is erased as if it were hidden. -/
  | erase (layer : Layer) (visible : Bool) (length : Time)
  | insertChange (change : Change) (item : Nat)

namespace Score

/-- The item at which the measure of a number stands. -/
def itemOf? (s : Score) (number : Nat) : Option Nat :=
  s.items.findIdx? fun
    | .measure m => m.number == number
    | .change _ => false

/-- The list of a voice that is present. -/
def list? (s : Score) (layer : Layer) : Option (List GroupKey) :=
  ((s.measureAt? layer.item).bind (·.stave? layer.staff)).bind (·.list? layer.voice)

/-- The erasure of a voice, if it is present and would be erased. -/
def erasure? (s : Score) (layer : Layer) (visible : Bool) (length : Time) : Option Erased :=
  (s.list? layer).bind fun list =>
    ({ groups := s.groups, tags := s.tags } : Stock).erase? list visible length

def edit (s : Score) : Edit → Score
  | .revise key revision => { s with groups := s.groups.modify key (·.revise revision) }
  | .blank key => { s with groups := s.groups.modify key Group.toSpace }
  | .remove key => { s with groups := s.groups.remove key }
  | .unlist layer index =>
    s.setVoiceList layer.item layer.staff layer.voice ((s.list? layer).map (·.eraseIdx index))
  | .silence layer => s.setVoiceList layer.item layer.staff layer.voice none
  | .erase layer visible length =>
    match s.erasure? layer visible length with
    | none => s
    | some erased =>
      setVoiceList { s with groups := erased.stock.groups, tags := erased.stock.tags }
        layer.item layer.staff layer.voice erased.list
  | .insertChange change item => { s with items := s.items.insertIdx item (.change change) }

end Score

end Divisi
