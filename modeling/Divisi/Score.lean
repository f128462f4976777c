/-
Scores.

A score is a list of items, changes of settings and measures, in score order.
The groups and the syllables live in two arenas, and three relations between
them are stored as keys: the order of a voice within a measure, grace notes
included; the members of a chord, grace notes left out; and what a tag names.
-/
import Divisi.Arena
import Divisi.Group
import Divisi.PerVoice
import Divisi.Settings
import Divisi.Fault

namespace Divisi

/-- One syllable of a verse. -/
structure Syllable where
  staff : Nat
  verse : Nat
  measure : Nat
  duration : Time
  text : String
  deriving Repr, DecidableEq, Inhabited

abbrev GroupKey := Key Group

abbrev SyllableKey := Key Syllable

/-- What a chord can hold. -/
inductive Member where
  | group (key : GroupKey)
  | syllable (key : SyllableKey)
  deriving DecidableEq

/-- Everything that begins at one offset of a measure. -/
structure Chord where
  start : Time
  duration : Time
  /-- The chord's weight in horizontal spacing. -/
  weight : Float
  members : List Member
  deriving DecidableEq

namespace Chord

def groups (c : Chord) : List GroupKey :=
  c.members.filterMap fun
    | .group key => some key
    | .syllable _ => none

end Chord

/-- What one staff holds in one measure: a list for each voice present, and
the verses that have a syllable. -/
structure Stave where
  staff : Nat
  voices : PerVoice (Option (List GroupKey)) := .all none
  verses : List (List SyllableKey) := []
  deriving DecidableEq

namespace Stave

/-- The list of a voice, if the voice is present. -/
def list? (s : Stave) (voice : Nat) : Option (List GroupKey) := (s.voices.get? voice).join

/-- Gives a voice another list, or makes it absent. -/
def setList (s : Stave) (voice : Nat) (list : Option (List GroupKey)) : Stave :=
  { s with voices := s.voices.set voice list }

/-- The voices present, with their numbers. -/
def present (s : Stave) : List (Nat × List GroupKey) :=
  s.voices.toList.filterMap fun (voice, list) => list.map fun keys => (voice, keys)

end Stave

structure Measure where
  number : Nat
  staves : List Stave := []
  chords : List Chord := []
  deriving DecidableEq

namespace Measure

def stave? (m : Measure) (staff : Nat) : Option Stave := m.staves.find? (·.staff == staff)

/-- Changes the first stave of a staff. -/
def modifyStave (m : Measure) (staff : Nat) (f : Stave → Stave) : Measure :=
  { m with staves := m.staves.modify (m.staves.findIdx (·.staff == staff)) f }

end Measure

inductive Item where
  | change (change : Change)
  | measure (measure : Measure)
  deriving DecidableEq

/-- What a tag names: a group, or one of its notes by index. -/
structure Tag where
  group : GroupKey
  note : Option Nat := none
  deriving DecidableEq

/-- Tags in ascending order of their names. -/
abbrev Tags := List (String × Tag)

namespace Tags

def find? (tags : Tags) (name : String) : Option Tag := tags.lookup name

/-- Adds a tag under a name not yet taken. -/
def insert (tags : Tags) (name : String) (tag : Tag) : Tags :=
  match tags with
  | [] => [(name, tag)]
  | (other, old) :: rest =>
    if name < other then (name, tag) :: (other, old) :: rest
    else (other, old) :: insert rest name tag

end Tags

/-- Settings of the whole engraving, the same at every place. -/
structure Options where
  /-- The exponent that turns a chord's duration into its weight. -/
  packing : Float := Time.defaultPacking
  combine : Bool := true
  deriving DecidableEq

structure Header where
  title : Option String := none
  composer : Option String := none
  staffs : Nat := 0
  options : Options := {}
  deriving DecidableEq

structure Score where
  header : Header := {}
  items : List Item := []
  groups : Arena Group := {}
  syllables : Arena Syllable := {}
  tags : Tags := []
  deriving DecidableEq

namespace Score

def measures (s : Score) : List Measure :=
  s.items.filterMap fun
    | .measure m => some m
    | .change _ => none

/-- The measure that stands at an index of the item list. -/
def measureAt? (s : Score) (item : Nat) : Option Measure :=
  match s.items[item]? with
  | some (.measure m) => some m
  | _ => none

def modifyMeasure (s : Score) (item : Nat) (f : Measure → Measure) : Score :=
  { s with
    items := s.items.modify item fun
      | .measure m => .measure (f m)
      | .change c => .change c }

/-- The list of a voice in the measure at `item`. -/
def voiceList (s : Score) (item staff voice : Nat) : Except Fault (List GroupKey) :=
  match s.measureAt? item with
  | none => .error (.inconsistent 0 (.notMeasure item))
  | some m =>
    match (m.stave? staff).bind (·.list? voice) with
    | none => .error (.inconsistent m.number (.noList staff voice))
    | some list => .ok list

/-- Gives a voice in the measure at `item` another list, or makes it absent. -/
def setVoiceList (s : Score) (item staff voice : Nat) (list : Option (List GroupKey)) : Score :=
  s.modifyMeasure item fun m => m.modifyStave staff fun stave => stave.setList voice list

end Score

/-! ## Settings along a score -/

/-- A measure at its place in the item list, with the settings in force. -/
structure Placed where
  item : Nat
  inForce : InForce
  measure : Measure

/-- The measures of a list of items that begins at index `item` with the
settings `f` in force. -/
def Placed.along (item : Nat) (f : InForce) : List Item → List Placed
  | [] => []
  | .change c :: rest => along (item + 1) (f.apply c) rest
  | .measure m :: rest => ⟨item, f, m⟩ :: along (item + 1) f rest

/-- The measures of a score with the settings in force at each. -/
def Score.placed (s : Score) : List Placed := Placed.along 0 .start s.items

end Divisi
