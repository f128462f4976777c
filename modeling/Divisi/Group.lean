/-
Groups: what one voice holds at one moment.

A group is a chord of notes on one stem, a rest, a space or a measure repeat,
with its written value, its length and its notation marks. The notes of a
group are kept highest first.
-/
import Divisi.Time
import Divisi.Note

namespace Divisi

/-- Position of a group within a run such as a beam, a tuplet or a roll. -/
inductive Span where
  | none | lone | start | inner | stop
  deriving Repr, DecidableEq, Inhabited

namespace Span

/-- The run carries on into the next group. -/
def continues : Span → Bool
  | start | inner => true
  | _ => false

theorem continues_iff {s : Span} : s.continues = true ↔ s = start ∨ s = inner := by
  cases s <;> simp [continues]

end Span

/-- Which side of the notes a mark is printed on. -/
inductive Side where
  | default | above | below
  deriving Repr, DecidableEq, Inhabited

/-- The neighbouring staff that a beam or a stem reaches to. -/
inductive Reach where
  | none | above | below
  deriving Repr, DecidableEq, Inhabited

inductive Direction where
  | up | down
  deriving Repr, DecidableEq, Inhabited

/-- What is printed over a tuplet. -/
inductive TupletPrint where
  | default | neither | number | both
  deriving Repr, DecidableEq, Inhabited

/-- `num` notes in the time of `inTimeOf`. -/
structure Tuplet where
  loc : Span := .none
  num : Nat
  inTimeOf : Nat
  side : Side := .default
  print : TupletPrint := .default
  deriving Repr, DecidableEq

/-- Horizontal displacement of a group from its chord. -/
inductive Offset where
  | none | left | right
  | value (amount : Float)
  deriving DecidableEq, Inhabited

namespace Offset

/-- The two displacements are equal, amounts compared as numbers. -/
def same : Offset → Offset → Bool
  | none, none | left, left | right, right => true
  | value x, value y => x == y
  | _, _ => false

end Offset

/-- Whether a group prints its notes, or what it prints in their place. -/
inductive Kind where
  | notes | rest | space | measureRepeat
  deriving Repr, DecidableEq, Inhabited

/-- What a group prints. -/
inductive Content where
  | notes (heads : List Note)
  | rest
  | space
  | measureRepeat
  deriving DecidableEq, Inhabited

structure Group where
  staff : Nat := 1
  voice : Nat := 1
  /-- Number of the measure the group was written in. -/
  measure : Nat := 0
  /-- Written value: 4 for a quarter, 0 for a double whole. -/
  value : Nat := 4
  dots : Nat := 0
  duration : Time := 1 / 4
  grace : Bool := false
  /-- Fills its measure, whatever the time signature. -/
  wholeMeasure : Bool := false
  kind : Kind := .notes
  /-- The notes that the group holds, also where it does not print them. -/
  notes : List Note := []
  small : Bool := false
  headShape : Option String := none
  beam : Span := .none
  breakBeam : Bool := false
  beamTo : Reach := .none
  stemTo : Reach := .none
  beamSlope : Option Float := none
  stemLen : Option Float := none
  stemDir : Option Direction := none
  tuplet : Option Tuplet := none
  /-- Tremolo slashes if positive, alternation beams if negative. -/
  slashAlt : Int := 0
  offset : Offset := .none
  withList : List String := []
  roll : Span := .none
  rollDir : Option Direction := none
  deriving DecidableEq, Inhabited

namespace Group

def content (g : Group) : Content :=
  match g.kind with
  | .notes => .notes g.notes
  | .rest => .rest
  | .space => .space
  | .measureRepeat => .measureRepeat

def isSpace (g : Group) : Bool := g.kind == .space

/-- A space that fills a measure. -/
def measureSpace (staff voice measure : Nat) (duration : Time) : Group :=
  { staff, voice, measure, value := 1, duration, wholeMeasure := true, kind := .space }

/-- Same place and same time, nothing printed. -/
def toSpace (g : Group) : Group :=
  { staff := g.staff, voice := g.voice, measure := g.measure, value := g.value, dots := g.dots,
    duration := g.duration, grace := g.grace, wholeMeasure := g.wholeMeasure, kind := .space }

/-- Some note is tied into the next group. -/
def tiesOut (g : Group) : Bool := g.notes.any (·.tie)

/-- A beam, tie or slur carries on into the next group of the voice. -/
def continuesOnward (g : Group) : Bool := g.beam.continues || g.notes.any Note.continues

/-- The group begins a beam or is inside one, or a note of it begins a tie or a slur. -/
theorem continuesOnward_iff {g : Group} : g.continuesOnward = true ↔
    (g.beam = .start ∨ g.beam = .inner) ∨ ∃ n ∈ g.notes, n.tie = true ∨ n.slurTo ≠ [] := by
  simp [continuesOnward, Note.continues, Span.continues_iff]

def crossesVoices (g : Group) : Bool := g.notes.any Note.crossesVoices

/-- The same group with every note changed by `f`. -/
def mapNotes (g : Group) (f : Note → Note) : Group := { g with notes := g.notes.map f }

/-- The written value: `m` for a measure filler, `1/2` for a double whole. -/
def valueText (g : Group) : String :=
  if g.wholeMeasure then "m" else if g.value = 0 then "1/2" else s!"{g.value}"

def contentText (g : Group) : String :=
  match g.content with
  | .notes heads => String.join (heads.map fun n => " " ++ n.name)
  | .rest => " r"
  | .space => " s"
  | .measureRepeat => " mrpt"

/-- A short printed form: `4. e4 c4`, `2 r`, `g8 d5`. -/
def describe (g : Group) : String :=
  (if g.grace then "g" else "") ++ g.valueText ++ String.ofList (List.replicate g.dots '.') ++
    g.contentText

theorem content_eq_notes {g : Group} {heads : List Note} :
    g.content = .notes heads ↔ g.kind = .notes ∧ g.notes = heads := by
  cases hk : g.kind <;> simp [content, hk]

@[simp] theorem isSpace_toSpace (g : Group) : g.toSpace.isSpace = true := rfl

end Group

end Divisi
