/-
Two groups made into one.

The notes of the source join those of the destination. Where both have a note
at one position the two become one note, in parentheses only if both were; the
others stand beside each other, highest first. Marks that the destination
leaves open are taken from the source. A space adds nothing, and a destination
that is a space becomes the source, in its own voice.
-/
import Divisi.Group

namespace Divisi

/-- A blended group, and where each note of the two groups went in it. -/
structure Blend where
  group : Group
  /-- New index of each note of the destination. -/
  destSlots : List Nat
  /-- New index of each note of the source. -/
  srcSlots : List Nat
  deriving DecidableEq

namespace Blend

/-- Notes gathered into one list, and where each of those added went in it. -/
structure Gathered where
  notes : List Note
  slots : List Nat := []

/-- The note that two notes at one position become. -/
def unison (kept added : Note) : Note :=
  { kept with paren := kept.paren && added.paren, accParen := kept.accParen && added.accParen }

/-- Adds notes one after the other, each to the first note at its position or,
if there is none, at the end. -/
def gather (notes : List Note) : List Note → Gathered
  | [] => { notes }
  | n :: rest =>
    match notes.findIdx? (·.samePosition n) with
    | some slot =>
      let g := gather (notes.modify slot (unison · n)) rest
      { g with slots := slot :: g.slots }
    | none =>
      let g := gather (notes ++ [n]) rest
      { g with slots := notes.length :: g.slots }

/-- The notes with the indices they had, highest first. -/
def order (notes : List Note) : List (Note × Nat) :=
  notes.zipIdx.mergeSort fun x y => Note.highestFirst x.1 y.1

/-- Where the note with index `slot` stands in an order. -/
def placeIn (ordered : List (Note × Nat)) (slot : Nat) : Nat := ordered.findIdx (·.2 == slot)

/-- A roll that runs on from one voice into the other becomes one roll. -/
def roll : Span → Span → Span
  | .start, .stop => .lone
  | .start, .inner => .start
  | .none, other => other
  | kept, _ => kept

/-- What is printed over a tuplet, from the source where the destination
leaves it open. -/
def tuplet : Option Tuplet → Option Tuplet → Option Tuplet
  | some ours, some theirs =>
    some (if ours.print = .default then { ours with print := theirs.print } else ours)
  | ours, _ => ours

/-- The destination with the marks that it leaves open taken from the
source. -/
def marks (dest src : Group) : Group :=
  { dest with
    tuplet := tuplet dest.tuplet src.tuplet
    stemLen := dest.stemLen <|> src.stemLen
    stemDir := dest.stemDir <|> src.stemDir
    beamSlope := dest.beamSlope <|> src.beamSlope
    headShape := dest.headShape <|> src.headShape
    rollDir := dest.rollDir <|> src.rollDir
    roll := roll dest.roll src.roll }

end Blend

/-- Blends `src` into `dest`. -/
def Group.blend (dest src : Group) : Blend :=
  if src.isSpace then
    { group := dest, destSlots := List.range dest.notes.length, srcSlots := [] }
  else if dest.isSpace then
    { group := { src with staff := dest.staff, voice := dest.voice }
      destSlots := [], srcSlots := List.range src.notes.length }
  else
    match dest.kind, src.kind with
    | .notes, .notes =>
      let gathered := Blend.gather dest.notes src.notes
      let ordered := Blend.order gathered.notes
      { group := { Blend.marks dest src with notes := ordered.map Prod.fst }
        destSlots := (List.range dest.notes.length).map (Blend.placeIn ordered)
        srcSlots := gathered.slots.map (Blend.placeIn ordered) }
    | _, _ =>
      { group := Blend.marks dest src, destSlots := List.range dest.notes.length, srcSlots := [] }

end Divisi
