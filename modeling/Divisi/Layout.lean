/-
How the groups of a score hang together: its hands, and the line that each
voice of each staff makes along the piece.

A line holds the groups of a voice that are no grace notes, each with the
ordinal of its measure. Neighbours on a line stand in the same measure or in
adjacent ones; where a voice is absent from a measure its line has a gap.
-/
import Divisi.Hand

namespace Divisi

/-- A group on a line, with the ordinal of its measure and the index of the
hand it is in. -/
structure Stop where
  key : GroupKey
  measure : Nat
  hand : Option Nat
  deriving DecidableEq

/-- A direction along a line. -/
inductive Heading where
  | forth | back
  deriving Repr, DecidableEq

structure Layout where
  hands : List Hand
  lines : List (List Stop)

namespace Layout

/-- Index of the hand that a group is in. -/
def handOf? (hands : List Hand) (key : GroupKey) : Option Nat := hands.findIdx? (·.holds key)

/-- What a measure adds to the line of a voice. -/
def stops (groups : Arena Group) (hands : List Hand) (staff voice : Nat) (m : Measure)
    (ordinal : Nat) : List Stop :=
  (m.staves.filter (·.staff == staff)).flatMap fun stave =>
    (((stave.list? voice).getD []).filter fun key => !(groups.get key).grace).map fun key =>
      { key, measure := ordinal, hand := handOf? hands key }

/-- The line of a voice along the piece. -/
def line (s : Score) (hands : List Hand) (staff voice : Nat) : List Stop :=
  s.measures.zipIdx.flatMap fun (m, ordinal) => stops s.groups hands staff voice m ordinal

/-- The staffs that some measure holds, each once. -/
def staffs (s : Score) : List Nat :=
  (s.measures.flatMap fun m => m.staves.map (·.staff)).eraseDups

/-- Lays out a score; fails where a chord cannot be seated. -/
def of (s : Score) : Except Fault Layout := do
  let hands := (← s.placed.mapM (Hand.ofMeasure s.groups)).flatten
  return { hands, lines := (staffs s).flatMap fun staff => [1, 2, 3].map (line s hands staff) }

/-- Two stops with no measure between them. -/
def adjacent (x y : Stop) : Bool := x.measure ≤ y.measure + 1 && y.measure ≤ x.measure + 1

/-- Stops up to the first gap. -/
def untilGap : List Stop → List Stop
  | [] => []
  | x :: rest =>
    match rest with
    | [] => [x]
    | y :: _ => if adjacent x y then x :: untilGap rest else [x]

/-- The way along a line from a group on it, the group itself first. -/
def wayOn (line : List Stop) (key : GroupKey) : Heading → List Stop
  | .forth => line.dropWhile (·.key ≠ key)
  | .back => line.reverse.dropWhile (·.key ≠ key)

/-- The stops that one passes going from a group as far as its line leads
without a gap. A group on no line leads nowhere. -/
def way (l : Layout) (heading : Heading) (key : GroupKey) : List Stop :=
  match l.lines.find? fun line => line.any (·.key == key) with
  | none => [{ key, measure := 0, hand := none }]
  | some line => untilGap (wayOn line key heading)

/-- The neighbour of a group on its line, in this measure or an adjacent
one. -/
def neighbour? (l : Layout) (heading : Heading) (key : GroupKey) : Option GroupKey :=
  (l.way heading key)[1]?.map (·.key)

/-- The next group of the voice that is no grace note. -/
def next? (l : Layout) (key : GroupKey) : Option GroupKey := l.neighbour? .forth key

/-- The previous group of the voice that is no grace note. -/
def prev? (l : Layout) (key : GroupKey) : Option GroupKey := l.neighbour? .back key

/-! ## Following linked hands -/

/-- A beam, tie or slur leads on from the group at this stop. -/
def leadsOn (s : Score) (stop : Stop) : Bool := (s.groups.get stop.key).continuesOnward

/-- The way leads on from `x` to the next stop: something in the music links
the two, or the request is for whole measures and they are in one. -/
def linked (s : Score) (heading : Heading) (byMeasure : Bool) (x : Stop) (next : Option Stop) :
    Bool :=
  (match heading with
    | .forth => leadsOn s x
    | .back => next.any (leadsOn s)) ||
  (byMeasure && next.any fun y => y.measure == x.measure)

/-- Follows two voices side by side as long as something links either of them
onward. Both must go on together, into one and the same hand each time, and
each of these hands must be accepted. -/
def follow (s : Score) (heading : Heading) (byMeasure : Bool) (accept : Nat → Bool) :
    List Stop → List Stop → Bool
  | [], _ => true
  | _ :: _, [] => true
  | d :: ds, e :: es =>
    if linked s heading byMeasure d ds.head? || linked s heading byMeasure e es.head? then
      match ds.head?, es.head? with
      | none, none => true
      | some d', some e' =>
        match d'.hand, e'.hand with
        | some h, some h' => h == h' && accept h && follow s heading byMeasure accept ds es
        | _, _ => false
      | _, _ => false
    else true

/-- The hands that two groups are linked to, either way, are all accepted. -/
def agrees (s : Score) (l : Layout) (byMeasure : Bool) (accept : Nat → Bool) (dest src : GroupKey) :
    Bool :=
  [Heading.forth, .back].all fun heading =>
    follow s heading byMeasure accept (l.way heading dest) (l.way heading src)

end Layout

end Divisi
