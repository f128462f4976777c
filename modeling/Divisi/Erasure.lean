/-
Invisible voices.

A voice that is not shown still has to fill its measure so that the others
line up, but nothing of it is printed: its whole list, grace notes included,
gives way to one space as long as the measure. Its groups leave the arena, and
tags that name a group no longer there are dropped.
-/
import Divisi.Event
import Divisi.Score

namespace Divisi

/-- What erasing a voice touches besides its list. -/
structure Stock where
  groups : Arena Group
  tags : Tags

/-- A voice after its erasure. -/
structure Erased where
  stock : Stock
  list : List GroupKey
  /-- Names of the tags that were dropped. -/
  dropped : List String

namespace Stock

/-- Erases a list unless the voice is visible or its first group is missing. -/
def erase? (stock : Stock) (list : List GroupKey) (visible : Bool) (length : Time) :
    Option Erased :=
  if visible then none
  else match list.head?.bind stock.groups.get? with
    | none => none
    | some first =>
      let cleared := stock.groups.removeAll list
      let stays := fun (tag : String × Tag) => cleared.contains tag.2.group
      some {
        stock :=
          { groups := cleared.insert (.measureSpace first.staff first.voice first.measure length)
            tags := stock.tags.filter stays }
        list := [cleared.fresh]
        dropped := (stock.tags.filter fun tag => !stays tag).map Prod.fst }

end Stock

/-- A measure, or a part of one, on its way through erasure. -/
structure Erasing (α : Type) where
  stock : Stock
  now : α
  events : List Event := []

namespace Erasing

/-- Erases a voice of a stave if it is present and hidden. -/
def voice (measure : Nat) (length : Time) (visible : Nat → Bool) (e : Erasing Stave)
    (number : Nat) : Erasing Stave :=
  match (e.now.list? number).bind fun list => e.stock.erase? list (visible number) length with
  | none => e
  | some erased =>
    { stock := erased.stock
      now := e.now.setList number (some erased.list)
      events := e.events ++ erased.dropped.map .tagDropped ++
        [.voiceErased measure e.now.staff number] }

/-- Erases the hidden voices of a stave, in order. -/
def stave (measure : Nat) (length : Time) (visible : Nat → Bool) (stock : Stock) (stave : Stave) :
    Erasing Stave :=
  [1, 2, 3].foldl (voice measure length visible) { stock, now := stave }

/-- Erases the hidden voices of the staves whose staff is shown. -/
def staves (measure : Nat) (f : InForce) (stock : Stock) : List Stave → Erasing (List Stave)
  | [] => { stock, now := [] }
  | s :: rest =>
    let first :=
      if f.staffVisible s.staff then
        stave measure f.time.duration (f.voiceVisible s.staff) stock s
      else { stock, now := s }
    let others := staves measure f first.stock rest
    { stock := others.stock
      now := first.now :: others.now
      events := first.events ++ others.events }

end Erasing

end Divisi
