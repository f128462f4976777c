/-
Which voices of a hand can be printed as one, judged by that hand alone.

Two groups can be combined if they take the same time in the same notation,
nothing in them leads to or from another voice, and their pitches respect the
request. A space goes with anything of its own length. Grace notes before the
two groups are judged in pairs, from the groups backwards; those that one
voice has more of than the other do not matter.
-/
import Divisi.Layout

namespace Divisi

/-- For each pair of voices whether the two can be printed as one. -/
structure Affinity where
  oneTwo : Bool := false
  oneThree : Bool := false
  twoThree : Bool := false
  deriving Repr, DecidableEq, Inhabited

namespace Affinity

/-- The entry of a pair, in either order. Their sum tells the pairs apart. -/
def get (t : Affinity) (v w : Nat) : Bool :=
  match v + w with
  | 3 => t.oneTwo
  | 4 => t.oneThree
  | 5 => t.twoThree
  | _ => false

def set (t : Affinity) (v w : Nat) (ok : Bool) : Affinity :=
  match v + w with
  | 3 => { t with oneTwo := ok }
  | 4 => { t with oneThree := ok }
  | 5 => { t with twoThree := ok }
  | _ => t

/-- After `src` has joined `dest`, either goes with a third voice only if both
did. -/
def absorb (t : Affinity) (dest src : Nat) : Affinity :=
  ([1, 2, 3].filter fun v => v != dest && v != src).foldl (fun t other =>
    let both := t.get dest other && t.get src other
    (t.set dest other both).set src other both) t

end Affinity

namespace Group

/-! ## Two groups -/

/-- The marks of a tuplet that have to agree; what is printed over it may
differ. -/
def tupletShape (g : Group) : Option (Span × Side × Nat × Nat) :=
  g.tuplet.map fun t => (t.loc, t.side, t.num, t.inTimeOf)

/-- The groups take the same time, in the same notation. -/
def sameTiming (a b : Group) : Bool :=
  a.duration == b.duration && a.value == b.value && a.dots == b.dots &&
    a.tupletShape == b.tupletShape && a.breakBeam == b.breakBeam && a.beamTo == b.beamTo &&
    a.stemTo == b.stemTo

/-- Optional attributes differ only where both are given. -/
def agree {α : Type} (same : α → α → Bool) : Option α → Option α → Bool
  | some x, some y => same x y
  | _, _ => true

/-- The marks that two groups of notes on one stem have in common. -/
def sameMarks (a b : Group) : Bool :=
  a.headShape == b.headShape && a.beam == b.beam &&
    agree (· == ·) a.stemDir b.stemDir && agree (· == ·) a.stemLen b.stemLen &&
    agree (· == ·) a.beamSlope b.beamSlope &&
    a.slashAlt == b.slashAlt && a.offset.same b.offset && a.withList == b.withList

/-- A roll of the upper voice may run on into the lower one; no other rolls
print the same on one stem. -/
def rollsRunOn (upper lower : Group) : Bool :=
  match upper.roll, lower.roll with
  | .none, .none => true
  | .start, .stop | .start, .inner => upper.rollDir == lower.rollDir
  | _, _ => false

/-- Rolls are judged between voices 1 and 2 only. -/
def rollsAgree (a b : Group) : Bool :=
  if a.voice = 1 ∧ b.voice = 2 then rollsRunOn a b
  else if a.voice = 2 ∧ b.voice = 1 then rollsRunOn b a
  else true

/-- From top to bottom the voices stand 1, 3, 2. -/
def height (voice : Nat) : Nat := if voice = 1 then 0 else if voice = 3 then 1 else 2

/-- Two notes at one position that print the same. -/
def sameNote (x y : Note) : Bool :=
  x.accidental == y.accidental && x.small == y.small && x.tie == y.tie && x.slurTo == y.slurTo

/-- Every note of the upper group that has the position of one of the lower
prints the same as the first of these. -/
def unisonsMatch (upper lower : List Note) : Bool :=
  upper.all fun note => (lower.find? fun other => other.samePosition note).all (sameNote note)

/-- The pitches of the upper group keep as far above those of the lower as the
qualifier asks. -/
def keepsAbove (q : Qualifier) (upper lower : List Note) : Bool :=
  match (upper.map (·.step)).min?, (lower.map (·.step)).max? with
  | some low, some high =>
    match q with
    | .overlap => true
    | .shareOne => high ≤ low
    | .noOverlap => high < low
    | .restsOnly => false
  | _, _ => false

def pitchesAgree (q : Qualifier) (a b : Group) : Bool :=
  let (upper, lower) := if height a.voice ≤ height b.voice then (a, b) else (b, a)
  unisonsMatch upper.notes lower.notes && keepsAbove q upper.notes lower.notes

end Group

namespace Layout

/-- A tie arrives at a group from the one before it in the voice. -/
def tiesIn (s : Score) (l : Layout) (key : GroupKey) : Bool :=
  (l.prev? key).any fun prev => (s.groups.get prev).tiesOut

/-- Two groups can be combined, whatever stands before or after them. -/
def compatible (s : Score) (l : Layout) (q : Qualifier) (x y : GroupKey) : Bool :=
  let a := s.groups.get x
  let b := s.groups.get y
  a.sameTiming b && !a.crossesVoices && !b.crossesVoices &&
    (a.isSpace || b.isSpace ||
      (a.small == b.small &&
        match a.kind, b.kind with
        | .rest, .rest | .measureRepeat, .measureRepeat => true
        | .notes, .notes =>
          q != .restsOnly && a.sameMarks b && a.tiesOut == b.tiesOut &&
            tiesIn s l x == tiesIn s l y && a.rollsAgree b && a.pitchesAgree q b
        | _, _ => false))

/-- Grace notes can be combined, paired from their ends. -/
def gracesCompatible (s : Score) (l : Layout) (q : Qualifier) (xs ys : List GroupKey) : Bool :=
  (xs.reverse.zip ys.reverse).all fun (x, y) => compatible s l q x y

end Layout

/-- The grace notes written directly before a group, in time order. -/
def Score.graceRun (s : Score) (item staff voice : Nat) (key : GroupKey) :
    Except Fault (List GroupKey) := do
  let list ← s.voiceList item staff voice
  match list.idxOf? key with
  | none => throw (.inconsistent (s.groups.get key).measure (.groupMissing staff voice))
  | some place =>
    return ((list.take place).reverse.takeWhile fun k => (s.groups.get k).grace).reverse

/-- What was found about one candidate merge in a hand. -/
structure Verdict where
  merge : Merge
  compatible : Bool
  deriving Repr, DecidableEq

namespace Hand

/-- Judges a candidate merge, if the hand has a group of both voices. -/
def judge? (s : Score) (l : Layout) (h : Hand) (q : Qualifier) (m : Merge) :
    Except Fault (Option Verdict) :=
  match h.voice? m.dest, h.voice? m.src with
  | some x, some y => do
    if l.compatible s q x y then
      let xs ← s.graceRun h.item h.staff m.dest x
      let ys ← s.graceRun h.item h.staff m.src y
      return some { merge := m, compatible := l.gracesCompatible s q xs ys }
    else return some { merge := m, compatible := false }
  | _, _ => return none

/-- Judges every candidate merge of the request in force. -/
def judge (s : Score) (l : Layout) (h : Hand) : Except Fault (List Verdict) :=
  match h.request with
  | none => .ok []
  | some r => do
    let verdicts ← r.pairs.mapM (judge? s l h r.qualifier)
    return verdicts.filterMap id

end Hand

namespace Affinity

/-- The table that the verdicts on a hand make; a pair not judged cannot be
combined. -/
def ofVerdicts (verdicts : List Verdict) : Affinity :=
  verdicts.foldl (fun t v => t.set v.merge.dest v.merge.src v.compatible) {}

end Affinity

/-- The verdicts on every hand. -/
def Layout.judge (s : Score) (l : Layout) : Except Fault (List (List Verdict)) :=
  l.hands.mapM (Hand.judge s l)

end Divisi
