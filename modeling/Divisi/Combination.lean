/-
Combining voices.

Wherever voices that a request names move together they become one printed
voice. A score with its chords built is laid out in hands; each hand is judged
on its own and then planned together with those it is linked to; and the
planned merges are carried out. The source of a merge gives its notes to the
destination and leaves a space in its own voice, and its grace notes go along:
paired from the ends they are merged in the same way, and those left over move
to the front of the destination's grace notes.
-/
import Divisi.Blend
import Divisi.Event
import Divisi.Plan

namespace Divisi

namespace Tag

/-- Where a tag points after `src` was blended into `dest`: a tag on a note
follows its note. -/
def relink (dest src : GroupKey) (b : Blend) (t : Tag) : Tag :=
  if t.group = dest then { t with note := t.note.map fun i => b.destSlots[i]?.getD i }
  else if t.group = src then { group := dest, note := t.note.bind fun i => b.srcSlots[i]? }
  else t

end Tag

namespace Score

/-- Blends `src` into `dest` and leaves a space where `src` was. -/
def foldInto (s : Score) (dest src : GroupKey) : Score :=
  let b := (s.groups.get dest).blend (s.groups.get src)
  { s with
    groups := (s.groups.set dest b.group).set src (s.groups.get src).toSpace
    tags := s.tags.map fun (name, tag) => (name, tag.relink dest src b) }

/-- Folds each second group into the first, one pair after the other. -/
def foldPairs (s : Score) (pairs : List (GroupKey × GroupKey)) : Score :=
  pairs.foldl (fun s (dest, src) => s.foldInto dest src) s

end Score

namespace Merging

/-- The beam marks of a run of `count` groups under one beam. -/
def beamAt (count index : Nat) : Span :=
  if index = 0 then .start else if index + 1 = count then .stop else .inner

/-- Draws one beam over a run of at least two groups. -/
def rebeam (groups : Arena Group) (run : List GroupKey) : Arena Group :=
  if run.length < 2 then groups
  else run.zipIdx.foldl (fun groups (key, index) =>
    groups.modify key fun g => { g with beam := beamAt run.length index }) groups

/-- Puts keys in front of the first `anchor` of a list. -/
def insertBefore (anchor : GroupKey) (keys list : List GroupKey) : Option (List GroupKey) :=
  (list.idxOf? anchor).map fun place => list.take place ++ keys ++ list.drop place

/-- Moves grace notes from the source voice to the front of the destination's
run. If that run has a beam it is drawn anew over all of them. -/
def moveGraces (s : Score) (h : Hand) (m : Merge) (dest : GroupKey) (moved run : List GroupKey) :
    Except Fault Score := do
  let groups := moved.foldl (fun groups key =>
    groups.modify key fun g => { g with voice := m.dest }) s.groups
  let s := { s with groups }
  let list ← s.voiceList h.item h.staff m.src
  let s := s.setVoiceList h.item h.staff m.src (list.filter fun key => !moved.contains key)
  let list ← s.voiceList h.item h.staff m.dest
  match insertBefore (run.head?.getD dest) moved list with
  | none => throw (.inconsistent (s.groups.get dest).measure .lostAnchor)
  | some list =>
    let s := s.setVoiceList h.item h.staff m.dest list
    if run.any fun key => (s.groups.get key).beam != .none then
      return { s with groups := rebeam s.groups (moved ++ run) }
    else return s

/-- Merges the grace notes before two groups. -/
def graces (s : Score) (h : Hand) (m : Merge) (dest src : GroupKey) : Except Fault Score := do
  let theirs ← s.graceRun h.item h.staff m.src src
  if theirs.isEmpty then return s
  let ours ← s.graceRun h.item h.staff m.dest dest
  let s := s.foldPairs (ours.reverse.zip theirs.reverse)
  let moved := theirs.take (theirs.length - ours.length)
  if moved.isEmpty then return s
  moveGraces s h m dest moved ours

/-- Carries out one merge of a hand. -/
def merge (h : Hand) (s : Score) (m : Merge) : Except Fault Score :=
  match h.voice? m.dest, h.voice? m.src with
  | none, _ => .error (.inconsistent h.measure (.emptyVoice h.staff m.dest))
  | _, none => .error (.inconsistent h.measure (.emptyVoice h.staff m.src))
  | some dest, some src => do return (← graces s h m dest src).foldInto dest src

/-- A score in the course of its merges, and how many have been made. -/
structure Progress where
  score : Score
  merges : Nat := 0

/-- Carries out one merge of a hand and counts it. -/
def make (h : Hand) (p : Progress) (m : Merge) : Except Fault Progress := do
  return { score := ← merge h p.score m, merges := p.merges + 1 }

/-- Carries out the plans of all hands, in order. -/
def perform (s : Score) (l : Layout) (plans : List Plan) : Except Fault Progress :=
  (l.hands.zip plans).foldlM (fun p (h, plan) => plan.foldlM (make h) p) { score := s }

end Merging

/-- A score with its voices combined, and how that came about. -/
structure Combination where
  layout : Layout
  verdicts : List (List Verdict)
  planned : Planned
  score : Score
  /-- How many merges were made. -/
  merges : Nat

namespace Combination

def verdictEvents (c : Combination) : List Event :=
  (c.layout.hands.zip c.verdicts).flatMap fun (h, verdicts) => verdicts.map fun v =>
    .pairTested h.measure h.chord h.staff v.merge.dest v.merge.src v.compatible

def planEvents (c : Combination) : List Event :=
  ((c.layout.hands.zip c.planned.choices).flatMap fun (h, choice) => choice.declined.map fun m =>
    .pairDeclined h.measure h.staff m.dest m.src) ++
  c.planned.settled.withdrawn.map fun (h, m) =>
    .mergeWithdrawn ((c.layout.hands[h]?.map (·.staff)).getD 0) m.dest m.src

def mergeEvents (c : Combination) : List Event :=
  (c.layout.hands.zip c.planned.plans).flatMap fun (h, plan) => plan.map fun m =>
    .mergeMade h.measure h.chord h.staff m.dest m.src

/-- What the combination has to tell, in the order in which it happened. -/
def events (c : Combination) : List Event :=
  c.verdictEvents ++ c.planEvents ++ c.mergeEvents ++
    [.handsCombined (c.planned.plans.countP (!·.isEmpty)) c.layout.hands.length]

end Combination

/-- Combines voices throughout a score whose chords have been built. -/
def Score.combineVoices (s : Score) : Except Fault Combination := do
  let layout ← Layout.of s
  let verdicts ← layout.judge s
  let planned := layout.plan s (verdicts.map Affinity.ofVerdicts)
  let { score, merges } ← Merging.perform s layout planned.plans
  return { layout, verdicts, planned, score, merges }

end Divisi
