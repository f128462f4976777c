/-
Measures that add up.

Every voice and every verse that is present in a measure must last exactly as
long as the time signature in force there says, grace notes left out, and a
voice must hold something besides grace notes. The sums are exact, where they
can be formed at all.
-/
import Divisi.Score

namespace Divisi

namespace Score

/-- The groups of a list, in its order. -/
def groupsOf (s : Score) (list : List GroupKey) : List Group := list.map s.groups.get

/-- The groups of a list that take time. -/
def timed (s : Score) (list : List GroupKey) : List Group := (s.groupsOf list).filter (!·.grace)

/-- The spans of a voice, its grace notes left out. -/
def voiceSpans (s : Score) (list : List GroupKey) : List Time := (s.timed list).map (·.duration)

/-- The spans of a verse. -/
def verseSpans (s : Score) (list : List SyllableKey) : List Time :=
  list.map fun key => (s.syllables.get key).duration

end Score

namespace Validation

def length (part : Part) (spans : List Time) (expected : Time) : Except Shortfall Unit :=
  match Time.end? 0 spans with
  | none => .error (.overflow part)
  | some total => if total = expected then .ok () else .error (.length part total expected)

def voice (s : Score) (staff : Nat) (expected : Time) (voice : Nat × List GroupKey) :
    Except Shortfall Unit :=
  let part := Part.voice staff voice.1
  if s.timed voice.2 = [] then .error (.onlyGraces part)
  else length part (s.voiceSpans voice.2) expected

/-- Verses are counted from 1 among those that the measure keeps. -/
def verse (s : Score) (staff : Nat) (expected : Time) (verse : List SyllableKey × Nat) :
    Except Shortfall Unit :=
  length (.verse staff (verse.2 + 1)) (s.verseSpans verse.1) expected

def stave (s : Score) (expected : Time) (stave : Stave) : Except Shortfall Unit := do
  stave.present.forM (voice s stave.staff expected)
  stave.verses.zipIdx.forM (verse s stave.staff expected)

def measure (s : Score) (p : Placed) : Except Fault Unit :=
  (p.measure.staves.forM (stave s p.inForce.time.duration)).mapError (.unsound p.measure.number)

end Validation

/-- Checks that every measure adds up; the first that does not is the error. -/
def Score.validate (s : Score) : Except Fault Unit := s.placed.forM (Validation.measure s)

end Divisi
