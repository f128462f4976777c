/-
What can be wrong with a score, by cause.

A description may be unreadable, may hold a value that means nothing as
music, or may hold measures that do not add up. An inconsistency is a score
whose chords, voice lists and groups contradict one another. The wording of
each cause is in one place, `Fault.message`.
-/
import Divisi.Time

namespace Divisi

/-- The highest voice number of a staff. -/
def maxVoices : Nat := 3

/-- The most dots a written value may carry. -/
def maxDots : Nat := 8

/-- A readable description holds a value that means nothing as music. -/
inductive Flaw where
  | timeValue (text : String)
  | dots (text : String)
  | powerOfTwo (text : String)
  | pitch (text : String)
  | offset (text : String)
  | signature (text : String)
  | voice (number : Nat)
  | staff (number last : Nat)
  | noStaffs
  | requestLength (voices : Nat)
  | entryKind
  | voiceWithoutStaff
  | timeBelowScore
  | requestOfVoice
  | staffTwice (staff measure : Nat)
  | severalKinds (measure : Nat)
  | noNotes (measure staff voice : Nat)
  | strayNotes (measure : Nat)
  | tuplet (measure num : Nat)
  | tagTwice (name : String)
  deriving Repr, DecidableEq

namespace Flaw

def message : Flaw → String
  | timeValue text => s!"bad time value '{text}'"
  | dots text => s!"time value '{text}' has more than {maxDots} dots"
  | powerOfTwo text => s!"time value '{text}' is not a power of two up to 256"
  | pitch text => s!"bad pitch '{text}'"
  | offset text => s!"bad horizontal offset '{text}'"
  | signature text => s!"bad time signature '{text}'"
  | voice number => s!"voice {number} is outside 1..={maxVoices}"
  | staff number last => s!"staff {number} is outside 1..={last}"
  | noStaffs => "a score needs at least one staff"
  | requestLength voices => s!"vcombine names {voices} voices, at most {maxVoices} allowed"
  | entryKind => "each music entry must hold exactly one of 'params' or 'measure'"
  | voiceWithoutStaff => "voice parameters need a staff"
  | timeBelowScore => "time can only be set in score context"
  | requestOfVoice => "vcombine cannot be set in voice context"
  | staffTwice number measure => s!"staff {number} appears twice in measure {measure}"
  | severalKinds measure => s!"measure {measure}: a group is at most one of rest, space or mrpt"
  | noNotes measure onStaff inVoice =>
    s!"measure {measure}: staff {onStaff} voice {inVoice} has a group with no notes"
  | strayNotes measure => s!"measure {measure}: rests, spaces and measure repeats cannot hold notes"
  | tuplet measure num => s!"measure {measure}: tuplet of {num} notes"
  | tagTwice name => s!"tag '{name}' defined twice"

end Flaw

/-- A line of a measure that has to fill it. -/
inductive Part where
  | voice (staff voice : Nat)
  | verse (staff verse : Nat)
  deriving Repr, DecidableEq

namespace Part

def text : Part → String
  | voice staff number => s!"staff {staff} voice {number}"
  | verse staff number => s!"staff {staff} verse {number}"

end Part

/-- A measure does not hold what its time signature asks for. -/
inductive Shortfall where
  | onlyGraces (part : Part)
  | length (part : Part) (total expected : Time)
  /-- The length is more than can be added up; there is no going on from there. -/
  | overflow (part : Part)
  deriving Repr, DecidableEq

namespace Shortfall

def message : Shortfall → String
  | onlyGraces part => part.text ++ " has only grace notes"
  | length part total expected =>
    part.text ++ " lasts " ++ total.text ++ " of a whole note, time signature needs " ++
      expected.text
  | overflow part => part.text ++ ": arithmetic overflow"

end Shortfall

/-- Chords, voice lists and groups contradict one another. -/
inductive Breach where
  | onlyGraces
  | ranOut (at_ : Time)
  | endsAt (at_ length : Time)
  | noDuration (start : Time)
  /-- A time does not fit; there is no going on from there. -/
  | overflow
  | deadMember
  | strayVoice (voice : Nat)
  | voiceTwice (staff voice : Nat) (start : Time)
  | noList (staff voice : Nat)
  | groupMissing (staff voice : Nat)
  | lostAnchor
  | emptyVoice (staff voice : Nat)
  | notMeasure (item : Nat)
  deriving Repr, DecidableEq

namespace Breach

def message : Breach → String
  | onlyGraces => "a voice holds only grace notes"
  | ranOut at_ => "a voice ran out at " ++ at_.text ++ " before the measure ended"
  | endsAt at_ length => "a voice ends at " ++ at_.text ++ " but the measure lasts " ++ length.text
  | noDuration start => "chord at " ++ start.text ++ " has no duration"
  | overflow => "arithmetic overflow"
  | deadMember => "chord names a group that no longer exists"
  | strayVoice voice => s!"group in voice {voice}"
  | voiceTwice staff voice start =>
    s!"staff {staff} voice {voice} has two groups starting at " ++ start.text
  | noList staff voice => s!"hand names staff {staff} voice {voice}, which has no list"
  | groupMissing staff voice => s!"group missing from staff {staff} voice {voice}"
  | lostAnchor => "grace run lost its anchor"
  | emptyVoice staff voice => s!"planned merge names staff {staff} voice {voice}, which is empty"
  | notMeasure item => s!"score item {item} is not a measure"

end Breach

/-- Why an operation on a score failed. -/
inductive Fault where
  /-- The description could not be read. -/
  | unreadable
  | invalid (flaw : Flaw)
  | unsound (measure : Nat) (shortfall : Shortfall)
  | inconsistent (measure : Nat) (breach : Breach)
  deriving Repr, DecidableEq

namespace Fault

def message : Fault → String
  | unreadable => "Parse error"
  | invalid flaw => "Invalid score data: " ++ flaw.message
  | unsound measure shortfall => s!"Semantic error at measure {measure}: " ++ shortfall.message
  | inconsistent measure breach => s!"Internal error at measure {measure}: " ++ breach.message

end Fault

end Divisi
