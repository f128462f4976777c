/-
Reports: the chords of every measure and the printed form of every voice.

A member of a chord is named by its place, `s1v2` for a group of staff 1,
voice 2, and `s1l1` for a syllable of its first verse.
-/
import Divisi.Score
import Divisi.Yaml.Printer

namespace Divisi

namespace Report

structure Chord where
  start : Time
  duration : Time
  /-- The chord's weight, rounded to four decimals. -/
  weight : Float
  members : List String

structure Stave where
  staff : Nat
  voices : List (Nat × List String)
  verses : List (List String)

structure Measure where
  number : Nat
  chords : List Chord
  staves : List Stave

end Report

structure Report where
  title : Option String
  composer : Option String
  measures : List Report.Measure

namespace Report

/-- The nearest multiple of a ten-thousandth, ties away from zero. -/
def rounded (x : Float) : Float := (x * 10000).round / 10000

def memberName (s : Score) : Member → String
  | .group key =>
    let group := s.groups.get key
    s!"s{group.staff}v{group.voice}"
  | .syllable key =>
    let syllable := s.syllables.get key
    s!"s{syllable.staff}l{syllable.verse}"

def chord (s : Score) (c : Divisi.Chord) : Chord :=
  { start := c.start, duration := c.duration, weight := rounded c.weight
    members := c.members.map (memberName s) }

def stave (s : Score) (stave : Divisi.Stave) : Stave :=
  { staff := stave.staff
    voices := stave.present.map fun (voice, list) =>
      (voice, list.map fun key => (s.groups.get key).describe)
    verses := stave.verses.map fun verse => verse.map fun key => (s.syllables.get key).text }

def measure (s : Score) (m : Divisi.Measure) : Measure :=
  { number := m.number, chords := m.chords.map (chord s), staves := m.staves.map (stave s) }

/-- The report of a score. -/
def ofScore (s : Score) : Report :=
  { title := s.header.title, composer := s.header.composer
    measures := s.measures.map (measure s) }

/-! ## As a document -/

open Yaml (Node)

def texts (xs : List String) : Node := .list (xs.map .quoted)

def Chord.node (c : Chord) : Node :=
  .record [("start", .quoted c.start.text), ("duration", .quoted c.duration.text),
    ("pseudo-duration", .real c.weight), ("members", texts c.members)]

/-- Verses are left out where there are none. -/
def Stave.node (s : Stave) : Node :=
  .record ([("staff", .natural s.staff),
    ("voices", .map (s.voices.map fun (voice, printed) =>
      ({ text := s!"{voice}", plain := true }, texts printed)))] ++
    (if s.verses.isEmpty then [] else [("verses", .list (s.verses.map texts))]))

def Measure.node (m : Measure) : Node :=
  .record [("number", .natural m.number), ("chords", .list (m.chords.map Chord.node)),
    ("staffs", .list (m.staves.map Stave.node))]

/-- Title and composer are left out where there are none. -/
def node (r : Report) : Node :=
  .record ((r.title.map fun title => ("title", Node.quoted title)).toList ++
    (r.composer.map fun composer => ("composer", Node.quoted composer)).toList ++
    [("measures", .list (r.measures.map Measure.node))])

/-- The report as a YAML document. -/
def text (r : Report) : String := r.node.document

end Report

end Divisi
