/-
Building the chords of a score.

The measures are taken in score order, each with the settings in force there:
its hidden voices are erased, and what its visible staffs hold then makes its
chords. Where a measure has no chords to make, building stops; the measures
before it keep theirs, and its own hidden voices stay erased.
-/
import Divisi.Erasure
import Divisi.Onset

namespace Divisi

namespace Chording

/-- The beats of a voice. -/
def voiceBeats (groups : Arena Group) (list : List GroupKey) : List Beat :=
  (list.filter fun key => !(groups.get key).grace).map fun key =>
    { member := .group key, duration := (groups.get key).duration }

/-- The beats of a verse. -/
def verseBeats (syllables : Arena Syllable) (list : List SyllableKey) : List Beat :=
  list.map fun key => { member := .syllable key, duration := (syllables.get key).duration }

/-- The streams of a stave: its voices in order, then its verses. -/
def staveStreams (groups : Arena Group) (syllables : Arena Syllable) (s : Stave) :
    List (List Beat) :=
  s.present.map (fun (_, list) => voiceBeats groups list) ++ s.verses.map (verseBeats syllables)

/-- The streams of a measure: those of its visible staffs, in order. -/
def streams (groups : Arena Group) (syllables : Arena Syllable) (f : InForce)
    (staves : List Stave) : List (List Beat) :=
  (staves.filter fun s => f.staffVisible s.staff).flatMap (staveStreams groups syllables)

/-- A score whose chords have been built, as far as that went. -/
structure Built (α : Type) where
  stock : Stock
  now : α
  events : List Event := []
  fault : Option Fault := none

/-- One measure: its hidden voices erased, and its chords if it has any to
make. -/
def measure (syllables : Arena Syllable) (packing : Float) (f : InForce) (stock : Stock)
    (m : Measure) : Built Measure :=
  let erased := Erasing.staves m.number f stock m.staves
  let m := { m with staves := erased.now }
  let beats := streams erased.stock.groups syllables f erased.now
  match Stream.chords packing f.time.duration beats with
  | .error breach =>
    { stock := erased.stock, now := m, events := erased.events
      fault := some (.inconsistent m.number breach) }
  | .ok chords =>
    { stock := erased.stock, now := { m with chords }
      events := erased.events ++ [.chordsBuilt m.number chords.length] }

/-- The items from some place on, with the settings `f` in force there. -/
def items (syllables : Arena Syllable) (packing : Float) :
    InForce → Stock → List Item → Built (List Item)
  | _, stock, [] => { stock, now := [] }
  | f, stock, .change c :: rest =>
    let others := items syllables packing (f.apply c) stock rest
    { others with now := .change c :: others.now }
  | f, stock, .measure m :: rest =>
    let first := measure syllables packing f stock m
    match first.fault with
    | some fault =>
      { stock := first.stock, now := .measure first.now :: rest, events := first.events
        fault := some fault }
    | none =>
      let others := items syllables packing f first.stock rest
      { others with
        now := .measure first.now :: others.now
        events := first.events ++ others.events }

end Chording

/-- Builds the chords of every measure, up to the first that has none to
make. -/
def Score.buildChords (s : Score) : Chording.Built Score :=
  let built := Chording.items s.syllables s.header.options.packing .start
    { groups := s.groups, tags := s.tags } s.items
  { stock := built.stock
    now := { s with items := built.now, groups := built.stock.groups, tags := built.stock.tags }
    events := built.events
    fault := built.fault }

end Divisi
