/-
Places: where a group or a syllable is listed.

A place is the index in a voice list, grace notes counted, or in a verse. It
is written `s1v2#0` for the first group of voice 2 on staff 1, and `s1l1#0`
for the first syllable of the first verse that the staff keeps.
-/
import Divisi.Score

namespace Divisi

inductive Place where
  | voice (staff voice index : Nat)
  | verse (staff verse index : Nat)
  deriving Repr, DecidableEq

namespace Place

def text : Place → String
  | voice staff number index => s!"s{staff}v{number}#{index}"
  | verse staff number index => s!"s{staff}l{number}#{index}"

end Place

namespace Stave

/-- The first voice that lists a group. -/
def placeOfGroup? (s : Stave) (key : GroupKey) : Option Place :=
  s.present.findSome? fun (voice, list) => (list.idxOf? key).map (.voice s.staff voice)

/-- The first verse that lists a syllable. -/
def placeOfSyllable? (s : Stave) (key : SyllableKey) : Option Place :=
  s.verses.zipIdx.findSome? fun (list, verse) =>
    (list.idxOf? key).map (.verse s.staff (verse + 1))

end Stave

namespace Measure

/-- Where a member of a chord is listed in the measure. -/
def placeOf? (m : Measure) : Member → Option Place
  | .group key => m.staves.findSome? (·.placeOfGroup? key)
  | .syllable key => m.staves.findSome? (·.placeOfSyllable? key)

end Measure

namespace Score

/-- The measure that lists a group, by its number, and where. -/
def placeOf? (s : Score) (key : GroupKey) : Option (Nat × Place) :=
  s.measures.findSome? fun m => (m.placeOf? (.group key)).map fun place => (m.number, place)

end Score

end Divisi
