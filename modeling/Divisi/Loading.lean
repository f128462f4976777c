/-
Scores loaded from descriptions.

Loading checks every value in the order in which it was written, and stops at
the first flaw. It keeps the settings in force as it goes, since a group that
fills its measure takes its length from the time signature in force there.
Groups and tags are added to the score one after the other, so a tag that is
already taken is found when its second use is loaded.
-/
import Divisi.Description
import Divisi.Decimal.Reading
import Divisi.Score
import Divisi.WrittenTime

namespace Divisi

/-- Carries a state along a list, stopping at the first error. -/
def mapCarrying {σ α β ε : Type} (f : σ → α → Except ε (σ × β)) :
    σ → List α → Except ε (σ × List β)
  | s, [] => .ok (s, [])
  | s, x :: xs => do
    let (s, y) ← f s x
    let (s, ys) ← mapCarrying f s xs
    return (s, y :: ys)

namespace Loading

/-! ## Single values -/

def voice (number : Nat) : Except Flaw Nat :=
  if 1 ≤ number ∧ number ≤ maxVoices then .ok number else .error (.voice number)

/-- A staff of a score that has `last` staffs. -/
def staff (last number : Nat) : Except Flaw Nat :=
  if 1 ≤ number ∧ number ≤ last then .ok number else .error (.staff number last)

def signature (text : String) : Except Flaw Signature :=
  match Signature.parse? text with
  | some s => .ok s
  | none => .error (.signature text)

def pitch (text : String) : Except Flaw Pitch :=
  match Pitch.parse? text with
  | some p => .ok p
  | none => .error (.pitch text)

def offset (text : String) : Except Flaw Offset :=
  match Text.trim text.toList with
  | [] => .ok .none
  | ['-'] => .ok .left
  | ['+'] => .ok .right
  | cs =>
    match Decimal.read? cs with
    | some amount => .ok (.value amount)
    | none => .error (.offset (String.ofList cs))

/-- Checks what an optional field holds. -/
def given {α β : Type} (check : α → Except Flaw β) : Option α → Except Flaw (Option β)
  | none => .ok none
  | some x => (check x).map some

/-- A request may name no more voices than a staff has. -/
def request (r : Request) : Except Flaw Request := do
  if r.voices.length > maxVoices then throw (.requestLength r.voices.length)
  discard <| r.voices.mapM voice
  return r

/-! ## Changes -/

def scope (last : Nat) : Option Nat → Option Nat → Except Flaw Scope
  | none, none => .ok .score
  | some s, none => do return .staff (← staff last s)
  | some s, some v => do return .voice (← staff last s) (← voice v)
  | none, some _ => .error .voiceWithoutStaff

def change (last : Nat) (d : Description.Change) : Except Flaw Change := do
  let scope ← scope last d.staff d.voice
  if d.time.isSome ∧ scope ≠ .score then throw .timeBelowScore
  match scope with
  | .voice .. => if d.request.isSome then throw .requestOfVoice
  | _ => pure ()
  let request ← given request d.request
  let time ← given signature d.time
  return { scope, settings := { time, visible := d.visible, request } }

/-! ## Groups -/

/-- The time that a tuplet of `num` notes takes where none is given: 3 in 2,
2 in 3, 4 in 3, and 5 or more in 4. -/
def conventionalTime (num : Nat) : Nat :=
  if num ≤ 1 then 1 else if num = 2 then 3 else if num ≤ 4 then num - 1 else 4

def tuplet (measure : Nat) (d : Description.Tuplet) : Except Flaw Tuplet :=
  if d.num < 2 then .error (.tuplet measure d.num)
  else .ok { loc := d.loc, num := d.num, inTimeOf := d.inTimeOf.getD (conventionalTime d.num),
             side := d.side, print := d.print }

/-- The length of a written value inside a tuplet, if there is one. -/
def duration (time : Signature) (tuplet : Option Tuplet) : WrittenTime → Time
  | .wholeMeasure => time.duration
  | .note value dots =>
    match tuplet with
    | none => noteValue value dots
    | some t => noteValue value dots * ((t.inTimeOf : Time) / (t.num : Time))

def slurTarget (toVoice : Option Nat) (text : String) : Except Flaw SlurTarget := do
  let target ← pitch text
  let toVoice ← given voice toVoice
  return { letter := target.letter, octave := target.octave, toVoice }

/-- A note with the tag it carries. -/
def note (d : Description.Head) : Except Flaw (Note × Option String) := do
  let p ← pitch d.pitch
  discard <| given voice d.tieToVoice
  let slurTo ← d.slur.mapM (slurTarget d.slurToVoice)
  return ({ toPitch := p, small := d.small, paren := d.paren, accParen := d.accParen,
            tie := d.tie || d.tieToVoice.isSome, tiedToVoice := d.tieToVoice,
            tiedFromOther := d.tiedFromOther, slurTo, slurredFromOther := d.slurredFromOther },
    d.tag)

/-- What a group is marked to print. -/
def marked (measure : Nat) (d : Description.Group) : Except Flaw Kind :=
  match d.rest, d.space, d.measureRepeat with
  | false, false, false => .ok .notes
  | true, false, false => .ok .rest
  | false, true, false => .ok .space
  | false, false, true => .ok .measureRepeat
  | _, _, _ => .error (.severalKinds measure)

/-- What a group prints. It is written with notes if it prints notes, and only then. -/
def kind (measure staff voice : Nat) (d : Description.Group) : Except Flaw Kind := do
  let kind ← marked measure d
  if kind = .notes ∧ d.notes = [] then throw (.noNotes measure staff voice)
  else if kind ≠ .notes ∧ d.notes ≠ [] then throw (.strayNotes measure)
  else return kind

/-- A group, and the tags of its notes by their index in it. -/
def group (time : Signature) (measure staff voice : Nat) (d : Description.Group) :
    Except Flaw (Group × List (Option String)) := do
  let kind ← kind measure staff voice d
  let tuplet ← given (tuplet measure) d.tuplet
  let written ← WrittenTime.parse d.time
  let heads ← d.notes.mapM note
  let heads := heads.mergeSort fun x y => Note.highestFirst x.1 y.1
  let offset ← given offset d.offset
  let (value, dots) := match written with
    | .wholeMeasure => (1, 0)
    | .note value dots => (value, dots)
  return ({ staff, voice, measure, value, dots
            duration := if d.grace then 0 else duration time tuplet written
            grace := d.grace, wholeMeasure := written == .wholeMeasure
            kind, notes := heads.map Prod.fst
            small := d.small, headShape := d.headShape, beam := d.beam
            breakBeam := d.breakBeam, beamTo := d.beamTo, stemTo := d.stemTo
            beamSlope := d.beamSlope, stemLen := d.stemLen, stemDir := d.stemDir
            tuplet, slashAlt := d.slashAlt, offset := offset.getD .none
            withList := d.withList, roll := d.roll, rollDir := d.rollDir },
    heads.map Prod.snd)

/-! ## Growing a score -/

def addTag (s : Score) (name : String) (tag : Tag) : Except Flaw Score :=
  if (s.tags.find? name).isSome then .error (.tagTwice name)
  else .ok { s with tags := s.tags.insert name tag }

/-- Adds a tag where one is given. -/
def addTag? (s : Score) (name : Option String) (tag : Tag) : Except Flaw Score :=
  match name with
  | none => .ok s
  | some name => addTag s name tag

/-- Adds a group with its own tag and the tags of its notes. -/
def addGroup (time : Signature) (measure staff voice : Nat) (s : Score) (d : Description.Group) :
    Except Flaw (Score × GroupKey) := do
  let (group, noteTags) ← group time measure staff voice d
  let key := s.groups.fresh
  let s := { s with groups := s.groups.insert group }
  let s ← addTag? s d.tag { group := key }
  let s ← noteTags.zipIdx.foldlM (fun s (name, index) =>
    addTag? s name { group := key, note := some index }) s
  return (s, key)

def addSyllable (time : Signature) (measure staff verse : Nat) (s : Score)
    (d : Description.Syllable) : Except Flaw (Score × SyllableKey) := do
  let written ← WrittenTime.parse d.time
  let syllable : Syllable :=
    { staff, verse, measure, duration := duration time none written, text := d.text }
  return ({ s with syllables := s.syllables.insert syllable }, s.syllables.fresh)

/-- Loads the list of a voice; an empty list leaves the voice absent. -/
def addVoice (time : Signature) (measure staff : Nat) (s : Score) (stave : Stave)
    (number : Nat) (groups : List Description.Group) : Except Flaw (Score × Stave) := do
  let number ← voice number
  if groups.isEmpty then return (s, stave)
  let (s, list) ← mapCarrying (addGroup time measure staff number) s groups
  return (s, stave.setList number (some list))

/-- Loads one staff of a measure. Verses are numbered as they are written,
the empty ones included, but only the others are kept. -/
def addStave (time : Signature) (measure staff : Nat) (s : Score) (d : Description.Stave) :
    Except Flaw (Score × Stave) := do
  let (s, stave) ← d.voices.foldlM (fun (s, stave) (number, groups) =>
    addVoice time measure staff s stave number groups) (s, { staff })
  let (s, verses) ← mapCarrying (fun s (syllables, index) =>
    mapCarrying (addSyllable time measure staff (index + 1)) s syllables) s d.verses.zipIdx
  return (s, { stave with verses := verses.filter fun verse => !verse.isEmpty })

/-- Puts a stave in its place among those of a measure. -/
def insertStave (stave : Stave) : List Stave → List Stave
  | [] => [stave]
  | other :: rest =>
    if stave.staff < other.staff then stave :: other :: rest else other :: insertStave stave rest

/-- Loads a measure; its staffs may be written in any order, each once. -/
def addMeasure (time : Signature) (number : Nat) (s : Score) (d : List Description.Stave) :
    Except Flaw (Score × Measure) :=
  d.foldlM (fun ((s, m) : Score × Measure) stave => do
    let staff ← staff s.header.staffs stave.staff
    if (m.stave? staff).isSome then throw (.staffTwice staff number)
    let (s, stave) ← addStave time number staff s stave
    return (s, { m with staves := insertStave stave m.staves })) (s, { number })

/-- A score half loaded: the settings in force at its end, and how many
measures it has. -/
structure Progress where
  score : Score
  inForce : InForce := .start
  measures : Nat := 0

def addChange (p : Progress) (c : Change) : Progress :=
  { p with
    score := { p.score with items := p.score.items ++ [.change c] }
    inForce := p.inForce.apply c }

def addEntry (p : Progress) (d : Description.Entry) : Except Flaw Progress :=
  match d.change, d.measure with
  | some c, none => do return addChange p (← change p.score.header.staffs c)
  | none, some staves => do
    let number := p.measures + 1
    let (score, m) ← addMeasure p.inForce.time number p.score staves
    let score := { score with items := score.items ++ [.measure m] }
    return { p with score, measures := number }
  | _, _ => throw .entryKind

def header (d : Description) : Header :=
  { title := d.title
    composer := d.composer
    staffs := d.staffs.getD 1
    options := { packing := d.packing.getD Time.defaultPacking } }

/-- The settings at the head of a description, as the first change. -/
def opening (d : Description) : Except Flaw Change := do
  let request ← given request d.request
  let time ← given signature d.time
  return { scope := .score, settings := { time, visible := d.visible, request } }

end Loading

/-- Loads a description. The settings at its head become the first item. -/
def Score.load (d : Description) : Except Flaw Score := do
  let header := Loading.header d
  if header.staffs = 0 then throw .noStaffs
  let p := Loading.addChange { score := { header } } (← Loading.opening d)
  return (← d.music.foldlM Loading.addEntry p).score

end Divisi
