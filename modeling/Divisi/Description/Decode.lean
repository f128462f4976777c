/-
Descriptions read from YAML trees.

Every field has a decoder, which answers nothing where the node is of the
wrong shape; one such node makes the whole tree unreadable. A field that the
schema does not know, or that is given twice, is of the wrong shape too. Where
nothing is written in place of a list or a map, the list or map is empty.

The fields of a note head are read more strictly, since a head is told from a
bare pitch by its shape: text must be text there, not a number that could be
taken as text. A number is there what it stands for, however it is signed.
-/
import Divisi.Description
import Divisi.Yaml.Plain

namespace Divisi.Description

namespace Decode

open Divisi.Yaml

/-! ## Values -/

/-- Reads a node as a value of type `α`. -/
abbrev Decoder (α : Type) := Node → Option α

/-- Any scalar is its own text. -/
def text : Decoder String
  | .scalar s => some s.text
  | _ => none

/-- A scalar that cannot be taken for anything but text. -/
def strictText : Decoder String
  | .scalar s => if !s.plain || Plain.isText s.text then some s.text else none
  | _ => none

/-- A plain scalar, by what it stands for. -/
def plain {α : Type} (read : String → Option α) : Decoder α
  | .scalar s => if s.plain then read s.text else none
  | _ => none

def flag : Decoder Bool := plain Plain.bool?

def natural (bound : Nat) : Decoder Nat := plain (Plain.natural? bound)

/-- Voice numbers, and the other numbers that take one byte. -/
def byte : Decoder Nat := natural 256

/-- The same in a note head, where a zero may carry a minus sign. -/
def headByte : Decoder Nat :=
  plain fun s => ((Plain.integer? s).bind Int.toNat?).filter (· < 256)

/-- Staff numbers. -/
def word : Decoder Nat := natural (Nat.pow 2 64)

/-- A signed number that takes one byte. -/
def signedByte : Decoder Int :=
  plain fun s => (Plain.integer? s).filter fun n => -128 ≤ n && n ≤ 127

def real : Decoder Float := plain Plain.real?

/-- One of the names of an enumeration. -/
def choice {α : Type} (names : List (String × α)) : Decoder α
  | .scalar s => names.lookup s.text
  | _ => none

/-- A value, or null for none. -/
def optional {α : Type} (decode : Decoder α) : Decoder (Option α)
  | .scalar s => if s.plain && Plain.isNull s.text then some none else (decode (.scalar s)).map some
  | node => (decode node).map some

/-- The node is what stands where nothing is written. -/
def isEmpty : Node → Bool
  | .scalar s => s.plain && s.text.isEmpty
  | _ => false

def list {α : Type} (decode : Decoder α) : Decoder (List α)
  | .list items => items.mapM decode
  | node => if isEmpty node then some [] else none

def strictList {α : Type} (decode : Decoder α) : Decoder (List α)
  | .list items => items.mapM decode
  | _ => none

/-! ## Fields -/

/-- The fields of a map, by name. -/
abbrev Fields := List (String × Node)

/-- The value of a field, or its default where the field is missing. -/
def Fields.get {α : Type} (fields : Fields) (name : String) (decode : Decoder α) (default : α) :
    Option α :=
  match fields.lookup name with
  | none => some default
  | some node => decode node

/-- The value of a field that must be given. -/
def Fields.require {α : Type} (fields : Fields) (name : String) (decode : Decoder α) : Option α :=
  (fields.lookup name).bind decode

/-- The entries of a map. -/
def entries : Decoder (List (Scalar × Node))
  | .map es => some es
  | node => if isEmpty node then some [] else none

/-- The fields of a map of which some names are known and others ignored. No
known name may come twice. -/
def openFields (known : List String) : Decoder Fields := fun node => do
  let fields := ((← entries node).map fun (key, value) => (key.text, value)).filter
    fun (name, _) => name ∈ known
  if (fields.map Prod.fst).Nodup then return fields else none

/-- The fields of a map that may hold the known names only, each once. -/
def closedFields (known : List String) : Decoder Fields := fun node => do
  let fields := (← entries node).map fun (key, value) => (key.text, value)
  if (fields.map Prod.fst).Nodup ∧ fields.all (fun (name, _) => name ∈ known) then return fields
  else none

/-! ## Enumerations -/

def span : Decoder Span :=
  choice [("none", .none), ("lone", .lone), ("start", .start), ("inner", .inner), ("end", .stop)]

def side : Decoder Side := choice [("default", .default), ("above", .above), ("below", .below)]

def reach : Decoder Reach := choice [("none", .none), ("above", .above), ("below", .below)]

def direction : Decoder Direction := choice [("up", .up), ("down", .down)]

def tupletPrint : Decoder TupletPrint :=
  choice [("default", .default), ("neither", .neither), ("number", .number), ("both", .both)]

def qualifier : Decoder Qualifier :=
  choice [("nooverlap", .noOverlap), ("shareone", .shareOne), ("one-step-apart", .shareOne),
    ("overlap", .overlap), ("restsonly", .restsOnly)]

/-! ## The parts of a description -/

def request : Decoder Request := fun node => do
  let fields ← openFields ["voices", "qualifier", "bymeas"] node
  return {
    voices := ← fields.get "voices" (list byte) []
    qualifier := ← fields.get "qualifier" qualifier .noOverlap
    byMeasure := ← fields.get "bymeas" flag false }

/-- The fields of a note head, in their order. -/
def headFields : List String :=
  ["pitch", "tie", "slur", "paren", "acc-paren", "small", "tie-to-voice", "slur-to-voice",
    "tied-from-other", "slurred-from-other", "tag"]

/-- The name of a head's field, which may also be given by its position. -/
def headField (key : Scalar) : Option String :=
  match if key.plain then Plain.natural? headFields.length key.text else none with
  | some position => headFields[position]?
  | none => (strictText (.scalar key)).filter (· ∈ headFields)

/-- The fields of a head that is given in full, by name or in order. -/
def fullHead : Decoder Fields
  | .map es => do
    let fields ← es.mapM fun (key, value) => (headField key).map fun name => (name, value)
    if (fields.map Prod.fst).Nodup then return fields else none
  | .list values => if values.length ≤ headFields.length then some (headFields.zip values) else none
  | .scalar _ => none

def head : Decoder Head
  | .scalar s => (strictText (.scalar s)).map fun pitch => { pitch }
  | node => do
    let fields ← fullHead node
    return {
      pitch := ← fields.get "pitch" strictText ""
      tie := ← fields.get "tie" flag false
      slur := ← fields.get "slur" (strictList strictText) []
      paren := ← fields.get "paren" flag false
      accParen := ← fields.get "acc-paren" flag false
      small := ← fields.get "small" flag false
      tieToVoice := ← fields.get "tie-to-voice" (optional headByte) none
      slurToVoice := ← fields.get "slur-to-voice" (optional headByte) none
      tiedFromOther := ← fields.get "tied-from-other" flag false
      slurredFromOther := ← fields.get "slurred-from-other" flag false
      tag := ← fields.get "tag" (optional strictText) none }

def tuplet : Decoder Tuplet := fun node => do
  let fields ← closedFields ["loc", "num", "in-time-of", "side", "print"] node
  return {
    loc := ← fields.get "loc" span .none
    num := ← fields.require "num" byte
    inTimeOf := ← fields.get "in-time-of" (optional byte) none
    side := ← fields.get "side" side .default
    print := ← fields.get "print" tupletPrint .default }

def groupFields : List String :=
  ["time", "notes", "rest", "space", "mrpt", "grace", "beam", "break-beam", "beam-to", "stem-to",
    "beam-slope", "stem-len", "stem-dir", "head-shape", "tuplet", "slash-alt", "ho", "with",
    "roll", "roll-dir", "small", "tag"]

def group : Decoder Group := fun node => do
  let fields ← closedFields groupFields node
  return {
    time := ← fields.get "time" text ""
    notes := ← fields.get "notes" (list head) []
    rest := ← fields.get "rest" flag false
    space := ← fields.get "space" flag false
    measureRepeat := ← fields.get "mrpt" flag false
    grace := ← fields.get "grace" flag false
    beam := ← fields.get "beam" span .none
    breakBeam := ← fields.get "break-beam" flag false
    beamTo := ← fields.get "beam-to" reach .none
    stemTo := ← fields.get "stem-to" reach .none
    beamSlope := ← fields.get "beam-slope" (optional real) none
    stemLen := ← fields.get "stem-len" (optional real) none
    stemDir := ← fields.get "stem-dir" (optional direction) none
    headShape := ← fields.get "head-shape" (optional text) none
    tuplet := ← fields.get "tuplet" (optional tuplet) none
    slashAlt := ← fields.get "slash-alt" signedByte 0
    offset := ← fields.get "ho" (optional text) none
    withList := ← fields.get "with" (list text) []
    roll := ← fields.get "roll" span .none
    rollDir := ← fields.get "roll-dir" (optional direction) none
    small := ← fields.get "small" flag false
    tag := ← fields.get "tag" (optional text) none }

def syllable : Decoder Syllable := fun node => do
  let fields ← closedFields ["time", "text"] node
  return { time := ← fields.get "time" text "", text := ← fields.get "text" text "" }

/-- Puts a voice in its place; a voice given again replaces the first. -/
def insertVoice (voice : Nat) (groups : List Group) :
    List (Nat × List Group) → List (Nat × List Group)
  | [] => [(voice, groups)]
  | (other, old) :: rest =>
    if voice < other then (voice, groups) :: (other, old) :: rest
    else if voice = other then (voice, groups) :: rest
    else (other, old) :: insertVoice voice groups rest

def voices : Decoder (List (Nat × List Group)) := fun node => do
  let given ← (← entries node).mapM fun (key, value) => do
    return (← byte (.scalar key), ← list group value)
  return given.foldl (fun sorted (voice, groups) => insertVoice voice groups sorted) []

def stave : Decoder Stave := fun node => do
  let fields ← closedFields ["staff", "voices", "verses"] node
  return {
    staff := ← fields.get "staff" word 1
    voices := ← fields.get "voices" voices []
    verses := ← fields.get "verses" (list (list syllable)) [] }

def change : Decoder Change := fun node => do
  let fields ← closedFields ["staff", "voice", "time", "visible", "vcombine"] node
  return {
    staff := ← fields.get "staff" (optional word) none
    voice := ← fields.get "voice" (optional byte) none
    time := ← fields.get "time" (optional text) none
    visible := ← fields.get "visible" (optional flag) none
    request := ← fields.get "vcombine" (optional request) none }

def entry : Decoder Entry := fun node => do
  let fields ← closedFields ["params", "measure"] node
  return {
    change := ← fields.get "params" (optional change) none
    measure := ← fields.get "measure" (optional (list stave)) none }

def descriptionFields : List String :=
  ["title", "composer", "time", "packexp", "staffs", "visible", "vcombine", "music"]

def description : Decoder Description := fun node => do
  let fields ← closedFields descriptionFields node
  return {
    title := ← fields.get "title" (optional text) none
    composer := ← fields.get "composer" (optional text) none
    time := ← fields.get "time" (optional text) none
    packing := ← fields.get "packexp" (optional real) none
    staffs := ← fields.get "staffs" (optional word) none
    visible := ← fields.get "visible" (optional flag) none
    request := ← fields.get "vcombine" (optional request) none
    music := ← fields.get "music" (list entry) [] }

end Decode

/-- The description that a tree holds, if every part has the right shape. -/
def ofNode? (node : Yaml.Node) : Option Description := Decode.description node

end Divisi.Description
