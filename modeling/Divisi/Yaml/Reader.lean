/-
Documents read as trees.

The tokens are taken one by one over the collections that are open, the
innermost first. A token opens a collection, tells where its next part begins,
or closes it; what is closed goes into the collection around it. Where a value
is due and none is written, it is empty.
-/
import Divisi.Yaml.Token

namespace Divisi.Yaml

/-- What a flow collection expects next. -/
inductive Slot where
  /-- An entry, or its end. -/
  | ready
  /-- The value of a key. -/
  | due (key : Scalar)
  /-- A comma, or its end. -/
  | filled
  deriving Repr, DecidableEq

/-- A collection that is open, its parts so far in reverse, and what is due. -/
inductive Frame where
  /-- A block map, and the key whose value is due. -/
  | blockMap (entries : List (Scalar × Node)) (due : Option Scalar)
  /-- A block list, and whether an item is due. -/
  | blockList (items : List Node) (due : Bool)
  /-- A block list that is the value of a key and as far left as the key. -/
  | levelList (items : List Node) (due : Bool)
  | flowMap (entries : List (Scalar × Node)) (slot : Slot)
  | flowList (items : List Node) (slot : Slot)
  /-- The document, of which nothing has been read yet. -/
  | document
  /-- The document with its tree. -/
  | complete (root : Node)

namespace Frame

/-- Puts a node where one is expected. -/
def put (node : Node) : Frame → Option Frame
  | blockMap entries (some key) => some (blockMap ((key, node) :: entries) none)
  | blockList items true => some (blockList (node :: items) false)
  | levelList items true => some (levelList (node :: items) false)
  | flowMap entries (.due key) => some (flowMap ((key, node) :: entries) .filled)
  | flowMap entries .ready =>
    match node with
    | .scalar key => some (flowMap ((key, .empty) :: entries) .filled)
    | _ => none
  | flowList items (.due key) => some (flowList (.map [(key, node)] :: items) .filled)
  | flowList items .ready => some (flowList (node :: items) .filled)
  | document => some (complete node)
  | _ => none

/-- Nothing is written where a node is due: an empty node is put there. -/
def settle : Frame → Frame
  | blockMap entries (some key) => blockMap ((key, .empty) :: entries) none
  | blockList items true => blockList (.empty :: items) false
  | levelList items true => levelList (.empty :: items) false
  | flowMap entries (.due key) => flowMap ((key, .empty) :: entries) .filled
  | flowList items (.due key) => flowList (.map [(key, .empty)] :: items) .filled
  | frame => frame

/-- The node that a block collection makes when it ends. -/
def block? (f : Frame) : Option Node :=
  match f.settle with
  | blockMap entries _ => some (.map entries.reverse)
  | blockList items _ => some (.list items.reverse)
  | _ => none

/-- The node that a flow map makes when it ends. -/
def flowMap? (f : Frame) : Option Node :=
  match f.settle with
  | flowMap entries _ => some (.map entries.reverse)
  | _ => none

/-- The node that a flow list makes when it ends. -/
def flowList? (f : Frame) : Option Node :=
  match f.settle with
  | flowList items _ => some (.list items.reverse)
  | _ => none

/-- A key makes its value due. -/
def key (name : Scalar) (f : Frame) : Option Frame :=
  match f with
  | flowMap entries .ready => some (flowMap entries (.due name))
  | flowList items .ready => some (flowList items (.due name))
  | _ =>
    match f.settle with
    | blockMap entries _ => some (blockMap entries (some name))
    | _ => none

/-- A comma makes room for another entry. -/
def comma (f : Frame) : Option Frame :=
  match f.settle with
  | flowMap entries .filled => some (flowMap entries .ready)
  | flowList items .filled => some (flowList items .ready)
  | _ => none

end Frame

/-- The open collections, the innermost first. -/
abbrev Frames := List Frame

namespace Frames

def put (node : Node) : Frames → Option Frames
  | [] => none
  | f :: rest => (f.put node).map (· :: rest)

/-- Ends the innermost collection with the node it makes. -/
def close (finish : Frame → Option Node) : Frames → Option Frames
  | [] => none
  | f :: rest => (finish f).bind fun node => put node rest

/-- A list as far left as its key ends before anything but a dash. -/
def leaveLevel : Frames → Option Frames
  | f :: rest =>
    match f.settle with
    | .levelList items _ => put (.list items.reverse) rest
    | _ => some (f :: rest)
  | [] => none

/-- Changes the innermost collection. -/
def modify (change : Frame → Option Frame) : Frames → Option Frames
  | [] => none
  | f :: rest => (change f).map (· :: rest)

/-- A dash makes an item due: of the list that is open, or of one that begins
here as the value of a key. -/
def dash : Frames → Option Frames
  | [] => none
  | f :: rest =>
    match f with
    | .blockMap _ (some _) => some (.levelList [] true :: f :: rest)
    | _ =>
      match f.settle with
      | .blockList items _ => some (.blockList items true :: rest)
      | .levelList items _ => some (.levelList items true :: rest)
      | _ => none

def take (frames : Frames) : Token → Option Frames
  | .openMap => some (.blockMap [] none :: frames)
  | .openList => some (.blockList [] false :: frames)
  | .openFlowMap => some (.flowMap [] .ready :: frames)
  | .openFlowList => some (.flowList [] .ready :: frames)
  | .closeBlock => (leaveLevel frames).bind (close Frame.block?)
  | .closeFlowMap => close Frame.flowMap? frames
  | .closeFlowList => close Frame.flowList? frames
  | .comma => modify Frame.comma frames
  | .dash => dash frames
  | .key name => (leaveLevel frames).bind (modify (Frame.key name))
  | .scalar value => put (.scalar value) frames
  | .documentStart | .documentEnd => none

end Frames

namespace Node

/-- The tree that the tokens between two marks make. -/
def ofContent? (tokens : List Token) : Option Node :=
  match tokens.foldlM Frames.take [.document] with
  | some [.complete root] => some root
  | _ => none

/-- The tree of the one document that the tokens make. -/
def ofTokens? (tokens : List Token) : Option Node :=
  let marked := tokens.head? == some .documentStart
  let body := if marked then tokens.tail else tokens
  let content := body.takeWhile (· ≠ .documentEnd)
  if (body.dropWhile (· ≠ .documentEnd)).any (· ≠ .documentEnd) then none
  else if content.isEmpty then (if marked || tokens.isEmpty then some empty else none)
  else ofContent? content

/-- The tree of a document. -/
def ofText? (text : String) : Option Node :=
  (Glyph.ofText? text).bind fun glyphs => (Token.ofGlyphs? glyphs).bind ofTokens?

end Node

end Divisi.Yaml
