/-
The characters of a document, each with its line and its column.

Every line ends in one break, however it was written: a carriage return, with
or without a line feed, and a next-line character become a line feed.
-/
import Divisi.Yaml.Character

namespace Divisi.Yaml

structure Glyph where
  char : Char
  line : Nat
  column : Nat
  deriving Repr, DecidableEq

namespace Glyph

/-- A text with one character for each break. -/
def unifyBreaks : List Char → List Char
  | '\r' :: '\n' :: rest => '\n' :: unifyBreaks rest
  | c :: rest => (if c = '\r' ∨ c = '\x85' then '\n' else c) :: unifyBreaks rest
  | [] => []

/-- The characters of a text that begins at a line and a column. -/
def along (line column : Nat) : List Char → List Glyph
  | [] => []
  | c :: rest =>
    { char := c, line, column } ::
      if isBreak c then along (line + 1) 0 rest else along line (column + 1) rest

/-- A byte order mark in front of a document is no part of it, but takes the
first column of its line. Anywhere else it is a character like others. -/
def dropMark : List Glyph → List Glyph
  | [] => []
  | g :: rest => if isByteOrderMark g.char then rest else g :: rest

/-- The characters of a document, if it holds only those that it may. -/
def ofText? (text : String) : Option (List Glyph) :=
  let cs := text.toList
  if cs.all isAllowed then some (dropMark (along 0 0 (unifyBreaks cs))) else none

/-- A gap or the end of the text comes next. -/
def atGap : List Glyph → Bool
  | [] => true
  | g :: _ => isGap g.char

/-- The glyphs begin with a line that is, or begins with, the mark between two
documents: three times the character `c`. -/
def atMark (c : Char) : List Glyph → Bool
  | x :: y :: z :: rest =>
    x.column == 0 && x.char == c && y.char == c && z.char == c && atGap rest
  | _ => false

/-- A mark between documents comes next. -/
def atDocument (glyphs : List Glyph) : Bool := atMark '-' glyphs || atMark '.' glyphs

end Glyph

end Divisi.Yaml
