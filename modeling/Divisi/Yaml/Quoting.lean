/-
How a text is written as a scalar so that it reads back as that text.

Plain if that is possible; in single quotes where plain would stand for
something else or would not be one scalar; in double quotes where a character
has to be escaped; and as a literal block where the text has several lines.
Lines are never folded.
-/
import Divisi.Yaml.Character
import Divisi.Yaml.Plain

namespace Divisi.Yaml.Quoting

inductive Style where
  | plain | single | double | literal
  deriving Repr, DecidableEq

/-! ## Characters -/

/-- The characters that may stand in a scalar as they are. -/
def isPrintable (c : Char) : Bool :=
  let n := c.toNat
  n == 0x0A || (0x20 ≤ n && n ≤ 0x7E) || (0xA0 ≤ n && n ≤ 0xFFFD && !isByteOrderMark c) ||
    0x10000 ≤ n

/-- Some character satisfies `first` and the one after it `second`. -/
def followed (first second : Char → Bool) (cs : List Char) : Bool :=
  (cs.zip cs.tail).any fun (c, d) => first c && second d

/-! ## Which styles a text allows -/

def special (cs : List Char) : Bool := cs.any fun c => !isPrintable c

/-- The text has an indicator where a plain scalar must not have one. -/
def hasIndicator (cs : List Char) : Bool :=
  ['-', '-', '-'].isPrefixOf cs || ['.', '.', '.'].isPrefixOf cs ||
  cs.head?.any isIndicator ||
  (cs.head?.any (· ∈ ['-', '?']) && cs.tail.head?.all isGap) ||
  followed (· == ':') isGap cs || cs.getLast? == some ':' || followed isGap (· == '#') cs

/-- No space or break may stand at either end of a plain scalar. -/
def plainAllowed (cs : List Char) : Bool :=
  !hasIndicator cs && !special cs && !cs.any isBreak &&
    !cs.head?.any (· == ' ') && !cs.getLast?.any (· == ' ')

def singleAllowed (cs : List Char) : Bool :=
  !special cs && !followed isBreak (· == ' ') cs && !followed (· == ' ') isBreak cs

def literalAllowed (cs : List Char) : Bool :=
  !special cs && !followed (· == ' ') isBreak cs && !cs.getLast?.any (· == ' ')

/-- Read as a plain scalar the text would be something else, or would look
like a number. -/
def ambiguous (text : String) : Bool := !Plain.isText text || Plain.leadingZero text.toList

def style (text : String) : Style :=
  let cs := text.toList
  if '\n' ∈ cs then
    if literalAllowed cs then .literal else .double
  else if !ambiguous text && plainAllowed cs then .plain
  else if singleAllowed cs then .single
  else .double

/-! ## Writing -/

/-- Single quotes are doubled. A line that a break begins is indented, also
where it holds only the quote that ends the scalar. -/
def singleBody (indent : Nat) : Bool → List Char → List Char
  | atStart, [] => if atStart then List.replicate indent ' ' else []
  | atStart, c :: rest =>
    if isBreak c then c :: singleBody indent true rest
    else
      (if atStart then List.replicate indent ' ' else []) ++
        (if c = '\x27' then ['\x27', '\x27'] else [c]) ++ singleBody indent false rest

def hexDigit (n : Nat) : Char := if n < 10 then Char.ofNat (48 + n) else Char.ofNat (55 + n)

/-- The lowest `width` hexadecimal digits of a number. -/
def hex (width n : Nat) : List Char :=
  ((List.range width).map fun i => hexDigit (n / Nat.pow 16 i % 16)).reverse

/-- The characters that have an escape of one letter. -/
def letterEscapes : List (Nat × Char) :=
  [(0x00, '0'), (0x07, 'a'), (0x08, 'b'), (0x09, 't'), (0x0A, 'n'), (0x0B, 'v'), (0x0C, 'f'),
    (0x0D, 'r'), (0x1B, 'e'), (0x22, '\x22'), (0x5C, '\\'), (0x85, 'N'), (0xA0, '_'),
    (0x2028, 'L'), (0x2029, 'P')]

def escape (c : Char) : List Char :=
  let n := c.toNat
  '\\' :: match letterEscapes.lookup n with
    | some letter => [letter]
    | none => if n ≤ 0xFF then 'x' :: hex 2 n else if n ≤ 0xFFFF then 'u' :: hex 4 n
      else 'U' :: hex 8 n

def doubleBody (cs : List Char) : List Char :=
  cs.flatMap fun c =>
    if !isPrintable c || isBreak c || c = '\x22' || c = '\\' then escape c else [c]

/-- What follows the bar of a literal block: the indentation where the text
begins with a space or a break, and what becomes of the breaks at its end. -/
def literalHeader (cs : List Char) : List Char :=
  let hint := if cs.head?.any fun c => c == ' ' || isBreak c then ['2'] else []
  let chomp := match cs.reverse with
    | [] => ['-']
    | c :: rest => if !isBreak c then ['-'] else if rest.head?.all isBreak then ['+'] else []
  '|' :: hint ++ chomp

/-- The lines of a block, indented where they are not empty. -/
def literalBody (indent : Nat) : Bool → List Char → List Char
  | _, [] => []
  | atStart, c :: rest =>
    if isBreak c then c :: literalBody indent true rest
    else (if atStart then List.replicate indent ' ' else []) ++ c :: literalBody indent false rest

/-- The block up to the end of its last line, which is a break of its own or,
where the text ends in none, one that the bar's mark takes back. -/
def literal (indent : Nat) (cs : List Char) : List Char :=
  literalHeader cs ++ '\n' :: literalBody indent true cs ++
    if cs.getLast?.any isBreak then [] else ['\n']

/-- A text in a style, further lines being indented by `indent`. -/
def inStyle (indent : Nat) (cs : List Char) : Style → List Char
  | .plain => cs
  | .single => '\x27' :: singleBody indent false cs ++ ['\x27']
  | .double => '\x22' :: doubleBody cs ++ ['\x22']
  | .literal => literal indent cs

/-- Writes a text as the scalar that ends a line, with the break after it. -/
def line (indent : Nat) (text : String) : String :=
  let style := style text
  String.ofList <|
    inStyle indent text.toList style ++ if style = .literal then [] else ['\n']

/-- Writes a text as a key, which stays on one line. -/
def key (text : String) : String :=
  let cs := text.toList
  String.ofList (inStyle 0 cs (if cs.any isBreak then .double else style text))

end Divisi.Yaml.Quoting
