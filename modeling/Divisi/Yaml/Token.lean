/-
The tokens of a document.

Indentation is turned into brackets here: a block collection opens where a key
or a dash stands further right than the block around it, and closes before
the first token that stands further left than it began. Whether a scalar is a
key can be told as soon as it has been read, since a key and its colon stand
on one line.

Anchors, aliases, tags, directives, block scalars and keys marked by a
question mark are not read.
-/
import Divisi.Yaml.Node
import Divisi.Yaml.ScalarText

namespace Divisi.Yaml

inductive Token where
  | openMap
  | openList
  /-- The innermost block collection ends. -/
  | closeBlock
  | openFlowMap
  | closeFlowMap
  | openFlowList
  | closeFlowList
  | comma
  | dash
  /-- A scalar and the colon that makes it a key. -/
  | key (name : Scalar)
  | scalar (value : Scalar)
  | documentStart
  | documentEnd
  deriving Repr, DecidableEq

/-- How far a document has been read. -/
structure Lexer where
  /-- The columns where the open block collections began, innermost first. -/
  blocks : List Nat := []
  /-- How many flow collections are open. -/
  depth : Nat := 0
  /-- A key or a dash may come next. -/
  keyAllowed : Bool := true

/-- The longest text that can be a key, its quotes included. -/
def maxKeyLength : Nat := 1024

namespace Lexer

def inFlow (s : Lexer) : Bool := s.depth != 0

/-- How many columns the further lines of a plain scalar must leave free. -/
def margin (s : Lexer) : Nat := (s.blocks.head?.map (· + 1)).getD 0

/-- Opens a block collection at a column, unless one begins there already. -/
def opening (s : Lexer) (column : Nat) (token : Token) : List Token × List Nat :=
  if s.margin ≤ column then ([token], column :: s.blocks) else ([], s.blocks)

/-- The block collections that end before a column. -/
def closing (s : Lexer) (column : Nat) : List Token × List Nat :=
  if s.inFlow then ([], s.blocks)
  else ((s.blocks.takeWhile (column < ·)).map fun _ => .closeBlock,
    s.blocks.dropWhile (column < ·))

/-- Tokens read, and how far the document has been read with them. -/
structure Step where
  tokens : List Token
  lexer : Lexer
  rest : List Glyph

/-- What follows a scalar that is a key: its colon stands on the line where
the scalar began, after as few characters as a key may have, and before a gap
unless the key is in a flow collection. -/
def afterColon? (s : Lexer) (first : Glyph) (size : Nat) (rest : List Glyph) :
    Option (List Glyph) :=
  let later := rest.dropWhile fun g => isSpace g.char
  match later with
  | [] => none
  | g :: others =>
    if g.char == ':' && g.line == first.line && (s.inFlow || Glyph.atGap others) &&
      size ≤ others.length + 1 + maxKeyLength then some others else none

/-- A scalar that begins at `first`, as a key or as a value. Of the glyphs
`size` were left where it began, and `rest` are left behind it. Where a block
collection began, only a key or a dash may stand. -/
def scalar (s : Lexer) (first : Glyph) (size : Nat) (value : Scalar) (keyAllowed : Bool)
    (rest : List Glyph) : Option Step :=
  match s.afterColon? first size rest with
  | some rest =>
    if !s.keyAllowed then none
    else
      let (tokens, blocks) := if s.inFlow then ([], s.blocks) else s.opening first.column .openMap
      some {
        tokens := tokens ++ [.key value]
        lexer := { s with blocks, keyAllowed := false }
        rest }
  | none =>
    if !s.inFlow && s.blocks.head? == some first.column then none
    else some { tokens := [.scalar value], lexer := { s with keyAllowed }, rest }

/-- The bracket that opens a flow collection. -/
def flow (s : Lexer) (first : Glyph) (token : Token) (rest : List Glyph) : Option Step :=
  if !s.inFlow && s.blocks.head? == some first.column then none
  else
    some { tokens := [token], lexer := { s with depth := s.depth + 1, keyAllowed := true }, rest }

/-- The dash before an item of a block list. -/
def dash (s : Lexer) (first : Glyph) (rest : List Glyph) : Option Step :=
  if s.inFlow || !s.keyAllowed then none
  else
    let (tokens, blocks) := s.opening first.column .openList
    some { tokens := tokens ++ [.dash], lexer := { s with blocks, keyAllowed := true }, rest }

/-- A plain scalar. A key may follow it once it was left over a break. -/
def plain (s : Lexer) (first : Glyph) (rest : List Glyph) : Option Step :=
  if isIndicator first.char || isGap first.char then none
  else
    (ScalarText.plain s.inFlow s.margin .none rest).bind fun (text, later) =>
      s.scalar first (rest.length + 1) { text := String.ofList (first.char :: text), plain := true }
        (later.head?.any fun g => g.line != first.line) later

def quoted (s : Lexer) (first : Glyph) (rest : List Glyph) (read : ScalarText) : Option Step :=
  read.bind fun (text, later) =>
    s.scalar first (rest.length + 1) { text := String.ofList text, plain := false } false later

/-- The token that begins with a glyph, once the blocks that it is outside of
have been closed. -/
def token (s : Lexer) (first : Glyph) (rest : List Glyph) : Option Step :=
  let last := { s with depth := s.depth - 1, keyAllowed := false }
  match first.char with
  | '[' => s.flow first .openFlowList rest
  | '\x7b' => s.flow first .openFlowMap rest
  | ']' => some { tokens := [.closeFlowList], lexer := last, rest }
  | '\x7d' => some { tokens := [.closeFlowMap], lexer := last, rest }
  | ',' => some { tokens := [.comma], lexer := { s with keyAllowed := true }, rest }
  | '\x27' => s.quoted first rest (ScalarText.single .none rest)
  | '\x22' => s.quoted first rest (ScalarText.double .none .none rest)
  | '-' => if Glyph.atGap rest then s.dash first rest else s.plain first rest
  | '?' | ':' => if s.inFlow || Glyph.atGap rest then none else s.plain first rest
  | _ => s.plain first rest

/-- A mark between documents closes every block. -/
def mark (s : Lexer) (token : Token) (rest : List Glyph) : Option Step :=
  if s.inFlow then none
  else some {
    tokens := (s.blocks.map fun _ => .closeBlock) ++ [token]
    lexer := { keyAllowed := false }
    rest := rest.drop 2 }

/-- What begins with a glyph that is neither a gap nor a comment. -/
def step (s : Lexer) (first : Glyph) (rest : List Glyph) : Option Step :=
  if Glyph.atMark '-' (first :: rest) then s.mark .documentStart rest
  else if Glyph.atMark '.' (first :: rest) then s.mark .documentEnd rest
  else
    let (closed, blocks) := s.closing first.column
    (token { s with blocks } first rest).map fun made =>
      { made with tokens := closed ++ made.tokens }

/-- A space, or a tab where no key may come, means nothing. -/
def skips (s : Lexer) (c : Char) : Bool := c == ' ' || (c == '\t' && (s.inFlow || !s.keyAllowed))

/-! ## What is read is gone -/

theorem length_afterColon? {s : Lexer} {first : Glyph} {size : Nat} {rest later : List Glyph}
    (h : s.afterColon? first size rest = some later) : later.length ≤ rest.length := by
  unfold afterColon? at h
  have hdrop := (List.dropWhile_sublist (fun g : Glyph => isSpace g.char) (l := rest)).length_le
  revert h
  generalize List.dropWhile (fun g : Glyph => isSpace g.char) rest = tail at hdrop
  cases tail with
  | nil => simp
  | cons g others =>
    intro h
    simp only [Option.ite_none_right_eq_some, Option.some.injEq] at h
    simp only [List.length_cons, h.2] at hdrop
    omega

theorem length_scalar {s : Lexer} {first : Glyph} {size : Nat} {value : Scalar} {allowed : Bool}
    {rest : List Glyph} {made : Step} (h : s.scalar first size value allowed rest = some made) :
    made.rest.length ≤ rest.length := by
  unfold scalar at h
  split at h
  · rename_i later hlater
    split at h
    · simp at h
    · simp only [Option.some.injEq] at h
      subst h
      exact length_afterColon? hlater
  · split at h
    · simp at h
    · simp only [Option.some.injEq] at h
      subst h
      simp

theorem length_plain {s : Lexer} {first : Glyph} {rest : List Glyph} {made : Step}
    (h : s.plain first rest = some made) : made.rest.length ≤ rest.length := by
  unfold plain at h
  split at h
  · simp at h
  · obtain ⟨⟨text, later⟩, hread, hmade⟩ := Option.bind_eq_some_iff.1 h
    exact Nat.le_trans (length_scalar hmade) (ScalarText.length_plain hread)

theorem length_quoted {s : Lexer} {first : Glyph} {rest : List Glyph} {read : ScalarText}
    {made : Step} (bound : ∀ {text later}, read = some (text, later) → later.length ≤ rest.length)
    (h : s.quoted first rest read = some made) : made.rest.length ≤ rest.length := by
  obtain ⟨⟨text, later⟩, hread, hmade⟩ := Option.bind_eq_some_iff.1 h
  exact Nat.le_trans (length_scalar hmade) (bound hread)

theorem length_flow {s : Lexer} {first : Glyph} {t : Token} {rest : List Glyph} {made : Step}
    (h : s.flow first t rest = some made) : made.rest.length ≤ rest.length := by
  unfold flow at h
  split at h
  · simp at h
  · simp only [Option.some.injEq] at h
    subst h
    simp

theorem length_dash {s : Lexer} {first : Glyph} {rest : List Glyph} {made : Step}
    (h : s.dash first rest = some made) : made.rest.length ≤ rest.length := by
  unfold dash at h
  split at h
  · simp at h
  · simp only [Option.some.injEq] at h
    subst h
    simp

theorem length_token {s : Lexer} {first : Glyph} {rest : List Glyph} {made : Step}
    (h : s.token first rest = some made) : made.rest.length ≤ rest.length := by
  unfold token at h
  split at h
  · exact length_flow h
  · exact length_flow h
  · simp only [Option.some.injEq] at h; simp [← h]
  · simp only [Option.some.injEq] at h; simp [← h]
  · simp only [Option.some.injEq] at h; simp [← h]
  · exact length_quoted ScalarText.length_single h
  · exact length_quoted ScalarText.length_double h
  · split at h
    · exact length_dash h
    · exact length_plain h
  · split at h
    · simp at h
    · exact length_plain h
  · split at h
    · simp at h
    · exact length_plain h
  · exact length_plain h

theorem length_mark {s : Lexer} {t : Token} {rest : List Glyph} {made : Step}
    (h : s.mark t rest = some made) : made.rest.length ≤ rest.length := by
  unfold mark at h
  split at h
  · simp at h
  · simp only [Option.some.injEq] at h
    subst h
    simp

theorem length_step {s : Lexer} {first : Glyph} {rest : List Glyph} {made : Step}
    (h : s.step first rest = some made) : made.rest.length ≤ rest.length := by
  unfold step at h
  split at h
  · exact length_mark h
  · split at h
    · exact length_mark h
    · obtain ⟨m, hm, hmade⟩ := Option.map_eq_some_iff.1 h
      have hlen : m.rest.length ≤ rest.length := length_token hm
      subst hmade
      exact hlen

/-! ## All tokens -/

/-- The tokens of the rest of a document; at its end every block closes. -/
def tokens (s : Lexer) : List Glyph → Option (List Token)
  | [] => some (s.blocks.map fun _ => .closeBlock)
  | g :: rest =>
    if s.skips g.char then s.tokens rest
    else if isBreak g.char then tokens { s with keyAllowed := s.keyAllowed || !s.inFlow } rest
    else if g.char == '#' then s.tokens (rest.dropWhile fun g => !isBreak g.char)
    else match _h : s.step g rest with
      | none => none
      | some made => (made.lexer.tokens made.rest).map (made.tokens ++ ·)
termination_by glyphs => glyphs.length
decreasing_by
  · simp
  · simp
  · have := (List.dropWhile_sublist (fun g : Glyph => !isBreak g.char) (l := rest)).length_le
    simp only [List.length_cons]
    omega
  · have := length_step _h
    simp only [List.length_cons]
    omega

end Lexer

/-- The tokens of a document. -/
def Token.ofGlyphs? (glyphs : List Glyph) : Option (List Token) := Lexer.tokens {} glyphs

end Divisi.Yaml
