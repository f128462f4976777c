/-
The text of a scalar, read from where it begins.

A scalar may go on over several lines. A single break between two of its words
stands for a space; of several breaks the first is dropped, and spaces around
them do not count. Each reader answers the text and what follows the scalar.
-/
import Divisi.Text.Numeral
import Divisi.Yaml.Glyph

namespace Divisi.Yaml

/-! ## Between two words -/

/-- What stands between two words of a scalar. -/
inductive Gap where
  /-- Spaces and tabs on one line. -/
  | inline (spaces : List Char)
  /-- Breaks: the first, unless it was escaped, and the others. -/
  | lines (first : Option Char) (others : List Char)
  deriving Repr, DecidableEq

namespace Gap

def none : Gap := inline []

def isLines : Gap → Bool
  | inline _ => false
  | lines .. => true

/-- A gap with one more character: a break, a space or a tab. -/
def add (c : Char) : Gap → Gap
  | inline spaces => if isBreak c then lines (some c) [] else inline (spaces ++ [c])
  | lines first others => if isBreak c then lines first (others ++ [c]) else lines first others

/-- What a gap stands for. -/
def text : Gap → List Char
  | inline spaces => spaces
  | lines (some '\n') [] => [' ']
  | lines (some '\n') others => others
  | lines first others => first.toList ++ others

end Gap

/-- The text of a scalar, and what follows it. -/
abbrev ScalarText := Option (List Char × List Glyph)

namespace ScalarText

/-- Text in front of what a reader answers. -/
def after (text : List Char) (s : ScalarText) : ScalarText :=
  s.map fun (more, rest) => (text ++ more, rest)

/-! ## Plain -/

/-- A plain scalar ends at a colon before a gap, and in a flow collection at
its brackets and commas. -/
def endsPlain (flow : Bool) (c : Char) (rest : List Glyph) : Bool :=
  (c == ':' && Glyph.atGap rest) || (flow && isFlowIndicator c)

/-- In a flow collection a plain scalar must not have a colon directly before
a bracket, a comma or a question mark. -/
def strayColon (flow : Bool) (c : Char) (rest : List Glyph) : Bool :=
  flow && c == ':' && rest.head?.any fun g => isFlowIndicator g.char || g.char == '?'

/-- Reads on in a plain scalar whose further lines must leave `margin`
columns free. After a gap a comment or a mark between documents ends it. -/
def plain (flow : Bool) (margin : Nat) : Gap → List Glyph → ScalarText
  | _, [] => some ([], [])
  | gap, g :: rest =>
    if isGap g.char then
      if g.char == '\t' && gap.isLines && g.column < margin then none
      else plain flow margin (gap.add g.char) rest
    else if gap.isLines && !flow && g.column < margin then some ([], g :: rest)
    else if gap != .none && (g.char == '#' || Glyph.atDocument (g :: rest)) then
      some ([], g :: rest)
    else if strayColon flow g.char rest then none
    else if endsPlain flow g.char rest then some ([], g :: rest)
    else after (gap.text ++ [g.char]) (plain flow margin .none rest)

/-! ## Quoted -/

/-- Reads on between single quotes; a quote that is doubled stands for
itself. -/
def single : Gap → List Glyph → ScalarText
  | _, [] => none
  | gap, g :: rest =>
    if Glyph.atDocument (g :: rest) then none
    else if isGap g.char then single (gap.add g.char) rest
    else if g.char == '\x27' then
      match rest with
      | next :: others =>
        if next.char == '\x27' then after (gap.text ++ ['\x27']) (single .none others)
        else some (gap.text, rest)
      | [] => some (gap.text, [])
    else after (gap.text ++ [g.char]) (single .none rest)

/-- Where the reader of a double-quoted scalar stands: in its text, behind a
backslash, or in a character given by its number, of which some digits are
still to come. -/
inductive Escape where
  | none
  | begun
  | digits (left value : Nat)

namespace Escape

/-- What a letter stands for behind a backslash. -/
def letter? (c : Char) : Option Char :=
  [('0', '\x00'), ('a', '\x07'), ('b', '\x08'), ('t', '\t'), ('\t', '\t'), ('n', '\n'),
    ('v', '\x0b'), ('f', '\x0c'), ('r', '\r'), ('e', '\x1b'), (' ', ' '), ('\x22', '\x22'),
    ('/', '/'), ('\\', '\\'), ('N', '\x85'), ('_', '\xa0'), ('L', '\u2028'),
    ('P', '\u2029')].lookup c

/-- How many digits follow a letter that announces a character by its
number. -/
def length? (c : Char) : Option Nat := [('x', 2), ('u', 4), ('U', 8)].lookup c

/-- The character of a number, unless the number belongs to none. -/
def char? (n : Nat) : Option Char :=
  if h : n.isValidChar then some (Char.ofNatAux n h) else .none

end Escape

/-- Reads on between double quotes. -/
def double : Escape → Gap → List Glyph → ScalarText
  | _, _, [] => none
  | .none, gap, g :: rest =>
    if Glyph.atDocument (g :: rest) then none
    else if isGap g.char then double .none (gap.add g.char) rest
    else if g.char == '\x22' then some (gap.text, rest)
    else if g.char == '\\' then after gap.text (double .begun .none rest)
    else after (gap.text ++ [g.char]) (double .none .none rest)
  | .begun, _, g :: rest =>
    if isBreak g.char then double .none (.lines none []) rest
    else match Escape.letter? g.char, Escape.length? g.char with
      | some c, _ => after [c] (double .none .none rest)
      | none, some length => double (.digits length 0) .none rest
      | none, none => none
  | .digits left value, _, g :: rest =>
    match Text.digitIn? 16 g.char with
    | none => none
    | some digit =>
      let value := 16 * value + digit
      if 1 < left then double (.digits (left - 1) value) .none rest
      else (Escape.char? value).bind fun c => after [c] (double .none .none rest)

/-! ## What is read is gone -/

theorem length_after {text more : List Char} {s : ScalarText} {rest : List Glyph} {n : Nat}
    (bound : ∀ {m}, s = some (m, rest) → rest.length ≤ n)
    (h : after text s = some (more, rest)) : rest.length ≤ n := by
  obtain ⟨⟨m, r⟩, hs, heq⟩ := Option.map_eq_some_iff.1 h
  simp only [Prod.mk.injEq] at heq
  exact bound (heq.2 ▸ hs)

theorem length_plain {flow : Bool} {margin : Nat} {gap : Gap} {glyphs rest : List Glyph}
    {text : List Char} (h : plain flow margin gap glyphs = some (text, rest)) :
    rest.length ≤ glyphs.length := by
  induction glyphs generalizing gap text with
  | nil => simp_all [plain]
  | cons g others ih =>
    unfold plain at h
    split at h
    · split at h
      · simp at h
      · exact Nat.le_succ_of_le (ih h)
    · split at h
      · simp_all
      · split at h
        · simp_all
        · split at h
          · simp at h
          · split at h
            · simp_all
            · exact Nat.le_succ_of_le (length_after ih h)

theorem length_single {gap : Gap} {glyphs rest : List Glyph} {text : List Char}
    (h : single gap glyphs = some (text, rest)) : rest.length ≤ glyphs.length := by
  fun_induction single gap glyphs generalizing text with
  | case1 => simp at h
  | case2 => simp at h
  | case3 _ _ _ _ _ ih => exact Nat.le_succ_of_le (ih h)
  | case4 _ _ _ _ _ _ _ _ ih =>
    exact Nat.le_succ_of_le (Nat.le_succ_of_le (length_after ih h))
  | case5 => simp_all
  | case6 => simp_all
  | case7 _ _ _ _ _ _ ih => exact Nat.le_succ_of_le (length_after ih h)

theorem length_double {escape : Escape} {gap : Gap} {glyphs rest : List Glyph} {text : List Char}
    (h : double escape gap glyphs = some (text, rest)) : rest.length ≤ glyphs.length := by
  fun_induction double escape gap glyphs generalizing text with
  | case1 => simp at h
  | case2 => simp at h
  | case3 _ _ _ _ _ ih => exact Nat.le_succ_of_le (ih h)
  | case4 => simp_all
  | case5 _ _ _ _ _ _ _ ih => exact Nat.le_succ_of_le (length_after ih h)
  | case6 _ _ _ _ _ _ _ ih => exact Nat.le_succ_of_le (length_after ih h)
  | case7 _ _ _ _ ih => exact Nat.le_succ_of_le (ih h)
  | case8 _ _ _ _ _ _ ih => exact Nat.le_succ_of_le (length_after ih h)
  | case9 _ _ _ _ _ _ _ ih => exact Nat.le_succ_of_le (ih h)
  | case10 => simp at h
  | case11 => simp at h
  | case12 =>
    rename_i ih
    exact Nat.le_succ_of_le (ih h)
  | case13 =>
    rename_i ih
    obtain ⟨c, -, hc⟩ := Option.bind_eq_some_iff.1 h
    exact Nat.le_succ_of_le (length_after ih hc)

end ScalarText

end Divisi.Yaml
