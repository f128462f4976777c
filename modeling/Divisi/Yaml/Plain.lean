/-
What a plain scalar stands for.

Nothing and the spellings of null stand for null, `true` and `false` in three
spellings for the truth values, numerals for numbers, and every other text for
itself. A run of digits with a leading zero is text, and so is a numeral with
a mark of its base that needs more than 128 bits.
-/
import Divisi.Decimal.Reading
import Divisi.Yaml.Node

namespace Divisi.Yaml.Plain

open Divisi.Text

def isNull (text : String) : Bool := text ∈ ["", "null", "Null", "NULL", "~"]

def bool? (text : String) : Option Bool :=
  if text ∈ ["true", "True", "TRUE"] then some true
  else if text ∈ ["false", "False", "FALSE"] then some false
  else none

/-- A non-empty run of digits of a base. -/
def based? (base : Nat) (cs : List Char) : Option Nat :=
  if cs = [] then none
  else cs.foldlM (fun n c => (digitIn? base c).map (base * n + ·)) 0

/-- Digits behind the mark of their base, `0x1f`, `0o7`, `0b1`. -/
def marked? : List Char → Option Nat
  | '0' :: 'x' :: rest => based? 16 rest
  | '0' :: 'o' :: rest => based? 8 rest
  | '0' :: 'b' :: rest => based? 2 rest
  | _ => none

/-- Digits that begin with a zero and go on are no number, whatever their
sign. -/
def leadingZero (cs : List Char) : Bool :=
  let body := match cs with
    | '-' :: rest | '+' :: rest => rest
    | _ => cs
  match body with
  | '0' :: rest => rest ≠ [] && rest.all Char.isDigit
  | _ => false

/-- The integers that a scalar can stand for: those of 128 bits, with a sign
or without. -/
def inRange (n : Int) : Bool := -(Nat.pow 2 127 : Int) ≤ n && n < (Nat.pow 2 128 : Int)

/-- An integer in range, in decimal or with a mark of its base. One beyond the
range is at most a `real?`, and then only in decimal. -/
def integer? (text : String) : Option Int :=
  let cs := text.toList
  let value? : Option Int :=
    if leadingZero cs then none
    else match cs with
      | '-' :: rest => ((marked? rest).or (digits? rest)).map fun n => -(n : Int)
      | '+' :: rest => ((marked? rest).or (digits? rest)).map Int.ofNat
      | _ => ((marked? cs).or (digits? cs)).map Int.ofNat
  value?.filter inRange

/-- An integer without a minus sign, below `bound`. -/
def natural? (bound : Nat) (text : String) : Option Nat :=
  if text.toList.head? = some '-' then none
  else ((integer? text).map Int.toNat).filter (· < bound)

/-- A number in decimal, or one of the names of infinity and not-a-number. -/
def real? (text : String) : Option Float :=
  let body := match text.toList with
    | '+' :: rest => rest
    | cs => cs
  if text.toList.head? = some '+' ∧ (body.head? = some '+' ∨ body.head? = some '-') then none
  else if String.ofList body ∈ [".inf", ".Inf", ".INF"] then some (1 / 0)
  else if text ∈ ["-.inf", "-.Inf", "-.INF"] then some (-1 / 0)
  else if text ∈ [".nan", ".NaN", ".NAN"] then some (0 / 0)
  else (Decimal.read? body).filter Float.isFinite

/-- The text stands for itself. -/
def isText (text : String) : Bool :=
  !isNull text && (bool? text).isNone && (integer? text).isNone &&
    (leadingZero text.toList || (real? text).isNone)

end Divisi.Yaml.Plain
