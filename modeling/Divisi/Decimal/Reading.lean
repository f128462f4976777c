/-
Reading a decimal number as the nearest floating point number.

A number is an optional sign, then `inf`, `infinity` or `nan` in any case, or
digits with an optional point and an optional exponent, with at least one
digit before or after the point.
-/
import Divisi.Text.Numeral

namespace Divisi.Decimal

open Divisi.Text

/-- Beyond this power of ten every number is too large or too small to be
told from infinity or zero. -/
def extreme : Int := 400

/-- `mantissa · 10^exponent`, to the nearest; out of range it is infinite or
zero. -/
def scaled (mantissa : Nat) (exponent : Int) : Float :=
  let top := exponent + (Nat.toDigits 10 mantissa).length
  if mantissa = 0 then 0
  else if top > extreme then 1 / 0
  else if top < -extreme then 0
  else if exponent < 0 then Float.ofScientific mantissa true (-exponent).toNat
  else Float.ofScientific mantissa false exponent.toNat

/-- The exponent that follows a mantissa, zero if there is none. -/
def exponent? : List Char → Option Int
  | [] => some 0
  | c :: rest => if c = 'e' ∨ c = 'E' then integer? rest else none

/-- A number without its sign. -/
def magnitude? (cs : List Char) : Option Float :=
  let name := String.ofList (cs.map Char.toLower)
  if name = "inf" ∨ name = "infinity" then some (1 / 0)
  else if name = "nan" then some (0 / 0)
  else
    let whole := cs.takeWhile Char.isDigit
    let afterWhole := cs.dropWhile Char.isDigit
    let (fraction, rest) := match afterWhole with
      | '.' :: more => (more.takeWhile Char.isDigit, more.dropWhile Char.isDigit)
      | _ => ([], afterWhole)
    if whole = [] ∧ fraction = [] then none
    else (exponent? rest).map fun e =>
      scaled (digitsValue (whole ++ fraction)) (e - fraction.length)

/-- A number with an optional sign. -/
def read? : List Char → Option Float
  | '-' :: rest => (magnitude? rest).map fun x => -x
  | '+' :: rest => magnitude? rest
  | cs => magnitude? cs

end Divisi.Decimal
