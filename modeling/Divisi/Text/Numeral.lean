/-
Decimal numerals.

A numeral may carry a leading plus sign and any number of leading zeros; a
signed one may carry a minus sign instead. There are no separators.
-/
namespace Divisi.Text

/-- The value of a digit. -/
def digitValue (c : Char) : Nat := c.toNat - '0'.toNat

/-- The value of a run of digits. -/
def digitsValue (cs : List Char) : Nat := cs.foldl (fun n c => 10 * n + digitValue c) 0

/-- A non-empty run of digits and nothing else. -/
def digits? (cs : List Char) : Option Nat :=
  if cs ≠ [] ∧ cs.all Char.isDigit then some (digitsValue cs) else none

/-- A numeral below `bound`, with an optional plus sign. -/
def natural? (bound : Nat) (cs : List Char) : Option Nat :=
  let body := match cs with
    | '+' :: rest => rest
    | _ => cs
  (digits? body).filter (· < bound)

/-- A numeral with an optional sign. -/
def integer? : List Char → Option Int
  | '-' :: rest => (digits? rest).map fun n => -(n : Int)
  | '+' :: rest => (digits? rest).map Int.ofNat
  | cs => (digits? cs).map Int.ofNat

/-- The value of a digit in a base of up to sixteen. -/
def digitIn? (base : Nat) (c : Char) : Option Nat :=
  let n := c.toNat
  let value? :=
    if c.isDigit then some (n - 48)
    else if 'a'.toNat ≤ n ∧ n ≤ 'f'.toNat then some (n - 87)
    else if 'A'.toNat ≤ n ∧ n ≤ 'F'.toNat then some (n - 55)
    else none
  value?.filter (· < base)

end Divisi.Text
