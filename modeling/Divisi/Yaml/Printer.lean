/-
Writing trees as YAML documents in block style.

Each level is indented by two spaces; the items of a list that is a field are
not indented below it, and a list or map that is an item begins on its line.
-/
import Divisi.Decimal.Shortest
import Divisi.Yaml.Quoting

namespace Divisi.Yaml

/-- The scalar that ends a line, with the break after it. A plain scalar is
written as it is, any other as its text requires. -/
def Scalar.line (indent : Nat) (s : Scalar) : String :=
  if s.plain then s.text ++ "\n" else Quoting.line indent s.text

/-- The scalar as the key of an entry. -/
def Scalar.key (s : Scalar) : String := if s.plain then s.text else Quoting.key s.text

namespace Node

def spaces (n : Nat) : String := String.ofList (List.replicate n ' ')

mutual

/-- A node whose first line begins at a column already reached, its further
lines indented by `indent`. Ends with its last line. -/
def block (indent : Nat) : Node → String
  | .scalar s => s.line indent
  | .list [] => "[]\n"
  | .list (first :: rest) => "- " ++ block (indent + 2) first ++ items indent rest
  | .map [] => "\x7b\x7d\n"
  | .map ((key, value) :: rest) =>
    key.key ++ ":" ++ field indent value ++ entries indent rest

/-- Further items of a list. -/
def items (indent : Nat) : List Node → String
  | [] => ""
  | node :: rest => spaces indent ++ "- " ++ block (indent + 2) node ++ items indent rest

/-- Further entries of a map. -/
def entries (indent : Nat) : List (Scalar × Node) → String
  | [] => ""
  | (key, value) :: rest =>
    spaces indent ++ key.key ++ ":" ++ field indent value ++ entries indent rest

/-- What follows the key and the colon of a field. -/
def field (indent : Nat) : Node → String
  | .scalar s => " " ++ s.line (indent + 2)
  | .list [] => " []\n"
  | .list (first :: rest) =>
    "\n" ++ spaces indent ++ "- " ++ block (indent + 2) first ++ items indent rest
  | .map [] => " \x7b\x7d\n"
  | .map ((key, value) :: rest) =>
    "\n" ++ spaces (indent + 2) ++ key.key ++ ":" ++ field (indent + 2) value ++
      entries (indent + 2) rest

end

/-- The whole document. -/
def document (n : Node) : String := block 0 n

end Node

/-! ## Numbers -/

/-- Digits with a point after the first `places` of them, zeros filled in
where there are too few. -/
def withPoint (digits : List Char) (places : Int) : List Char :=
  if places ≤ 0 then ['0', '.'] ++ List.replicate (-places).toNat '0' ++ digits
  else
    let whole := digits.take places.toNat
    let fraction := digits.drop places.toNat
    whole ++ List.replicate (places.toNat - digits.length) '0' ++ '.' ::
      (if fraction.isEmpty then ['0'] else fraction)

/-- A positive decimal: positional from 10^-5 up to 10^16, else with an
exponent. -/
def decimalText (d : Decimal.Digits) : String :=
  let digits := Nat.toDigits 10 d.digits
  let places := d.exponent + digits.length
  if -5 < places ∧ places ≤ 16 then String.ofList (withPoint digits places)
  else
    let mantissa := match digits with
      | first :: second :: rest => first :: '.' :: second :: rest
      | few => few
    String.ofList mantissa ++ s!"e{places - 1}"

/-- The shortest form of a number that reads back, with a point or an
exponent. -/
def realText (x : Float) : String :=
  match Decimal.Binary.ofFloat x with
  | .notANumber => ".nan"
  | .infinite negative => if negative then "-.inf" else ".inf"
  | .finite negative m q =>
    (if negative then "-" else "") ++
      (if m = 0 then "0.0" else decimalText (Decimal.shortest m q))

namespace Node

def real (x : Float) : Node := plain (realText x)

def natural (n : Nat) : Node := plain s!"{n}"

/-- A map with fixed names for its fields. -/
def record (fields : List (String × Node)) : Node :=
  .map (fields.map fun (name, value) => ({ text := name, plain := false }, value))

end Node

end Divisi.Yaml
