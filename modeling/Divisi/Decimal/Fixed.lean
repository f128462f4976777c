/-
Floating point numbers with a fixed number of decimals.

The exact binary value is rounded to the nearest multiple of `10^-places`, a
tie going to the even digit. The sign is kept on a zero.
-/
import Divisi.Decimal.Binary

namespace Divisi.Decimal

/-- A natural number of units of `10^-places`, written with its point. -/
def pointed (places n : Nat) : String :=
  let digits := Nat.toDigits 10 n
  let padded := List.replicate (places + 1 - digits.length) '0' ++ digits
  let whole := padded.take (padded.length - places)
  let fraction := padded.drop (padded.length - places)
  if places = 0 then String.ofList whole else String.ofList (whole ++ '.' :: fraction)

/-- `0.329877`, `-2.000000`, `inf`, `-inf`, `NaN`. -/
def fixed (places : Nat) (x : Float) : String :=
  match Binary.ofFloat x with
  | .notANumber => "NaN"
  | .infinite negative => if negative then "-inf" else "inf"
  | .finite negative m q =>
    let units := roundEven (m * Nat.pow 2 q.toNat * Nat.pow 10 places) (Nat.pow 2 (-q).toNat)
    (if negative then "-" else "") ++ pointed places units

end Divisi.Decimal
