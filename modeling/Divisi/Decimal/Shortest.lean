/-
The fewest decimal digits that read back as the same floating point number.

The reals that round to `m · 2^q` form an interval around it, half a unit to
each side (a quarter unit below a power of two), whose ends belong to it
exactly when `m` is even. Among the decimals with the least number of digits
in that interval the one nearest the exact value is taken.
-/
import Divisi.Decimal.Binary

namespace Divisi.Decimal

/-- A positive decimal `digits · 10^exponent`. -/
structure Digits where
  digits : Nat
  exponent : Int
  deriving Repr, DecidableEq

/-- The reals that round to one number: `value`, and how far the interval
reaches to either side, all in units of `1 / scale`. -/
structure Neighbourhood where
  value : Nat
  below : Nat
  above : Nat
  scale : Nat
  closed : Bool

namespace Neighbourhood

/-- The interval of `m · 2^q`. -/
def of (m : Nat) (q : Int) : Neighbourhood :=
  let unit := Nat.pow 2 q.toNat
  { value := 4 * m * unit
    below := if m = Nat.pow 2 52 ∧ q > -1074 then unit else 2 * unit
    above := 2 * unit
    scale := 4 * Nat.pow 2 (-q).toNat
    closed := m % 2 = 0 }

/-- The decimal `a · 10^k` lies in the interval. -/
def contains (i : Neighbourhood) (a : Nat) (k : Int) : Bool :=
  let point := a * Nat.pow 10 k.toNat * i.scale
  let grid := Nat.pow 10 (-k).toNat
  let low := (i.value - i.below) * grid
  let high := (i.value + i.above) * grid
  if i.closed then low ≤ point && point ≤ high else low < point && point < high

/-- The exponent `e` with `10^e ≤ value / scale < 10^(e+1)`. -/
def magnitude (i : Neighbourhood) : Int :=
  let size (n : Nat) : Int := (Nat.toDigits 10 n).length
  let e := size i.value - size i.scale
  if i.scale * Nat.pow 10 e.toNat ≤ i.value * Nat.pow 10 (-e).toNat then e else e - 1

/-- The best decimal on the grid of step `10^k`, if the interval meets it. -/
def onGrid? (i : Neighbourhood) (k : Int) : Option Digits :=
  let num := i.value * Nat.pow 10 (-k).toNat
  let den := i.scale * Nat.pow 10 k.toNat
  let lower := num / den
  let nearest := roundEven num den
  if i.contains nearest k then some ⟨nearest, k⟩
  else if i.contains lower k then some ⟨lower, k⟩
  else if i.contains (lower + 1) k then some ⟨lower + 1, k⟩
  else none

end Neighbourhood

/-- The shortest decimal of `m · 2^q`, for a positive `m`: on the coarsest grid
that the interval meets, which may be that of the next power of ten above.
Seventeen digits always suffice. -/
def shortest (m : Nat) (q : Int) : Digits :=
  let i := Neighbourhood.of m q
  let e := i.magnitude
  ((List.range 18).findSome? fun (n : Nat) => i.onGrid? (e + 1 - n)).getD ⟨m, q⟩

end Divisi.Decimal
