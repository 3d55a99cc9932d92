/-!
# The shortest decimal in an interval

A binary floating-point number stands for every real that rounds to it, which is an interval
around the number. Its shortest decimal is the one on the coarsest grid `10 ^ e` that has a
point in that interval. On each grid only the number's two neighbours need a look: if any
point of the grid is in the interval, one of these two is. Where both are, the nearer is
taken, and of two equally near ones the greater.

All of it is exact arithmetic on natural numbers.
-/

namespace Intensional
namespace Decimal

structure Scaled where
  digits : Nat
  exponent : Int
deriving DecidableEq

/-- A positive number `value * 2 ^ exponent` with the reals from `low` to `high`, in the same
unit, that round to it. The two ends belong to the interval iff `closed`. -/
structure Rounding where
  low : Nat
  value : Nat
  high : Nat
  exponent : Int
  closed : Bool

namespace Rounding

/-- The interval of `mantissa * 2 ^ exponent`. The neighbour below is at half the distance of
the one above iff `narrow`, which is so where the binade changes. An even mantissa wins the
ties at both ends. -/
def ofBinary (mantissa : Nat) (exponent : Int) (narrow : Bool) : Rounding where
  low := 4 * mantissa - (if narrow then 1 else 2)
  value := 4 * mantissa
  high := 4 * mantissa + 2
  exponent := exponent - 2
  closed := mantissa % 2 == 0

/-- The point of the grid `10 ^ e` that stands for the number, if the interval has one. Both
sides are scaled so that the grid's unit is the natural number `unit`. -/
def onGrid (r : Rounding) (e : Int) : Option Scaled :=
  let factor := Nat.pow 2 r.exponent.toNat * Nat.pow 10 (-e).toNat
  let unit := Nat.pow 2 (-r.exponent).toNat * Nat.pow 10 e.toNat
  let below := r.value * factor / unit
  let rest := r.value * factor % unit
  let inside (n : Nat) : Bool :=
    if r.closed then decide (r.low * factor ≤ n * unit) && decide (n * unit ≤ r.high * factor)
    else decide (r.low * factor < n * unit) && decide (n * unit < r.high * factor)
  let down := inside below
  let up := inside (below + 1)
  if up && (!down || decide (unit ≤ 2 * rest)) then some ⟨below + 1, e⟩
  else if down then some ⟨below, e⟩
  else none

/-- An exponent whose grid is coarser than the number itself, from its binary logarithm:
`30103 / 100000` is a little more than the decimal logarithm of two. -/
def coarsest (r : Rounding) : Int :=
  (r.value.log2 + 1 + r.exponent) * 30103 / 100000 + 1

/-- The point of the coarsest grid that has one. Seventeen digits tell all doubles apart, so
twenty grids are enough to meet one. -/
def shortest (r : Rounding) : Scaled :=
  ((List.range 20).findSome? fun (i : Nat) => r.onGrid (r.coarsest - i)).getD ⟨0, 0⟩

end Rounding

/-- A decimal number written without an exponent: zeros fill the places up to the point, and
there is a point only if there are digits behind it. -/
def Scaled.positional (d : Scaled) : String :=
  let text := toString d.digits
  let places := (-d.exponent).toNat
  if places = 0 then text ++ "".pushn '0' d.exponent.toNat
  else
    let padded := ("".pushn '0' (places + 1 - text.length) ++ text).toList
    let whole := padded.length - places
    String.ofList (padded.take whole) ++ "." ++ String.ofList (padded.drop whole)

end Decimal
end Intensional
