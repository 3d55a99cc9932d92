import Intensional.Decimal.Shortest

/-!
# Double-precision numbers

A double is its 64 bits. Order and equality are those of a total order that ignores what the
arithmetic ignores: all NaNs are one number, greater than every other, and the two zeros are
one. Both come from one integer, `rank`. A sign and a magnitude are ordered as integers are,
because IEEE 754 lays out exponent and fraction so that greater doubles have greater bits.
-/

namespace Intensional

/-- An IEEE 754 double, by its bits. -/
structure Binary64 where
  bits : UInt64
deriving DecidableEq

namespace Binary64

/-! ## Fields -/

def isNegative (x : Binary64) : Bool := x.bits.toNat.testBit 63

def magnitude (x : Binary64) : Nat := x.bits.toNat % 0x8000000000000000

/-- The magnitude of the infinities; every greater one is a NaN. -/
def infinite : Nat := 0x7ff0000000000000

def isNaN (x : Binary64) : Bool := decide (infinite < x.magnitude)

/-! ## Order -/

def rank (x : Binary64) : Int :=
  if x.isNaN then 0x8000000000000000 else if x.isNegative then -(x.magnitude : Int) else x.magnitude

def compare (x y : Binary64) : Ordering := Ord.compare x.rank y.rank

instance : BEq Binary64 := ⟨fun x y => x.rank == y.rank⟩

theorem beq_iff {x y : Binary64} : (x == y) = true ↔ x.rank = y.rank := by
  simp [BEq.beq]

/-! ## Arithmetic -/

def toFloat (x : Binary64) : Float := Float.ofBits x.bits

def ofFloat (f : Float) : Binary64 := ⟨f.toBits⟩

def add (x y : Binary64) : Binary64 := ofFloat (x.toFloat + y.toFloat)

def sub (x y : Binary64) : Binary64 := ofFloat (x.toFloat - y.toFloat)

def mul (x y : Binary64) : Binary64 := ofFloat (x.toFloat * y.toFloat)

def div (x y : Binary64) : Binary64 := ofFloat (x.toFloat / y.toFloat)

/-- Turn the sign, also that of a zero. -/
def neg (x : Binary64) : Binary64 := ⟨x.bits ^^^ 0x8000000000000000⟩

/-! ## Text -/

/-- The interval of reals that round to a positive finite double. Below the first exponent
there is no hidden bit, and the spacing stays that of the first. -/
def rounding (x : Binary64) : Decimal.Rounding :=
  let field : Nat := x.magnitude / 0x10000000000000
  let fraction : Nat := x.magnitude % 0x10000000000000
  if field = 0 then .ofBinary fraction (-1074) false
  else .ofBinary (0x10000000000000 + fraction) ((field : Int) - 1075) (fraction == 0 && field != 1)

/-- A double without its sign: the fewest digits that read back, written positionally. -/
def magnitudeText (x : Binary64) : String :=
  if x.magnitude = infinite then "inf"
  else if x.magnitude = 0 then "0"
  else x.rounding.shortest.positional

/-- The text of a double. A NaN has no sign; a zero keeps its own. -/
def text (x : Binary64) : String :=
  if x.isNaN then "NaN"
  else if x.isNegative then "-" ++ x.magnitudeText
  else x.magnitudeText

end Binary64
end Intensional
