/-!
# Identities of equations

An equation is known by 128 bits, given by whoever edits the program. They are written as
twenty-six digits to the base thirty-two, in an alphabet that leaves out the letters that are
taken for digits.
-/

namespace Intensional

structure Equation.Id where
  bits : BitVec 128
deriving DecidableEq

namespace Equation.Id

/-- The digits of base thirty-two: no `I`, `L`, `O` or `U`. -/
def digits : List Char := "0123456789ABCDEFGHJKMNPQRSTVWXYZ".toList

def digit (n : Nat) : Char := (digits[n % 32]?).getD '0'

/-- The twenty-six digits of an identity, the highest first. -/
def text (id : Equation.Id) : String :=
  String.ofList ((List.range 26).reverse.map fun i => digit (id.bits.toNat / Nat.pow 32 i))

end Equation.Id
end Intensional
