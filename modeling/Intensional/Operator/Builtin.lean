import Intensional.Operator.Basic
import Intensional.Value.Order

/-!
# Built-in operators

Arithmetic on integers is exact: a result that does not fit in 64 bits, like a division by
zero, is the special value `arith`. Division truncates. Arithmetic on doubles is that of IEEE
754. Comparisons use the order of values. An implementation is chosen by the types of its
operands, so a foreign value that shares the number of a built-in type can reach it; such an
operand is a type error, except to comparisons, which take every value.
-/

namespace Intensional
namespace Builtin

/-! ## Integers -/

def fits (n : Int) : Bool :=
  decide (Int64.minValue.toInt ≤ n) && decide (n ≤ Int64.maxValue.toInt)

def exact (n : Int) : Value := if fits n then .int (Int64.ofInt n) else .special .arith

/-- An operation on two integers, undefined where `f` is. -/
def onInts (f : Int → Int → Option Int) : Operator
  | [.int a, .int b] => ((f a.toInt b.toInt).map exact).getD (.special .arith)
  | _ => .special .typeError

def quotient (a b : Int) : Option Int := if b = 0 then none else some (a.tdiv b)

/-- The remainder has a value where the quotient has one that fits. -/
def remainder (a b : Int) : Option Int :=
  if (quotient a b).any fits then some (a.tmod b) else none

def negateInt : Operator
  | [.int a] => exact (-a.toInt)
  | _ => .special .typeError

def rangeOf : Operator
  | [.int a, .int b] => .range ⟨some a, some b⟩
  | _ => .special .typeError

/-! ## Doubles, truth values and strings -/

def onFloats (f : Binary64 → Binary64 → Binary64) : Operator
  | [.float a, .float b] => .float (f a b)
  | _ => .special .typeError

def negateFloat : Operator
  | [.float a] => .float a.neg
  | _ => .special .typeError

def onBools (f : Bool → Bool → Bool) : Operator
  | [.bool a, .bool b] => .bool (f a b)
  | _ => .special .typeError

def negateBool : Operator
  | [.bool a] => .bool !a
  | _ => .special .typeError

def concat : Operator
  | [.str a, .str b] => .str (a ++ b)
  | _ => .special .typeError

/-! ## Comparisons -/

def onOrder (test : Ordering → Bool) : Operator
  | [a, b] => .bool (test (a.compare b))
  | _ => .special .typeError

def equalities : List (String × (Ordering → Bool)) :=
  [("==", Ordering.isEq), ("!=", Ordering.isNe)]

def comparisons : List (String × (Ordering → Bool)) :=
  equalities ++
    [("<", Ordering.isLT), ("<=", Ordering.isLE), (">", Ordering.isGT), (">=", Ordering.isGE)]

/-! ## The library -/

def operators : List (String × List TypeIndex × Operator) :=
  let ints := [TypeIndex.int, TypeIndex.int]
  let floats := [TypeIndex.float, TypeIndex.float]
  let bools := [TypeIndex.bool, TypeIndex.bool]
  let ordered := [TypeIndex.int, TypeIndex.float, TypeIndex.string, TypeIndex.char]
  let equatable :=
    [TypeIndex.bool, TypeIndex.range, TypeIndex.set, TypeIndex.type, TypeIndex.dimension]
  [ ("+", ints, onInts fun a b => some (a + b)),
    ("-", ints, onInts fun a b => some (a - b)),
    ("*", ints, onInts fun a b => some (a * b)),
    ("/", ints, onInts quotient),
    ("%", ints, onInts remainder),
    ("neg", [TypeIndex.int], negateInt),
    ("..", ints, rangeOf),
    ("+", floats, onFloats Binary64.add),
    ("-", floats, onFloats Binary64.sub),
    ("*", floats, onFloats Binary64.mul),
    ("/", floats, onFloats Binary64.div),
    ("neg", [TypeIndex.float], negateFloat),
    ("&&", bools, onBools and),
    ("||", bools, onBools or),
    ("!", [TypeIndex.bool], negateBool),
    ("+", [TypeIndex.string, TypeIndex.string], concat) ] ++
  (ordered.flatMap fun t => comparisons.map fun c => (c.1, [t, t], onOrder c.2)) ++
  (equatable.flatMap fun t => equalities.map fun c => (c.1, [t, t], onOrder c.2))

def install (t : OperatorTable) : OperatorTable :=
  operators.foldl (fun t o => t.register o.1 o.2.1 o.2.2) t

end Builtin
end Intensional
