import Intensional.Equation.Group

/-!
# Outlines of equations

An outline shows the parts of an equation by name, for a reader who looks for a fault. Code is
not shown; only whether there is a condition.
-/

namespace Intensional

def Outline.record (name : String) (fields : List (String × String)) : String :=
  name ++ " \x7b " ++ ", ".intercalate (fields.map fun f => f.1 ++ ": " ++ f.2) ++ " \x7d"

def Outline.bound : Option Int64 → String
  | none => "None"
  | some n => "Some(" ++ toString n.toInt ++ ")"

def Outline.bool (b : Bool) : String := if b then "true" else "false"

/-- Integers and ranges show their parts, every other value its text. -/
def Value.outline : Value → String
  | .int n => "Int(" ++ toString n.toInt ++ ")"
  | .range r =>
    "Range(" ++ Outline.record "Range"
      [("lower", Outline.bound r.lower), ("upper", Outline.bound r.upper)] ++ ")"
  | v => v.text

def Constraint.outline (c : Constraint) : String :=
  Outline.record "RegionEntry"
    [("dim", "DimensionIndex(" ++ toString c.dim ++ ")"),
      ("containment", c.relation.name), ("value", c.value.outline)]

def Guard.outline (g : Guard) : String :=
  Outline.record "Region"
    [("entries", "[" ++ ", ".intercalate (g.constraints.map (·.outline)) ++ "]")]

def Definition.outline (d : Definition) : String :=
  Outline.record "Definition"
    [("guard", d.guard.outline), ("conditional", Outline.bool d.condition.isSome)]

def Equation.outline (e : Equation) : String :=
  Outline.record "Equation"
    [("id", "EquationId(Ulid(" ++ toString e.id.bits.toNat ++ "))"),
      ("guard", e.guard.outline),
      ("conditional", Outline.bool e.definition.condition.isSome),
      ("time", toString e.time), ("seq", toString e.seq)]

end Intensional
