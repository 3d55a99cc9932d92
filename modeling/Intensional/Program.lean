import Intensional.Equation.Group
import Intensional.Operator.Basic

/-!
# Programs

What stays the same while names are evaluated: the limits, the operators, and the equations of
every name. `owners` leads from the identity of an equation to the name that it defines.
-/

namespace Intensional

structure Config where
  /-- How many evaluations of names may be nested. -/
  maxDepth : Nat := 100000
  caching : Bool := true

structure Program where
  config : Config
  vocabulary : Vocabulary
  groups : Assoc String Group
  owners : Assoc Equation.Id String

namespace Program

def empty (config : Config) : Program := ⟨config, .initial, [], []⟩

def group? (p : Program) (name : String) : Option Group := p.groups.get? name

def groupOf (p : Program) (name : String) : Group := (p.group? name).getD (.empty name)

/-- Keep a group under its name, or nothing if it has no equations. -/
def setGroup (p : Program) (g : Group) : Program :=
  { p with groups := if g.isEmpty then p.groups.erase g.name else p.groups.put g.name g }

def names (p : Program) : List String := p.groups.keys.mergeSort fun a b => decide (a ≤ b)

end Program
end Intensional
