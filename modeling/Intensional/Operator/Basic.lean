import Intensional.Assoc
import Intensional.TypeTable
import Intensional.Value.Basic

/-!
# Operators

An operator has a name and, for each list of operand types, at most one implementation. An
application is dispatched on the types of its operands. Where no implementation fits, the first
special operand is passed on, and without one the answer is a type error.
-/

namespace Intensional

/-- The implementation of an operator for operands of known types. -/
abbrev Operator := List Value → Value

/-- The implementations of every operator, by the types of the operands. -/
abbrev OperatorTable := Assoc String (Assoc (List TypeIndex) Operator)

namespace OperatorTable

/-- Install an implementation in place of an earlier one for the same types. -/
def register (t : OperatorTable) (name : String) (types : List TypeIndex) (op : Operator) :
    OperatorTable :=
  t.put name (((t.get? name).getD []).put types op)

def find? (t : OperatorTable) (name : String) (types : List TypeIndex) : Option Operator :=
  (t.get? name).bind (·.get? types)

/-- The first special operand, or a type error. -/
def unmatched (args : List Value) : Value :=
  (args.find? (·.isSpecial)).getD (.special .typeError)

def apply (t : OperatorTable) (name : String) (args : List Value) : Value :=
  match t.find? name (args.map (·.typeIndex)) with
  | some op => op args
  | none => unmatched args

end OperatorTable

structure Vocabulary where
  types : TypeTable
  operators : OperatorTable

namespace Vocabulary

def initial : Vocabulary := ⟨.initial, []⟩

instance : Inhabited Vocabulary := ⟨initial⟩

end Vocabulary
end Intensional
