import Intensional.Equation.Id
import Intensional.Guard.Relation
import Intensional.Value.Basic

/-!
# Faults

A fault ends the request that meets it. Undefined names, cycles and type errors are no faults:
they are special values. A fault reports a malformed input, a limit that was reached, or
remembered values that contradict each other. Each cause has its data, and `Fault.message` is
the one place where they are worded.
-/

namespace Intensional

inductive InternTable where
  | dimension
  | type
deriving DecidableEq

def InternTable.name : InternTable → String
  | .dimension => "dimension"
  | .type => "type"

inductive Fault where
  /-- The value of a guard cannot serve its relation. -/
  | unfitGuard (dim : Dim) (relation : Relation) (value : Value)
  | duplicateId (id : Equation.Id)
  /-- A stored value was met before all the dimensions it would be stored under. -/
  | unkeyedLeaf (name : String) (dims : IndexSet)
  | unknownDim (dim : Dim)
  | tooDeep (name : String) (limit : Nat)
  | tableFull (table : InternTable) (size : Nat)
  | notADimension (text : String)
  | libraryFailed (library reason : String)

namespace Fault

def message : Fault → String
  | .unfitGuard dim relation value =>
    "malformed guard on dimension " ++ toString dim ++ ": `" ++ value.text ++
      "` cannot be used with `" ++ relation.name ++ "`"
  | .duplicateId id => "equation " ++ id.text ++ " is already defined"
  | .unkeyedLeaf name dims =>
    "cache for `" ++ name ++ "` is structurally inconsistent: " ++
      "leaf reached with unkeyed dimensions [" ++
      ", ".intercalate (dims.toList.map toString) ++ "]"
  | .unknownDim dim =>
    "dimension index " ++ toString dim ++ " is not known to the translator"
  | .tooDeep name limit =>
    "evaluation of `" ++ name ++ "` exceeded the maximum depth of " ++ toString limit
  | .tableFull table size =>
    "the " ++ table.name ++ " table is full at " ++ toString size ++ " entries"
  | .notADimension text => "value `" ++ text ++ "` cannot be used as a dimension"
  | .libraryFailed library reason =>
    "library `" ++ library ++ "` failed to register: " ++ reason

end Fault
end Intensional
