/-!
# Relations of a guard

A guard relates the value that a context has at a dimension to a value of its own, in one of
three ways.
-/

namespace Intensional

/-- How the value of a dimension has to relate to the value of a guard. -/
inductive Relation where
  | is
  /-- The value is a member of a range or a set. -/
  | mem
  /-- The value's type is one of a set of types. -/
  | imp
deriving DecidableEq

namespace Relation

def text : Relation → String
  | .is => ":"
  | .mem => " in "
  | .imp => " imp "

def name : Relation → String
  | .is => "Is"
  | .mem => "In"
  | .imp => "Imp"

end Relation
end Intensional
