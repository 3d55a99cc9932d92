import Intensional.IndexSet

/-!
# Types and sets of types

Every value has a type, and types are numbered. The ten kinds of value that are built in take
the first ten numbers; the others are handed out to extensions. A set of types serves as a
constraint on values: the value's type is one of them.
-/

namespace Intensional

abbrev TypeIndex := Nat

namespace TypeIndex

def string : TypeIndex := 0
def int : TypeIndex := 1
def bool : TypeIndex := 2
def special : TypeIndex := 3
def char : TypeIndex := 4
def float : TypeIndex := 5
def range : TypeIndex := 6
def set : TypeIndex := 7
def type : TypeIndex := 8
def dimension : TypeIndex := 9

def builtinNames : List String :=
  ["ustring", "intmp", "bool", "special", "uchar", "float", "range", "set", "type", "dimension"]

/-- The name of a built-in type, or the number of another. -/
def text (t : TypeIndex) : String :=
  match builtinNames[t]? with
  | some name => name
  | none => "#" ++ toString t

end TypeIndex

abbrev TypeSet := IndexSet

namespace TypeSet

def text (s : TypeSet) : String :=
  "type<" ++ "|".intercalate (s.toList.map TypeIndex.text) ++ ">"

end TypeSet
end Intensional
