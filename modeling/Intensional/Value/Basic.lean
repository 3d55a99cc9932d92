import Intensional.Binary64
import Intensional.IntRange
import Intensional.Special
import Intensional.TypeIndex

/-!
# Values

Names are evaluated to values: special values, the built-in kinds of data, ranges, sets and
types (which serve as constraints in guards), dimensions, and values of foreign kinds. A
foreign value is known by its type and a key; its label is carried along and is never looked
at. A foreign type may share its number with a built-in one.
-/

namespace Intensional

abbrev Dim := Nat

inductive Value where
  | special (s : Special)
  | bool (b : Bool)
  | int (n : Int64)
  | float (x : Binary64)
  | char (c : Char)
  | str (s : String)
  | range (r : IntRange)
  /-- A finite set, its members in ascending order. -/
  | set (members : List Value)
  | type (types : TypeSet)
  | dim (d : Dim)
  | foreign (type : TypeIndex) (key : Int64) (label : String)

namespace Value

instance : Inhabited Value := ⟨.special .error⟩

def typeIndex : Value → TypeIndex
  | .special _ => TypeIndex.special
  | .bool _ => TypeIndex.bool
  | .int _ => TypeIndex.int
  | .float _ => TypeIndex.float
  | .char _ => TypeIndex.char
  | .str _ => TypeIndex.string
  | .range _ => TypeIndex.range
  | .set _ => TypeIndex.set
  | .type _ => TypeIndex.type
  | .dim _ => TypeIndex.dimension
  | .foreign t _ _ => t

/-! ## Views -/

def special? : Value → Option Special
  | .special s => some s
  | _ => none

def int? : Value → Option Int64
  | .int n => some n
  | _ => none

def bool? : Value → Option Bool
  | .bool b => some b
  | _ => none

def isSpecial (v : Value) : Bool := v.special?.isSome

def isTrue (v : Value) : Bool := v.bool? == some true

/-! ## Text -/

mutual

/-- The text of a value. Characters and strings are quoted and not escaped. -/
def text : Value → String
  | .special s => s.text
  | .bool true => "true"
  | .bool false => "false"
  | .int n => toString n.toInt
  | .float x => x.text
  | .char c => "'" ++ String.singleton c ++ "'"
  | .str s => "\"" ++ s ++ "\""
  | .range r => r.text
  | .set members => "\x7b" ++ ", ".intercalate (texts members) ++ "\x7d"
  | .type types => TypeSet.text types
  | .dim d => "dimension<" ++ toString d ++ ">"
  | .foreign _ key label => "opaque<" ++ toString key.toInt ++ "," ++ label ++ ">"

def texts : List Value → List String
  | [] => []
  | v :: vs => text v :: texts vs

end

end Value
end Intensional
