import Intensional.Operator.Basic
import Intensional.Text.Quoted

/-!
# Outline of a vocabulary

The types and operators that a program can use, in one line.
-/

namespace Intensional
namespace Vocabulary

/-- A summary: the names of the types in order, and how many operators have a name. -/
def outline (r : Vocabulary) : String :=
  "TypeRegistry \x7b types: [" ++ ", ".intercalate (r.types.names.map Text.quoted) ++
    "], ops: " ++ toString r.operators.length ++ " \x7d"

end Vocabulary
end Intensional
