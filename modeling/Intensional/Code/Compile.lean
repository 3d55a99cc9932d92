import Intensional.Code.Basic
import Intensional.Dimension

/-!
# From expressions to code

Compiling an expression interns every dimension that it names, from left to right; bindings
come before the body they are for. Two forms are refused: a dimension with the empty name,
and reading at a special value. What was interned before a refusal stays interned.
-/

namespace Intensional
namespace Expr

/-- The dimension of a name that is not empty. -/
def namedDim (name : String) : Action DimTable Dim :=
  if name = "" then .fault (.notADimension "") else DimTable.intern name

mutual

def compile : Expr → Action DimTable Code
  | .const v => pure (.const v)
  | .dimension name => do
    let d ← namedDim name
    pure (.const (.dim d))
  | .read (.dimension name) => do
    let d ← namedDim name
    pure (.read d)
  | .read (.const v) =>
    if v.isSpecial then .fault (.notADimension v.text)
    else do
      let d ← DimTable.internValue v
      pure (.read d)
  | .read e => do
    let key ← compile e
    pure (.readAt key)
  | .ident n => pure (.ident n)
  | .apply op args => do
    let args ← compileAll args
    pure (.apply op args)
  | .cond test yes no => do
    let test ← compile test
    let yes ← compile yes
    let no ← compile no
    pure (.cond test yes no)
  | .under body bindings => do
    let bindings ← compileBindings bindings
    let body ← compile body
    pure (.under body bindings)

def compileAll : List Expr → Action DimTable (List Code)
  | [] => pure []
  | e :: es => do
    let c ← compile e
    let cs ← compileAll es
    pure (c :: cs)

/-- The codes of a list of bindings, each key before its value. -/
def compileBindings : List (Expr × Expr) → Action DimTable (List (Code × Code))
  | [] => pure []
  | (key, value) :: rest => do
    let key ← compile key
    let value ← compile value
    let rest ← compileBindings rest
    pure ((key, value) :: rest)

end

/-- Where it is not known beforehand what is read, the key is compiled. -/
theorem compile_read {e : Expr} (hname : ∀ name, e ≠ .dimension name)
    (hconst : ∀ v, e ≠ .const v) :
    (Expr.read e).compile = (do let key ← e.compile; pure (.readAt key)) := by
  rw [compile] <;> assumption

end Expr
end Intensional
