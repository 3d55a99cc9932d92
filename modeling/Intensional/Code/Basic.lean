import Intensional.Source

/-!
# Expressions and code

An expression names its dimensions; code has their numbers. Code is what equations hold and
what is evaluated. A dimension that is known beforehand is read directly (`Code.read`), one
that has to be computed is read through the value of its key (`Code.readAt`).
-/

namespace Intensional

inductive Expr where
  | const (v : Value)
  | dimension (name : String)
  /-- The value that the context has at the dimension that `e` denotes. -/
  | read (e : Expr)
  | ident (n : String)
  | apply (op : String) (args : List Expr)
  | cond (test yes no : Expr)
  /-- The body at a context changed by the bindings, each a dimension and its value. -/
  | under (body : Expr) (bindings : List (Expr × Expr))

/-- An expression with its dimensions known, or a source. -/
inductive Code where
  | const (v : Value)
  | read (d : Dim)
  | readAt (key : Code)
  | ident (n : String)
  | apply (op : String) (args : List Code)
  | cond (test yes no : Code)
  | under (body : Code) (bindings : List (Code × Code))
  | source (s : Source)

namespace Code

instance : Inhabited Code := ⟨.const default⟩

mutual

def describe : Code → String
  | .const v => v.text
  | .read d => "#" ++ toString d
  | .readAt key => "#(" ++ describe key ++ ")"
  | .ident n => n
  | .apply op args => op ++ "(" ++ ", ".intercalate (describeAll args) ++ ")"
  | .cond test yes no =>
    "if " ++ describe test ++ " then " ++ describe yes ++ " else " ++ describe no
  | .under body bindings => describe body ++ " @ [.." ++ toString bindings.length ++ "]"
  | .source _ => "hyperdaton"

def describeAll : List Code → List String
  | [] => []
  | c :: cs => describe c :: describeAll cs

end

end Code
end Intensional
