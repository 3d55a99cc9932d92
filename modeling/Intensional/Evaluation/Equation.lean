import Intensional.Equation.Choice
import Intensional.Evaluation.Basic

/-!
# Evaluation of equations

To find the value of a name at a context, its equations are tried in order. An equation applies
if its guard holds and its condition, if any, is true. The dimensions of every guard are read,
whether it holds or not. The body of the equation that is chosen gives the value.
-/

namespace Intensional

namespace Equation

/-- The equation applies: its guard holds, and its condition, if any, is true. The dimensions of
the guard are read in any case. -/
def applies (eval : Code → Context → EvalM Value) (k : Context) (e : Equation) : EvalM Bool := do
  EvalM.noteReads e.guard.dims
  if e.guard.holdsAt k then
    match e.definition.condition with
    | none => pure true
    | some condition => do
      let v ← eval condition k
      pure v.isTrue
  else pure false

end Equation

def applicable (eval : Code → Context → EvalM Value) (k : Context) :
    List Equation → EvalM (List Equation)
  | [] => pure []
  | e :: es => do
    let applies ← e.applies eval k
    let rest ← applicable eval k es
    pure (if applies then e :: rest else rest)

namespace Group

def choose (eval : Code → Context → EvalM Value) (g : Group) (k : Context) : EvalM Choice := do
  let es ← applicable eval k g.equations
  pure (.among es)

/-- The value of the group's name at a context, from its equations. -/
def value (eval : Code → Context → EvalM Value) (g : Group) (k : Context) : EvalM Value := do
  match ← g.choose eval k with
  | .only e => eval e.definition.body k
  | .nothing => pure (.special .undef)
  | .tied _ => pure (.special .multiDef)

end Group
end Intensional
