import Intensional.Evaluation.Basic
import Intensional.Operator.Basic

/-!
# Evaluation of code

Code is evaluated by recursion on the code. What a name means is a parameter, `call`.

There are three forms. `Code.eval` takes the context itself. `Code.evalChanged` takes a base
context and a change, and looks at the two without merging them where that is enough.
`Code.evalAt` takes a base context, a list of changes and an instant of logical time.
-/

namespace Intensional

/-- The value at a dimension; an unbound dimension is a special value. -/
def Context.valueAt (k : Context) (d : Dim) : Value :=
  (k.get? d).getD (.special .dimension)

namespace Code

mutual

/-- The value of code at a context. `call` gives the values of names. -/
def eval (ops : OperatorTable) (call : String → Context → EvalM Value) :
    Code → Context → EvalM Value
  | .const v, _ => pure v
  | .read d, k => do
    EvalM.noteReads (.ofList [d])
    pure (k.valueAt d)
  | .readAt key, k => do
    let v ← eval ops call key k
    if v.isSpecial then pure v
    else do
      let d ← EvalM.internValue v
      EvalM.noteReads (.ofList [d])
      pure (k.valueAt d)
  | .ident n, k => call n k
  | .apply op args, k => do
    let vs ← evalAll ops call args k
    pure (ops.apply op vs)
  | .cond test yes no, k => do
    match ← eval ops call test k with
    | .bool true => eval ops call yes k
    | .bool false => eval ops call no k
    | .special s => pure (.special s)
    | _ => pure (.special .typeError)
  | .under body bindings, k => do
    match ← evalBindings ops call bindings k with
    | .error v => pure v
    | .ok pairs =>
      let delta := Context.ofList pairs
      let (result, reads) ← EvalM.tracked (eval ops call body (k.override delta))
      EvalM.noteReads (reads.filter fun d => !delta.contains d)
      Action.ofExcept result
  | .source s, k => do
    EvalM.noteReads s.dims
    pure (s.get k)

def evalAll (ops : OperatorTable) (call : String → Context → EvalM Value) :
    List Code → Context → EvalM (List Value)
  | [], _ => pure []
  | c :: cs, k => do
    let v ← eval ops call c k
    let vs ← evalAll ops call cs k
    pure (v :: vs)

/-- The dimensions and values of a list of bindings, or the first special value among the keys,
which ends it. -/
def evalBindings (ops : OperatorTable) (call : String → Context → EvalM Value) :
    List (Code × Code) → Context → EvalM (Except Value (List (Dim × Value)))
  | [], _ => pure (.ok [])
  | (key, value) :: rest, k => do
    let v ← eval ops call key k
    if v.isSpecial then pure (.error v)
    else do
      let d ← EvalM.internValue v
      let w ← eval ops call value k
      match ← evalBindings ops call rest k with
      | .error v => pure (.error v)
      | .ok pairs => pure (.ok ((d, w) :: pairs))

end

/-- The value at a base context changed by `delta`, without building the changed context where
one look at each of the two is enough. -/
def evalChanged (ops : OperatorTable) (call : String → Context → EvalM Value) (code : Code)
    (base delta : Context) : EvalM Value :=
  match code with
  | .const v => pure v
  | .read d => do
    EvalM.noteReads (.ofList [d])
    pure (((delta.get? d).or (base.get? d)).getD (.special .dimension))
  | code => eval ops call code (base.override delta)

end Code

structure Instant where
  tick : Nat

def Instant.text (t : Instant) : String := "@" ++ toString t.tick

namespace Code

/-- The value at a base context with changes, at an instant, and the instant for which it
holds. Nothing moves time on, so that is the instant itself. -/
def evalAt (ops : OperatorTable) (call : String → Context → EvalM Value) (code : Code)
    (base : Context) (delta : Changes) (t : Instant) : EvalM (Instant × Value) := do
  let v ← evalChanged ops call code base delta.merged
  pure (t, v)

end Code
end Intensional
