import Intensional.Evaluation.Code
import Intensional.Evaluation.Equation
import Intensional.Program

/-!
# Evaluation on demand

A name is evaluated at a context when its value is asked for. A remembered value is the answer.
A name whose evaluation at the same context is pending is a cycle, and answers the special value
`loop`. Otherwise its equations are evaluated, and the value is remembered for all contexts that
agree on the dimensions that were read.

The machine counts how deep evaluations are nested, and at the depth that the configuration
allows at most the answer is a fault. `Program.demand` ties names and code together by recursion
on the number of evaluations that may still be nested, and `Program.valueOf` takes this number
from the depth of the machine. It satisfies the equation in which every name that is to be
evaluated looks at the depth anew (`Program.valueOf_eq`).
-/

namespace Intensional
namespace Program

/-- What is known about a name at a context. Without caching only cycles are. -/
def peek (p : Program) (name : String) (k : Context) (s : Machine) : Memo.Answer × List Dim :=
  if p.config.caching then s.memo.find name k
  else if s.memo.isPending name k then (.pending, [])
  else (.unknown, [])

/-- The answer for a name that need not be evaluated. A remembered value depends on the
dimensions that were looked at to find it; a cycle depends on all that the context binds, and
makes every frame provisional that it goes through. -/
def answer? (p : Program) (name : String) (k : Context) : EvalM (Option Value) := fun s =>
  match p.peek name k s with
  | (.known v, path) => (.ok (some v), s.countHit.noteReads (.ofList path))
  | (.pending, _) =>
    let s := s.countLoop
    let s := { s with frames := Frame.markProvisional name k s.frames }
    (.ok (some (.special .loop)), s.noteReads k.dims)
  | (.unknown, _) => (.ok none, s.countMiss)

/-- Evaluate a name by `body` in a frame of its own, and remember the value for all contexts that
agree on what was read, unless the frame is provisional. What was read counts as read by the
frame further out too. -/
def compute (p : Program) (name : String) (k : Context) (body : EvalM Value) : EvalM Value :=
  fun s =>
    let depth := s.depth
    let ran := body (s.enter name k)
    let left := ran.2.leave name k depth
    let frame := left.1
    let s := left.2
    match ran.1 with
    | .error e => (.error e, s)
    | .ok v =>
      if p.config.caching && !frame.provisional then
        match s.memo.store name k frame.reads v with
        | .error e => (.error e, s)
        | .ok memo =>
          (.ok v, ({ s with memo := memo } : Machine).countStore.noteReads frame.reads)
      else (.ok v, s.noteReads frame.reads)

/-- Ask for a name: a name without equations is undefined, a known answer is given again, and
otherwise the equations are evaluated by `evaluate`. -/
def ask (p : Program) (name : String) (k : Context) (evaluate : Group → EvalM Value) :
    EvalM Value := do
  Action.update fun s => s.countEvaluation.noteReader name
  match p.group? name with
  | none => pure (.special .undef)
  | some group =>
    match ← p.answer? name k with
    | some v => pure v
    | none => evaluate group

/-- The value of a name at a context, if at most `room` evaluations may be nested from here. -/
def demand (p : Program) : Nat → String → Context → EvalM Value
  | 0, name, k => p.ask name k fun _ => .fault (.tooDeep name p.config.maxDepth)
  | room + 1, name, k => p.ask name k fun group =>
      p.compute name k
        (group.value (Code.eval p.vocabulary.operators (p.demand room)) k)

/-- How many evaluations the depth leaves room for. -/
def room (p : Program) (s : Machine) : Nat := p.config.maxDepth - s.depth

/-- The value of a name at a context, with the room that there is. -/
def valueOf (p : Program) (name : String) (k : Context) : EvalM Value := fun s =>
  p.demand (p.room s) name k s

def eval (p : Program) (code : Code) (k : Context) : EvalM Value :=
  code.eval p.vocabulary.operators p.valueOf k

def evalChanged (p : Program) (code : Code) (base delta : Context) : EvalM Value :=
  code.evalChanged p.vocabulary.operators p.valueOf base delta

def evalAt (p : Program) (code : Code) (base : Context) (delta : Changes) (t : Instant) :
    EvalM (Instant × Value) :=
  code.evalAt p.vocabulary.operators p.valueOf base delta t

end Program
end Intensional
