import Intensional.Code.Compile
import Intensional.Machine

/-!
# Steps of an evaluation

An evaluation is an action on the machine: it interns dimensions, notes what it reads, and may
run a part of itself in a frame of its own to learn what that part reads.
-/

namespace Intensional

abbrev EvalM := Action Machine

namespace EvalM

def noteReads (dims : IndexSet) : EvalM Unit := .update (·.noteReads dims)

def internValue (v : Value) : EvalM Dim :=
  Action.within Machine.dims (fun dims s => { s with dims := dims }) (DimTable.internValue v)

def compile (e : Expr) : EvalM Code :=
  Action.within Machine.dims (fun dims s => { s with dims := dims }) e.compile

/-- Run `m` in a frame of its own. The answer is the result of `m`, a fault included, and the
dimensions that it read. -/
def tracked {α : Type} (m : EvalM α) : EvalM (Except Fault α × IndexSet) := fun s =>
  let ran := m (s.push (.new none))
  let popped := ran.2.pop
  (.ok (ran.1, popped.1.reads), popped.2)

end EvalM
end Intensional
