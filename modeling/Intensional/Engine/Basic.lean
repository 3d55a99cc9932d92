import Intensional.Evaluation.Demand

/-!
# Engines

An engine is a program with the state of its evaluations. Edits change the program and forget
every remembered value that may depend on what was edited; evaluations change the state only.
-/

namespace Intensional

/-- A program and what is known of it. -/
structure Engine where
  program : Program
  machine : Machine

namespace Engine

def initial (config : Config) : Engine := ⟨.empty config, .initial⟩

/-! ## Parts of the state -/

def run {α : Type} (m : Program → EvalM α) : Action Engine α := fun s =>
  let ran := m s.program s.machine
  (ran.1, { s with machine := ran.2 })

def onDims {α : Type} (m : Action DimTable α) : Action Engine α :=
  run fun _ => Action.within Machine.dims (fun dims s => { s with dims := dims }) m

def onTypes {α : Type} (m : Action TypeTable α) : Action Engine α :=
  Action.within (·.program.vocabulary.types)
    (fun types s =>
      { s with program :=
        { s.program with vocabulary := { s.program.vocabulary with types := types } } }) m

def updateOperators (f : OperatorTable → OperatorTable) (s : Engine) : Engine :=
  { s with program :=
    { s.program with vocabulary :=
      { s.program.vocabulary with operators := f s.program.vocabulary.operators } } }

def addOperator (name : String) (types : List TypeIndex) (op : Operator) : Action Engine Unit :=
  .update (updateOperators fun t => t.register name types op)

/-! ## Edits -/

def forget (s : Engine) (name : String) : Engine :=
  { s with machine := s.machine.forget name }

/-- Add an equation; an identity that the engine has is a fault. -/
def add (name : String) (id : Equation.Id) (d : Definition) (time : Nat) :
    Action Engine Unit := fun s =>
  if s.program.owners.contains id then (.error (.duplicateId id), s)
  else
    match (s.program.groupOf name).add id d time with
    | .error e => (.error e, s)
    | .ok group =>
      let p := s.program.setGroup group
      let p := { p with owners := p.owners.put id name }
      (.ok (), forget { s with program := p } name)

def define (name : String) (id : Equation.Id) (guard : Guard) (body : Expr) (time : Nat) :
    Action Engine Unit := do
  let code ← run fun _ => EvalM.compile body
  add name id ⟨guard, none, code⟩ time

/-- Add a source as an equation that applies everywhere. -/
def addSource (name : String) (id : Equation.Id) (source : Source) (time : Nat) :
    Action Engine Unit :=
  add name id (.always (.source source)) time

/-- Delete an equation. The answer is whether there was one. -/
def delete (id : Equation.Id) : Action Engine Bool := fun s =>
  match s.program.owners.get? id with
  | none => (.ok false, s)
  | some name =>
    let p := s.program.setGroup ((s.program.groupOf name).erase id)
    let p := { p with owners := p.owners.erase id }
    (.ok true, forget { s with program := p } name)

/-- Replace the definition of an equation. The answer is whether there was one. -/
def replace (id : Equation.Id) (d : Definition) (time : Nat) : Action Engine Bool := fun s =>
  match s.program.owners.get? id with
  | none => (.ok false, s)
  | some name =>
    match (s.program.groupOf name).replace? id d time with
    | none => (.ok false, s)
    | some group => (.ok true, forget { s with program := s.program.setGroup group } name)

def forgetAll (s : Engine) : Engine :=
  { s with machine := { s.machine with memo := .empty, readers := [] } }

def resetStats (s : Engine) : Engine := { s with machine := { s.machine with stats := {} } }

/-! ## Evaluation -/

/-- The value of a name at a context. A name without equations is undefined, and asking for it
counts for nothing. -/
def evaluate (name : String) (k : Context) : Action Engine Value :=
  run fun p =>
    match p.group? name with
    | none => pure (.special .undef)
    | some _ => p.valueOf name k

def evaluateExpr (e : Expr) (k : Context) : Action Engine Value :=
  run fun p => do
    let code ← EvalM.compile e
    p.eval code k

/-! ## Questions -/

def equations (s : Engine) (name : String) : List Equation := (s.program.groupOf name).equations

def remembered (s : Engine) (name : String) : Nat := s.machine.memo.count name

def rememberedNames (s : Engine) : List (String × Nat) :=
  let names := s.program.groups.keys.filter fun name => decide (0 < s.remembered name)
  (names.mergeSort fun a b => decide (a ≤ b)).map fun name => (name, s.remembered name)

/-- A context with the keys of its dimensions; an unknown dimension is a fault. -/
def contextText (s : Engine) (k : Context) : Except Fault String := do
  let entries ← k.entries.mapM fun e => do
    let key ← s.machine.dims.key e.1
    pure (key.text ++ ":" ++ e.2.text)
  pure ("[" ++ ", ".intercalate entries ++ "]")

end Engine
end Intensional
