import Intensional.Engine.Basic

/-!
# Contexts and guards with named dimensions

Outside an engine dimensions have no numbers yet: they are referred to by name, by number or by
value. Resolving a reference interns it. References are resolved from left to right, and a
guard is resolved as a whole before its constraints are looked at.
-/

namespace Intensional

/-- A way to refer to a dimension. -/
inductive DimRef where
  | name (n : String)
  | index (d : Dim)
  | value (v : Value)

namespace DimRef

def resolve : DimRef → Action Engine Dim
  | .name n => Engine.onDims (DimTable.intern n)
  | .index d => pure d
  | .value v => Engine.onDims (DimTable.internValue v)

end DimRef

namespace Engine

def resolveDims (refs : List DimRef) : Action Engine (List Dim) := Action.each DimRef.resolve refs

def resolvePairs (pairs : List (DimRef × Value)) : Action Engine (List (Dim × Value)) :=
  Action.each (fun (p : DimRef × Value) => do
    let d ← p.1.resolve
    pure (d, p.2)) pairs

def resolveContext (pairs : List (DimRef × Value)) : Action Engine Context := do
  let pairs ← resolvePairs pairs
  pure (.ofList pairs)

def resolveRows (rows : List (List (DimRef × Value) × Value)) :
    Action Engine (List (Context × Value)) :=
  Action.each (fun (row : List (DimRef × Value) × Value) => do
    let k ← resolveContext row.1
    pure (k, row.2)) rows

end Engine

/-- A guard before its dimensions are resolved. -/
inductive GuardRef where
  | constraints (cs : List (DimRef × Relation × Value))
  | pairs (ps : List (DimRef × Value))

namespace GuardRef

/-- The guard that is referred to, or the fault of its first malformed constraint. -/
def resolve : GuardRef → Action Engine Guard
  | .constraints cs => do
    let cs ← Action.each (fun (c : DimRef × Relation × Value) => do
      let d ← c.1.resolve
      pure (⟨d, c.2.1, c.2.2⟩ : Constraint)) cs
    Action.ofExcept (Guard.ofConstraints cs)
  | .pairs ps => do
    let ps ← Engine.resolvePairs ps
    pure (.ofPairs ps)

end GuardRef
end Intensional
