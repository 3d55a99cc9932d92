import Intensional.Action
import Intensional.Context

/-!
# Guards

A guard says where an equation applies: a list of constraints, each on the value of one
dimension. A guard holds at a context if every constrained dimension is bound to a value that
its constraint allows, so the empty guard holds everywhere.

Guards are compared by refinement, which is decided constraint by constraint: `g` refines `h`
if every constraint of `h` is implied by one of `g`. Of two equations that apply, the one whose
guard refines the other's, and not the other way round, is the more specific.
-/

namespace Intensional

/-! ## Collections -/

namespace Value

/-- `v` is a member of the range or set `c`. A range is a member of the ranges that have all its
integers. -/
def memberOf (v c : Value) : Bool :=
  match v, c with
  | .int n, .range r => r.contains n
  | .range s, .range r => s.isSubset r
  | v, .set members => members.any (· == v)
  | _, _ => false

def onlyMember? : Value → Option Value
  | .range r => r.only?.map .int
  | .set [v] => some v
  | _ => none

/-- Every integer of the range is among the members. A range without a size outgrows every
list, and one with a size greater than the list's can be given up at once. -/
def holdsRange (r : IntRange) (members : List Value) : Bool :=
  r.isEmpty ||
    match r.lower, r.size? with
    | some lo, some size =>
      decide (size ≤ members.length) &&
        (List.range size).all fun i =>
          members.any (· == .int (Int64.ofInt (lo.toInt + i)))
    | _, _ => false

def subsetOf (c d : Value) : Bool :=
  match c, d with
  | .range r, .range s => r.isSubset s
  | .set members, d => members.all (·.memberOf d)
  | .range r, .set members => holdsRange r members
  | _, _ => false

def membersTyped (c : Value) (types : TypeSet) : Bool :=
  match c with
  | .range _ => types.contains TypeIndex.int
  | .set members => members.all fun v => types.contains v.typeIndex
  | _ => false

def types? : Value → Option TypeSet
  | .type types => some types
  | _ => none

end Value

/-! ## Constraints -/

structure Constraint where
  dim : Dim
  relation : Relation
  value : Value

namespace Constraint

/-- The value of the constraint can serve its relation. -/
def isWellFormed (c : Constraint) : Bool :=
  match c.relation, c.value with
  | .is, _ => true
  | .mem, .range _ => true
  | .mem, .set _ => true
  | .imp, .type _ => true
  | _, _ => false

def allows (c : Constraint) (v : Value) : Bool :=
  match c.relation with
  | .is => v == c.value
  | .mem => v.memberOf c.value
  | .imp => c.value.types?.any (·.contains v.typeIndex)

/-- Whatever `c` allows, `d` allows: decided by a table of the two relations. -/
def implies (c d : Constraint) : Bool :=
  c.dim == d.dim &&
    match c.relation, d.relation with
    | .is, _ => d.allows c.value
    | .mem, .is => c.value.onlyMember?.any (· == d.value)
    | .mem, .mem => c.value.subsetOf d.value
    | .mem, .imp => d.value.types?.any c.value.membersTyped
    | .imp, .imp => c.value.types?.any fun s => d.value.types?.any s.subset
    | .imp, _ => false

def text (c : Constraint) : String := toString c.dim ++ c.relation.text ++ c.value.text

instance : BEq Constraint :=
  ⟨fun c d => c.dim == d.dim && c.relation == d.relation && c.value == d.value⟩

end Constraint

/-! ## Guards -/

/-- The constraints on an equation, in the order in which they were given. -/
structure Guard where
  constraints : List Constraint

namespace Guard

def always : Guard := ⟨[]⟩

instance : Inhabited Guard := ⟨always⟩

instance : BEq Guard := ⟨fun g h => g.constraints == h.constraints⟩

/-- Add a constraint; one whose value cannot serve its relation is a fault. -/
def and? (g : Guard) (c : Constraint) : Except Fault Guard :=
  if c.isWellFormed then .ok ⟨g.constraints ++ [c]⟩
  else .error (.unfitGuard c.dim c.relation c.value)

/-- The guard of some constraints, or the fault of the first malformed one. -/
def ofConstraints (cs : List Constraint) : Except Fault Guard := cs.foldlM and? always

def ofPairs (pairs : List (Dim × Value)) : Guard := ⟨pairs.map fun p => ⟨p.1, .is, p.2⟩⟩

def dims (g : Guard) : IndexSet := .ofList (g.constraints.map (·.dim))

def size (g : Guard) : Nat := g.constraints.length

def isEmpty (g : Guard) : Bool := g.constraints.isEmpty

/-- Every constrained dimension is bound to a value that is allowed. -/
def holdsAt (g : Guard) (k : Context) : Bool :=
  g.constraints.all fun c => (k.get? c.dim).any c.allows

/-- Every constraint of `h` is implied by one of `g`. -/
def refines (g h : Guard) : Bool :=
  h.constraints.all fun d => g.constraints.any fun c => c.implies d

def narrower (g h : Guard) : Bool := g.refines h && !h.refines g

def text (g : Guard) : String := "[" ++ ", ".intercalate (g.constraints.map (·.text)) ++ "]"

end Guard
end Intensional
