import Intensional.Code.Basic
import Intensional.Guard.Basic

/-!
# Equations

An equation defines a name where its guard holds and its condition, if it has one, is true. All
equations of a name form a group. They are in the order of their times, and equations of one
time in the order in which they were installed; an equation that is replaced is installed anew.
-/

namespace Intensional

/-- What an equation says. -/
structure Definition where
  guard : Guard
  condition : Option Code
  body : Code

namespace Definition

def always (body : Code) : Definition := ⟨.always, none, body⟩

end Definition

/-- A definition under its identity, with the time of its edit and its number in the group. -/
structure Equation where
  id : Equation.Id
  definition : Definition
  time : Nat
  seq : Nat

namespace Equation

def guard (e : Equation) : Guard := e.definition.guard

def before (e f : Equation) : Bool :=
  decide (e.time < f.time) || (e.time == f.time && decide (e.seq < f.seq))

end Equation

/-- The equations of one name, in order, and the number of the next one. -/
structure Group where
  name : String
  equations : List Equation
  nextSeq : Nat

namespace Group

def empty (name : String) : Group := ⟨name, [], 0⟩

def find? (g : Group) (id : Equation.Id) : Option Equation := g.equations.find? (·.id == id)

def contains (g : Group) (id : Equation.Id) : Bool := (g.find? id).isSome

def size (g : Group) : Nat := g.equations.length

def isEmpty (g : Group) : Bool := g.equations.isEmpty

/-- Place an equation before the first one that it comes before. -/
def place (e : Equation) : List Equation → List Equation
  | [] => [e]
  | f :: fs => if e.before f then e :: f :: fs else f :: place e fs

/-- Install a definition under an identity that the group does not have. -/
def install (g : Group) (id : Equation.Id) (d : Definition) (time : Nat) : Group :=
  { g with equations := place ⟨id, d, time, g.nextSeq⟩ g.equations, nextSeq := g.nextSeq + 1 }

def erase (g : Group) (id : Equation.Id) : Group :=
  { g with equations := g.equations.eraseP (·.id == id) }

/-- Add an equation; an identity that the group has is a fault. -/
def add (g : Group) (id : Equation.Id) (d : Definition) (time : Nat) : Except Fault Group :=
  if g.contains id then .error (.duplicateId id) else .ok (g.install id d time)

/-- Replace the definition of an identity that the group has. -/
def replace? (g : Group) (id : Equation.Id) (d : Definition) (time : Nat) : Option Group :=
  if g.contains id then some ((g.erase id).install id d time) else none

/-! ## Members -/

theorem mem_place {e x : Equation} : ∀ {es : List Equation}, x ∈ place e es ↔ x = e ∨ x ∈ es
  | [] => by simp [place]
  | f :: fs => by
    have ih : x ∈ place e fs ↔ x = e ∨ x ∈ fs := mem_place
    unfold place
    split
    · simp
    · simp only [List.mem_cons, ih]
      grind

theorem mem_install {g : Group} {id : Equation.Id} {d : Definition} {time : Nat} {x : Equation} :
    x ∈ (g.install id d time).equations ↔ x = ⟨id, d, time, g.nextSeq⟩ ∨ x ∈ g.equations :=
  mem_place

end Group
end Intensional
