import Intensional.Action
import Intensional.Roster
import Intensional.Value.Lemmas

/-!
# Dimensions

A dimension is a number, and a table remembers what each number was handed out for: a name, a
value, or nothing but itself. Numbers are consecutive and never taken back, so a key keeps the
number it was first given. The first seven belong to reserved names.

A table may have a limit. A request that needs a new number of a table that already holds as
many entries as the limit fails and changes nothing; the reserved names are there in any case.
-/

namespace Intensional

/-- What a dimension was handed out for. -/
inductive DimKey where
  | named (name : String)
  | value (v : Value)
  /-- A dimension that no name and no value leads to. -/
  | anonymous

namespace DimKey

def text : DimKey → String
  | .named name => name
  | .value v => v.text
  | .anonymous => "<unique>"

def beq : DimKey → DimKey → Bool
  | .named a, .named b => a == b
  | .value a, .value b => a == b
  | .anonymous, .anonymous => true
  | _, _ => false

instance : BEq DimKey := ⟨beq⟩

theorem beq_def (a b : DimKey) : (a == b) = a.beq b := rfl

instance : EquivBEq DimKey where
  rfl {a} := by cases a <;> simp [beq_def, beq]
  symm {a b} h := by
    cases a <;> cases b <;> simp_all [beq_def, beq]
    exact BEq.symm h
  trans {a b c} h h' := by
    cases a <;> cases b <;> cases c <;> simp_all [beq_def, beq]
    exact BEq.trans h h'

instance : Digest DimKey where
  digest
    | .named name => digest name
    | .value v => digest v
    | .anonymous => 0

instance : LawfulDigest DimKey where
  digest_congr {a b} h := by
    cases a <;> cases b <;> simp_all only [beq_def, beq, Bool.false_eq_true]
    · exact digest_congr (κ := String) h
    · exact digest_congr (κ := Value) h

end DimKey

/-- The names at the first dimensions of every table, in order. -/
def Dim.reserved : List String := ["type", "text", "name", "id", "value", "time", "all"]

/-- The keys of all dimensions handed out so far. -/
structure DimTable where
  roster : Roster DimKey
  limit : Option Nat

namespace DimTable

def initial (limit : Option Nat) : DimTable := ⟨.ofList (Dim.reserved.map .named), limit⟩

instance : Inhabited DimTable := ⟨initial none⟩

def size (t : DimTable) : Nat := t.roster.size

def isFull (t : DimTable) : Bool := t.limit.any fun limit => decide (limit ≤ t.size)

def find? (t : DimTable) (name : String) : Option Dim := t.roster.find? (.named name)

/-- The dimension of a value that is no dimension itself, if it has one. -/
def findValue? (t : DimTable) (v : Value) : Option Dim := t.roster.find? (.value v)

def key? (t : DimTable) (d : Dim) : Option DimKey := (t.roster.holder? d).map (·.getD .anonymous)

/-! ## Handing out numbers -/

/-- The dimension of a key, a new one if it has none. -/
def internKey (key : DimKey) : Action DimTable Dim := fun t =>
  match h : t.roster.find? key with
  | some d => (.ok d, t)
  | none =>
    let size := t.size
    if t.isFull then (.error (.tableFull .dimension size), t)
    else (.ok size, { t with roster := t.roster.add key h })

def intern (name : String) : Action DimTable Dim := internKey (.named name)

/-- The dimension that a value denotes: a dimension denotes itself. -/
def internValue (v : Value) : Action DimTable Dim :=
  match v with
  | .dim d => fun t => (.ok d, t)
  | v => internKey (.value v)

/-- A dimension of its own. -/
def fresh : Action DimTable Dim := fun t =>
  let size := t.size
  if t.isFull then (.error (.tableFull .dimension size), t)
  else (.ok size, { t with roster := t.roster.skip })

/-- The key of a dimension; an unknown one is a fault. -/
def key (d : Dim) (t : DimTable) : Except Fault DimKey :=
  match t.key? d with
  | some k => .ok k
  | none => .error (.unknownDim d)

end DimTable
end Intensional
