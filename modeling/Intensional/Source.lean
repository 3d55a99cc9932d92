import Intensional.Context

/-!
# Sources

A source is data from outside the program: a value for every context, and the dimensions that
the value can depend on. It is one value everywhere, or a table of rows. A row is found by the
bindings of the table's dimensions, and only by those.
-/

namespace Intensional

/-- Rows of values, each under the bindings of the table's dimensions. -/
structure Table where
  dims : IndexSet
  rows : Assoc Context Value

namespace Table

def ofDims (dims : List Dim) : Table := ⟨.ofList dims, []⟩

/-- The bindings by which a row is found. -/
def rowKey (t : Table) (k : Context) : Context := k.restrict t.dims.toList

/-- Add a row, in place of an earlier one with an equal key. -/
def insert (t : Table) (k : Context) (v : Value) : Table :=
  { t with rows := t.rows.put (t.rowKey k) v }

def ofRows (dims : List Dim) (rows : List (Context × Value)) : Table :=
  rows.foldl (fun t row => t.insert row.1 row.2) (ofDims dims)

def size (t : Table) : Nat := t.rows.length

def isEmpty (t : Table) : Bool := t.rows.isEmpty

/-- The value of the row for a context; without one it cannot be accessed. -/
def get (t : Table) (k : Context) : Value :=
  (t.rows.get? (t.rowKey k)).getD (.special .access)

end Table

inductive Source where
  | constant (v : Value)
  | table (t : Table)

namespace Source

def get : Source → Context → Value
  | .constant v, _ => v
  | .table t, k => t.get k

/-- The dimensions that the value can depend on. -/
def dims : Source → IndexSet
  | .constant _ => .empty
  | .table t => t.dims

end Source
end Intensional
