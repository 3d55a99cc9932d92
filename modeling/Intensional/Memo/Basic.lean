import Intensional.Fault
import Intensional.Memo.Trie

/-!
# Remembered values

A memo remembers the values of names. Each name that has values has a trie. Beside the tries
stand the evaluations that are pending: those of a name at a context that have begun and not
ended. They are for exactly one context, and are looked at first.
-/

namespace Intensional

/-- The remembered values of all names, and the pending evaluations. -/
structure Memo where
  tries : Assoc String Trie
  pending : DigitTree (String × Context) Unit

namespace Memo

inductive Answer where
  | known (v : Value)
  | pending
  | unknown

def empty : Memo := ⟨[], .empty⟩

instance : Inhabited Memo := ⟨empty⟩

/-! ## Pending evaluations -/

def isPending (m : Memo) (name : String) (k : Context) : Bool := m.pending.contains (name, k)

def start (m : Memo) (name : String) (k : Context) : Memo :=
  { m with pending := m.pending.put (name, k) () }

def finish (m : Memo) (name : String) (k : Context) : Memo :=
  { m with pending := m.pending.erase (name, k) }

/-! ## Values -/

/-- What is known, and the dimensions that were looked at to find it. -/
def find (m : Memo) (name : String) (k : Context) : Answer × List Dim :=
  if m.isPending name k then (.pending, [])
  else
    match m.tries.get? name with
    | none => (.unknown, [])
    | some t =>
      match t.find k with
      | (some v, path) => (.known v, path)
      | (none, path) => (.unknown, path)

/-- Remember a value for every context that agrees with `k` on `dims`. -/
def store (m : Memo) (name : String) (k : Context) (dims : IndexSet) (v : Value) :
    Except Fault Memo :=
  match m.tries.get? name with
  | none => .ok { m with tries := m.tries.put name (.path k v dims.toList) }
  | some t =>
    match t.store k v dims with
    | .ok t => .ok { m with tries := m.tries.put name t }
    | .error left => .error (.unkeyedLeaf name left)

def holds (m : Memo) (name : String) : Bool := m.tries.contains name

def forget (m : Memo) (name : String) : Memo := { m with tries := m.tries.erase name }

def count (m : Memo) (name : String) : Nat := ((m.tries.get? name).map Trie.count).getD 0

/-- The names with remembered values, in order, with the number of values. -/
def counts (m : Memo) : List (String × Nat) :=
  (m.tries.keys.mergeSort fun a b => decide (a ≤ b)).map fun name => (name, m.count name)

def size (m : Memo) : Nat := m.tries.length

def isEmpty (m : Memo) : Bool := m.tries.isEmpty

end Memo
end Intensional
