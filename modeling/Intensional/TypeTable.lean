import Intensional.Action
import Intensional.Roster
import Intensional.TypeIndex

/-!
# The table of types

Types are registered by name. A name keeps the number it was first given, numbers are
consecutive, and there are as many as sixteen bits can tell apart.
-/

namespace Intensional

/-- The names of all types, each at its own number. -/
structure TypeTable where
  roster : Roster String

namespace TypeTable

def capacity : Nat := 65536

def size (t : TypeTable) : Nat := t.roster.size

def find? (t : TypeTable) (name : String) : Option TypeIndex := t.roster.find? name

def name? (t : TypeTable) (i : TypeIndex) : Option String := (t.roster.holder? i).join

def names (t : TypeTable) : List String := t.roster.keys

def initial : TypeTable := ⟨.ofList TypeIndex.builtinNames⟩

instance : Inhabited TypeTable := ⟨initial⟩

/-- The number of a type, a new one if the name has none. -/
def register (name : String) : Action TypeTable TypeIndex := fun t =>
  match h : t.roster.find? name with
  | some i => (.ok i, t)
  | none =>
    let size := t.size
    if size < capacity then (.ok size, ⟨t.roster.add name h⟩)
    else (.error (.tableFull .type size), t)

def registerAll : List String → Action TypeTable Unit
  | [], t => (.ok (), t)
  | name :: names, t =>
    match register name t with
    | (.ok _, t) => registerAll names t
    | (.error e, t) => (.error e, t)

end TypeTable
end Intensional
