import Intensional.Assoc
import Intensional.Value.Order

/-!
# Contexts

A context gives values to finitely many dimensions. It is a strictly ascending list of
bindings, so a context has one form only, and equality, order and text go binding by binding.

`Context.override` changes one context by another. `Changes` are contexts that override one after
the other; applying them to a base is the same as overriding the base by all of them merged.
-/

namespace Intensional

/-- A finite map from dimensions to values, by ascending dimension. -/
structure Context where
  entries : List (Dim × Value)
  ascending : (entries.map (·.1)).Pairwise (· < ·)

namespace Context

/-! ## Building a context -/

def empty : Context := ⟨[], .nil⟩

instance : Inhabited Context := ⟨empty⟩

/-- Bind `d` in an ascending list of bindings, in place of an earlier binding. -/
def place (d : Dim) (v : Value) : List (Dim × Value) → List (Dim × Value)
  | [] => [(d, v)]
  | (e, w) :: rest =>
    if d < e then (d, v) :: (e, w) :: rest
    else if d = e then (d, v) :: rest
    else (e, w) :: place d v rest

theorem mem_dims_place {d e : Dim} {v : Value} :
    ∀ {es : List (Dim × Value)}, e ∈ (place d v es).map (·.1) ↔ e = d ∨ e ∈ es.map (·.1)
  | [] => by simp [place]
  | (d', w) :: rest => by
    unfold place
    split
    · simp
    · split
      · rename_i h
        subst h
        simp
      · have ih : e ∈ (place d v rest).map (·.1) ↔ e = d ∨ e ∈ rest.map (·.1) := mem_dims_place
        simp only [List.map_cons, List.mem_cons, ih]
        grind

theorem pairwise_place {d : Dim} {v : Value} : ∀ {es : List (Dim × Value)},
    (es.map (·.1)).Pairwise (· < ·) → ((place d v es).map (·.1)).Pairwise (· < ·)
  | [], _ => by simp [place]
  | (e, w) :: rest, h => by
    obtain ⟨he, hrest⟩ := List.pairwise_cons.mp h
    unfold place
    split
    · rename_i hd
      refine List.pairwise_cons.mpr ⟨fun x hx => ?_, h⟩
      rcases List.mem_cons.mp hx with rfl | hx
      · exact hd
      · exact Nat.lt_trans hd (he x hx)
    · split
      · rename_i hd
        exact List.pairwise_cons.mpr ⟨fun x hx => hd ▸ he x hx, hrest⟩
      · refine List.pairwise_cons.mpr ⟨fun x hx => ?_, pairwise_place hrest⟩
        rcases mem_dims_place.mp hx with rfl | hx
        · grind
        · exact he x hx

def insert (k : Context) (d : Dim) (v : Value) : Context :=
  ⟨place d v k.entries, pairwise_place k.ascending⟩

def insertAll (k : Context) (pairs : List (Dim × Value)) : Context :=
  pairs.foldl (fun k p => k.insert p.1 p.2) k

/-- The context of some pairs; of several pairs with one dimension the last counts. -/
def ofList (pairs : List (Dim × Value)) : Context := empty.insertAll pairs

/-- Override or extend `k` by the bindings of `delta`. -/
def override (k delta : Context) : Context := k.insertAll delta.entries

def restrict (k : Context) (dims : List Dim) : Context where
  entries := k.entries.filter fun e => dims.contains e.1
  ascending := List.Pairwise.sublist (List.filter_sublist.map _) k.ascending

/-! ## Questions -/

def get? (k : Context) (d : Dim) : Option Value := Assoc.get? k.entries d

def contains (k : Context) (d : Dim) : Bool := (k.get? d).isSome

def dims (k : Context) : IndexSet := ⟨k.entries.map (·.1), k.ascending⟩

def size (k : Context) : Nat := k.entries.length

def isEmpty (k : Context) : Bool := k.entries.isEmpty

instance : BEq Context := ⟨fun k l => k.entries == l.entries⟩

def compareEntry (a b : Dim × Value) : Ordering :=
  (Ord.compare a.1 b.1).then (a.2.compare b.2)

/-- Contexts are ordered binding by binding, a shorter one before its extensions. -/
def compare (k l : Context) : Ordering := List.compareLex compareEntry k.entries l.entries

def features (k : Context) : List Nat :=
  k.size :: k.entries.flatMap fun e => e.1 :: e.2.features

instance : Digest Context := ⟨fun k => Digest.ofNumbers k.features⟩

def text (k : Context) : String :=
  "[" ++ ", ".intercalate (k.entries.map fun e => toString e.1 ++ ":" ++ e.2.text) ++ "]"

/-! ## Laws of lookup -/

@[simp] theorem get?_empty (d : Dim) : empty.get? d = none := rfl

theorem get?_place (d e : Dim) (v : Value) : ∀ es : List (Dim × Value),
    Assoc.get? (place d v es) e = if e = d then some v else Assoc.get? es e
  | [] => by simp only [place, Assoc.get?_cons]; grind
  | (d', w) :: rest => by
    unfold place
    split
    · simp only [Assoc.get?_cons]; grind
    · split
      · rename_i h
        subst h
        simp only [Assoc.get?_cons]
        grind
      · simp only [Assoc.get?_cons, get?_place d e v rest]
        grind

@[simp] theorem get?_insert (k : Context) (d e : Dim) (v : Value) :
    (k.insert d v).get? e = if e = d then some v else k.get? e :=
  get?_place d e v k.entries

end Context

/-- Changes of a context, to be made one after the other. None of them is empty. -/
structure Changes where
  steps : List Context

namespace Changes

def empty : Changes := ⟨[]⟩

/-- One more change; an empty one is no change. -/
def add (cs : Changes) (change : Context) : Changes :=
  if change.isEmpty then cs else ⟨cs.steps ++ [change]⟩

def ofList (changes : List Context) : Changes := changes.foldl add empty

def apply (cs : Changes) (base : Context) : Context := cs.steps.foldl Context.override base

def merged (cs : Changes) : Context := cs.apply .empty

def isEmpty (cs : Changes) : Bool := cs.steps.isEmpty

end Changes
end Intensional
