import Intensional.Context
import Intensional.DigitTree

/-!
# Tries of values

A trie holds the values of one name for many contexts. A branch looks at one dimension and goes
on by the context's value there, absence included; a leaf is a value. Contexts that differ only
in dimensions that are not looked at share a leaf, and different values at one dimension may
lead to branches on different dimensions.

`Trie.store` follows the existing branches as far as they lead and then looks at the dimensions
that are left, in ascending order. It fails exactly when it meets a leaf while dimensions are
left: that leaf already answers for contexts which the new value would tell apart.
-/

namespace Intensional

/-- A value for every context that takes the same way to a leaf. -/
inductive Trie where
  | leaf (v : Value)
  | branch (dim : Dim) (children : DigitTree (Option Value) Trie)

namespace Trie

/-! ## Finding a value -/

mutual

/-- The value for a context, if there is one, and the dimensions looked at on the way. -/
def find (k : Context) : Trie → Option Value × List Dim
  | .leaf v => (some v, [])
  | .branch dim children =>
    let key := k.get? dim
    let found := findAt k key (digest key) children
    (found.1, dim :: found.2)

/-- Go on at the child whose key is equal to `key`. The digits of `n` lead there. -/
def findAt (k : Context) (key : Option Value) : Nat → DigitTree (Option Value) Trie →
    Option Value × List Dim
  | _, .nil => (none, [])
  | n, .hole zero one =>
    if n % 2 = 0 then findAt k key (n / 2) zero else findAt k key (n / 2) one
  | n, .node key' child zero one =>
    if key' == key then find k child
    else if n % 2 = 0 then findAt k key (n / 2) zero
    else findAt k key (n / 2) one

end

mutual

def count : Trie → Nat
  | .leaf _ => 1
  | .branch _ children => countAll children

def countAll : DigitTree (Option Value) Trie → Nat
  | .nil => 0
  | .hole zero one => countAll zero + countAll one
  | .node _ child zero one => count child + (countAll zero + countAll one)

end

/-! ## Storing a value -/

/-- A trie that leads one context through the given dimensions to a leaf. -/
def path (k : Context) (v : Value) (dims : List Dim) : Trie :=
  dims.foldr (fun d t => .branch d (DigitTree.empty.put (k.get? d) t)) (.leaf v)

mutual

/-- Store `v` for the contexts that agree with `k` on the way and on the dimensions `left`. A
leaf that is met too early is a failure, with the dimensions that are left there. -/
def store (k : Context) (v : Value) (left : IndexSet) : Trie → Except IndexSet Trie
  | .leaf _ => if left.isEmpty then .ok (.leaf v) else .error left
  | .branch dim children =>
    let key := k.get? dim
    match storeAt k v (left.erase dim) key (digest key) children with
    | .ok children => .ok (.branch dim children)
    | .error left => .error left

/-- Store at the child whose key is equal to `key`, or at a new one. The digits of `n` lead
there. -/
def storeAt (k : Context) (v : Value) (left : IndexSet) (key : Option Value) :
    Nat → DigitTree (Option Value) Trie → Except IndexSet (DigitTree (Option Value) Trie)
  | _, .nil => .ok (.node key (path k v left.toList) .nil .nil)
  | n, .hole zero one =>
    if n % 2 = 0 then (storeAt k v left key (n / 2) zero).map (.hole · one)
    else (storeAt k v left key (n / 2) one).map (.hole zero ·)
  | n, .node key' child zero one =>
    if key' == key then (store k v left child).map (.node key' · zero one)
    else if n % 2 = 0 then (storeAt k v left key (n / 2) zero).map (.node key' child · one)
    else (storeAt k v left key (n / 2) one).map (.node key' child zero ·)

end

/-! ## Through the children

The way through the children of a branch is that of the map they form, so that its laws say all
that there is to say about them. -/

/-- Finding goes on at the child that the map has under the key. -/
theorem findAt_eq (k : Context) (key : Option Value) (t : DigitTree (Option Value) Trie) :
    ∀ n : Nat, findAt k key n t = ((t.getAt key n).map (find k)).getD (none, []) := by
  induction t with
  | nil => intro n; simp [findAt, DigitTree.getAt]
  | hole zero one ih₀ ih₁ =>
    intro n
    simp only [findAt, DigitTree.getAt, ih₀, ih₁]
    split <;> rfl
  | node key' child zero one ih₀ ih₁ =>
    intro n
    simp only [findAt, DigitTree.getAt, ih₀, ih₁]
    split
    · rfl
    · split <;> rfl

/-- Storing puts under the key what storing makes of the child there, or a new path. -/
theorem storeAt_eq (k : Context) (v : Value) (left : IndexSet) (key : Option Value)
    (t : DigitTree (Option Value) Trie) :
    ∀ n : Nat, storeAt k v left key n t =
      (match t.getAt key n with
        | some child => store k v left child
        | none => .ok (path k v left.toList)).map fun child => t.putAt key child n := by
  have map_map {α β γ : Type} (f : α → β) (g : β → γ) (r : Except IndexSet α) :
      (r.map f).map g = r.map (g ∘ f) := by cases r <;> rfl
  induction t with
  | nil => intro n; simp [storeAt, DigitTree.getAt, DigitTree.putAt, Except.map]
  | hole zero one ih₀ ih₁ =>
    intro n
    by_cases h : n % 2 = 0 <;>
      simp only [storeAt, DigitTree.getAt, DigitTree.putAt, h, ↓reduceIte, ih₀, ih₁, map_map] <;>
      rfl
  | node key' child zero one ih₀ ih₁ =>
    intro n
    by_cases hk : (key' == key) = true
    · simp only [storeAt, DigitTree.getAt, DigitTree.putAt, hk, ↓reduceIte]
    · by_cases h : n % 2 = 0 <;>
        simp only [storeAt, DigitTree.getAt, DigitTree.putAt, hk, h, ↓reduceIte, ih₀, ih₁, map_map,
          Bool.false_eq_true] <;>
        rfl

end Trie
end Intensional
