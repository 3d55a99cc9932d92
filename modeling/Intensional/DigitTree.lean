import Intensional.Digest

/-!
# Digit trees

A finite map up to an equality, as a binary tree. A key is looked for along the binary digits of
its digest, the last one first: every node on the way may hold it. So looking for a key that is
one of many takes no more steps than their number has digits, if the digests are spread.

Nothing is asked of the shape of a tree. The laws hold for every tree, because equal keys have
one digest and so go one way: what `put` leaves behind and `erase` takes away is found or missed
by the keys equal to the one given (`get?_put`, `get?_erase`), and by no other.
-/

namespace Intensional

inductive DigitTree (κ ν : Type) where
  | nil
  /-- A place that holds nothing, on the way to places that do. -/
  | hole (zero one : DigitTree κ ν)
  | node (key : κ) (value : ν) (zero one : DigitTree κ ν)

namespace DigitTree

variable {κ ν : Type}

def empty : DigitTree κ ν := .nil

instance : Inhabited (DigitTree κ ν) := ⟨empty⟩

/-- Two trees with nothing above them. -/
def vacant : DigitTree κ ν → DigitTree κ ν → DigitTree κ ν
  | .nil, .nil => .nil
  | zero, one => .hole zero one

/-! ## Along some digits

Each operation goes by the digits of `n`, which is the digest of the key or what is left of it. -/

section Digits

variable [BEq κ]

/-- The value under a key whose digits are those of `n`. -/
def getAt (key : κ) : Nat → DigitTree κ ν → Option ν
  | _, .nil => none
  | n, .hole zero one => if n % 2 = 0 then getAt key (n / 2) zero else getAt key (n / 2) one
  | n, .node k v zero one =>
    if k == key then some v
    else if n % 2 = 0 then getAt key (n / 2) zero else getAt key (n / 2) one

/-- Put a value under a key whose digits are those of `n`. The key of an equal entry stays. -/
def putAt (key : κ) (value : ν) : Nat → DigitTree κ ν → DigitTree κ ν
  | _, .nil => .node key value .nil .nil
  | n, .hole zero one =>
    if n % 2 = 0 then .hole (putAt key value (n / 2) zero) one
    else .hole zero (putAt key value (n / 2) one)
  | n, .node k v zero one =>
    if k == key then .node k value zero one
    else if n % 2 = 0 then .node k v (putAt key value (n / 2) zero) one
    else .node k v zero (putAt key value (n / 2) one)

/-- Erase every entry on the way of `n` whose key is equal to `key`. -/
def eraseAt (key : κ) : Nat → DigitTree κ ν → DigitTree κ ν
  | _, .nil => .nil
  | n, .hole zero one =>
    if n % 2 = 0 then vacant (eraseAt key (n / 2) zero) one
    else vacant zero (eraseAt key (n / 2) one)
  | n, .node k v zero one =>
    if k == key then
      if n % 2 = 0 then vacant (eraseAt key (n / 2) zero) one
      else vacant zero (eraseAt key (n / 2) one)
    else if n % 2 = 0 then .node k v (eraseAt key (n / 2) zero) one
    else .node k v zero (eraseAt key (n / 2) one)

end Digits

/-! ## The map -/

variable [BEq κ] [Digest κ]

def get? (t : DigitTree κ ν) (key : κ) : Option ν := t.getAt key (digest key)

def contains (t : DigitTree κ ν) (key : κ) : Bool := (t.get? key).isSome

def put (t : DigitTree κ ν) (key : κ) (value : ν) : DigitTree κ ν :=
  t.putAt key value (digest key)

def erase (t : DigitTree κ ν) (key : κ) : DigitTree κ ν := t.eraseAt key (digest key)

/-! ## Laws -/

omit [Digest κ] in
theorem getAt_vacant (key : κ) (n : Nat) (zero one : DigitTree κ ν) :
    (vacant zero one).getAt key n = (hole zero one).getAt key n := by
  unfold vacant
  split <;> simp [getAt]

omit [Digest κ] in
/-- Putting along some digits, and looking along others that are the same for an equal key. -/
theorem getAt_putAt [EquivBEq κ] {k l : κ} (v : ν) (t : DigitTree κ ν) :
    ∀ {m n : Nat}, ((k == l) = true → m = n) →
      (t.putAt k v m).getAt l n = if k == l then some v else t.getAt l n := by
  induction t with
  | nil => simp [putAt, getAt]
  | hole zero one ih₀ ih₁ =>
    intro m n h
    have h' : (k == l) = true → m / 2 = n / 2 := fun e => by rw [h e]
    simp only [putAt, getAt]
    split <;> simp only [getAt, ih₀ h', ih₁ h'] <;> grind
  | node j w zero one ih₀ ih₁ =>
    intro m n h
    have h' : (k == l) = true → m / 2 = n / 2 := fun e => by rw [h e]
    simp only [putAt, getAt]
    split
    · rename_i hj
      simp only [getAt, BEq.congr_left hj]
      split <;> rfl
    · rename_i hj
      have hl : (j == l) = true → (k == l) = false := fun e => by
        cases hk : k == l with
        | false => rfl
        | true => exact absurd (BEq.trans e (BEq.symm hk)) hj
      split <;> simp only [getAt, ih₀ h', ih₁ h'] <;> grind

omit [Digest κ] in
/-- Erasing along some digits, and looking along others that are the same for an equal key. -/
theorem getAt_eraseAt [EquivBEq κ] {k l : κ} (t : DigitTree κ ν) :
    ∀ {m n : Nat}, ((k == l) = true → m = n) →
      (t.eraseAt k m).getAt l n = if k == l then none else t.getAt l n := by
  induction t with
  | nil => simp [eraseAt, getAt]
  | hole zero one ih₀ ih₁ =>
    intro m n h
    have h' : (k == l) = true → m / 2 = n / 2 := fun e => by rw [h e]
    simp only [eraseAt, getAt]
    split <;> simp only [getAt_vacant, getAt, ih₀ h', ih₁ h'] <;> grind
  | node j w zero one ih₀ ih₁ =>
    intro m n h
    have h' : (k == l) = true → m / 2 = n / 2 := fun e => by rw [h e]
    simp only [eraseAt, getAt]
    split
    · rename_i hj
      have hl : (j == l) = (k == l) := BEq.congr_left hj
      split <;> simp only [getAt_vacant, getAt, ih₀ h', ih₁ h', hl] <;> grind
    · rename_i hj
      have hl : (j == l) = true → (k == l) = false := fun e => by
        cases hk : k == l with
        | false => rfl
        | true => exact absurd (BEq.trans e (BEq.symm hk)) hj
      split <;> simp only [getAt, ih₀ h', ih₁ h'] <;> grind

@[simp] theorem get?_empty (key : κ) : (empty : DigitTree κ ν).get? key = none := rfl

theorem get?_put [EquivBEq κ] [LawfulDigest κ] (k l : κ) (v : ν) (t : DigitTree κ ν) :
    (t.put k v).get? l = if k == l then some v else t.get? l :=
  getAt_putAt v t digest_congr

theorem get?_erase [EquivBEq κ] [LawfulDigest κ] (k l : κ) (t : DigitTree κ ν) :
    (t.erase k).get? l = if k == l then none else t.get? l :=
  getAt_eraseAt t digest_congr

end DigitTree
end Intensional
