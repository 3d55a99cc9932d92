import Intensional.DigitTree

/-!
# Rosters

A roster hands out numbers to keys, one after the other from zero on, and never takes one back.
A number may also be handed out to no key at all. A key finds its number by an index that goes
with the entries; `Roster.consistent` says that the two tell the same, so equal keys have one
number, and different keys, or what has no key, have different ones.
-/

namespace Intensional

/-- The keys that have numbers, each at its own. -/
structure Roster (κ : Type) [BEq κ] [Digest κ] where
  size : Nat
  entries : DigitTree Nat (Option κ)
  index : DigitTree κ Nat
  bounded : ∀ i : Nat, entries.get? i = none ↔ size ≤ i
  consistent : ∀ (key : κ) (i : Nat), index.get? key = some i ↔
    ∃ key' : κ, entries.get? i = some (some key') ∧ (key' == key) = true

namespace Roster

variable {κ : Type} [BEq κ] [Digest κ]

def empty : Roster κ := ⟨0, .empty, .empty, by simp, by simp⟩

instance : Inhabited (Roster κ) := ⟨empty⟩

def find? (r : Roster κ) (key : κ) : Option Nat := r.index.get? key

/-- What a number was handed out to: a key, or none. -/
def holder? (r : Roster κ) (i : Nat) : Option (Option κ) := r.entries.get? i

def keys (r : Roster κ) : List κ := (List.range r.size).filterMap fun i => (r.holder? i).join

/-! ## Handing out numbers -/

omit [BEq κ] [Digest κ] in
theorem bounded_put {size : Nat} {entries : DigitTree Nat (Option κ)}
    (bounded : ∀ i : Nat, entries.get? i = none ↔ size ≤ i) (entry : Option κ) (i : Nat) :
    (entries.put size entry).get? i = none ↔ size + 1 ≤ i := by
  rw [DigitTree.get?_put]
  by_cases last : size = i
  · subst last
    simp
  · simp only [beq_iff_eq, last, ↓reduceIte, bounded i]
    omega

/-- An entry without a key does not matter to the index. -/
theorem consistent_skip {size : Nat} {entries : DigitTree Nat (Option κ)} {index : DigitTree κ Nat}
    (bounded : ∀ i : Nat, entries.get? i = none ↔ size ≤ i)
    (consistent : ∀ (key : κ) (i : Nat), index.get? key = some i ↔
      ∃ key' : κ, entries.get? i = some (some key') ∧ (key' == key) = true)
    (key : κ) (i : Nat) :
    index.get? key = some i ↔
      ∃ key' : κ, (entries.put size none).get? i = some (some key') ∧ (key' == key) = true := by
  rw [consistent key i, DigitTree.get?_put]
  by_cases last : size = i
  · subst last
    simp [(bounded size).mpr (Nat.le_refl size)]
  · simp [last]

/-- Adding a new key to the entries and to the index keeps the two consistent. -/
theorem consistent_put [EquivBEq κ] [LawfulDigest κ] {size : Nat}
    {entries : DigitTree Nat (Option κ)} {index : DigitTree κ Nat}
    (bounded : ∀ i : Nat, entries.get? i = none ↔ size ≤ i)
    (consistent : ∀ (key : κ) (i : Nat), index.get? key = some i ↔
      ∃ key' : κ, entries.get? i = some (some key') ∧ (key' == key) = true)
    {key : κ} (new : index.get? key = none) (other : κ) (i : Nat) :
    (index.put key size).get? other = some i ↔
      ∃ key' : κ, (entries.put size (some key)).get? i = some (some key') ∧
        (key' == other) = true := by
  rw [DigitTree.get?_put, DigitTree.get?_put]
  by_cases last : size = i
  · subst last
    have outside : index.get? other ≠ some size := fun h => by
      obtain ⟨key', h, _⟩ := (consistent other size).mp h
      rw [(bounded size).mpr (Nat.le_refl size)] at h
      cases h
    by_cases same : (key == other) = true <;> simp [same, outside]
  · have absent : (key == other) = true →
        ¬ ∃ key' : κ, entries.get? i = some (some key') ∧ (key' == other) = true := by
      rintro same ⟨key', h, h'⟩
      have : index.get? key = some i :=
        (consistent key i).mpr ⟨key', h, BEq.trans h' (BEq.symm same)⟩
      rw [new] at this
      cases this
    by_cases same : (key == other) = true
    · simpa [same, last] using absent same
    · simp [same, last, consistent other i]

/-- Hand out the next number to a key that has none. -/
def add [EquivBEq κ] [LawfulDigest κ] (r : Roster κ) (key : κ) (new : r.find? key = none) :
    Roster κ :=
  match r, new with
  | ⟨size, entries, index, bounded, consistent⟩, new =>
    ⟨size + 1, entries.put size (some key), index.put key size, bounded_put bounded (some key),
      consistent_put bounded consistent new⟩

/-- Hand out the next number to no key. -/
def skip (r : Roster κ) : Roster κ :=
  match r with
  | ⟨size, entries, index, bounded, consistent⟩ =>
    ⟨size + 1, entries.put size none, index, bounded_put bounded none,
      consistent_skip bounded consistent⟩

/-- Hand out the next number to a key, unless it has one. -/
def extend [EquivBEq κ] [LawfulDigest κ] (r : Roster κ) (key : κ) : Roster κ :=
  match h : r.find? key with
  | some _ => r
  | none => r.add key h

/-- The roster of some keys, in order of their first occurrence. -/
def ofList [EquivBEq κ] [LawfulDigest κ] (keys : List κ) : Roster κ := keys.foldl extend empty

/-! ## Laws -/

section Laws

variable [EquivBEq κ] [LawfulDigest κ]

@[simp] theorem size_add (r : Roster κ) (key : κ) (new : r.find? key = none) :
    (r.add key new).size = r.size + 1 := rfl

theorem holder?_add (r : Roster κ) (key : κ) (new : r.find? key = none) (i : Nat) :
    (r.add key new).holder? i = if i = r.size then some (some key) else r.holder? i := by
  refine (DigitTree.get?_put r.size i (some key) r.entries).trans ?_
  by_cases last : i = r.size
  · simp [last]
  · simp [last, Ne.symm last, holder?]

end Laws

@[simp] theorem size_skip (r : Roster κ) : r.skip.size = r.size + 1 := rfl

theorem holder?_skip (r : Roster κ) (i : Nat) :
    r.skip.holder? i = if i = r.size then some none else r.holder? i := by
  refine (DigitTree.get?_put r.size i none r.entries).trans ?_
  by_cases last : i = r.size
  · simp [last]
  · simp [last, Ne.symm last, holder?]

/-- A key has a number exactly if that number was handed out to an equal key. -/
theorem find?_eq_some_iff {r : Roster κ} {key : κ} {i : Nat} :
    r.find? key = some i ↔ ∃ key' : κ, r.holder? i = some (some key') ∧ (key' == key) = true :=
  r.consistent key i

/-- The numbers that have been handed out are those below the size. -/
theorem holder?_eq_none_iff {r : Roster κ} {i : Nat} : r.holder? i = none ↔ r.size ≤ i :=
  r.bounded i

end Roster
end Intensional
