import Intensional.Digest
import Intensional.Sorting
import Intensional.Value.Basic

/-!
# Equality, order and digests of values

`Value.beq` and `Value.compare` are defined side by side. Both look through what carries no
meaning: doubles are compared by rank and foreign values by type and key. So equality is
coarser than identity, and everything that finds values again (contexts, caches, tables,
interned dimensions) works up to it.

Values of different types are ordered by type. Within one type, values of one kind are ordered
as that kind is, and a foreign value that shares the number of a built-in type comes after the
built-in ones.

`Value.features` gives equal lists to equal values. The digest of a value is computed from it.
-/

namespace Intensional
namespace Value

/-! ## Equality -/

mutual

def beq : Value → Value → Bool
  | .special a, .special b => a == b
  | .bool a, .bool b => a == b
  | .int a, .int b => a == b
  | .float a, .float b => a == b
  | .char a, .char b => a == b
  | .str a, .str b => a == b
  | .range a, .range b => a == b
  | .set a, .set b => beqAll a b
  | .type a, .type b => a == b
  | .dim a, .dim b => a == b
  | .foreign t k _, .foreign u l _ => t == u && k == l
  | _, _ => false

def beqAll : List Value → List Value → Bool
  | [], [] => true
  | v :: vs, w :: ws => beq v w && beqAll vs ws
  | _, _ => false

end

instance : BEq Value := ⟨beq⟩

theorem beq_def (v w : Value) : (v == w) = v.beq w := rfl

/-! ## Order -/

/-- The place of a kind of value among those that share a type. -/
def kindRank : Value → Nat
  | .special _ => 0
  | .bool _ => 1
  | .int _ => 2
  | .float _ => 3
  | .char _ => 4
  | .str _ => 5
  | .range _ => 6
  | .set _ => 7
  | .type _ => 8
  | .dim _ => 9
  | .foreign _ _ _ => 10

mutual

def compare : Value → Value → Ordering
  | .special a, .special b => Ord.compare a.rank b.rank
  | .bool a, .bool b => Ord.compare a b
  | .int a, .int b => Ord.compare a b
  | .float a, .float b => a.compare b
  | .char a, .char b => Ord.compare a b
  | .str a, .str b => Ord.compare a b
  | .range a, .range b => a.compare b
  | .set a, .set b => compareAll a b
  | .type a, .type b => a.compare b
  | .dim a, .dim b => Ord.compare a b
  | .foreign t k _, .foreign u l _ => (Ord.compare t u).then (Ord.compare k l)
  | v, w => (Ord.compare v.typeIndex w.typeIndex).then (Ord.compare v.kindRank w.kindRank)

/-- Lists of values are ordered member by member, a shorter one before its extensions. -/
def compareAll : List Value → List Value → Ordering
  | [], [] => .eq
  | [], _ :: _ => .lt
  | _ :: _, [] => .gt
  | v :: vs, w :: ws => (compare v w).then (compareAll vs ws)

end

/-! ## Sets -/

/-- The set of some values: ascending, and of equal ones the one given last. -/
def setOf (vs : List Value) : Value := .set (Sorting.distinctBy compare vs)

/-! ## Digests -/

mutual

/-- A value in numbers: its type, and what its equality looks at. -/
def features : Value → List Nat
  | .special s => [TypeIndex.special, s.rank]
  | .bool b => [TypeIndex.bool, b.toNat]
  | .int n => [TypeIndex.int, n.toUInt64.toNat]
  | .float x => [TypeIndex.float, x.rank.toNat, (-x.rank).toNat]
  | .char c => [TypeIndex.char, c.toNat]
  | .str s => TypeIndex.string :: s.toList.map Char.toNat
  | .range r => TypeIndex.range :: (boundFeatures r.lower ++ boundFeatures r.upper)
  | .set members => TypeIndex.set :: members.length :: featuresAll members
  | .type types => TypeIndex.type :: types.toList
  | .dim d => [TypeIndex.dimension, d]
  | .foreign t k _ => [t, k.toUInt64.toNat]
where
  /-- A bound of a range, with a mark that tells a missing one. -/
  boundFeatures : Option Int64 → List Nat
    | none => [0]
    | some n => [1, n.toUInt64.toNat]

def featuresAll : List Value → List Nat
  | [] => []
  | v :: vs => features v ++ featuresAll vs

end

instance : Digest Value := ⟨fun v => Digest.ofNumbers v.features⟩

end Value
end Intensional
