import Intensional.Context.Lemmas
import Intensional.Proofs.Value.Order

/-!
# Order, equality and hash agree

Sets of values, tables of dimensions and caches find their members by comparing and hashing, and
each takes for granted that the order is total, that it ties exactly on equal members, and that
equal members are hashed alike. `LawfulOrder` says this of one comparison and one digest. It
follows from two classes of the library and from the digest (`LawfulOrder.of_lawful`): the
comparison is transitive, and it ties where the equality holds.

Contexts have the laws because values have them. A list of bindings is compared member by member,
and a binding by its dimension and then by its value, so the two classes carry over.
-/

namespace Intensional

/-! ## The laws -/

/-- A total order, an equality and the data of a hash that belong together. -/
structure LawfulOrder {α : Type} [BEq α] (cmp : α → α → Ordering) (data : α → List Nat) :
    Prop where
  reflexive (a : α) : cmp a a = .eq
  oriented (a b : α) : cmp a b = (cmp b a).swap
  antisymmetric {a b : α} : (cmp a b).isLE = true → (cmp b a).isLE = true → (a == b) = true
  transitive {a b c : α} : (cmp a b).isLE = true → (cmp b c).isLE = true → (cmp a c).isLE = true
  total (a b : α) : (cmp a b).isLE = true ∨ (cmp b a).isLE = true
  ties {a b : α} : cmp a b = .eq ↔ (a == b) = true
  equivalence : Equivalence fun a b : α => (a == b) = true
  hashed {a b : α} : (a == b) = true → data a = data b

theorem LawfulOrder.of_lawful {α : Type} [BEq α] {cmp : α → α → Ordering} [Std.TransCmp cmp]
    [Std.LawfulBEqCmp cmp] {data : α → List Nat}
    (hashed : ∀ {a b : α}, (a == b) = true → data a = data b) : LawfulOrder cmp data :=
  have ties {a b : α} : cmp a b = .eq ↔ (a == b) = true := Std.LawfulBEqCmp.compare_eq_iff_beq
  have oriented (a b : α) : cmp a b = (cmp b a).swap := Std.OrientedCmp.eq_swap
  have : EquivBEq α := @Std.LawfulBEqCmp.equivBEq α _ cmp _ _
  { reflexive := fun _ => Std.ReflCmp.compare_self
    oriented
    antisymmetric := fun hab hba => ties.mp (Std.OrientedCmp.isLE_antisymm hab hba)
    transitive := Std.TransCmp.isLE_trans
    total := fun a b => by
      rw [oriented b a]
      cases cmp a b <;> simp
    ties
    equivalence := ⟨fun _ => BEq.refl _, BEq.symm, BEq.trans⟩
    hashed }

instance : Std.LawfulBEqCmp Value.compare := ⟨Value.compare_eq_iff⟩

namespace Context

/-! ## Contexts -/

instance : Std.TransCmp compareEntry where
  eq_swap {a b} := by
    rw [compareEntry, compareEntry, Ordering.swap_then, ← Value.compare_swap,
      ← Std.OrientedCmp.eq_swap]
  isLE_trans {_ _ _} :=
    Value.then_isLE_trans fun _ _ => Std.TransCmp.isLE_trans

instance : Std.LawfulBEqCmp compareEntry where
  compare_eq_iff_beq {a b} := by
    rw [compareEntry, Ordering.then_eq_eq, Std.LawfulEqCmp.compare_eq_iff_eq,
      Value.compare_eq_iff, beq_pair, Bool.and_eq_true, beq_iff_eq (a := a.1)]

instance : Std.TransCmp compare :=
  have entries : Std.TransCmp (List.compareLex compareEntry) := inferInstance
  { eq_swap := entries.eq_swap, isLE_trans := entries.isLE_trans }

instance : Std.LawfulBEqCmp compare :=
  have entries : Std.LawfulBEqCmp (List.compareLex compareEntry) := inferInstance
  { compare_eq_iff_beq := entries.compare_eq_iff_beq }

end Context

/-- Values and contexts have a lawful order. Equal values have one type, so that comparing by type
first separates no equal values, whichever number a foreign type has. -/
theorem orders_are_lawful :
    LawfulOrder Value.compare Value.features ∧
    (∀ v w : Value, (v == w) = true → v.typeIndex = w.typeIndex) ∧
    LawfulOrder Context.compare Context.features :=
  ⟨.of_lawful Value.features_congr, fun _ _ => Value.typeIndex_congr,
    .of_lawful Context.features_congr⟩

end Intensional
