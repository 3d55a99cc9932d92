/-!
# Equivalences on pairs, options and lists

Pairs, options and lists are compared part by part. Where the parts are compared by an
equivalence, so are they.
-/

namespace Intensional

variable {α β : Type} [BEq α] [BEq β]

theorem beq_pair (p q : α × β) : (p == q) = (p.1 == q.1 && p.2 == q.2) := rfl

instance equivBEqProd [EquivBEq α] [EquivBEq β] : EquivBEq (α × β) where
  rfl := by simp
  symm h := by
    rw [beq_pair, Bool.and_eq_true] at h ⊢
    exact ⟨BEq.symm h.1, BEq.symm h.2⟩
  trans h h' := by
    rw [beq_pair, Bool.and_eq_true] at h h' ⊢
    exact ⟨BEq.trans h.1 h'.1, BEq.trans h.2 h'.2⟩

instance equivBEqOption [EquivBEq α] : EquivBEq (Option α) where
  rfl := by simp
  symm {a b} h := by
    cases a <;> cases b <;> simp_all
    exact BEq.symm h
  trans {a b c} h h' := by
    cases a <;> cases b <;> cases c <;> simp_all
    exact BEq.trans h h'

theorem beq_list_symm [EquivBEq α] : ∀ {xs ys : List α}, (xs == ys) = true → (ys == xs) = true
  | [], [], _ => rfl
  | [], _ :: _, h => by cases h
  | _ :: _, [], h => by cases h
  | x :: xs, y :: ys, h => by
    rw [List.cons_beq_cons, Bool.and_eq_true] at h ⊢
    exact ⟨BEq.symm h.1, beq_list_symm h.2⟩

theorem beq_list_trans [EquivBEq α] : ∀ {xs ys zs : List α},
    (xs == ys) = true → (ys == zs) = true → (xs == zs) = true
  | [], [], _, _, h' => h'
  | [], _ :: _, _, h, _ => by cases h
  | _ :: _, [], _, h, _ => by cases h
  | _ :: _, _ :: _, [], _, h' => by cases h'
  | x :: xs, y :: ys, z :: zs, h, h' => by
    rw [List.cons_beq_cons, Bool.and_eq_true] at h h' ⊢
    exact ⟨BEq.trans h.1 h'.1, beq_list_trans h.2 h'.2⟩

instance equivBEqList [EquivBEq α] : EquivBEq (List α) where
  rfl := by simp
  symm := beq_list_symm
  trans := beq_list_trans

end Intensional
