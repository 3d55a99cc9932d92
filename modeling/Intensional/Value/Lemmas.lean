import Intensional.Value.Order

/-!
# Equality of values is an equivalence

Finite maps keyed by values find entries up to equality, and their laws ask that equality is an
equivalence (`EquivBEq`) and that equal values have one digest (`LawfulDigest`). The proofs are
inductions on nested sets.
-/

namespace Intensional

theorem Binary64.beq_refl (x : Binary64) : (x == x) = true := Binary64.beq_iff.mpr rfl

instance : EquivBEq Binary64 where
  rfl := Binary64.beq_iff.mpr rfl
  symm h := Binary64.beq_iff.mpr (Binary64.beq_iff.mp h).symm
  trans h h' := Binary64.beq_iff.mpr ((Binary64.beq_iff.mp h).trans (Binary64.beq_iff.mp h'))

namespace Value

mutual

theorem beq_self : ∀ v : Value, beq v v = true
  | .special _ | .bool _ | .int _ | .char _ | .str _ | .range _ | .type _ | .dim _
  | .foreign _ _ _ => by simp [beq]
  | .float x => Binary64.beq_refl x
  | .set vs => beqAll_self vs

theorem beqAll_self : ∀ vs : List Value, beqAll vs vs = true
  | [] => rfl
  | v :: vs => by simp [beqAll, beq_self v, beqAll_self vs]

end

mutual

theorem beq_comm : ∀ v w : Value, beq v w = beq w v
  | .special _, w => by cases w <;> simp [beq, Bool.beq_comm]
  | .bool _, w => by cases w <;> simp [beq, Bool.beq_comm]
  | .int _, w => by cases w <;> simp [beq, Bool.beq_comm]
  | .float _, w => by cases w <;> simp [beq, BEq.comm]
  | .char _, w => by cases w <;> simp [beq, Bool.beq_comm]
  | .str _, w => by cases w <;> simp [beq, Bool.beq_comm]
  | .range _, w => by cases w <;> simp [beq, Bool.beq_comm]
  | .set vs, w => by cases w <;> simp [beq, beqAll_comm vs]
  | .type _, w => by cases w <;> simp [beq, Bool.beq_comm]
  | .dim _, w => by cases w <;> simp [beq, Bool.beq_comm]
  | .foreign _ _ _, w => by cases w <;> simp [beq, Bool.beq_comm]

theorem beqAll_comm : ∀ vs ws : List Value, beqAll vs ws = beqAll ws vs
  | [], [] => rfl
  | [], _ :: _ => rfl
  | _ :: _, [] => rfl
  | v :: vs, w :: ws => by rw [beqAll, beqAll, beq_comm v w, beqAll_comm vs ws]

end

mutual

theorem beq_trans : ∀ {u v w : Value}, beq u v = true → beq v w = true → beq u w = true
  | .special _, v, w, h, h' => by cases v <;> cases w <;> simp_all [beq]
  | .bool _, v, w, h, h' => by cases v <;> cases w <;> simp_all [beq]
  | .int _, v, w, h, h' => by cases v <;> cases w <;> simp_all [beq]
  | .float _, v, w, h, h' => by
    cases v <;> cases w <;> simp_all only [beq, Bool.false_eq_true]
    exact BEq.trans h h'
  | .char _, v, w, h, h' => by cases v <;> cases w <;> simp_all [beq]
  | .str _, v, w, h, h' => by cases v <;> cases w <;> simp_all [beq]
  | .range _, v, w, h, h' => by cases v <;> cases w <;> simp_all [beq]
  | .set us, v, w, h, h' => by
    cases v <;> cases w <;> simp_all only [beq, Bool.false_eq_true]
    exact beqAll_trans h h'
  | .type _, v, w, h, h' => by cases v <;> cases w <;> simp_all [beq]
  | .dim _, v, w, h, h' => by cases v <;> cases w <;> simp_all [beq]
  | .foreign _ _ _, v, w, h, h' => by cases v <;> cases w <;> simp_all [beq]

theorem beqAll_trans : ∀ {us vs ws : List Value}, beqAll us vs = true → beqAll vs ws = true →
    beqAll us ws = true
  | [], [], [], _, _ => rfl
  | [], [], _ :: _, _, h' => by simp [beqAll] at h'
  | [], _ :: _, _, h, _ => by simp [beqAll] at h
  | _ :: _, [], _, h, _ => by simp [beqAll] at h
  | _ :: _, _ :: _, [], _, h' => by simp [beqAll] at h'
  | u :: us, v :: vs, w :: ws, h, h' => by
    simp only [beqAll, Bool.and_eq_true] at h h' ⊢
    exact ⟨beq_trans h.1 h'.1, beqAll_trans h.2 h'.2⟩

end

instance : EquivBEq Value where
  rfl := beq_self _
  symm h := (beq_comm _ _).trans h
  trans := beq_trans

/-! ## Digests -/

theorem length_congr : ∀ {vs ws : List Value}, beqAll vs ws = true → vs.length = ws.length
  | [], [], _ => rfl
  | [], _ :: _, h => by simp [beqAll] at h
  | _ :: _, [], h => by simp [beqAll] at h
  | v :: vs, w :: ws, h => by
    simp only [beqAll, Bool.and_eq_true] at h
    simp [length_congr h.2]

mutual

theorem features_congr : ∀ {v w : Value}, beq v w = true → v.features = w.features
  | .special _, w, h => by cases w <;> simp_all [beq, features]
  | .bool _, w, h => by cases w <;> simp_all [beq, features]
  | .int _, w, h => by cases w <;> simp_all [beq, features]
  | .float _, w, h => by
    cases w <;> simp_all only [beq, features, Bool.false_eq_true]
    rw [Binary64.beq_iff.mp h]
  | .char _, w, h => by cases w <;> simp_all [beq, features]
  | .str _, w, h => by cases w <;> simp_all [beq, features]
  | .range _, w, h => by cases w <;> simp_all [beq, features]
  | .set _, w, h => by
    cases w <;> simp_all only [beq, features, Bool.false_eq_true]
    rw [length_congr h, featuresAll_congr h]
  | .type _, w, h => by cases w <;> simp_all [beq, features]
  | .dim _, w, h => by cases w <;> simp_all [beq, features]
  | .foreign _ _ _, w, h => by cases w <;> simp_all [beq, features]

theorem featuresAll_congr : ∀ {vs ws : List Value}, beqAll vs ws = true →
    featuresAll vs = featuresAll ws
  | [], [], _ => rfl
  | [], _ :: _, h => by simp [beqAll] at h
  | _ :: _, [], h => by simp [beqAll] at h
  | v :: vs, w :: ws, h => by
    simp only [beqAll, Bool.and_eq_true] at h
    rw [featuresAll, featuresAll, features_congr h.1, featuresAll_congr h.2]

end

instance : LawfulDigest Value where
  digest_congr h := congrArg Digest.ofNumbers (features_congr h)

/-! ## Types -/

theorem typeIndex_congr {v w : Value} (h : (v == w) = true) : v.typeIndex = w.typeIndex := by
  cases v <;> cases w <;> simp_all [beq_def, beq, typeIndex]

end Value
end Intensional
