import Mathlib
import Intensional.Proofs.Value.Order

/-!
# Arithmetic on equal doubles

Equality of doubles is coarser than identity: every NaN equals every NaN, and the two zeros are
equal (`Binary64.beq_iff_or`). Arithmetic unpacks the bits, and unpacking already forgets which NaN
it was, so what is left to tell equal operands apart is the sign of a zero. `mergeZeros` forgets
that too, and equal doubles unpack to one number then (`unpacked_congr`). Sums, differences and
products do not depend on the sign of a zero operand, except in the sign of a zero result
(`onUnpacked_congr`). A quotient does where it is infinite: a number other than zero divided by a
zero takes its sign from the zero (`div_congr_iff`).
-/

namespace Intensional
namespace Binary64

open Float.Model (UnpackedFloat Format)
open Float.Model.UnpackedFloat (Sign)

variable {x y x' y' : Binary64} {u w : UnpackedFloat}

/-! ## Equal doubles -/

theorem isNegative_iff : x.isNegative = true ↔ 2 ^ 63 ≤ x.bits.toNat := by
  have := x.bits.toNat_lt
  rw [isNegative, Nat.testBit_eq_decide_div_mod_eq, decide_eq_true_iff]
  omega

theorem eq_of_magnitude_of_isNegative (hmagnitude : x.magnitude = y.magnitude)
    (hsign : x.isNegative = y.isNegative) : x = y := by
  have hsign : 2 ^ 63 ≤ x.bits.toNat ↔ 2 ^ 63 ≤ y.bits.toNat := by
    rw [← isNegative_iff, ← isNegative_iff, hsign]
  have hx := x.bits.toNat_lt
  have hy := y.bits.toNat_lt
  have hbits : x.bits.toNat = y.bits.toNat := by
    rw [magnitude, magnitude] at hmagnitude
    omega
  cases x
  cases y
  exact congrArg _ (UInt64.toNat_inj.mp hbits)

theorem isNaN_iff_rank : x.isNaN = true ↔ x.rank = 0x8000000000000000 := by
  cases hx : x.isNaN with
  | true => exact iff_of_true rfl (if_pos hx)
  | false => exact iff_of_false Bool.false_ne_true (Int.ne_of_lt (rank_lt_of_number hx))

theorem isNaN_congr (h : (x == y) = true) : x.isNaN = y.isNaN := by
  rw [Bool.eq_iff_iff, isNaN_iff_rank, isNaN_iff_rank, beq_iff.mp h]

theorem eq_or_zero_of_rank (hx : x.isNaN = false) (hy : y.isNaN = false) (h : x.rank = y.rank) :
    x = y ∨ x.magnitude = 0 ∧ y.magnitude = 0 := by
  rw [rank_of_number hx, rank_of_number hy] at h
  by_cases hsign : x.isNegative = y.isNegative
  · refine .inl (eq_of_magnitude_of_isNegative ?_ hsign)
    rw [hsign] at h
    split at h <;> omega
  · refine .inr ?_
    split at h <;> split at h <;> first | omega | simp_all

/-- Equal doubles are identical, or both NaN, or both zero. -/
theorem beq_iff_or : (x == y) = true ↔
    x = y ∨ x.isNaN = true ∧ y.isNaN = true ∨ x.magnitude = 0 ∧ y.magnitude = 0 := by
  constructor
  · intro h
    have hNaN := isNaN_congr h
    cases hx : x.isNaN with
    | true => exact .inr (.inl ⟨rfl, hNaN ▸ hx⟩)
    | false =>
      exact (eq_or_zero_of_rank hx (hNaN ▸ hx) (beq_iff.mp h)).imp_right .inr
  · rintro (rfl | ⟨hx, hy⟩ | ⟨hx, hy⟩)
    · exact beq_refl x
    · exact beq_of_isNaN hx hy
    · exact beq_of_zero hx hy

/-- Among the numbers other than zero, equal doubles are identical. -/
theorem eq_of_beq_of_number (h : (x == y) = true) (hNaN : x.isNaN = false)
    (hzero : x.magnitude ≠ 0) : x = y := by
  obtain heq | ⟨hx, -⟩ | ⟨hx, -⟩ := beq_iff_or.mp h
  · exact heq
  · simp [hNaN] at hx
  · exact absurd hx hzero

/-! ## The fields of the bits -/

def pattern (x : Binary64) : BitVec Format.binary64.numBits := x.bits.toBitVec

def sign (x : Binary64) : Sign := .ofBitVec (UnpackedFloat.unpackSign x.pattern)

theorem toNat_pattern (x : Binary64) : x.pattern.toNat = x.bits.toNat := rfl

theorem toNat_mantissa (x : Binary64) :
    (UnpackedFloat.unpackMantissa x.pattern).toNat = x.magnitude % 2 ^ 52 := by
  rw [UnpackedFloat.unpackMantissa_def, BitVec.extractLsb'_toNat, magnitude, toNat_pattern,
    Nat.shiftRight_zero]
  show x.bits.toNat % 2 ^ 52 = _
  omega

theorem toNat_exponent (x : Binary64) :
    (UnpackedFloat.unpackExponent x.pattern).toNat = x.magnitude / 2 ^ 52 := by
  rw [UnpackedFloat.unpackExponent_def, BitVec.extractLsb'_toNat, Nat.shiftRight_eq_div_pow,
    magnitude, toNat_pattern]
  show x.bits.toNat / 2 ^ 52 % 2 ^ 11 = _
  omega

theorem toNat_sign (x : Binary64) :
    (UnpackedFloat.unpackSign x.pattern).toNat = x.bits.toNat / 2 ^ 63 := by
  have := x.bits.toNat_lt
  rw [UnpackedFloat.unpackSign_def, BitVec.extractLsb'_toNat, Nat.shiftRight_eq_div_pow,
    toNat_pattern]
  show x.bits.toNat / 2 ^ 63 % 2 = _
  omega

theorem mantissa_eq_zero_iff :
    UnpackedFloat.unpackMantissa x.pattern = 0#_ ↔ x.magnitude % 2 ^ 52 = 0 := by
  rw [← BitVec.toNat_inj, toNat_mantissa]
  rfl

theorem exponent_eq_zero_iff :
    UnpackedFloat.unpackExponent x.pattern = 0#_ ↔ x.magnitude / 2 ^ 52 = 0 := by
  rw [← BitVec.toNat_inj, toNat_exponent]
  rfl

theorem exponent_eq_top_iff :
    UnpackedFloat.unpackExponent x.pattern = -1#_ ↔ x.magnitude / 2 ^ 52 = 2047 := by
  rw [← BitVec.toNat_inj, toNat_exponent]
  rfl

theorem isNegative_of_sign (h : x.sign = y.sign) : x.isNegative = y.isNegative := by
  have hbits := congrArg Sign.toBitVec h
  rw [sign, sign, Sign.toBitVec_ofBitVec, Sign.toBitVec_ofBitVec, ← BitVec.toNat_inj, toNat_sign,
    toNat_sign] at hbits
  rw [Bool.eq_iff_iff, isNegative_iff, isNegative_iff]
  omega

/-! ## What the bits stand for -/

/-- What the bits stand for: NaN, or an infinity, a zero or a finite number with its sign. -/
def unpacked (x : Binary64) : UnpackedFloat := .unpack .binary64 x.pattern

/-- The double that stands for a number. -/
def ofUnpacked (u : UnpackedFloat) : Binary64 := ⟨⟨UnpackedFloat.pack .binary64 u⟩⟩

theorem unpacked_cases (x : Binary64) :
    x.isNaN = true ∧ x.unpacked = .notANumber ∨
    x.magnitude = 0 ∧ x.unpacked = .zero x.sign ∨
    x.isNaN = false ∧ x.magnitude ≠ 0 ∧
      (x.unpacked = .infinity x.sign ∨ ∃ m e hm, x.unpacked = .finite x.sign m e hm) := by
  have hlt := x.magnitude_lt
  have hNaN : x.isNaN = decide (0x7ff0000000000000 < x.magnitude) := rfl
  rw [hNaN, decide_eq_true_iff, decide_eq_false_iff_not]
  unfold unpacked
  fun_cases UnpackedFloat.unpack with
  | case1 _ _ _ _ htop hfraction =>
    have htop := exponent_eq_top_iff.mp htop
    have hfraction := mantissa_eq_zero_iff.mp hfraction
    exact .inr (.inr ⟨by omega, by omega, .inl rfl⟩)
  | case2 _ _ htop hfraction =>
    have htop := exponent_eq_top_iff.mp htop
    have hfraction := mt mantissa_eq_zero_iff.mpr hfraction
    exact .inl ⟨by omega, rfl⟩
  | case3 _ _ _ _ _ hbottom hfraction =>
    have hbottom := exponent_eq_zero_iff.mp hbottom
    have hfraction := mantissa_eq_zero_iff.mp hfraction
    exact .inr (.inl ⟨by omega, rfl⟩)
  | case4 _ _ _ _ _ _ hbottom hfraction =>
    have hbottom := exponent_eq_zero_iff.mp hbottom
    have hfraction := mt mantissa_eq_zero_iff.mpr hfraction
    exact .inr (.inr ⟨by omega, by omega, .inr ⟨_, _, _, rfl⟩⟩)
  | case5 _ _ _ _ _ htop hbottom =>
    have htop := mt exponent_eq_top_iff.mpr htop
    have hbottom := mt exponent_eq_zero_iff.mpr hbottom
    exact .inr (.inr ⟨by omega, by omega, .inr ⟨_, _, _, rfl⟩⟩)

theorem unpacked_of_isNaN (h : x.isNaN = true) : x.unpacked = .notANumber := by
  obtain ⟨-, hx⟩ | ⟨hx, -⟩ | ⟨hx, -⟩ := x.unpacked_cases
  · exact hx
  · simp [isNaN, hx] at h
  · simp [hx] at h

theorem unpacked_of_zero (h : x.magnitude = 0) : x.unpacked = .zero x.sign := by
  obtain ⟨hx, -⟩ | ⟨-, hx⟩ | ⟨-, hx, -⟩ := x.unpacked_cases
  · simp [isNaN, h] at hx
  · exact hx
  · exact absurd h hx

theorem magnitude_of_unpacked {s : Sign} (h : x.unpacked = .zero s) : x.magnitude = 0 := by
  obtain ⟨-, hx⟩ | ⟨hx, -⟩ | ⟨-, -, hx | ⟨m, e, hm, hx⟩⟩ := x.unpacked_cases
  · cases h.symm.trans hx
  · exact hx
  · cases h.symm.trans hx
  · cases h.symm.trans hx

/-- Unpacking forgets which NaN it was, and nothing else that packing restores. -/
theorem unpack_toFloat (x : Binary64) : x.toFloat.toModel.unpack = x.unpacked := by
  show UnpackedFloat.unpack .binary64 (UnpackedFloat.pack .binary64 x.unpacked) = x.unpacked
  rw [unpacked, UnpackedFloat.pack_unpack]
  split
  · rename_i hNaN
    obtain ⟨htop, hfraction⟩ := of_decide_eq_true hNaN
    rw [UnpackedFloat.unpack_packedNaN, UnpackedFloat.unpack]
    simp only [htop, hfraction, ↓reduceIte]
  · rfl

theorem add_eq (x y : Binary64) :
    x.add y = ofUnpacked (.add .binary64 x.unpacked y.unpacked) := by
  rw [← unpack_toFloat, ← unpack_toFloat]
  rfl

theorem sub_eq (x y : Binary64) :
    x.sub y = ofUnpacked (.sub .binary64 x.unpacked y.unpacked) := by
  rw [← unpack_toFloat, ← unpack_toFloat]
  rfl

theorem mul_eq (x y : Binary64) :
    x.mul y = ofUnpacked (.mul .binary64 x.unpacked y.unpacked) := by
  rw [← unpack_toFloat, ← unpack_toFloat]
  rfl

theorem div_eq (x y : Binary64) :
    x.div y = ofUnpacked (.div .binary64 x.unpacked y.unpacked) := by
  rw [← unpack_toFloat, ← unpack_toFloat]
  rfl

/-! ## The sign of a zero -/

/-- The number with its sign forgotten, if it is a zero. -/
def mergeZeros : UnpackedFloat → UnpackedFloat
  | .zero _ => .zero .positive
  | u => u

theorem mergeZeros_eq_iff :
    mergeZeros u = mergeZeros w ↔ u = w ∨ (∃ s, u = .zero s) ∧ ∃ t, w = .zero t := by
  cases u <;> cases w <;> simp [mergeZeros]

theorem unpacked_congr (h : (x == y) = true) :
    mergeZeros x.unpacked = mergeZeros y.unpacked := by
  obtain rfl | ⟨hx, hy⟩ | ⟨hx, hy⟩ := beq_iff_or.mp h
  · rfl
  · rw [unpacked_of_isNaN hx, unpacked_of_isNaN hy]
  · rw [unpacked_of_zero hx, unpacked_of_zero hy]
    rfl

theorem ofUnpacked_congr (h : mergeZeros u = mergeZeros w) :
    (ofUnpacked u == ofUnpacked w) = true := by
  obtain rfl | ⟨⟨s, rfl⟩, t, rfl⟩ := mergeZeros_eq_iff.mp h
  · exact beq_refl _
  · cases s <;> cases t <;> decide

theorem mergeZeros_add (u w : UnpackedFloat) : mergeZeros (.add .binary64 u w) =
    mergeZeros (.add .binary64 (mergeZeros u) (mergeZeros w)) := by
  cases u with
  | zero s => cases w with
    | zero t => cases s <;> cases t <;> rfl
    | _ => rfl
  | _ => cases w <;> rfl

theorem mergeZeros_idem (u : UnpackedFloat) : mergeZeros (mergeZeros u) = mergeZeros u := by
  cases u <;> rfl

theorem mergeZeros_neg (u : UnpackedFloat) :
    mergeZeros u.neg = mergeZeros (mergeZeros u).neg := by
  cases u <;> rfl

theorem apply_neg (s : Sign) (n : Int) : (-s).apply n = -s.apply n := by
  cases s with
  | positive => rfl
  | negative => exact (Int.neg_neg n).symm

/-- A difference is the sum with the opposite. -/
theorem sub_eq_add_neg (u w : UnpackedFloat) :
    UnpackedFloat.sub .binary64 u w = .add .binary64 u w.neg := by
  cases u with
  | finite s m e hm => cases w with
    | finite t l d hl =>
      simp only [UnpackedFloat.sub, UnpackedFloat.add, UnpackedFloat.neg, apply_neg,
        Int.sub_eq_add_neg]
    | _ => rfl
  | _ => cases w <;> rfl

theorem mergeZeros_sub (u w : UnpackedFloat) : mergeZeros (.sub .binary64 u w) =
    mergeZeros (.sub .binary64 (mergeZeros u) (mergeZeros w)) := by
  rw [sub_eq_add_neg, sub_eq_add_neg, mergeZeros_add u, mergeZeros_neg w,
    mergeZeros_add (mergeZeros u) (mergeZeros w).neg, mergeZeros_idem]

theorem mergeZeros_mul (u w : UnpackedFloat) : mergeZeros (.mul .binary64 u w) =
    mergeZeros (.mul .binary64 (mergeZeros u) (mergeZeros w)) := by
  cases u <;> cases w <;> rfl

/-- A quotient that is not a number other than zero over a zero. -/
theorem mergeZeros_div (h : mergeZeros u = .notANumber ∨ mergeZeros u = .zero .positive ∨
      mergeZeros w ≠ .zero .positive) :
    mergeZeros (.div .binary64 u w) =
      mergeZeros (.div .binary64 (mergeZeros u) (mergeZeros w)) := by
  cases u <;> cases w <;> first | rfl | simp [mergeZeros] at h

/-! ## Results of equal operands -/

/-- An operation that does not depend on the sign of a zero, up to that of its result, gives
equal results for equal operands. -/
theorem onUnpacked_congr {f : Binary64 → Binary64 → Binary64}
    {g : UnpackedFloat → UnpackedFloat → UnpackedFloat}
    (hf : ∀ x y, f x y = ofUnpacked (g x.unpacked y.unpacked))
    (hg : ∀ u w, mergeZeros (g u w) = mergeZeros (g (mergeZeros u) (mergeZeros w)))
    (hx : (x == x') = true) (hy : (y == y') = true) : (f x y == f x' y') = true := by
  rw [hf, hf]
  refine ofUnpacked_congr ?_
  rw [hg, unpacked_congr hx, unpacked_congr hy, ← hg]

theorem add_congr (hx : (x == x') = true) (hy : (y == y') = true) :
    (x.add y == x'.add y') = true :=
  onUnpacked_congr add_eq mergeZeros_add hx hy

theorem sub_congr (hx : (x == x') = true) (hy : (y == y') = true) :
    (x.sub y == x'.sub y') = true :=
  onUnpacked_congr sub_eq mergeZeros_sub hx hy

theorem mul_congr (hx : (x == x') = true) (hy : (y == y') = true) :
    (x.mul y == x'.mul y') = true :=
  onUnpacked_congr mul_eq mergeZeros_mul hx hy

theorem magnitude_neg (x : Binary64) : x.neg.magnitude = x.magnitude := by
  rw [neg, magnitude, magnitude, UInt64.toNat_xor, show 0x8000000000000000 = 2 ^ 63 from rfl,
    Nat.xor_mod_two_pow]
  simp

theorem isNaN_neg (x : Binary64) : x.neg.isNaN = x.isNaN := by
  rw [isNaN, magnitude_neg, isNaN]

theorem neg_congr (h : (x == y) = true) : (x.neg == y.neg) = true := by
  rw [beq_iff_or, isNaN_neg, isNaN_neg, magnitude_neg, magnitude_neg]
  exact (beq_iff_or.mp h).imp_left (congrArg neg)

/-- A number other than zero is divided by a zero, and `y'` is another double than that zero. -/
structure TellsZeros (x y y' : Binary64) : Prop where
  number : x.isNaN = false
  nonzero : x.magnitude ≠ 0
  zero : y.magnitude = 0
  other : y ≠ y'

theorem div_congr (hx : (x == x') = true) (hy : (y == y') = true)
    (h : x.isNaN = true ∨ x.magnitude = 0 ∨ y.magnitude ≠ 0) :
    (x.div y == x'.div y') = true := by
  have hmerged : mergeZeros x.unpacked = .notANumber ∨ mergeZeros x.unpacked = .zero .positive ∨
      mergeZeros y.unpacked ≠ .zero .positive := by
    refine h.imp (fun h => ?_) (.imp (fun h => ?_) fun h hzero => ?_)
    · rw [unpacked_of_isNaN h]
      rfl
    · rw [unpacked_of_zero h]
      rfl
    · obtain hzero | ⟨⟨s, hzero⟩, -⟩ := mergeZeros_eq_iff (w := .zero .positive).mp hzero
      · exact h (magnitude_of_unpacked hzero)
      · exact h (magnitude_of_unpacked hzero)
  rw [div_eq, div_eq]
  refine ofUnpacked_congr ?_
  rw [mergeZeros_div hmerged]
  rw [unpacked_congr hx, unpacked_congr hy] at hmerged ⊢
  exact (mergeZeros_div hmerged).symm

theorem infinity_beq_false {s t t' : Sign} (h : t ≠ t') :
    (ofUnpacked (.infinity (s / t)) == ofUnpacked (.infinity (s / t'))) = false := by
  cases s <;> cases t <;> cases t' <;> first | exact absurd rfl h | decide

theorem div_beq_false (hy : (y == y') = true) (h : TellsZeros x y y') :
    (x.div y == x.div y') = false := by
  have hzero : y'.magnitude = 0 := by
    obtain heq | ⟨hNaN, -⟩ | ⟨-, hzero⟩ := beq_iff_or.mp hy
    · exact absurd heq h.other
    · simp [isNaN, h.zero] at hNaN
    · exact hzero
  have hsigns : y.sign ≠ y'.sign := fun hsign =>
    h.other (eq_of_magnitude_of_isNegative (h.zero.trans hzero.symm) (isNegative_of_sign hsign))
  rw [div_eq, div_eq, unpacked_of_zero h.zero, unpacked_of_zero hzero]
  obtain ⟨hNaN, -⟩ | ⟨hx, -⟩ | ⟨-, -, hx | ⟨m, e, hm, hx⟩⟩ := x.unpacked_cases
  · simp [h.number] at hNaN
  · exact absurd hx h.nonzero
  · rw [hx]
    exact infinity_beq_false hsigns
  · rw [hx]
    exact infinity_beq_false hsigns

theorem div_congr_iff (hx : (x == x') = true) (hy : (y == y') = true) :
    (x.div y == x'.div y') = true ↔ ¬ TellsZeros x y y' := by
  constructor
  · intro h htells
    obtain rfl := eq_of_beq_of_number hx htells.number htells.nonzero
    rw [div_beq_false hy htells] at h
    cases h
  · intro h
    by_cases hnumber : x.isNaN = true ∨ x.magnitude = 0 ∨ y.magnitude ≠ 0
    · exact div_congr hx hy hnumber
    · obtain ⟨hNaN, hnonzero, hzero⟩ : x.isNaN = false ∧ x.magnitude ≠ 0 ∧ y.magnitude = 0 := by
        simpa using hnumber
      obtain rfl := eq_of_beq_of_number hx hNaN hnonzero
      obtain rfl : y = y' := by_contra fun hother => h ⟨hNaN, hnonzero, hzero, hother⟩
      exact beq_refl _

end Binary64
end Intensional
