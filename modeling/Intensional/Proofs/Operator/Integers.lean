import Intensional.Proofs.Operator.Builtin

/-!
# Built-in arithmetic on integers

The answer to a sum, a difference, a product or a negation is the word that holds the exact result,
or the special value `arith` where none does (`Builtin.Exact`). Quotient and remainder belong
together: they are words that satisfy the equation of a division that truncates
(`Builtin.Division`), and both are `arith` where no word holds the quotient (`Builtin.Undivided`).
That is so for a divisor zero, and for one pair more: the least word by minus one. The remainder
is zero there, but it is not defined without the quotient.
-/

namespace Intensional
namespace Builtin

variable {n : Int} {a b q r : Int64} {name : String} {vs : List Value}
  {f : Int → Int → Option Int}

/-- The answer to an integer. -/
inductive Exact (n : Int) : Value → Prop
  | held {c : Int64} (h : c.toInt = n) : Exact n (.int c)
  | overflow (h : ∀ c : Int64, c.toInt ≠ n) : Exact n (.special .arith)

/-- A division that truncates: the remainder has the sign of the dividend. -/
structure Division (a b q r : Int64) : Prop where
  equation : a.toInt = q.toInt * b.toInt + r.toInt
  small : r.toInt.natAbs < b.toInt.natAbs
  sign : r = 0 ∨ r.toInt.sign = a.toInt.sign

/-- There is no quotient, or no word holds it. -/
def Undivided (a b : Int64) : Prop := b = 0 ∨ a = Int64.minValue ∧ b = -1

/-! ## Words -/

theorem toInt_bounds (c : Int64) : -2 ^ 63 ≤ c.toInt ∧ c.toInt < 2 ^ 63 :=
  ⟨Int64.le_toInt c, Int64.toInt_lt c⟩

theorem fits_iff : fits n = true ↔ -2 ^ 63 ≤ n ∧ n < 2 ^ 63 := by
  rw [fits, Bool.and_eq_true, decide_eq_true_iff, decide_eq_true_iff, Int64.toInt_minValue,
    Int64.toInt_maxValue, Int.le_sub_one_iff]

theorem fits_iff_held : fits n = true ↔ ∃ c : Int64, c.toInt = n := by
  rw [fits_iff]
  constructor
  · exact fun h => ⟨Int64.ofInt n, Int64.toInt_ofInt_of_le h.1 h.2⟩
  · rintro ⟨c, rfl⟩
    exact toInt_bounds c

theorem exact_toInt (c : Int64) : exact c.toInt = .int c := by
  rw [exact, if_pos (fits_iff_held.mpr ⟨c, rfl⟩), Int64.ofInt_toInt]

theorem exact_isExact (n : Int) : Exact n (exact n) := by
  by_cases h : fits n = true
  · obtain ⟨c, rfl⟩ := fits_iff_held.mp h
    rw [exact_toInt]
    exact .held rfl
  · rw [exact, if_neg h]
    exact .overflow fun c hc => h (fits_iff_held.mpr ⟨c, hc⟩)

/-! ## Division -/

theorem toInt_ne_zero (hb : b ≠ 0) : b.toInt ≠ 0 := fun h => hb (Int64.toInt_inj.mp h)

theorem natAbs_tmod_lt (a : Int64) (hb : b ≠ 0) :
    (a.toInt.tmod b.toInt).natAbs < b.toInt.natAbs := by
  rw [Int.natAbs_tmod]
  exact Nat.mod_lt _ (Int.natAbs_pos.mpr (toInt_ne_zero hb))

theorem fits_tmod (a : Int64) (hb : b ≠ 0) : fits (a.toInt.tmod b.toInt) = true := by
  rw [fits_iff]
  have hsmall := natAbs_tmod_lt a hb
  have hbounds := toInt_bounds b
  omega

theorem fits_tdiv_iff (hb : b ≠ 0) :
    fits (a.toInt.tdiv b.toInt) = true ↔ ¬ Undivided a b := by
  have ha := toInt_bounds a
  have hb0 := toInt_ne_zero hb
  rw [fits_iff, Undivided, not_or, and_iff_right hb]
  constructor
  · rintro hfits ⟨rfl, rfl⟩
    exact absurd hfits.2 (by decide)
  · intro hpair
    by_cases hone : b.toInt.natAbs = 1
    · rcases Int.natAbs_eq_iff.mp hone with hpos | hneg
      · rw [hpos, Nat.cast_one, Int.tdiv_one]
        exact ha
      · rw [hneg, Nat.cast_one, Int.tdiv_neg, Int.tdiv_one]
        have hmin : a.toInt ≠ -2 ^ 63 := fun h => hpair
          ⟨Int64.toInt_inj.mp h, Int64.toInt_inj.mp (by rw [hneg]; rfl)⟩
        omega
    · have hhalf : (a.toInt.tdiv b.toInt).natAbs ≤ a.toInt.natAbs / 2 := by
        rw [Int.natAbs_tdiv]
        exact Nat.div_le_div_left (by omega) (by decide)
      omega

theorem division_of_eq (hb : b ≠ 0) (hq : q.toInt = a.toInt.tdiv b.toInt)
    (hr : r.toInt = a.toInt.tmod b.toInt) : Division a b q r where
  equation := by rw [hq, hr, Int.tdiv_mul_add_tmod]
  small := hr ▸ natAbs_tmod_lt a hb
  sign := by
    by_cases hdvd : b.toInt ∣ a.toInt
    · exact .inl (Int64.toInt_inj.mp (hr.trans (Int.tmod_eq_zero_of_dvd hdvd)))
    · exact .inr (by rw [hr, Int.sign_tmod, if_neg hdvd])

/-! ## The operations -/

theorem onInts_eq_exact (h : f a.toInt b.toInt = some n) :
    onInts f [.int a, .int b] = exact n := by
  rw [onInts, h]
  rfl

theorem onInts_eq_arith (h : f a.toInt b.toInt = none) :
    onInts f [.int a, .int b] = .special .arith := by
  rw [onInts, h]
  rfl

theorem onInts_typeError (f : Int → Int → Option Int) (h : ∃ v ∈ vs, ∀ c, v ≠ .int c) :
    onInts f vs = .special .typeError := by
  unfold onInts
  split
  · obtain ⟨v, hv, hother⟩ := h
    rcases List.mem_pair.mp hv with rfl | rfl
    · exact absurd rfl (hother _)
    · exact absurd rfl (hother _)
  · rfl

theorem negateInt_typeError (h : ∃ v ∈ vs, ∀ c, v ≠ .int c) :
    negateInt vs = .special .typeError := by
  unfold negateInt
  split
  · obtain ⟨v, hv, hother⟩ := h
    cases List.mem_singleton.mp hv
    exact absurd rfl (hother _)
  · rfl

/-- Without a quotient, or a word for it, there is no remainder either. -/
theorem undivided_arith (h : Undivided a b) :
    onInts quotient [.int a, .int b] = .special .arith ∧
      onInts remainder [.int a, .int b] = .special .arith := by
  rcases h with rfl | ⟨rfl, rfl⟩
  · exact ⟨onInts_eq_arith rfl, onInts_eq_arith rfl⟩
  · exact ⟨rfl, rfl⟩

theorem exists_division (h : ¬ Undivided a b) :
    ∃ q r, onInts quotient [.int a, .int b] = .int q ∧
      onInts remainder [.int a, .int b] = .int r ∧ Division a b q r := by
  have hb : b ≠ 0 := fun hb => h (.inl hb)
  have hfits := (fits_tdiv_iff hb).mpr h
  have hquotient : quotient a.toInt b.toInt = some (a.toInt.tdiv b.toInt) :=
    if_neg (toInt_ne_zero hb)
  have hremainder : remainder a.toInt b.toInt = some (a.toInt.tmod b.toInt) := by
    rw [remainder, hquotient]
    exact if_pos hfits
  obtain ⟨q, hq⟩ := fits_iff_held.mp hfits
  obtain ⟨r, hr⟩ := fits_iff_held.mp (fits_tmod a hb)
  refine ⟨q, r, ?_, ?_, division_of_eq hb hq hr⟩
  · rw [onInts_eq_exact hquotient, ← hq, exact_toInt]
  · rw [onInts_eq_exact hremainder, ← hr, exact_toInt]

theorem quotient_eq_arith_iff :
    onInts quotient [.int a, .int b] = .special .arith ↔ Undivided a b := by
  refine ⟨fun h => Classical.not_not.mp fun hdivided => ?_, fun h => (undivided_arith h).1⟩
  obtain ⟨q, r, hq, -, -⟩ := exists_division hdivided
  cases hq.symm.trans h

theorem remainder_eq_arith_iff :
    onInts remainder [.int a, .int b] = .special .arith ↔ Undivided a b := by
  refine ⟨fun h => Classical.not_not.mp fun hdivided => ?_, fun h => (undivided_arith h).2⟩
  obtain ⟨q, r, -, hr, -⟩ := exists_division hdivided
  cases hr.symm.trans h

/-! ## The table -/

/-- What arithmetic on integers does, in terms of integers. -/
structure ExactArithmetic (apply : String → List Value → Value) : Prop where
  sum : ∀ a b : Int64, Exact (a.toInt + b.toInt) (apply "+" [.int a, .int b])
  difference : ∀ a b : Int64, Exact (a.toInt - b.toInt) (apply "-" [.int a, .int b])
  product : ∀ a b : Int64, Exact (a.toInt * b.toInt) (apply "*" [.int a, .int b])
  negation : ∀ a : Int64, Exact (-a.toInt) (apply "neg" [.int a])
  quotient : ∀ a b : Int64, apply "/" [.int a, .int b] = .special .arith ↔ Undivided a b
  remainder : ∀ a b : Int64, apply "%" [.int a, .int b] = .special .arith ↔ Undivided a b
  division : ∀ a b : Int64, ¬ Undivided a b → ∃ q r,
    apply "/" [.int a, .int b] = .int q ∧ apply "%" [.int a, .int b] = .int r ∧ Division a b q r
  binary_typeError : ∀ name ∈ ["+", "-", "*", "/", "%"], ∀ vs : List Value,
    vs.map (·.typeIndex) = [TypeIndex.int, TypeIndex.int] → (∃ v ∈ vs, ∀ c, v ≠ .int c) →
      apply name vs = .special .typeError
  unary_typeError : ∀ vs : List Value,
    vs.map (·.typeIndex) = [TypeIndex.int] → (∃ v ∈ vs, ∀ c, v ≠ .int c) →
      apply "neg" vs = .special .typeError

/-- The binary operators. -/
def integerOperations : List (String × (Int → Int → Option Int)) :=
  [("+", fun a b => some (a + b)), ("-", fun a b => some (a - b)), ("*", fun a b => some (a * b)),
    ("/", quotient), ("%", remainder)]

theorem apply_integerOperations (t : OperatorTable) (h : (name, f) ∈ integerOperations)
    (hvs : vs.map (·.typeIndex) = [TypeIndex.int, TypeIndex.int]) :
    (install t).apply name vs = onInts f vs := by
  have hfirst : (integerOperations.map fun o =>
      (o.1, [TypeIndex.int, TypeIndex.int], onInts o.2)) <+: operators := ⟨_, rfl⟩
  exact apply_install t (hfirst.subset (List.mem_map_of_mem h)) hvs

theorem apply_neg (t : OperatorTable) (hvs : vs.map (·.typeIndex) = [TypeIndex.int]) :
    (install t).apply "neg" vs = negateInt vs :=
  apply_install t (by simp [operators]) hvs

theorem exact_apply (t : OperatorTable) {g : Int → Int → Int}
    (h : (name, fun a b => some (g a b)) ∈ integerOperations) (a b : Int64) :
    Exact (g a.toInt b.toInt) ((install t).apply name [.int a, .int b]) := by
  rw [apply_integerOperations t h rfl]
  exact exact_isExact _

/-- Whatever the built-in operators are installed over, their arithmetic on integers is exact. -/
theorem integer_arithmetic_is_exact (t : OperatorTable) :
    ExactArithmetic (install t).apply := by
  have hquotient : ("/", quotient) ∈ integerOperations := by simp [integerOperations]
  have hremainder : ("%", remainder) ∈ integerOperations := by simp [integerOperations]
  constructor
  case sum => exact exact_apply t (by simp [integerOperations])
  case difference => exact exact_apply t (by simp [integerOperations])
  case product => exact exact_apply t (by simp [integerOperations])
  case negation =>
    intro a
    rw [apply_neg t rfl]
    exact exact_isExact _
  case quotient =>
    intro a b
    rw [apply_integerOperations t hquotient rfl]
    exact quotient_eq_arith_iff
  case remainder =>
    intro a b
    rw [apply_integerOperations t hremainder rfl]
    exact remainder_eq_arith_iff
  case division =>
    intro a b h
    rw [apply_integerOperations t hquotient rfl, apply_integerOperations t hremainder rfl]
    exact exists_division h
  case binary_typeError =>
    intro name hname vs hvs hother
    obtain ⟨⟨_, f⟩, ho, rfl⟩ := List.mem_map (l := integerOperations) (f := Prod.fst).mp hname
    rw [apply_integerOperations t ho hvs, onInts_typeError f hother]
  case unary_typeError =>
    intro vs hvs hother
    rw [apply_neg t hvs, negateInt_typeError hother]

/-- A foreign value that has the type of integers is no operand of their sum. -/
example : (install []).apply "+" [.int 1, .foreign TypeIndex.int 0 "one"] =
    .special .typeError := by
  rfl

end Builtin
end Intensional
