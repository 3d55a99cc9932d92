import Mathlib.Data.Int.ConditionallyCompleteOrder
import Mathlib.Data.Int.Interval
import Mathlib.Data.Set.Card
import Mathlib.Order.Interval.Set.Infinite
import Intensional.Operator.Builtin
import Intensional.Proofs.Guard.Collections

/-!
# Ranges as sets of integers

A range stands for a set of integers (`IntRange.integers`), which is all integers beyond a bound
that is missing. The questions to a range are answered from its bounds, without a look at the
set, and the answers are those for the set, up to the greatest and least words
(`IntRange.ranges_are_exact`).

Answers are computed in words. The number of integers is a difference of words, taken without
sign, and one more, which need not fit. The integers of a range are gone through by adding a
counter to the lower bound, and the addition may overflow. Both are written out here
(`IntRange.length64?`, `Value.scan?`). The first fits exactly if the number does. The second never
overflows, because a range is only gone through after it was found to have no more integers than
a list in memory has members.
-/

namespace Intensional

namespace IntRange

variable {r s : IntRange} {lo hi : Int64}

def integers (r : IntRange) : Set Int :=
  {z | (∀ lo, r.lower = some lo → lo.toInt ≤ z) ∧ ∀ hi, r.upper = some hi → z ≤ hi.toInt}

theorem integers_Icc (lo hi : Int64) :
    (⟨some lo, some hi⟩ : IntRange).integers = Set.Icc lo.toInt hi.toInt := by
  ext z
  simp [integers]

theorem integers_Ici (lo : Int64) : (⟨some lo, none⟩ : IntRange).integers = Set.Ici lo.toInt := by
  ext z
  simp [integers]

theorem integers_Iic (hi : Int64) : (⟨none, some hi⟩ : IntRange).integers = Set.Iic hi.toInt := by
  ext z
  simp [integers]

theorem integers_univ : (⟨none, none⟩ : IntRange).integers = Set.univ := by
  ext z
  simp [integers]

/-- A range has a size only if it is bounded on both sides, and otherwise it is infinite. -/
theorem bounded_or_infinite (r : IntRange) : (∃ lo hi, r = ⟨some lo, some hi⟩) ∨
    r.isEmpty = false ∧ r.size? = none ∧ r.only? = none ∧ r.integers.Infinite := by
  obtain ⟨_ | lo, _ | hi⟩ := r
  · exact .inr ⟨rfl, rfl, rfl, integers_univ ▸ Set.infinite_univ⟩
  · exact .inr ⟨rfl, rfl, rfl, integers_Iic hi ▸ Set.Iic_infinite _⟩
  · exact .inr ⟨rfl, rfl, rfl, integers_Ici lo ▸ Set.Ici_infinite _⟩
  · exact .inl ⟨lo, hi, rfl⟩

/-! ## Questions to a range -/

theorem contains_iff_mem (r : IntRange) (n : Int64) :
    r.contains n = true ↔ n.toInt ∈ r.integers := by
  rw [contains_iff, integers, Set.mem_ofPred_eq]
  simp only [Int64.le_iff_toInt_le]

theorem isEmpty_iff_integers (r : IntRange) : r.isEmpty = true ↔ r.integers = ∅ := by
  rcases bounded_or_infinite r with ⟨lo, hi, rfl⟩ | ⟨hempty, -, -, hinfinite⟩
  · rw [integers_Icc, Set.Icc_eq_empty_iff, Int.not_le, ← Int64.lt_iff_toInt_lt]
    exact decide_eq_true_iff
  · rw [hempty]
    exact iff_of_false Bool.false_ne_true hinfinite.nonempty.ne_empty

theorem encard_Icc (a b : Int) : (Set.Icc a b).encard = ((b - a + 1).toNat : ℕ∞) := by
  rw [← Finset.coe_Icc, Set.encard_coe_eq_coe_finsetCard, Int.card_Icc]
  congr 2
  omega

/-- The size is the number of integers, where there is one and it fits in a word. -/
theorem size?_eq_some (r : IntRange) (n : Nat) :
    r.size? = some n ↔ r.integers.encard = n ∧ n ≤ 2 ^ 64 - 1 := by
  rcases bounded_or_infinite r with ⟨lo, hi, rfl⟩ | ⟨-, hsize, -, hinfinite⟩
  · rw [integers_Icc, encard_Icc, size?, Nat.cast_inj, Option.ite_none_right_eq_some, UInt64.size]
    grind
  · rw [hsize, hinfinite.encard_eq]
    exact iff_of_false (Option.some_ne_none n).symm fun h => ENat.top_ne_natCast n h.1

theorem only?_eq_singleton (r : IntRange) (z : Int) :
    r.only?.map Int64.toInt = some z ↔ r.integers = {z} := by
  rcases bounded_or_infinite r with ⟨lo, hi, rfl⟩ | ⟨-, -, honly, hinfinite⟩
  · rw [integers_Icc, Set.Icc_eq_singleton_iff]
    by_cases h : lo = hi
    · simp [only?, h]
    · simp only [only?, if_neg h]
      exact iff_of_false (Option.some_ne_none z).symm fun hz =>
        h (Int64.toInt_inj.mp (hz.1.trans hz.2.symm))
  · rw [honly]
    exact iff_of_false (Option.some_ne_none z).symm fun h =>
      hinfinite (h ▸ Set.finite_singleton z)

/-! A range with integers has them up to its bounds, and beyond all others. -/

theorem lower_mem (hr : r.integers.Nonempty) (hlo : r.lower = some lo) :
    lo.toInt ∈ r.integers := by
  obtain ⟨x, hx⟩ := hr
  refine ⟨fun lo' hlo' => ?_, fun hi hhi => (hx.1 lo hlo).trans (hx.2 hi hhi)⟩
  cases hlo.symm.trans hlo'
  exact le_rfl

theorem upper_mem (hr : r.integers.Nonempty) (hhi : r.upper = some hi) :
    hi.toInt ∈ r.integers := by
  obtain ⟨x, hx⟩ := hr
  refine ⟨fun lo hlo => (hx.1 lo hlo).trans (hx.2 hi hhi), fun hi' hhi' => ?_⟩
  cases hhi.symm.trans hhi'
  exact le_rfl

theorem exists_mem_lt (hr : r.integers.Nonempty) (hlower : r.lower = none) (b : Int) :
    ∃ z ∈ r.integers, z < b := by
  obtain ⟨x, hx⟩ := hr
  refine ⟨min x (b - 1), ⟨fun lo hlo => ?_, fun hi hhi => ?_⟩, by omega⟩
  · cases hlower.symm.trans hlo
  · exact (min_le_left _ _).trans (hx.2 hi hhi)

theorem exists_lt_mem (hr : r.integers.Nonempty) (hupper : r.upper = none) (b : Int) :
    ∃ z ∈ r.integers, b < z := by
  obtain ⟨x, hx⟩ := hr
  refine ⟨max x (b + 1), ⟨fun lo hlo => ?_, fun hi hhi => ?_⟩, by omega⟩
  · exact (hx.1 lo hlo).trans (le_max_left _ _)
  · cases hupper.symm.trans hhi

theorem isSubset_iff_integers (r s : IntRange) :
    r.isSubset s = true ↔ r.integers ⊆ s.integers := by
  rw [isSubset_iff]
  constructor
  · rintro (hempty | ⟨hlower, hupper⟩)
    · rw [(isEmpty_iff_integers r).mp hempty]
      exact Set.empty_subset _
    · refine fun z hz => ⟨fun lo hlo => ?_, fun hi hhi => ?_⟩
      · obtain ⟨lo', hlo', hle⟩ := hlower lo hlo
        exact (Int64.le_iff_toInt_le.mp hle).trans (hz.1 lo' hlo')
      · obtain ⟨hi', hhi', hle⟩ := hupper hi hhi
        exact (hz.2 hi' hhi').trans (Int64.le_iff_toInt_le.mp hle)
  · intro hsub
    rw [isEmpty_iff_integers, or_iff_not_imp_left]
    intro hempty
    have hr := Set.nonempty_iff_ne_empty.mpr hempty
    refine ⟨fun lo hlo => ?_, fun hi hhi => ?_⟩
    · cases hlower : r.lower with
      | none =>
        obtain ⟨z, hz, hlt⟩ := exists_mem_lt hr hlower lo.toInt
        exact absurd ((hsub hz).1 lo hlo) (Int.not_le.mpr hlt)
      | some lo' =>
        exact ⟨lo', rfl, Int64.le_iff_toInt_le.mpr ((hsub (lower_mem hr hlower)).1 lo hlo)⟩
    · cases hupper : r.upper with
      | none =>
        obtain ⟨z, hz, hlt⟩ := exists_lt_mem hr hupper hi.toInt
        exact absurd ((hsub hz).2 hi hhi) (Int.not_le.mpr hlt)
      | some hi' =>
        exact ⟨hi', rfl, Int64.le_iff_toInt_le.mpr ((hsub (upper_mem hr hupper)).2 hi hhi)⟩

/-! ## Numbers of integers in words -/

/-- The number of integers as a word: the difference of the bounds without sign, and one more if
that fits. -/
def length64? (r : IntRange) : Option UInt64 :=
  match r.lower, r.upper with
  | some lo, some hi =>
    if hi < lo then some 0
    else
      let distance := hi.toUInt64 - lo.toUInt64
      if distance.toNat + 1 < UInt64.size then some (distance + 1) else none
  | _, _ => none

theorem toNat_distance (h : lo ≤ hi) :
    (hi.toUInt64 - lo.toUInt64).toNat = (hi.toInt - lo.toInt).toNat := by
  rw [Int64.le_iff_toInt_le] at h
  have hword : ∀ n : Int64, n.toInt = if 2 * n.toUInt64.toNat < 2 ^ 64
      then (n.toUInt64.toNat : Int) else n.toUInt64.toNat - (2 ^ 64 : Nat) := fun n =>
    BitVec.toInt_eq_toNat_cond n.toBitVec
  have hlo := hword lo
  have hhi := hword hi
  have := lo.toUInt64.toNat_lt
  have := hi.toUInt64.toNat_lt
  rw [UInt64.toNat_sub]
  omega

theorem length64?_eq (r : IntRange) : r.length64?.map UInt64.toNat = r.size? := by
  obtain ⟨_ | lo, _ | hi⟩ := r
  · rfl
  · rfl
  · rfl
  · by_cases hlt : hi < lo
    · have hnone : (hi.toInt - lo.toInt + 1).toNat = 0 := by
        have := Int64.lt_iff_toInt_lt.mp hlt
        omega
      simp [length64?, size?, hlt, hnone]
    · have hle := Int64.not_lt.mp hlt
      have hdistance := toNat_distance hle
      have hsucc : (hi.toInt - lo.toInt + 1).toNat = (hi.toInt - lo.toInt).toNat + 1 := by
        have := Int64.le_iff_toInt_le.mp hle
        omega
      simp only [length64?, size?, if_neg hlt, hdistance, hsucc]
      split
      case isTrue hfits =>
        rw [Option.map_some, UInt64.toNat_add, hdistance]
        exact congrArg some (Nat.mod_eq_of_lt hfits)
      case isFalse => rfl

/-- The integer `i` places above `lo`, by an addition of words that must not overflow. -/
def offset? (lo : Int64) (i : Nat) : Option Int64 :=
  if Builtin.fits (lo.toInt + (Int64.ofNat i).toInt) then some (lo + Int64.ofNat i) else none

/-- An integer of a bounded range is a word. -/
theorem exists_word {z : Int} (hlo : r.lower = some lo) (hhi : r.upper = some hi)
    (hz : z ∈ r.integers) : ∃ n : Int64, n.toInt = z :=
  ⟨Int64.ofInt z, Int64.toInt_ofInt_of_le ((Int64.le_toInt lo).trans (hz.1 lo hlo))
    (Int.lt_of_le_of_lt (hz.2 hi hhi) (Int64.toInt_lt hi))⟩

/-- A range has the integers that are gone through, so they stay below its upper bound. -/
theorem exists_word_of_offset {size i : Nat} (hlo : r.lower = some lo)
    (hsize : r.size? = some size) (hi : i < size) : ∃ n : Int64, n.toInt = lo.toInt + i := by
  rcases bounded_or_infinite r with ⟨lo', hi', rfl⟩ | ⟨-, hnone, -, -⟩
  · cases hlo
    refine exists_word (r := ⟨some lo, some hi'⟩) rfl rfl ?_
    rw [size?, Option.ite_none_right_eq_some] at hsize
    rw [integers_Icc, Set.mem_Icc]
    grind
  · cases hnone.symm.trans hsize

theorem offset?_eq {n : Int64} {i : Nat} (hi : i < 2 ^ 63) (hn : lo.toInt + i = n.toInt) :
    offset? lo i = some n := by
  have hfits : Builtin.fits n.toInt = true := by
    rw [Builtin.fits, Bool.and_eq_true, decide_eq_true_iff, decide_eq_true_iff]
    exact ⟨n.minValue_le_toInt, n.toInt_le⟩
  have hsum : lo + Int64.ofNat i = n := by
    rw [← Int64.ofInt_toInt n, ← hn, Int64.ofInt_add, Int64.ofInt_toInt, Int64.ofInt_eq_ofNat]
  rw [offset?, Int64.toInt_ofNat_of_lt hi, hn, if_pos hfits, hsum]

end IntRange

/-! ## Ranges in sets -/

namespace Value

variable {r : IntRange} {members : List Value}

/-- The integers that occur among the members as words. -/
def integersIn (members : List Value) : Set Int := {z | ∃ n, n.toInt = z ∧ int n ∈ members}

theorem finite_integersIn (members : List Value) : (integersIn members).Finite := by
  refine (List.finite_toSet ((members.filterMap int?).map Int64.toInt)).subset ?_
  rintro _ ⟨n, rfl, hn⟩
  exact List.mem_map_of_mem (List.mem_filterMap.mpr ⟨_, hn, rfl⟩)

theorem any_beq_int_iff {n : Int64} :
    members.any (· == int n) = true ↔ int n ∈ members := by
  simp only [List.any_eq_true, beq_int_iff, exists_eq_right]

/-- A list holds the ranges that it has all integers of. Only the range of all words, which has no
size, would be missed, and a list with all of them is longer. -/
theorem holdsRange_iff_integers (r : IntRange) (hlength : members.length < 2 ^ 64) :
    holdsRange r members = true ↔ r.integers ⊆ integersIn members := by
  rw [holdsRange_iff]
  constructor
  · rintro (hempty | ⟨lo, hi, rfl, -, hall⟩) z hz
    · cases ((IntRange.isEmpty_iff_integers r).mp hempty).subset hz
    · obtain ⟨n, rfl⟩ := IntRange.exists_word rfl rfl hz
      exact ⟨n, rfl, any_beq_int_iff.mp (hall n ((IntRange.contains_iff_mem _ n).mpr hz))⟩
  · intro hsub
    rcases r.bounded_or_infinite with ⟨lo, hi, rfl⟩ | ⟨-, -, -, hinfinite⟩
    · have hall : ∀ n, (⟨some lo, some hi⟩ : IntRange).contains n = true →
          members.any (· == int n) = true := fun n hn => by
        obtain ⟨m, hm, hmem⟩ := hsub ((IntRange.contains_iff_mem _ n).mp hn)
        exact any_beq_int_iff.mpr (Int64.toInt_inj.mp hm ▸ hmem)
      have hcount := length_of_contains fun n hlo hhi => hall n (IntRange.contains_iff.mpr
        ⟨fun _ h => Option.some.inj h ▸ hlo, fun _ h => Option.some.inj h ▸ hhi⟩)
      exact .inr ⟨lo, hi, rfl, by omega, hall⟩
    · exact absurd ((finite_integersIn members).subset hsub) hinfinite

/-! A look through the integers of a range in words -/

/-- `holdsRange` with the numbers and the additions of words, and no result where an addition
overflows. -/
def scan? (r : IntRange) (members : List Value) : Option Bool :=
  if r.isEmpty then some true
  else
    match r.lower, r.length64? with
    | some lo, some length =>
      if length.toNat ≤ members.length then
        (List.range length.toNat).allM fun i =>
          (IntRange.offset? lo i).map fun n => members.any (· == int n)
      else some false
    | _, _ => some false

theorem allM_eq_some {α : Type} {f : α → Option Bool} {g : α → Bool} {l : List α}
    (h : ∀ a ∈ l, f a = some (g a)) : l.allM f = some (l.all g) := by
  induction l with
  | nil => rfl
  | cons a l ih =>
    rw [List.forall_mem_cons] at h
    rw [List.allM, h.1, List.all_cons]
    cases g a
    · rfl
    · exact ih h.2

theorem scan?_eq (r : IntRange) (hlength : members.length ≤ 2 ^ 63) :
    scan? r members = some (holdsRange r members) := by
  rw [scan?, holdsRange]
  by_cases hempty : r.isEmpty = true
  · rw [if_pos hempty, hempty, Bool.true_or]
  rw [if_neg hempty, Bool.eq_false_iff.mpr hempty, Bool.false_or]
  cases hlo : r.lower with
  | none => rfl
  | some lo =>
    have hsize := r.length64?_eq
    cases hlen : r.length64? with
    | none =>
      rw [hlen, Option.map_none] at hsize
      rw [← hsize]
    | some length =>
      rw [hlen, Option.map_some] at hsize
      rw [← hsize]
      dsimp only
      by_cases hle : length.toNat ≤ members.length
      · rw [if_pos hle, decide_eq_true hle, Bool.true_and]
        refine allM_eq_some fun i hi => ?_
        have hi := List.mem_range.mp hi
        obtain ⟨n, hn⟩ := IntRange.exists_word_of_offset hlo hsize.symm hi
        rw [IntRange.offset?_eq (by omega) hn.symm, Option.map_some, ← hn, Int64.ofInt_toInt]
      · rw [if_neg hle, decide_eq_false hle, Bool.false_and]

end Value

/-! ## Exactness -/

/-- Questions to a range have the answers for its set of integers: whether it is empty, how many
there are, which is the only one, what is a member, what is included and what has all of them as
members. Lists are kept in memory, with more than a byte for each member, so none is longer than
the powers of two say here. -/
theorem IntRange.ranges_are_exact (r s : IntRange) (members : List Value) :
    (r.isEmpty = true ↔ r.integers = ∅) ∧
    (∀ n : Nat, r.size? = some n ↔ r.integers.encard = n ∧ n ≤ 2 ^ 64 - 1) ∧
    r.length64?.map UInt64.toNat = r.size? ∧
    (∀ z : Int, r.only?.map Int64.toInt = some z ↔ r.integers = {z}) ∧
    (∀ n : Int64, r.contains n = true ↔ n.toInt ∈ r.integers) ∧
    (r.isSubset s = true ↔ r.integers ⊆ s.integers) ∧
    (members.length < 2 ^ 64 →
      (Value.holdsRange r members = true ↔ r.integers ⊆ Value.integersIn members)) ∧
    (∀ lo size, r.lower = some lo → r.size? = some size →
      ∀ i < size, ∃ n : Int64, n.toInt = lo.toInt + i) ∧
    (members.length ≤ 2 ^ 63 →
      Value.scan? r members = some (Value.holdsRange r members)) :=
  ⟨isEmpty_iff_integers r, size?_eq_some r, length64?_eq r, only?_eq_singleton r,
    contains_iff_mem r, isSubset_iff_integers r s, Value.holdsRange_iff_integers r,
    fun _ _ hlo hsize _ hi => exists_word_of_offset hlo hsize hi, Value.scan?_eq r⟩

/-- The two greatest words, in a list that has a string too. -/
theorem IntRange.ranges_are_exact_greatest :
    (⟨some (Int64.maxValue - 1), some Int64.maxValue⟩ : IntRange).integers ⊆ Value.integersIn
      [.int (Int64.maxValue - 1), .int Int64.maxValue, .str ""] ∧
    Value.scan? ⟨some (Int64.maxValue - 1), some Int64.maxValue⟩
      [.int (Int64.maxValue - 1), .int Int64.maxValue, .str ""] = some true := by
  obtain ⟨-, -, -, -, -, -, hholds, -, hscan⟩ :=
    ranges_are_exact ⟨some (Int64.maxValue - 1), some Int64.maxValue⟩ ⟨none, none⟩
      [.int (Int64.maxValue - 1), .int Int64.maxValue, .str ""]
  have htrue : Value.holdsRange ⟨some (Int64.maxValue - 1), some Int64.maxValue⟩
      [.int (Int64.maxValue - 1), .int Int64.maxValue, .str ""] = true := by decide
  exact ⟨(hholds (by decide)).mp htrue, (hscan (by decide)).trans (congrArg some htrue)⟩

end Intensional
