import Mathlib.Data.Finset.Card
import Mathlib.Order.Interval.Finset.Defs
import Mathlib.Data.Int.Interval
import Intensional.Proofs.Context.Agreement

/-!
# Ranges and sets as collections

Guards look at collections in two ways: they ask whether a value is a member of one, and they
compare two of them without listing their members. The laws here tie the second to the first.

A range has integers as members, and ranges too: those whose integers it has. What is said about
its integers alone holds for the comparisons of ranges (`IntRange.contains_of_isSubset`) and for
those with sets (`Value.holdsRange_iff`), which are decided by counting: a range that has no more
integers than a list has members is looked through, one that has more cannot be in the list.
-/

namespace Intensional

/-! ## Ranges -/

namespace IntRange

variable {r s t : IntRange} {n m : Int64}

theorem isEmpty_iff : r.isEmpty = true ↔ ∃ lo hi, r = ⟨some lo, some hi⟩ ∧ hi < lo := by
  obtain ⟨lower, upper⟩ := r
  cases lower <;> cases upper <;> simp [isEmpty]

/-- A range without integers is in every range; of another one the bounds are compared. -/
theorem isSubset_iff : r.isSubset s = true ↔ r.isEmpty = true ∨
    (∀ lo, s.lower = some lo → ∃ lo', r.lower = some lo' ∧ lo ≤ lo') ∧
      ∀ hi, s.upper = some hi → ∃ hi', r.upper = some hi' ∧ hi' ≤ hi := by
  obtain ⟨lower, upper⟩ := s
  cases lower <;> cases upper <;> simp [isSubset, Option.any_eq_true]

theorem isSubset_refl (r : IntRange) : r.isSubset r = true :=
  isSubset_iff.mpr (.inr ⟨fun lo hlo => ⟨lo, hlo, Int64.le_refl lo⟩,
    fun hi hhi => ⟨hi, hhi, Int64.le_refl hi⟩⟩)

theorem not_isEmpty_of_contains (h : r.contains n = true) : r.isEmpty = false := by
  refine Bool.eq_false_iff.mpr fun hempty => ?_
  obtain ⟨lo, hi, rfl, hlt⟩ := isEmpty_iff.mp hempty
  obtain ⟨hlo, hhi⟩ := contains_iff.mp h
  exact absurd hlt (Int64.not_lt.mpr (Int64.le_trans (hlo lo rfl) (hhi hi rfl)))

theorem contains_of_isSubset (h : r.isSubset s = true) (hn : r.contains n = true) :
    s.contains n = true := by
  rcases isSubset_iff.mp h with hempty | ⟨hlower, hupper⟩
  · cases hempty.symm.trans (not_isEmpty_of_contains hn)
  · obtain ⟨hlo, hhi⟩ := contains_iff.mp hn
    refine contains_iff.mpr ⟨fun lo h => ?_, fun hi h => ?_⟩
    · obtain ⟨lo', h', hle⟩ := hlower lo h
      exact Int64.le_trans hle (hlo lo' h')
    · obtain ⟨hi', h', hle⟩ := hupper hi h
      exact Int64.le_trans (hhi hi' h') hle

/-- What is in a range without integers has none either. -/
theorem isEmpty_of_isSubset (h : r.isSubset s = true) (hs : s.isEmpty = true) :
    r.isEmpty = true := by
  rcases isSubset_iff.mp h with hempty | ⟨hlower, hupper⟩
  · exact hempty
  · obtain ⟨lo, hi, rfl, hlt⟩ := isEmpty_iff.mp hs
    obtain ⟨lo', hlo', hle⟩ := hlower lo rfl
    obtain ⟨hi', hhi', hle'⟩ := hupper hi rfl
    refine isEmpty_iff.mpr ⟨lo', hi', ?_, Int64.lt_of_le_of_lt hle' (Int64.lt_of_lt_of_le hlt hle)⟩
    rw [← hlo', ← hhi']

theorem isSubset_trans (h : r.isSubset s = true) (h' : s.isSubset t = true) :
    r.isSubset t = true := by
  rcases isSubset_iff.mp h with hempty | ⟨hlower, hupper⟩
  · exact isSubset_iff.mpr (.inl hempty)
  · rcases isSubset_iff.mp h' with hempty | ⟨hlower', hupper'⟩
    · exact isSubset_iff.mpr (.inl (isEmpty_of_isSubset h hempty))
    · refine isSubset_iff.mpr (.inr ⟨fun lo hlo => ?_, fun hi hhi => ?_⟩)
      · obtain ⟨lo', hlo', hle⟩ := hlower' lo hlo
        obtain ⟨lo'', hlo'', hle'⟩ := hlower lo' hlo'
        exact ⟨lo'', hlo'', Int64.le_trans hle hle'⟩
      · obtain ⟨hi', hhi', hle⟩ := hupper' hi hhi
        obtain ⟨hi'', hhi'', hle'⟩ := hupper hi' hhi'
        exact ⟨hi'', hhi'', Int64.le_trans hle' hle⟩

/-! A range with one integer -/

theorem only?_eq_some : r.only? = some n ↔ r = ⟨some n, some n⟩ := by
  obtain ⟨lower, upper⟩ := r
  cases lower <;> cases upper <;> simp [only?]
  grind

theorem only?_of_isEmpty (h : r.isEmpty = true) : r.only? = none := by
  refine Option.eq_none_iff_forall_ne_some.mpr fun n hn => ?_
  obtain rfl := only?_eq_some.mp hn
  exact Int64.lt_irrefl (of_decide_eq_true h)

theorem contains_one : (⟨some n, some n⟩ : IntRange).contains m = true ↔ m = n := by
  rw [contains_iff]
  simp only [Option.some.injEq, forall_eq']
  exact ⟨fun h => Int64.le_antisymm h.2 h.1, fun h => h ▸ ⟨Int64.le_refl _, Int64.le_refl _⟩⟩

theorem bounded_of_isSubset {lo hi : Int64} (h : r.isSubset ⟨some lo, some hi⟩ = true)
    (hr : r.isEmpty = false) :
    ∃ lo' hi', r = ⟨some lo', some hi'⟩ ∧ lo ≤ lo' ∧ lo' ≤ hi' ∧ hi' ≤ hi := by
  rcases isSubset_iff.mp h with hempty | ⟨hlower, hupper⟩
  · cases hempty.symm.trans hr
  · obtain ⟨lo', hlo', hlole⟩ := hlower lo rfl
    obtain ⟨hi', hhi', hhile⟩ := hupper hi rfl
    obtain rfl : r = ⟨some lo', some hi'⟩ := by rw [← hlo', ← hhi']
    refine ⟨lo', hi', rfl, hlole, Int64.not_lt.mp fun hlt => ?_, hhile⟩
    cases (isEmpty_iff.mpr ⟨lo', hi', rfl, hlt⟩).symm.trans hr

theorem eq_one_of_isSubset (h : r.isSubset ⟨some n, some n⟩ = true) (hr : r.isEmpty = false) :
    r = ⟨some n, some n⟩ := by
  obtain ⟨lo, hi, rfl, hlo, hle, hhi⟩ := bounded_of_isSubset h hr
  obtain rfl : lo = n := Int64.le_antisymm (Int64.le_trans hle hhi) hlo
  obtain rfl : hi = lo := Int64.le_antisymm hhi hle
  rfl

end IntRange

/-! ## Members -/

namespace Value

variable {v w : Value} {r s : IntRange} {n : Int64} {members : List Value}

theorem beq_int_iff : (v == .int n) = true ↔ v = .int n := by
  cases v <;> simp [beq_def, beq]

theorem memberOf_range_iff : v.memberOf (.range r) = true ↔
    (∃ n, v = .int n ∧ r.contains n = true) ∨ ∃ s, v = .range s ∧ s.isSubset r = true := by
  cases v <;> simp [memberOf]

/-- The value may be a member of a range. -/
def ranged : Value → Bool
  | .int _ => true
  | .range _ => true
  | _ => false

theorem ranged_iff : v.ranged = true ↔ (∃ n, v = .int n) ∨ ∃ r, v = .range r := by
  cases v <;> simp [ranged]

theorem ranged_of_memberOf (h : v.memberOf (.range r) = true) : v.ranged = true := by
  rcases memberOf_range_iff.mp h with ⟨n, rfl, -⟩ | ⟨s, rfl, -⟩ <;> rfl

theorem memberOf_set (v : Value) (members : List Value) :
    v.memberOf (.set members) = members.any (· == v) := by
  cases v <;> rfl

theorem onlyMember?_range : (range r).onlyMember? = some w ↔
    ∃ n, r = ⟨some n, some n⟩ ∧ w = .int n := by
  rw [onlyMember?, Option.map_eq_some_iff]
  exact exists_congr fun n => and_congr IntRange.only?_eq_some eq_comm

theorem onlyMember?_set : (set members).onlyMember? = some w ↔ members = [w] := by
  match members with
  | [] => simp [onlyMember?]
  | [v] => simp [onlyMember?]
  | u :: v :: vs => simp [onlyMember?]

/-! ## Ranges in sets -/

/-- A list has at least as many members as the ranges that it has all integers of. -/
theorem length_of_contains {lo hi : Int64}
    (h : ∀ n : Int64, lo ≤ n → n ≤ hi → members.any (· == .int n) = true) :
    (hi.toInt - lo.toInt + 1).toNat ≤ members.length := by
  have hsub : Finset.Icc lo.toInt hi.toInt ⊆
      ((members.filterMap int?).map Int64.toInt).toFinset := fun z hz => by
    obtain ⟨hlo, hhi⟩ := Finset.mem_Icc.mp hz
    have hword : (Int64.ofInt z).toInt = z := Int64.toInt_ofInt_of_le
      (Int.le_trans (Int64.le_toInt lo) hlo) (Int.lt_of_le_of_lt hhi (Int64.toInt_lt hi))
    obtain ⟨v, hv, hvn⟩ := List.any_eq_true.mp (h (Int64.ofInt z)
      (Int64.le_iff_toInt_le.mpr (hword.symm ▸ hlo))
      (Int64.le_iff_toInt_le.mpr (hword.symm ▸ hhi)))
    rw [List.mem_toFinset, List.mem_map]
    exact ⟨_, List.mem_filterMap.mpr ⟨v, hv, by rw [beq_int_iff.mp hvn, int?]⟩, hword⟩
  have hcard := (Finset.card_le_card hsub).trans (List.toFinset_card_le _)
  rw [Int.card_Icc, List.length_map] at hcard
  have hlength := List.length_filterMap_le int? members
  omega

/-- The members have all integers of a range that has less than `2 ^ 64` of them. -/
theorem holdsRange_iff : holdsRange r members = true ↔ r.isEmpty = true ∨
    ∃ lo hi, r = ⟨some lo, some hi⟩ ∧ hi.toInt - lo.toInt + 1 < 2 ^ 64 ∧
      ∀ n, r.contains n = true → members.any (· == .int n) = true := by
  rw [holdsRange, Bool.or_eq_true]
  refine or_congr_right' fun hempty => ?_
  obtain ⟨lower, upper⟩ := r
  cases lower with
  | none => simp
  | some lo =>
    cases upper with
    | none => simp [IntRange.size?]
    | some hi =>
      have hle : lo ≤ hi := Int64.not_lt.mp fun hlt =>
        hempty (IntRange.isEmpty_iff.mpr ⟨lo, hi, rfl, hlt⟩)
      rw [Int64.le_iff_toInt_le] at hle
      have hlo := Int64.le_toInt lo
      have hhi := Int64.toInt_lt hi
      have hcontains : ∀ n : Int64, (⟨some lo, some hi⟩ : IntRange).contains n = true ↔
          lo ≤ n ∧ n ≤ hi := fun n => by simp [IntRange.contains_iff]
      simp only [IntRange.size?, UInt64.size, hcontains, IntRange.mk.injEq, Option.some.injEq]
      constructor
      · intro h
        by_cases hsize : (hi.toInt - lo.toInt + 1).toNat < 18446744073709551616
        · rw [if_pos hsize] at h
          obtain ⟨-, hall⟩ := Bool.and_eq_true_iff.mp h
          refine ⟨lo, hi, ⟨rfl, rfl⟩, by omega, fun n ⟨hln, hnh⟩ => ?_⟩
          rw [Int64.le_iff_toInt_le] at hln hnh
          have hat := List.all_eq_true.mp hall (n.toInt - lo.toInt).toNat
            (List.mem_range.mpr (by omega))
          have hoffset : lo.toInt + ((n.toInt - lo.toInt).toNat : Int) = n.toInt := by omega
          rwa [hoffset, Int64.ofInt_toInt] at hat
        · rw [if_neg hsize] at h
          cases h
      · rintro ⟨_, _, ⟨rfl, rfl⟩, hsize, hall⟩
        rw [if_pos (by omega)]
        refine Bool.and_eq_true_iff.mpr ⟨decide_eq_true (length_of_contains fun n hln hnh =>
          hall n ⟨hln, hnh⟩), List.all_eq_true.mpr fun i hi => ?_⟩
        have hi := List.mem_range.mp hi
        have hword : (Int64.ofInt (lo.toInt + i)).toInt = lo.toInt + i :=
          Int64.toInt_ofInt_of_le (by omega) (by omega)
        refine hall _ ⟨?_, ?_⟩ <;> rw [Int64.le_iff_toInt_le, hword] <;> omega

end Value

end Intensional
