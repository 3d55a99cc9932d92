import Intensional.Value.Lemmas

/-!
# The order of values

`Value.compare` is a total order up to equality: it is transitive (`Std.TransCmp`), and values
compare equal exactly if they are equal (`Value.compare_eq_iff`). So a set of values, which is
made by insertion, is ascending (`Value.ascending_setOf`), and no two of its members are equal.

Values are compared by type, then by kind, and values of one kind as that kind is
(`Value.compare_eq_then`). The laws are proved of values of one kind by induction on nested sets,
and hold of all values because a lexicographic comparison has the laws of its parts.
-/

namespace Intensional

/-! ## Doubles -/

namespace Binary64

variable {x y : Binary64}

theorem magnitude_lt (x : Binary64) : x.magnitude < 0x8000000000000000 := Nat.mod_lt _ (by decide)

theorem rank_of_number (h : x.isNaN = false) :
    x.rank = if x.isNegative then -(x.magnitude : Int) else x.magnitude := by
  rw [rank, h]
  rfl

theorem rank_lt_of_number (h : x.isNaN = false) : x.rank < 0x8000000000000000 := by
  have := x.magnitude_lt
  rw [rank_of_number h]
  split <;> omega

/-- All NaNs are one number. -/
theorem beq_of_isNaN (hx : x.isNaN = true) (hy : y.isNaN = true) : (x == y) = true := by
  rw [beq_iff, rank, rank, if_pos hx, if_pos hy]

/-- The two zeros are one number. -/
theorem beq_of_zero (hx : x.magnitude = 0) (hy : y.magnitude = 0) : (x == y) = true := by
  simp [beq_iff, rank, isNaN, infinite, hx, hy]

end Binary64

/-! ## The kinds that are compared by parts -/

instance : Std.TransCmp Binary64.compare :=
  inferInstanceAs (Std.TransCmp (compareOn Binary64.rank))

instance : Std.TransCmp IndexSet.compare :=
  inferInstanceAs (Std.TransCmp fun s t : IndexSet => compareOn IndexSet.toList s t)

instance : Std.TransCmp IntRange.compare :=
  inferInstanceAs (Std.TransCmp (compareLex (compareOn IntRange.lower) (compareOn IntRange.upper)))

theorem Binary64.compare_eq_iff {x y : Binary64} : x.compare y = .eq ↔ (x == y) = true := by
  rw [compare, Std.LawfulEqCmp.compare_eq_iff_eq, beq_iff]

theorem IndexSet.compare_eq_iff {s t : IndexSet} : s.compare t = .eq ↔ s = t := by
  obtain ⟨ms, hms⟩ := s
  obtain ⟨ns, hns⟩ := t
  show Ord.compare ms ns = .eq ↔ _
  rw [Std.LawfulEqCmp.compare_eq_iff_eq, IndexSet.mk.injEq]

theorem IntRange.compare_eq_iff {r s : IntRange} : r.compare s = .eq ↔ r = s := by
  obtain ⟨lower, upper⟩ := r
  obtain ⟨lower', upper'⟩ := s
  rw [compare, Ordering.then_eq_eq, Std.LawfulEqCmp.compare_eq_iff_eq,
    Std.LawfulEqCmp.compare_eq_iff_eq, IntRange.mk.injEq]

namespace Value

/-! ## Comparing by type, by kind and within a kind -/

/-- Values of one kind and type are compared as that kind is. -/
def compareWithin : Value → Value → Ordering
  | .special a, .special b => Ord.compare a.rank b.rank
  | .bool a, .bool b => Ord.compare a b
  | .int a, .int b => Ord.compare a b
  | .float a, .float b => a.compare b
  | .char a, .char b => Ord.compare a b
  | .str a, .str b => Ord.compare a b
  | .range a, .range b => a.compare b
  | .set a, .set b => compareAll a b
  | .type a, .type b => a.compare b
  | .dim a, .dim b => Ord.compare a b
  | .foreign _ k _, .foreign _ l _ => Ord.compare k l
  | _, _ => .eq

theorem compare_eq_then (v w : Value) : v.compare w = (Ord.compare v.typeIndex w.typeIndex).then
    ((Ord.compare v.kindRank w.kindRank).then (v.compareWithin w)) := by
  cases v <;> cases w <;> simp [compare, compareWithin, typeIndex, kindRank]

theorem compare_swap_of {v w : Value} (h : v.compareWithin w = (w.compareWithin v).swap) :
    v.compare w = (w.compare v).swap := by
  rw [compare_eq_then, compare_eq_then w, Ordering.swap_then, Ordering.swap_then, ← h,
    ← Nat.compare_swap w.typeIndex, ← Nat.compare_swap w.kindRank]

mutual

theorem compareWithin_swap : ∀ v w : Value, v.compareWithin w = (w.compareWithin v).swap
  | .set vs, w => by
    cases w with
    | set ws => exact compareAll_swap vs ws
    | _ => rfl
  | .special _, w | .bool _, w | .int _, w | .float _, w | .char _, w | .str _, w | .range _, w
  | .type _, w | .dim _, w | .foreign _ _ _, w => by
    cases w <;> simp only [compareWithin, Ordering.swap_eq]
    exact Std.OrientedCmp.eq_swap

theorem compareAll_swap : ∀ vs ws : List Value, compareAll vs ws = (compareAll ws vs).swap
  | [], [] => rfl
  | [], _ :: _ => rfl
  | _ :: _, [] => rfl
  | v :: vs, w :: ws => by
    rw [compareAll, compareAll, Ordering.swap_then, ← compareAll_swap vs ws,
      ← compare_swap_of (compareWithin_swap v w)]

end

theorem compare_swap (v w : Value) : v.compare w = (w.compare v).swap :=
  compare_swap_of (compareWithin_swap v w)

/-! ## Values that compare equal -/

theorem kindRank_congr {u v : Value} (h : u.beq v = true) : u.kindRank = v.kindRank := by
  cases u <;> cases v <;> first | rfl | cases h

theorem compare_eq_iff_of {v w : Value}
    (h : v.typeIndex = w.typeIndex → v.kindRank = w.kindRank →
      (v.compareWithin w = .eq ↔ v.beq w = true)) :
    v.compare w = .eq ↔ v.beq w = true := by
  rw [compare_eq_then, Ordering.then_eq_eq, Ordering.then_eq_eq,
    Std.LawfulEqCmp.compare_eq_iff_eq, Std.LawfulEqCmp.compare_eq_iff_eq]
  constructor
  · rintro ⟨htype, hkind, hwithin⟩
    exact (h htype hkind).mp hwithin
  · intro hbeq
    have htype : v.typeIndex = w.typeIndex := typeIndex_congr hbeq
    have hkind := kindRank_congr hbeq
    exact ⟨htype, hkind, (h htype hkind).mpr hbeq⟩

mutual

theorem compareWithin_eq_iff : ∀ v w : Value, v.typeIndex = w.typeIndex →
    v.kindRank = w.kindRank → (v.compareWithin w = .eq ↔ v.beq w = true)
  | .set vs, w, _, hkind => by
    cases w <;> cases hkind
    exact compareAll_eq_iff vs _
  | .special _, w, _, hkind => by
    cases w <;> cases hkind
    simp only [compareWithin, beq, Std.LawfulEqCmp.compare_eq_iff_eq, beq_iff_eq]
    exact ⟨Special.rank_inj, congrArg _⟩
  | .float _, w, _, hkind => by
    cases w <;> cases hkind
    exact Binary64.compare_eq_iff
  | .range _, w, _, hkind => by
    cases w <;> cases hkind
    exact IntRange.compare_eq_iff.trans beq_iff_eq.symm
  | .type _, w, _, hkind => by
    cases w <;> cases hkind
    exact IndexSet.compare_eq_iff.trans beq_iff_eq.symm
  | .bool _, w, htype, hkind | .int _, w, htype, hkind | .char _, w, htype, hkind
  | .str _, w, htype, hkind | .dim _, w, htype, hkind | .foreign _ _ _, w, htype, hkind => by
    cases w <;> cases hkind
    simp_all [compareWithin, beq, typeIndex]

theorem compareAll_eq_iff : ∀ vs ws : List Value,
    compareAll vs ws = .eq ↔ beqAll vs ws = true
  | [], [] => by simp [compareAll, beqAll]
  | [], _ :: _ => by simp [compareAll, beqAll]
  | _ :: _, [] => by simp [compareAll, beqAll]
  | v :: vs, w :: ws => by
    rw [compareAll, beqAll, Ordering.then_eq_eq, Bool.and_eq_true, compareAll_eq_iff vs ws,
      compare_eq_iff_of (compareWithin_eq_iff v w)]

end

theorem compare_eq_iff {v w : Value} : v.compare w = .eq ↔ (v == w) = true :=
  compare_eq_iff_of (compareWithin_eq_iff v w)

/-! ## Equal values compare alike -/

theorem compare_congr_of {u v w : Value} (h : u.beq v = true)
    (hw : u.compareWithin w = v.compareWithin w) : u.compare w = v.compare w := by
  rw [compare_eq_then, compare_eq_then v, hw, typeIndex_congr h, kindRank_congr h]

mutual

theorem compareWithin_congr : ∀ {u v : Value}, u.beq v = true →
    ∀ w, u.compareWithin w = v.compareWithin w
  | .set us, v, h, w => by
    cases v <;> first | cases h | skip
    cases w <;> first | rfl | exact compareAll_congr h _
  | .float x, v, h, w => by
    cases v <;> first | cases h | skip
    cases w <;> first | rfl | exact congrArg (Ord.compare · _) (Binary64.beq_iff.mp h)
  | .special _, v, h, w | .bool _, v, h, w | .int _, v, h, w | .char _, v, h, w
  | .str _, v, h, w | .range _, v, h, w | .type _, v, h, w | .dim _, v, h, w
  | .foreign _ _ _, v, h, w => by
    cases v <;> simp only [beq, Bool.false_eq_true, beq_iff_eq, Bool.and_eq_true] at h
    cases w <;> simp [compareWithin, h]

theorem compareAll_congr : ∀ {us vs : List Value}, beqAll us vs = true →
    ∀ ws, compareAll us ws = compareAll vs ws
  | [], [], _, _ => rfl
  | [], _ :: _, h, _ => nomatch h
  | _ :: _, [], h, _ => nomatch h
  | _ :: _, _ :: _, _, [] => rfl
  | u :: us, v :: vs, h, w :: ws => by
    obtain ⟨hu, hus⟩ := Bool.and_eq_true_iff.mp h
    rw [compareAll, compareAll, compare_congr_of hu (compareWithin_congr hu w),
      compareAll_congr hus ws]

end

theorem compare_congr {u v : Value} (h : (u == v) = true) (w : Value) :
    u.compare w = v.compare w :=
  compare_congr_of h (compareWithin_congr h w)

/-! ## Transitivity -/

/-- What is compared first decides; where it ties, the rest has to be transitive. -/
theorem then_isLE_trans {α : Type} {cmp : α → α → Ordering} [Std.TransCmp cmp] {a b c : α}
    {o p q : Ordering} (h : cmp a b = .eq → cmp b c = .eq → o.isLE = true → p.isLE = true →
      q.isLE = true)
    (hab : ((cmp a b).then o).isLE = true) (hbc : ((cmp b c).then p).isLE = true) :
    ((cmp a c).then q).isLE = true := by
  rw [Ordering.isLE_then_iff_or] at hab hbc ⊢
  rcases hab with hab | ⟨hab, ho⟩
  · rcases hbc with hbc | ⟨hbc, -⟩
    · exact .inl (Std.TransCmp.lt_trans hab hbc)
    · exact .inl (Std.TransCmp.lt_of_lt_of_eq hab hbc)
  · rcases hbc with hbc | ⟨hbc, hp⟩
    · exact .inl (Std.TransCmp.lt_of_eq_of_lt hab hbc)
    · exact .inr ⟨Std.TransCmp.eq_trans hab hbc, h hab hbc ho hp⟩

theorem compare_trans_of {u v w : Value}
    (h : u.kindRank = v.kindRank → v.kindRank = w.kindRank → (u.compareWithin v).isLE = true →
      (v.compareWithin w).isLE = true → (u.compareWithin w).isLE = true) :
    (u.compare v).isLE = true → (v.compare w).isLE = true → (u.compare w).isLE = true := by
  rw [compare_eq_then, compare_eq_then v, compare_eq_then u]
  refine then_isLE_trans fun _ _ => then_isLE_trans fun huv hvw => h ?_ ?_
  · exact Std.LawfulEqCmp.compare_eq_iff_eq.mp huv
  · exact Std.LawfulEqCmp.compare_eq_iff_eq.mp hvw

mutual

theorem compareWithin_trans : ∀ u v w : Value, u.kindRank = v.kindRank →
    v.kindRank = w.kindRank → (u.compareWithin v).isLE = true →
    (v.compareWithin w).isLE = true → (u.compareWithin w).isLE = true
  | .set us, v, w, huv, hvw => by
    cases v <;> cases huv
    cases w <;> cases hvw
    exact compareAll_trans us _ _
  | .special _, v, w, huv, hvw | .bool _, v, w, huv, hvw | .int _, v, w, huv, hvw
  | .float _, v, w, huv, hvw | .char _, v, w, huv, hvw | .str _, v, w, huv, hvw
  | .range _, v, w, huv, hvw | .type _, v, w, huv, hvw | .dim _, v, w, huv, hvw
  | .foreign _ _ _, v, w, huv, hvw => by
    cases v <;> cases huv
    cases w <;> cases hvw
    simp only [compareWithin]
    exact Std.TransCmp.isLE_trans

theorem compareAll_trans : ∀ us vs ws : List Value, (compareAll us vs).isLE = true →
    (compareAll vs ws).isLE = true → (compareAll us ws).isLE = true
  | [], [], _, _, h => h
  | [], _ :: _, [], _, _ => rfl
  | [], _ :: _, _ :: _, _, _ => rfl
  | _ :: _, [], _, h, _ => nomatch h
  | _ :: _, _ :: _, [], _, h => nomatch h
  | u :: us, v :: vs, w :: ws, h, h' => by
    have huvw := compare_trans_of (compareWithin_trans u v w)
    rw [compareAll, Ordering.isLE_then_iff_or] at h h' ⊢
    rcases h with huv | ⟨huv, hus⟩
    · have hvw : (v.compare w).isLE = true := by
        rcases h' with hvw | ⟨hvw, -⟩ <;> rw [hvw] <;> rfl
      cases huw : u.compare w with
      | lt => exact .inl rfl
      | gt => cases huw ▸ huvw (huv ▸ rfl) hvw
      | eq =>
        rw [compare_swap, ← compare_congr (compare_eq_iff.mp huw), huv] at hvw
        cases hvw
    · rw [compare_congr (compare_eq_iff.mp huv)]
      exact h'.imp_right (.imp_right (compareAll_trans us vs ws hus))

end

instance : Std.TransCmp Value.compare where
  eq_swap := compare_swap _ _
  isLE_trans := compare_trans_of (compareWithin_trans _ _ _)

/-! ## Ascending sets -/

/-- A set is listed as sets are. -/
def Ascending : Value → Prop
  | .set members => members.Pairwise fun v w => v.compare w = .lt
  | _ => True

theorem ascending_setOf (vs : List Value) : (setOf vs).Ascending := by
  have go : ∀ (vs : List Value) {sorted : List Value}, Ascending (.set sorted) →
      Ascending (.set (vs.foldl (fun sorted v => Sorting.insertBy compare v sorted) sorted)) := by
    intro vs
    induction vs with
    | nil => exact fun h => h
    | cons v vs ih => exact fun h => ih (Sorting.pairwise_insertBy h)
  exact go vs .nil

/-- No two members of an ascending set are equal. -/
theorem Ascending.distinct {members : List Value} (h : Ascending (.set members)) :
    members.Pairwise fun v w => (v == w) = false :=
  h.imp fun hlt => Bool.eq_false_iff.mpr fun heq => by
    cases hlt.symm.trans (compare_eq_iff.mpr heq)

end Value
end Intensional
