import Intensional.Proofs.Guard.Soundness
import Intensional.Proofs.Value.Order

/-!
# Specificity as an order

Every guard refines itself, and none is narrower than itself. Refinement is not transitive, and
so narrowing is not (`Guard.specificity_is_not_order`). It is transitive from guards on whose
constraints are steady (`Guard.specificity_is_order`), and a single constraint that is not steady
can be continued by two guards to a chain that breaks.

The table of relations decides what a collection implies by looking at its members, and one that
has members implies all that is allowed for each of them (`Constraint.implies_of_members`,
`Constraint.implies_of_integers`). What is implied is allowed (`Constraint.allows_of_implies`),
so the table composes, with the two exceptions that steadiness excludes: a collection without
members implies less than is allowed for them, and a range is allowed for where only integers
are looked at.
-/

namespace Intensional

/-! ## Guards that can be made -/

namespace Guard

variable {g g' : Guard} {c : Constraint} {cs : List Constraint}

/-- The guards that are made of pairs, and by adding constraints. -/
inductive Built : Guard → Prop
  | pairs (ps : List (Dim × Value)) : Built (.ofPairs ps)
  | and {g g' : Guard} {c : Constraint} : Built g → g.and? c = .ok g' → Built g'

theorem and?_eq_ok : g.and? c = .ok g' ↔
    c.isWellFormed = true ∧ g' = ⟨g.constraints ++ [c]⟩ := by
  rw [and?]
  split
  · rename_i hc
    exact ⟨fun h => ⟨hc, (Except.ok.inj h).symm⟩, fun h => congrArg _ h.2.symm⟩
  · rename_i hc
    exact ⟨nofun, fun h => absurd h.1 hc⟩

theorem Built.ofConstraints (h : Guard.ofConstraints cs = .ok g) : g.Built := by
  have go : ∀ {cs : List Constraint} {g g' : Guard}, g.Built → cs.foldlM and? g = .ok g' →
      g'.Built := by
    intro cs
    induction cs with
    | nil =>
      intro g g' hg h
      cases h
      exact hg
    | cons c cs ih =>
      intro g g' hg h
      rw [List.foldlM_cons] at h
      cases hand : g.and? c with
      | error e => rw [hand] at h; cases h
      | ok g₁ => rw [hand] at h; exact ih (hg.and hand) h
  exact go (.pairs []) h

/-- The value of every constraint can serve its relation. -/
theorem Built.isWellFormed (hg : g.Built) : ∀ c ∈ g.constraints, c.isWellFormed = true := by
  induction hg with
  | pairs ps =>
    intro c hc
    obtain ⟨p, -, rfl⟩ := List.mem_map.mp hc
    rfl
  | and _ hand ih =>
    obtain ⟨hc', rfl⟩ := and?_eq_ok.mp hand
    intro c hc
    rcases List.mem_append.mp hc with hc | hc
    · exact ih c hc
    · rw [List.mem_singleton.mp hc]
      exact hc'

end Guard

/-! ## What a collection implies -/

namespace Constraint

variable {c d e : Constraint} {x : Dim} {v w : Value} {r s : IntRange} {members : List Value}

/-- A set with members implies what is allowed for all of them. -/
theorem implies_of_members (hmembers : Value.Ascending (.set members)) (hne : members ≠ [])
    (hdim : x = e.dim) (hall : ∀ v ∈ members, e.allows v = true) :
    (⟨x, .mem, .set members⟩ : Constraint).implies e = true := by
  obtain ⟨y, relation, w⟩ := e
  obtain rfl : x = y := hdim
  obtain ⟨u, us, rfl⟩ := List.exists_cons_of_ne_nil hne
  have hu := hall u (List.mem_cons_self ..)
  cases relation with
  | is =>
    cases us with
    | nil => exact mem_implies_is.mpr ⟨u, rfl, hu⟩
    | cons v vs =>
      have hv := hall v (List.mem_cons_of_mem _ (List.mem_cons_self ..))
      have hne := List.rel_of_pairwise_cons hmembers.distinct (List.mem_cons_self ..)
      cases hne.symm.trans (BEq.trans hu (BEq.symm hv))
  | mem =>
    rw [mem_implies_mem]
    have hall := List.all_eq_true.mpr hall
    cases w <;> exact hall
  | imp =>
    obtain ⟨types, rfl, -⟩ := allows_imp.mp hu
    refine mem_implies_imp.mpr ⟨types, rfl, List.all_eq_true.mpr fun v hv => ?_⟩
    obtain ⟨types, htypes, hmem⟩ := allows_imp.mp (hall v hv)
    cases htypes
    exact IndexSet.contains_eq_true.mpr hmem

/-- A range with integers, and with less than `2 ^ 64`, implies what is allowed for all of them. -/
theorem implies_of_integers {lo hi : Int64} (hle : lo ≤ hi)
    (hsize : hi.toInt - lo.toInt + 1 < 2 ^ 64) (hdim : x = e.dim)
    (hall : ∀ n, (⟨some lo, some hi⟩ : IntRange).contains n = true → e.allows (.int n) = true) :
    (⟨x, .mem, .range ⟨some lo, some hi⟩⟩ : Constraint).implies e = true := by
  obtain ⟨y, relation, w⟩ := e
  obtain rfl : x = y := hdim
  have hlo := hall lo (IntRange.contains_iff.mpr ⟨by simp, by simpa using hle⟩)
  have hhi := hall hi (IntRange.contains_iff.mpr ⟨by simpa using hle, by simp⟩)
  cases relation with
  | is =>
    obtain rfl := Value.int.inj (Value.beq_int_iff.mp (BEq.trans hlo (BEq.symm hhi)))
    exact mem_implies_is.mpr ⟨.int lo, Value.onlyMember?_range.mpr ⟨lo, rfl, rfl⟩, hlo⟩
  | mem =>
    rw [mem_implies_mem]
    cases w with
    | range s =>
      obtain ⟨hlower, -⟩ := IntRange.contains_iff.mp hlo
      obtain ⟨-, hupper⟩ := IntRange.contains_iff.mp hhi
      exact IntRange.isSubset_iff.mpr (.inr ⟨fun n hn => ⟨lo, rfl, hlower n hn⟩,
        fun n hn => ⟨hi, rfl, hupper n hn⟩⟩)
    | set members => exact Value.holdsRange_iff.mpr (.inr ⟨lo, hi, rfl, hsize, hall⟩)
    | _ => cases hlo
  | imp =>
    obtain ⟨types, rfl, hint⟩ := allows_imp.mp hlo
    exact mem_implies_imp.mpr ⟨types, rfl, IndexSet.contains_eq_true.mpr hint⟩

/-- A range with integers implies what the ranges imply that it is a subset of. -/
theorem implies_of_isSubset (hsub : r.isSubset s = true) (hr : r.isEmpty = false)
    (h : (⟨x, .mem, .range s⟩ : Constraint).implies e = true) :
    (⟨x, .mem, .range r⟩ : Constraint).implies e = true := by
  obtain ⟨y, relation, w⟩ := e
  obtain rfl : x = y := dim_of_implies h
  cases relation with
  | is =>
    obtain ⟨u, hu, huw⟩ := mem_implies_is.mp h
    obtain ⟨n, rfl, rfl⟩ := Value.onlyMember?_range.mp hu
    rwa [IntRange.eq_one_of_isSubset hsub hr]
  | mem =>
    rw [mem_implies_mem] at h ⊢
    cases w with
    | range t => exact IntRange.isSubset_trans hsub h
    | set members =>
      rcases Value.holdsRange_iff.mp h with hs | ⟨lo, hi, rfl, hsize, hall⟩
      · cases (IntRange.isEmpty_of_isSubset hsub hs).symm.trans hr
      · obtain ⟨lo', hi', rfl, hlo, -, hhi⟩ := IntRange.bounded_of_isSubset hsub hr
        have hlo := Int64.le_iff_toInt_le.mp hlo
        have hhi := Int64.le_iff_toInt_le.mp hhi
        exact Value.holdsRange_iff.mpr (.inr ⟨lo', hi', rfl, by omega,
          fun n hn => hall n (IntRange.contains_of_isSubset hsub hn)⟩)
    | _ => cases h
  | imp => exact h

/-! ## Steady constraints -/

/-- The constraint does not ask for a range itself. A collection that it asks for a member of
has one, and if the members of a set might all be members of a range, they are integers. -/
def steady (c : Constraint) : Bool :=
  match c.relation, c.value with
  | .is, .range _ => false
  | .mem, .range r => !r.isEmpty
  | .mem, .set members =>
    members.any (!·.ranged) || (!members.isEmpty && members.all (·.int?.isSome))
  | _, _ => true

theorem steady_set : (⟨x, .mem, .set members⟩ : Constraint).steady = true ↔ members ≠ [] ∧
    ((∃ v ∈ members, v.ranged = false) ∨ ∀ v ∈ members, v.int?.isSome = true) := by
  rw [steady, Bool.or_eq_true, Bool.and_eq_true, List.any_eq_true, List.all_eq_true, and_or_left]
  refine or_congr ?_ (and_congr_left' ?_)
  · simp only [Bool.not_eq_true']
    exact ⟨fun ⟨v, hv, hout⟩ => ⟨List.ne_nil_of_mem hv, v, hv, hout⟩, fun h => h.2⟩
  · simp

theorem ranged_of_asksRange (hd : d.asksRange = true) (hv : d.allows v = true) :
    v.ranged = true := by
  obtain ⟨y, relation, w⟩ := d
  cases relation <;> cases w <;> cases hd
  exact Value.ranged_of_memberOf hv

theorem implies_trans_range (hr : r.isEmpty = false)
    (hcd : (⟨x, .mem, .range r⟩ : Constraint).implies d = true) (hde : d.implies e = true) :
    (⟨x, .mem, .range r⟩ : Constraint).implies e = true := by
  obtain ⟨y, relation, w⟩ := d
  obtain rfl : x = y := dim_of_implies hcd
  have hdim : x = e.dim := dim_of_implies hde
  cases relation with
  | is =>
    obtain ⟨u, hu, huw⟩ := mem_implies_is.mp hcd
    obtain ⟨n, rfl, rfl⟩ := Value.onlyMember?_range.mp hu
    rw [implies_of_is hdim, ← allows_congr huw] at hde
    exact implies_of_integers (Int64.le_refl n) (by omega) hdim
      fun m hm => IntRange.contains_one.mp hm ▸ hde
  | mem =>
    rw [mem_implies_mem] at hcd
    cases w with
    | range s => exact implies_of_isSubset hcd hr hde
    | set members =>
      rcases Value.holdsRange_iff.mp hcd with hempty | ⟨lo, hi, rfl, hsize, hall⟩
      · cases hempty.symm.trans hr
      · have hle : lo ≤ hi := Int64.not_lt.mp fun hlt => by
          cases (IntRange.isEmpty_iff.mpr ⟨lo, hi, rfl, hlt⟩).symm.trans hr
        exact implies_of_integers hle hsize hdim fun n hn =>
          allows_of_implies hde (v := .int n) (hall n hn) nofun
    | _ => cases hcd
  | imp =>
    obtain ⟨types, rfl, hint⟩ := mem_implies_imp.mp hcd
    obtain ⟨types', rfl, hsub⟩ := imp_implies.mp hde
    refine mem_implies_imp.mpr ⟨types', rfl, IndexSet.contains_eq_true.mpr ?_⟩
    exact IndexSet.subset_eq_true.mp hsub _ (IndexSet.contains_eq_true.mp hint)

theorem implies_trans_set (hmembers : Value.Ascending (.set members))
    (hc : (⟨x, .mem, .set members⟩ : Constraint).steady = true)
    (hcd : (⟨x, .mem, .set members⟩ : Constraint).implies d = true) (hde : d.implies e = true) :
    (⟨x, .mem, .set members⟩ : Constraint).implies e = true := by
  obtain ⟨hne, hranged⟩ := steady_set.mp hc
  refine implies_of_members hmembers hne ((dim_of_implies hcd).trans (dim_of_implies hde))
    fun v hv => allows_of_implies hde (allows_of_set hcd hv) ?_
  rintro hd - r rfl
  rcases hranged with ⟨u, hu, hout⟩ | hint
  · cases (ranged_of_asksRange hd (allows_of_set hcd hu)).symm.trans hout
  · cases hint _ hv

/-- What is implied by what a steady constraint implies, it implies too. -/
theorem implies_trans (hc : c.steady = true) (hmembers : c.value.Ascending)
    (hcd : c.implies d = true) (hde : d.implies e = true) : c.implies e = true := by
  have hform := isWellFormed_of_implies hcd
  have hdim := dim_of_implies hcd
  obtain ⟨x, relation, v⟩ := c
  cases relation with
  | is =>
    rw [implies_of_is hdim] at hcd
    rw [implies_of_is (hdim.trans (dim_of_implies hde))]
    refine allows_of_implies hde hcd ?_
    rintro - - r rfl
    cases hc
  | mem =>
    cases v with
    | range r => exact implies_trans_range (by simpa [steady] using hc) hcd hde
    | set members => exact implies_trans_set hmembers hc hcd hde
    | _ => cases hform
  | imp =>
    cases v with
    | type types =>
      obtain ⟨types', rfl, hsub⟩ := imp_implies.mp hcd
      obtain ⟨types'', rfl, hsub'⟩ := imp_implies.mp hde
      refine imp_implies.mpr ⟨types'', rfl, IndexSet.subset_eq_true.mpr fun t ht => ?_⟩
      exact IndexSet.subset_eq_true.mp hsub' t (IndexSet.subset_eq_true.mp hsub t ht)
    | _ => cases hform

/-- A constraint that can be part of a guard implies itself. -/
theorem implies_refl (hc : c.isWellFormed = true) : c.implies c = true := by
  obtain ⟨x, relation, v⟩ := c
  cases relation with
  | is => exact (implies_of_is (d := ⟨x, .is, v⟩) rfl).trans (BEq.refl v)
  | mem =>
    rw [mem_implies_mem]
    cases v with
    | range r => exact IntRange.isSubset_refl r
    | set members =>
      refine List.all_eq_true.mpr fun v hv => ?_
      rw [Value.memberOf_set]
      exact List.any_eq_true.mpr ⟨v, hv, BEq.refl v⟩
    | _ => cases hc
  | imp =>
    cases v with
    | type types =>
      exact imp_implies.mpr ⟨types, rfl, IndexSet.subset_eq_true.mpr fun _ ht => ht⟩
    | _ => cases hc

/-! ## Gaps -/

/-- Something that can be part of a guard is implied by what the constraint implies, and not by
the constraint. -/
def HasGap (c : Constraint) : Prop :=
  ∃ d e : Constraint, d.isWellFormed = true ∧ e.isWellFormed = true ∧ c.implies d = true ∧
    d.implies e = true ∧ c.implies e = false

/-- A collection without a member passes for one with the member `1`. -/
theorem hasGap_of_empty (h : v.subsetOf (.range ⟨some 1, some 1⟩) = true)
    (hnone : v.onlyMember? = none) : HasGap ⟨x, .mem, v⟩ := by
  refine ⟨⟨x, .mem, .range ⟨some 1, some 1⟩⟩, ⟨x, .is, .int 1⟩, rfl, rfl,
    mem_implies_mem.trans h, mem_implies_is.mpr ⟨.int 1, rfl, rfl⟩,
    Bool.eq_false_iff.mpr fun hmem => ?_⟩
  obtain ⟨u, hu, -⟩ := mem_implies_is.mp hmem
  cases hnone.symm.trans hu

/-- A range passes for the integers that it has. -/
theorem hasGap_of_range (h : c.implies ⟨x, .mem, .range r⟩ = true)
    (hnot : c.implies ⟨x, .imp, .type (.ofList [TypeIndex.int])⟩ = false) : c.HasGap :=
  ⟨_, _, rfl, rfl, h, mem_implies_imp.mpr ⟨_, rfl, rfl⟩, hnot⟩

theorem hasGap_of_ranged (hranged : ∀ u ∈ members, u.ranged = true) (hv : v ∈ members)
    (hint : v.int? = none) : HasGap ⟨x, .mem, .set members⟩ := by
  refine hasGap_of_range (x := x) (r := ⟨none, none⟩) (mem_implies_mem.trans ?_) ?_
  · refine List.all_eq_true.mpr fun u hu => ?_
    rcases Value.ranged_iff.mp (hranged u hu) with ⟨n, rfl⟩ | ⟨s, rfl⟩
    · rfl
    · exact IntRange.isSubset_iff.mpr (.inr ⟨nofun, nofun⟩)
  · refine Bool.eq_false_iff.mpr fun hmem => ?_
    obtain ⟨types, htypes, htyped⟩ := mem_implies_imp.mp hmem
    cases htypes
    have htyped := List.all_eq_true.mp htyped v hv
    rcases Value.ranged_iff.mp (hranged v hv) with ⟨n, rfl⟩ | ⟨s, rfl⟩
    · cases hint
    · cases htyped

/-- Of the constraints that can be part of a guard, the steady ones are those without a gap. -/
theorem steady_iff (hform : c.isWellFormed = true) (hmembers : c.value.Ascending) :
    c.steady = true ↔ ¬ c.HasGap := by
  refine ⟨fun hc hgap => ?_, fun hgap => ?_⟩
  · obtain ⟨d, e, -, -, hcd, hde, hce⟩ := hgap
    cases (implies_trans hc hmembers hcd hde).symm.trans hce
  · by_contra hc
    refine hgap ?_
    obtain ⟨x, relation, v⟩ := c
    cases relation with
    | is =>
      cases v with
      | range r =>
        exact hasGap_of_range (x := x) (r := r)
          ((implies_of_is (d := ⟨x, .mem, .range r⟩) rfl).trans (IntRange.isSubset_refl r))
          (implies_of_is (d := ⟨x, .imp, .type (.ofList [TypeIndex.int])⟩) rfl)
      | _ => exact absurd rfl hc
    | mem =>
      cases v with
      | range r =>
        have hempty : r.isEmpty = true := by simpa [steady] using hc
        refine hasGap_of_empty (IntRange.isSubset_iff.mpr (.inl hempty)) ?_
        rw [Value.onlyMember?, IntRange.only?_of_isEmpty hempty]
        rfl
      | set members =>
        by_cases hne : members = []
        · subst hne
          exact hasGap_of_empty rfl rfl
        · rw [steady_set] at hc
          push Not at hc
          obtain ⟨hranged, v, hv, hint⟩ := hc hne
          exact hasGap_of_ranged (by simpa using hranged) hv (by simpa using hint)
      | _ => cases hform
    | imp => exact absurd rfl hc

end Constraint

/-! ## The order of guards -/

namespace Guard

variable {g h i : Guard}

def steady (g : Guard) : Bool := g.constraints.all (·.steady)

/-- The sets of the guard are listed as sets are. -/
def Ascending (g : Guard) : Prop := ∀ c ∈ g.constraints, c.value.Ascending

theorem refines_refl (hg : g.Built) : g.refines g = true :=
  refines_iff.mpr fun c hc => ⟨c, hc, Constraint.implies_refl (hg.isWellFormed c hc)⟩

theorem refines_trans (hg : g.steady = true) (hsets : g.Ascending) (hgh : g.refines h = true)
    (hhi : h.refines i = true) : g.refines i = true := by
  refine refines_iff.mpr fun e he => ?_
  obtain ⟨d, hd, hde⟩ := refines_iff.mp hhi e he
  obtain ⟨c, hc, hcd⟩ := refines_iff.mp hgh d hd
  exact ⟨c, hc, Constraint.implies_trans (List.all_eq_true.mp hg c hc) (hsets c hc) hcd hde⟩

theorem narrower_iff : g.narrower h = true ↔ g.refines h = true ∧ ¬ h.refines g = true := by
  rw [narrower, Bool.and_eq_true, Bool.not_eq_true', Bool.not_eq_true]

theorem narrower_irrefl (g : Guard) : g.narrower g = false :=
  Bool.eq_false_iff.mpr fun hg => (narrower_iff.mp hg).2 (narrower_iff.mp hg).1

theorem narrower_trans (hg : g.steady = true) (hgsets : g.Ascending) (hh : h.steady = true)
    (hhsets : h.Ascending) (hgh : g.narrower h = true) (hhi : h.narrower i = true) :
    g.narrower i = true := by
  obtain ⟨hgh, hhg⟩ := narrower_iff.mp hgh
  obtain ⟨hhi, -⟩ := narrower_iff.mp hhi
  exact narrower_iff.mpr ⟨refines_trans hg hgsets hgh hhi,
    fun hig => hhg (refines_trans hh hhsets hhi hig)⟩

/-- The guard of one constraint. -/
def one (c : Constraint) : Guard := ⟨[c]⟩

theorem built_one {c : Constraint} (hc : c.isWellFormed = true) : (one c).Built :=
  .and (.pairs []) (and?_eq_ok.mpr ⟨hc, rfl⟩)

theorem one_refines_one {c d : Constraint} : (one c).refines (one d) = c.implies d := by
  simp [refines, one]

/-- A guard refines itself and is not narrower than itself. Refinement is transitive from a
steady guard on, and narrowing is from two of them; from a guard of one constraint that is not
steady, refinement is not transitive. -/
theorem specificity_is_order (hg : g.Built) :
    g.refines g = true ∧ g.narrower g = false ∧
    (g.steady = true → g.Ascending → ∀ h i : Guard, g.refines h = true →
      h.refines i = true → g.refines i = true) ∧
    (g.steady = true → g.Ascending → ∀ h i : Guard, h.steady = true → h.Ascending →
      g.narrower h = true → h.narrower i = true → g.narrower i = true) ∧
    (g.steady = false → g.Ascending → ∀ c, g = one c → ∃ h i : Guard, h.Built ∧ i.Built ∧
      g.refines h = true ∧ h.refines i = true ∧ g.refines i = false) := by
  refine ⟨refines_refl hg, narrower_irrefl g, fun hsteady hsets h i => refines_trans hsteady hsets,
    fun hsteady hsets h i => narrower_trans hsteady hsets, ?_⟩
  rintro hunsteady hsets c rfl
  have hform := hg.isWellFormed c (List.mem_singleton_self c)
  have hgap : c.HasGap := by
    by_contra hgap
    rw [← Constraint.steady_iff hform (hsets c (List.mem_singleton_self c))] at hgap
    simp [steady, one, hgap] at hunsteady
  obtain ⟨d, e, hd, he, hcd, hde, hce⟩ := hgap
  refine ⟨one d, one e, built_one hd, built_one he, ?_⟩
  simp only [one_refines_one]
  exact ⟨hcd, hde, hce⟩

/-- Two integers, a range that has both of them, and the type of integers. -/
theorem specificity_is_order_integers :
    let g := one ⟨7, .mem, Value.setOf [.int 2, .int 1]⟩
    let h := one ⟨7, .mem, .range ⟨some 1, some 5⟩⟩
    let i := one ⟨7, .imp, .type (.ofList [TypeIndex.int])⟩
    g.Built ∧ g.steady = true ∧ g.Ascending ∧ h.steady = true ∧ h.Ascending ∧
      g.narrower h = true ∧ h.narrower i = true ∧ g.narrower i = true := by
  intro g h i
  have hg : g.Built := built_one rfl
  have hgsets : g.Ascending := List.forall_mem_singleton.mpr (Value.ascending_setOf _)
  have hhsets : h.Ascending := List.forall_mem_singleton.mpr trivial
  obtain ⟨-, -, -, htrans, -⟩ := specificity_is_order hg
  exact ⟨hg, rfl, hgsets, rfl, hhsets, rfl, rfl, htrans rfl hgsets h i rfl hhsets rfl rfl⟩

/-- A range, its members, and a set of integers that has all of its integers; a set without a
member, one with one, and that one. -/
theorem specificity_is_not_order :
    (let g := one ⟨7, .is, .range ⟨some 1, some 2⟩⟩
     let h := one ⟨7, .mem, .range ⟨some 1, some 2⟩⟩
     let i := one ⟨7, .mem, Value.setOf [.int 1, .int 2, .int 3]⟩
     g.Built ∧ h.Built ∧ i.Built ∧ g.narrower h = true ∧ h.narrower i = true ∧
       g.refines i = false ∧ g.narrower i = false) ∧
    (let g := one ⟨7, .mem, Value.setOf []⟩
     let h := one ⟨7, .mem, Value.setOf [.int 1]⟩
     let i := one ⟨7, .is, .int 1⟩
     g.Built ∧ h.Built ∧ i.Built ∧ g.refines h = true ∧ h.refines i = true ∧
       g.refines i = false) :=
  ⟨⟨built_one rfl, built_one rfl, built_one rfl, rfl, rfl, rfl, rfl⟩,
    ⟨built_one rfl, built_one rfl, built_one rfl, rfl, rfl, rfl⟩⟩

end Guard

end Intensional
