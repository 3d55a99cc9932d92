import Intensional.Proofs.Guard.Collections

/-!
# What refinement says about contexts

A guard that refines another one should hold at fewer contexts. It does, for all contexts that
bind no range where the one guard asks for a member of a range and the other for something else
(`Guard.holdsAt_of_refines`). The proof is a look through the table of relations
(`Constraint.allows_of_implies`).

A range is a member of itself, and the table looks at the integers of a range only. So a range
escapes from every constraint by which a single integer is required because a range has no other
integer (`Constraint.range_escapes`).
-/

namespace Intensional

/-! ## The table of relations

A constraint is given by its dimension, relation and value. Where the dimensions agree, the table
is read off line by line. -/

namespace Constraint

variable {c d : Constraint} {x y : Dim} {u v w : Value} {r s : IntRange} {members : List Value}
  {n : Int64}

theorem dim_of_implies (h : c.implies d = true) : c.dim = d.dim :=
  beq_iff_eq.mp (Bool.and_eq_true_iff.mp h).1

theorem implies_of_is (hdim : x = d.dim) :
    (⟨x, .is, v⟩ : Constraint).implies d = d.allows v := by
  rw [implies, hdim, BEq.refl, Bool.true_and]

theorem mem_implies_is : (⟨x, .mem, v⟩ : Constraint).implies ⟨x, .is, w⟩ = true ↔
    ∃ u, v.onlyMember? = some u ∧ (u == w) = true := by
  rw [implies, BEq.refl, Bool.true_and, Option.any_eq_true]

theorem mem_implies_mem :
    (⟨x, .mem, v⟩ : Constraint).implies ⟨x, .mem, w⟩ = v.subsetOf w := by
  rw [implies, BEq.refl, Bool.true_and]

theorem mem_implies_imp : (⟨x, .mem, v⟩ : Constraint).implies ⟨x, .imp, w⟩ = true ↔
    ∃ types, w = .type types ∧ v.membersTyped types = true := by
  rw [implies, BEq.refl, Bool.true_and, Option.any_eq_true]
  cases w <;> simp [Value.types?]

theorem imp_implies {types : TypeSet} : (⟨x, .imp, .type types⟩ : Constraint).implies d = true ↔
    ∃ types', d = ⟨x, .imp, .type types'⟩ ∧ types.subset types' = true := by
  constructor
  · intro h
    obtain ⟨y, relation, w⟩ := d
    obtain rfl : x = y := dim_of_implies h
    obtain ⟨-, h⟩ := Bool.and_eq_true_iff.mp h
    cases relation <;> cases w <;> first | cases h | exact ⟨_, rfl, h⟩
  · rintro ⟨types', rfl, hsub⟩
    exact Bool.and_eq_true_iff.mpr ⟨BEq.refl x, hsub⟩

/-- Only a value that can serve the relation implies anything. -/
theorem isWellFormed_of_implies (h : c.implies d = true) : c.isWellFormed = true := by
  obtain ⟨x, relation, v⟩ := c
  obtain ⟨y, relation', w⟩ := d
  obtain rfl : x = y := dim_of_implies h
  cases relation with
  | is => rfl
  | mem =>
    cases relation' with
    | is =>
      obtain ⟨u, hu, -⟩ := mem_implies_is.mp h
      cases v <;> first | rfl | cases hu
    | mem =>
      rw [mem_implies_mem] at h
      cases v <;> first | rfl | cases h
    | imp =>
      obtain ⟨types, -, htyped⟩ := mem_implies_imp.mp h
      cases v <;> first | rfl | cases htyped
  | imp => cases v <;> first | rfl | cases relation' <;> cases (Bool.and_eq_true_iff.mp h).2

theorem allows_imp : (⟨x, .imp, w⟩ : Constraint).allows v = true ↔
    ∃ types, w = .type types ∧ v.typeIndex ∈ types := by
  rw [allows, Option.any_eq_true]
  cases w <;> simp [Value.types?]

/-! ## Members of a collection -/

/-- What a range implies is allowed for its integers. -/
theorem allows_of_range (h : (⟨x, .mem, .range r⟩ : Constraint).implies d = true)
    (hn : r.contains n = true) : d.allows (.int n) = true := by
  obtain ⟨y, relation, w⟩ := d
  obtain rfl : x = y := dim_of_implies h
  cases relation with
  | is =>
    obtain ⟨u, hu, huw⟩ := mem_implies_is.mp h
    obtain ⟨m, rfl, rfl⟩ := Value.onlyMember?_range.mp hu
    rwa [IntRange.contains_one.mp hn]
  | mem =>
    rw [mem_implies_mem] at h
    show (Value.int n).memberOf w = true
    cases w with
    | range s => exact IntRange.contains_of_isSubset h hn
    | set members =>
      rw [Value.memberOf_set]
      rcases Value.holdsRange_iff.mp h with hempty | ⟨lo, hi, -, -, hall⟩
      · cases hempty.symm.trans (IntRange.not_isEmpty_of_contains hn)
      · exact hall n hn
    | _ => cases h
  | imp =>
    obtain ⟨types, rfl, htyped⟩ := mem_implies_imp.mp h
    exact allows_imp.mpr ⟨types, rfl, IndexSet.contains_eq_true.mp htyped⟩

/-- What a set implies is allowed for its members. -/
theorem allows_of_set (h : (⟨x, .mem, .set members⟩ : Constraint).implies d = true)
    (hu : u ∈ members) : d.allows u = true := by
  obtain ⟨y, relation, w⟩ := d
  obtain rfl : x = y := dim_of_implies h
  cases relation with
  | is =>
    obtain ⟨v, hv, hvw⟩ := mem_implies_is.mp h
    rw [Value.onlyMember?_set.mp hv, List.mem_singleton] at hu
    rwa [hu]
  | mem =>
    rw [mem_implies_mem] at h
    have hall : (members.all (·.memberOf w)) = true := by cases w <;> exact h
    exact List.all_eq_true.mp hall u hu
  | imp =>
    obtain ⟨types, rfl, htyped⟩ := mem_implies_imp.mp h
    exact allows_imp.mpr ⟨types, rfl,
      IndexSet.contains_eq_true.mp (List.all_eq_true.mp htyped u hu)⟩

/-! ## Soundness -/

/-- The constraint asks for a member of a range. -/
def asksRange (c : Constraint) : Bool :=
  match c.relation, c.value with
  | .mem, .range _ => true
  | _, _ => false

/-- A range that is a member of a range is one of a range that has its integers. -/
theorem allows_range_of_implies (hc : c.asksRange = true) (hd : d.asksRange = true)
    (h : c.implies d = true) (hr : c.allows (.range r) = true) : d.allows (.range r) = true := by
  obtain ⟨x, relation, v⟩ := c
  obtain ⟨y, relation', w⟩ := d
  obtain rfl : x = y := dim_of_implies h
  cases relation <;> cases v <;> cases hc
  cases relation' <;> cases w <;> cases hd
  rw [mem_implies_mem] at h
  exact IntRange.isSubset_trans hr h

/-- What a constraint allows is allowed by those it implies, with one exception: a range, where
the one asks for a member of a range and the other does not. -/
theorem allows_of_implies (h : c.implies d = true) (hv : c.allows v = true)
    (hrange : c.asksRange = true → d.asksRange = false → ∀ r, v ≠ .range r) :
    d.allows v = true := by
  obtain ⟨x, relation, collection⟩ := c
  cases relation with
  | is =>
    rw [implies_of_is (dim_of_implies h)] at h
    rwa [allows_congr hv]
  | mem =>
    have hv : v.memberOf collection = true := hv
    cases collection with
    | range r =>
      rcases Value.memberOf_range_iff.mp hv with ⟨n, rfl, hn⟩ | ⟨s, rfl, hs⟩
      · exact allows_of_range h hn
      · cases hd : d.asksRange with
        | true => exact allows_range_of_implies rfl hd h hs
        | false => exact absurd rfl (hrange rfl hd s)
    | set members =>
      rw [Value.memberOf_set] at hv
      obtain ⟨u, hu, huv⟩ := List.any_eq_true.mp hv
      rw [← allows_congr huv]
      exact allows_of_set h hu
    | _ => cases v <;> cases hv
  | imp =>
    obtain ⟨types, rfl, hmem⟩ := allows_imp.mp hv
    obtain ⟨types', rfl, hsub⟩ := imp_implies.mp h
    exact allows_imp.mpr ⟨types', rfl, IndexSet.subset_eq_true.mp hsub _ hmem⟩

/-- The exception is one: a range is allowed where a member of it is asked for, and it is not
allowed where an integer is. -/
theorem range_escapes (h : (⟨x, .mem, .range r⟩ : Constraint).implies ⟨x, .is, v⟩ = true) :
    (⟨x, .mem, .range r⟩ : Constraint).allows (.range r) = true ∧
      (⟨x, .is, v⟩ : Constraint).allows (.range r) = false := by
  obtain ⟨u, hu, huv⟩ := mem_implies_is.mp h
  obtain ⟨n, -, rfl⟩ := Value.onlyMember?_range.mp hu
  obtain rfl := Value.beq_int_iff.mp (BEq.symm huv)
  exact ⟨IntRange.isSubset_refl r, rfl⟩

end Constraint

/-! ## Guards -/

namespace Guard

variable {g h : Guard} {k : Context}

theorem refines_iff : g.refines h = true ↔
    ∀ d ∈ h.constraints, ∃ c ∈ g.constraints, c.implies d = true := by
  rw [refines, List.all_eq_true]
  exact forall₂_congr fun _ _ => List.any_eq_true

theorem holdsAt_iff : g.holdsAt k = true ↔
    ∀ c ∈ g.constraints, ∃ v, k.get? c.dim = some v ∧ c.allows v = true := by
  rw [holdsAt, List.all_eq_true]
  exact forall₂_congr fun _ _ => by rw [Option.any_eq_true]

/-- A guard holds where one that refines it does, if the context has no range at a dimension
where the finer guard asks for a member of a range and thereby for something else than the
coarser. -/
theorem holdsAt_of_refines (hrefines : g.refines h = true) (hk : g.holdsAt k = true)
    (hrange : ∀ c ∈ g.constraints, ∀ d ∈ h.constraints, c.implies d = true →
      c.asksRange = true → d.asksRange = false → ∀ r, k.get? c.dim ≠ some (.range r)) :
    h.holdsAt k = true := by
  refine holdsAt_iff.mpr fun d hd => ?_
  obtain ⟨c, hc, himplies⟩ := refines_iff.mp hrefines d hd
  obtain ⟨v, hv, hallows⟩ := holdsAt_iff.mp hk c hc
  refine ⟨v, Constraint.dim_of_implies himplies ▸ hv, ?_⟩
  refine Constraint.allows_of_implies himplies hallows fun hrc hrd r hvr => ?_
  exact hrange c hc d hd himplies hrc hrd r (hvr ▸ hv)

/-- The integer 2 is from 1 to 3, and one of 1, 2, 3, 4. -/
theorem holdsAt_of_refines_integers :
    let g : Guard := ⟨[⟨7, .mem, .range ⟨some 1, some 3⟩⟩]⟩
    let h : Guard := ⟨[⟨7, .mem, Value.setOf [.int 1, .int 2, .int 3, .int 4]⟩]⟩
    let k := Context.ofList [(7, .int 2)]
    g.refines h = true ∧ g.holdsAt k = true ∧ h.holdsAt k = true := by
  intro g h k
  refine ⟨rfl, rfl, holdsAt_of_refines (g := g) rfl rfl ?_⟩
  rintro c hc - - - - - r
  obtain rfl := List.mem_singleton.mp hc
  exact nofun

/-- The range from 1 to 1 is a member of itself, and it is not the integer 1. -/
theorem holdsAt_not_of_refines_range : ∃ g h : Guard,
    ofConstraints [⟨7, .mem, .range ⟨some 1, some 1⟩⟩] = .ok g ∧
      ofConstraints [⟨7, .is, .int 1⟩] = .ok h ∧ g.refines h = true ∧
      g.holdsAt (.ofList [(7, .range ⟨some 1, some 1⟩)]) = true ∧
      h.holdsAt (.ofList [(7, .range ⟨some 1, some 1⟩)]) = false :=
  ⟨_, _, rfl, rfl, rfl, rfl, rfl⟩

end Guard

end Intensional
