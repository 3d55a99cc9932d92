import Mathlib.Data.Set.Finite.Basic
import Intensional.Evaluation.Equation
import Intensional.Proofs.Guard.Specificity

/-!
# Candidates of a tie

If several equations apply and no single one is the most specific, the choice lists those than
which no other is more specific. Among finitely many equations there is one, if narrowing has no
cycle among them. It has cycles in general, even among guards that hold at one context, and then
a tie lists no equation at all (`Group.tie_without_candidates`).

Guards that hold at one context are easier to compare than guards as such, since everything that
they imply is allowed for the one value that the context has. So fewer constraints have to be
excluded than for the order of all guards: those that are not settled. Where all guards are
settled, every equation that applies is a candidate of the tie or less specific than one
(`Group.tied_candidates`).
-/

namespace Intensional

/-! ## Settled constraints -/

namespace Constraint

variable {c d e : Constraint} {v : Value}

/-- The constraint does not ask for a member of a range without integers, nor for one of a set
of several members that are integers and ranges, with at least one range. -/
def settled (c : Constraint) : Bool :=
  match c.relation, c.value with
  | .mem, .range r => !r.isEmpty
  | .mem, .set members =>
    decide (members.length ≤ 1) || members.any (!·.ranged) || members.all (·.int?.isSome)
  | _, _ => true

/-- A settled constraint is steady, or it allows one value only, or none. -/
theorem settled_cases (hc : c.settled = true) : c.steady = true ∨
    (∃ x w, c = ⟨x, .is, w⟩) ∨ (∃ x, c = ⟨x, .mem, .set []⟩) ∨
      ∃ x w, c = ⟨x, .mem, .set [w]⟩ := by
  obtain ⟨x, relation, w⟩ := c
  cases relation with
  | is => exact .inr (.inl ⟨x, w, rfl⟩)
  | imp => exact .inl rfl
  | mem =>
    cases w with
    | range r => exact .inl hc
    | set members =>
      match members with
      | [] => exact .inr (.inr (.inl ⟨x, rfl⟩))
      | [w] => exact .inr (.inr (.inr ⟨x, w, rfl⟩))
      | u :: w :: ws => exact .inl (by simpa [settled, steady] using hc)
    | _ => exact .inl rfl

/-- What is implied by what a settled constraint implies, it implies too, if there is a value
that all of them allow. -/
theorem implies_trans_of_allows (hc : c.settled = true) (hmembers : c.value.Ascending)
    (hcd : c.implies d = true) (hde : d.implies e = true) (hcv : c.allows v = true)
    (hev : e.allows v = true) : c.implies e = true := by
  have hdim := (dim_of_implies hcd).trans (dim_of_implies hde)
  rcases settled_cases hc with hsteady | ⟨x, w, rfl⟩ | ⟨x, rfl⟩ | ⟨x, w, rfl⟩
  · exact implies_trans hsteady hmembers hcd hde
  · rw [implies_of_is hdim, ← allows_congr (v := v) hcv]
    exact hev
  · have hcv : v.memberOf (.set []) = true := hcv
    rw [Value.memberOf_set] at hcv
    cases hcv
  · have hcv : v.memberOf (.set [w]) = true := hcv
    rw [Value.memberOf_set, List.any_cons, List.any_nil, Bool.or_false] at hcv
    refine implies_of_members hmembers (List.cons_ne_nil w []) hdim fun u hu => ?_
    rw [List.mem_singleton.mp hu, allows_congr hcv]
    exact hev

end Constraint

/-! ## Guards that hold at one context -/

namespace Guard

variable {g h i : Guard} {k : Context}

def settled (g : Guard) : Bool := g.constraints.all (·.settled)

theorem refines_trans_at (hg : g.settled = true) (hsets : g.Ascending)
    (hgk : g.holdsAt k = true) (hik : i.holdsAt k = true) (hgh : g.refines h = true)
    (hhi : h.refines i = true) : g.refines i = true := by
  refine refines_iff.mpr fun e he => ?_
  obtain ⟨d, hd, hde⟩ := refines_iff.mp hhi e he
  obtain ⟨c, hc, hcd⟩ := refines_iff.mp hgh d hd
  obtain ⟨v, hv, hcv⟩ := holdsAt_iff.mp hgk c hc
  obtain ⟨w, hw, hew⟩ := holdsAt_iff.mp hik e he
  have hdim := (Constraint.dim_of_implies hcd).trans (Constraint.dim_of_implies hde)
  obtain rfl : v = w := Option.some.inj (hv.symm.trans (hdim ▸ hw))
  exact ⟨c, hc, Constraint.implies_trans_of_allows (List.all_eq_true.mp hg c hc) (hsets c hc)
    hcd hde hcv hew⟩

theorem narrower_trans_at (hg : g.settled = true) (hgsets : g.Ascending)
    (hgk : g.holdsAt k = true) (hh : h.settled = true) (hhsets : h.Ascending)
    (hhk : h.holdsAt k = true) (hik : i.holdsAt k = true) (hgh : g.narrower h = true)
    (hhi : h.narrower i = true) : g.narrower i = true := by
  obtain ⟨hgh, hhg⟩ := narrower_iff.mp hgh
  obtain ⟨hhi, -⟩ := narrower_iff.mp hhi
  exact narrower_iff.mpr ⟨refines_trans_at hg hgsets hgk hik hgh hhi,
    fun hig => hhg (refines_trans_at hh hhsets hhk hgk hhi hig)⟩

end Guard

/-! ## Most specific equations -/

namespace Choice

variable {es : List Equation} {e : Equation} {k : Context} {ids : List Equation.Id}

theorem mem_mostSpecific : e ∈ mostSpecific es ↔
    e ∈ es ∧ ∀ f ∈ es, f.guard.narrower e.guard = false := by
  simp [mostSpecific, List.mem_filter]

/-- The guards hold at the context, they are settled, and their sets are listed as sets are. -/
structure SettledAt (k : Context) (es : List Equation) : Prop where
  holds : ∀ e ∈ es, e.guard.holdsAt k = true
  settled : ∀ e ∈ es, e.guard.settled = true
  ascending : ∀ e ∈ es, e.guard.Ascending

theorem SettledAt.narrower_trans (hes : SettledAt k es) {f g h : Equation} (hf : f ∈ es)
    (hg : g ∈ es) (hh : h ∈ es) (hfg : f.guard.narrower g.guard = true)
    (hgh : g.guard.narrower h.guard = true) : f.guard.narrower h.guard = true :=
  Guard.narrower_trans_at (hes.settled f hf) (hes.ascending f hf) (hes.holds f hf)
    (hes.settled g hg) (hes.ascending g hg) (hes.holds g hg) (hes.holds h hh) hfg hgh

/-- Narrowing is a strict order on finitely many equations, so it does not go down forever. -/
theorem SettledAt.wellFounded (hes : SettledAt k es) :
    WellFounded fun f e : {e // e ∈ es} => f.1.guard.narrower e.1.guard = true := by
  have : Finite {e // e ∈ es} := List.finite_toSet es
  have : IsTrans {e // e ∈ es} fun f e => f.1.guard.narrower e.1.guard = true :=
    ⟨fun f g h => hes.narrower_trans f.2 g.2 h.2⟩
  have : Std.Irrefl fun f e : {e // e ∈ es} => f.1.guard.narrower e.1.guard = true :=
    ⟨fun f hf => by cases (Guard.narrower_irrefl f.1.guard).symm.trans hf⟩
  exact Finite.wellFounded_of_trans_of_irrefl _

/-- Every equation is a most specific one or less specific than one. -/
theorem SettledAt.below_mostSpecific (hes : SettledAt k es) (he : e ∈ es) :
    e ∈ mostSpecific es ∨ ∃ f ∈ mostSpecific es, f.guard.narrower e.guard = true := by
  suffices hall : ∀ e : {e // e ∈ es}, e.1 ∈ mostSpecific es ∨
      ∃ f ∈ mostSpecific es, f.guard.narrower e.1.guard = true from hall ⟨e, he⟩
  intro e
  induction e using hes.wellFounded.induction with
  | _ e ih =>
    by_cases hmin : ∀ f ∈ es, f.guard.narrower e.1.guard = false
    · exact .inl (mem_mostSpecific.mpr ⟨e.2, hmin⟩)
    · push Not at hmin
      obtain ⟨f, hf, hfe⟩ := hmin
      rw [ne_eq, Bool.not_eq_false] at hfe
      rcases ih ⟨f, hf⟩ hfe with hmost | ⟨g, hg, hgf⟩
      · exact .inr ⟨f, hmost, hfe⟩
      · exact .inr ⟨g, hg, hes.narrower_trans (mem_mostSpecific.mp hg).1 hf e.2 hgf hfe⟩

/-- A tie lists the most specific equations, and it is none of a single one. -/
theorem among_eq_tied (h : among es = .tied ids) :
    ids = (mostSpecific es).map (·.id) ∧ es ≠ [] ∧ (mostSpecific es).length ≠ 1 := by
  unfold among at h
  split at h
  · cases h
  · cases h
  · rename_i hnil hone
    split at h
    · cases h
    · rename_i hbest
      cases h
      refine ⟨rfl, fun hes => hnil hes, fun hlength => ?_⟩
      obtain ⟨e, he⟩ := List.length_eq_one_iff.mp hlength
      exact hbest e he

end Choice

/-! ## Equations that applied -/

/-- The equation applied when it was tried, at some state. -/
def Equation.Applied (eval : Code → Context → EvalM Value) (k : Context) (e : Equation) : Prop :=
  ∃ s s' : Machine, e.applies eval k s = (.ok true, s')

section

variable {eval : Code → Context → EvalM Value} {k : Context}

theorem Equation.Applied.holdsAt {e : Equation} (h : e.Applied eval k) :
    e.guard.holdsAt k = true := by
  obtain ⟨s, s', h⟩ := h
  by_contra hk
  rw [applies, if_neg hk] at h
  cases h

theorem applicable_applied : ∀ {es tried : List Equation} {s s' : Machine},
    applicable eval k es s = (.ok tried, s') →
      tried.Sublist es ∧ ∀ e ∈ tried, e.Applied eval k
  | [], _, _, _, h => by
    cases h
    exact ⟨.refl _, nofun⟩
  | e :: es, _, s, _, h => by
    obtain ⟨applies, s₁, happlies, h⟩ := Action.of_bind_ok h
    obtain ⟨rest, s₂, hrest, h⟩ := Action.of_bind_ok h
    obtain ⟨hsub, happlied⟩ := applicable_applied hrest
    cases h
    cases applies with
    | false => exact ⟨hsub.cons e, happlied⟩
    | true => exact ⟨hsub.cons_cons e, List.forall_mem_cons.mpr ⟨⟨s, s₁, happlies⟩, happlied⟩⟩

end

/-! ## Ties -/

namespace Group

variable {eval : Code → Context → EvalM Value} {g : Group} {k : Context}
  {es : List Equation} {ids : List Equation.Id} {s s' : Machine}

/-- If the equations that apply have settled guards, a tie is one of two or more of them: those
than which no other is more specific. All others are less specific than one of these. -/
theorem tied_candidates (htried : applicable eval k g.equations s = (.ok es, s'))
    (hsettled : ∀ e ∈ es, e.guard.settled = true) (hsets : ∀ e ∈ es, e.guard.Ascending)
    (htied : (g.choose eval k s).1 = .ok (.tied ids)) :
    2 ≤ ids.length ∧ ids = (Choice.mostSpecific es).map (·.id) ∧
      (∀ e ∈ Choice.mostSpecific es, e ∈ g.equations ∧ e.Applied eval k) ∧
      ∀ e ∈ es, e ∈ Choice.mostSpecific es ∨
        ∃ f ∈ Choice.mostSpecific es, f.guard.narrower e.guard = true := by
  obtain ⟨hsub, happlied⟩ := applicable_applied htried
  rw [choose, Action.bind_of_ok htried] at htied
  obtain ⟨rfl, hne, hnotone⟩ := Choice.among_eq_tied (Except.ok.inj htied)
  have hes : Choice.SettledAt k es := ⟨fun e he => (happlied e he).holdsAt, hsettled, hsets⟩
  have hbelow := fun e => hes.below_mostSpecific (e := e)
  refine ⟨?_, rfl, fun e he => ?_, hbelow⟩
  · obtain ⟨e, he⟩ := List.exists_mem_of_ne_nil es hne
    have hsome : Choice.mostSpecific es ≠ [] := by
      rcases hbelow e he with hmost | ⟨f, hmost, -⟩ <;> exact List.ne_nil_of_mem hmost
    have hpos := List.length_pos_iff.mpr hsome
    rw [List.length_map]
    omega
  · have he := (Choice.mem_mostSpecific.mp he).1
    exact ⟨hsub.subset he, happlied e he⟩

/-- A group with an equation without a condition for each guard. -/
def ofGuards (guards : List Guard) : Group :=
  guards.foldl (fun g guard => g.install ⟨.ofNat 128 (g.nextSeq + 1)⟩
    ⟨guard, none, .const (.int 0)⟩ 0) (.empty "f")

/-- Two guards that are the same, and one that is wider. -/
theorem tied_candidates_twice :
    let narrow : Guard := ⟨[⟨7, .mem, Value.setOf [.int 1, .int 2]⟩]⟩
    let wide : Guard := ⟨[⟨7, .mem, .range ⟨some 1, some 3⟩⟩]⟩
    let g := ofGuards [narrow, wide, narrow]
    let k := Context.ofList [(7, .int 1)]
    let eval : Code → Context → EvalM Value := fun _ _ => pure (.special .undef)
    (∀ e ∈ g.equations, e.guard.settled = true) ∧ (∀ e ∈ g.equations, e.guard.Ascending) ∧
      applicable eval k g.equations .initial = (.ok g.equations, .initial) ∧
      (g.choose eval k .initial).1 = .ok (.tied [⟨1⟩, ⟨3⟩]) ∧
      2 ≤ [(⟨1⟩ : Equation.Id), ⟨3⟩].length := by
  intro narrow wide g k eval
  have htried : applicable eval k g.equations .initial = (.ok g.equations, .initial) := rfl
  have htied : (g.choose eval k .initial).1 = .ok (.tied [⟨1⟩, ⟨3⟩]) := rfl
  have hsettled : ∀ e ∈ g.equations, e.guard.settled = true := by decide
  have hnarrow : narrow.Ascending := List.forall_mem_singleton.mpr (Value.ascending_setOf _)
  have hwide : wide.Ascending := List.forall_mem_singleton.mpr trivial
  have hsets : ∀ e ∈ g.equations, e.guard.Ascending := by
    refine List.forall_mem_cons.mpr ⟨hnarrow, List.forall_mem_cons.mpr ⟨hwide, ?_⟩⟩
    exact List.forall_mem_singleton.mpr hnarrow
  obtain ⟨hlength, -⟩ := tied_candidates htried hsettled hsets htied
  exact ⟨hsettled, hsets, htried, htied, hlength⟩

/-- The guards of these constraints can be made. At the context all of their equations apply, and
the tie lists none of them. -/
def TiesEmpty (constraints : List (List Constraint)) (k : Context) : Prop :=
  let eval : Code → Context → EvalM Value := fun _ _ => pure (.special .undef)
  ∃ guards, constraints.mapM Guard.ofConstraints = .ok guards ∧
    let g := ofGuards guards
    g.size = constraints.length ∧ (applicable eval k g.equations .initial).1 = .ok g.equations ∧
      (g.choose eval k .initial).1 = .ok (.tied []) ∧
      (g.value eval k .initial).1 = .ok (.special .multiDef)

/-- Three constraints, taken in turns on three dimensions. If each implies the next one in a
circle, so do the guards. -/
def turns (x y z : Dim → Constraint) : List (List Constraint) :=
  [[x 7, y 8, z 9], [y 7, z 8, x 9], [z 7, x 8, y 9]]

/-- A circle of narrowing needs three constraints of which each implies the next one, and not all
are implied by the one before: the integers 1 and 2 with their range and without it, or a range
without integers, the set of it and the range itself. -/
theorem tie_without_candidates :
    (let x (d : Dim) : Constraint :=
       ⟨d, .mem, Value.setOf [.int 1, .int 2, .range ⟨some 1, some 2⟩]⟩
     let y (d : Dim) : Constraint := ⟨d, .mem, .range ⟨some 1, some 2⟩⟩
     let z (d : Dim) : Constraint := ⟨d, .mem, Value.setOf [.int 1, .int 2]⟩
     TiesEmpty (turns x y z) (.ofList [(7, .int 1), (8, .int 1), (9, .int 1)])) ∧
    (let r : Value := .range ⟨some 2, some 1⟩
     let x (d : Dim) : Constraint := ⟨d, .mem, r⟩
     let y (d : Dim) : Constraint := ⟨d, .mem, Value.setOf [r]⟩
     let z (d : Dim) : Constraint := ⟨d, .is, r⟩
     TiesEmpty (turns x y z) (.ofList [(7, r), (8, r), (9, r)])) :=
  ⟨⟨_, rfl, rfl, rfl, rfl, rfl⟩, ⟨_, rfl, rfl, rfl, rfl, rfl⟩⟩

end Group

end Intensional
