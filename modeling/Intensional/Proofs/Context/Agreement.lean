import Mathlib.Data.List.Forall2
import Intensional.Context.Lemmas
import Intensional.Evaluation.Code
import Intensional.Guard.Basic

/-!
# Contexts that agree on some dimensions

Two contexts agree on a dimension if both leave it unbound or bind it to like values. What is
meant by like is a parameter (`Likeness`): identical, or equal. Everything that an evaluation
learns from a context at some dimensions is alike in contexts that agree on them: the value at a
dimension, the value of a source, whether a guard holds.

Overriding both contexts by like bindings adds the bound dimensions to those they agree on
(`Likeness.Agree.override`).
-/

namespace Intensional

/-! ## Equal values are used alike -/

namespace Value

theorem special?_congr {v w : Value} (h : (v == w) = true) : v.special? = w.special? := by
  cases v <;> cases w <;> simp_all [beq_def, beq, special?]

theorem int?_congr {v w : Value} (h : (v == w) = true) : v.int? = w.int? := by
  cases v <;> cases w <;> simp_all [beq_def, beq, int?]

theorem bool?_congr {v w : Value} (h : (v == w) = true) : v.bool? = w.bool? := by
  cases v <;> cases w <;> simp_all [beq_def, beq, bool?]

theorem isSpecial_congr {v w : Value} (h : (v == w) = true) : v.isSpecial = w.isSpecial := by
  rw [isSpecial, isSpecial, special?_congr h]

theorem isTrue_congr {v w : Value} (h : (v == w) = true) : v.isTrue = w.isTrue := by
  rw [isTrue, isTrue, bool?_congr h]

theorem memberOf_congr {v w : Value} (h : (v == w) = true) (c : Value) :
    v.memberOf c = w.memberOf c := by
  cases c with
  | set members =>
    have hany : members.any (· == v) = members.any (· == w) := by
      simp only [BEq.congr_right h]
    cases v <;> cases w <;> exact hany
  | range r => cases v <;> cases w <;> simp_all [beq_def, beq, memberOf]
  | _ => cases v <;> cases w <;> simp_all [beq_def, beq, memberOf]

end Value

theorem Constraint.allows_congr {v w : Value} (h : (v == w) = true) (c : Constraint) :
    c.allows v = c.allows w := by
  rw [allows, allows, BEq.congr_left h, Value.memberOf_congr h, Value.typeIndex_congr h]

theorem Context.mem_dims {k : Context} {d : Dim} : d ∈ k.dims ↔ k.contains d = true := by
  have go : ∀ es : List (Dim × Value), d ∈ es.map (·.1) ↔ (Assoc.get? es d).isSome = true := by
    intro es
    induction es with
    | nil => simp
    | cons e es ih =>
      rw [List.map_cons, List.mem_cons, ih, Assoc.get?_cons]
      by_cases h : e.1 = d
      · simp [h]
      · simp [h, Ne.symm h]
  exact go k.entries

/-! ## Likeness -/

/-- A way in which values are alike, not coarser than their equality. -/
structure Likeness where
  same : Value → Value → Prop
  refl (v : Value) : same v v
  beq {v w : Value} : same v w → (v == w) = true

namespace Likeness

def identity : Likeness := ⟨Eq, fun _ => rfl, fun h => h ▸ BEq.refl _⟩

def equality : Likeness := ⟨fun v w => (v == w) = true, fun v => BEq.refl v, id⟩

/-- Operators that answer alike to operands that are alike. -/
def Keeps (L : Likeness) (ops : OperatorTable) : Prop :=
  ∀ (op : String) (vs ws : List Value), List.Forall₂ L.same vs ws →
    L.same (ops.apply op vs) (ops.apply op ws)

theorem keeps_identity (ops : OperatorTable) : identity.Keeps ops := fun _ vs ws h => by
  have hvw : vs = ws := List.forall₂_eq_eq_eq (α := Value) ▸ h
  exact congrArg _ hvw

variable (L : Likeness)

/-- The same dimensions with values that are alike, in the same order. -/
def Bindings (ps qs : List (Dim × Value)) : Prop :=
  List.Forall₂ (fun p q => p.1 = q.1 ∧ L.same p.2 q.2) ps qs

theorem Bindings.eq_of_identity {ps qs : List (Dim × Value)} (h : identity.Bindings ps qs) :
    ps = qs :=
  List.forall₂_eq_eq_eq (α := Dim × Value) ▸ h.imp fun _ _ h => Prod.ext h.1 h.2

/-- Contexts that agree on the dimensions in `A`. -/
def Agree (A : Dim → Prop) (k l : Context) : Prop :=
  ∀ d, A d → Option.Rel L.same (k.get? d) (l.get? d)

variable {L} {A B : Dim → Prop} {k l : Context}

theorem rel_refl (o : Option Value) : Option.Rel L.same o o := by
  cases o with
  | none => exact .none
  | some v => exact .some (L.refl v)

theorem rel_isSome {o o' : Option Value} (h : Option.Rel L.same o o') : o.isSome = o'.isSome := by
  cases h <;> rfl

theorem rel_getD {o o' : Option Value} (h : Option.Rel L.same o o') (v : Value) :
    L.same (o.getD v) (o'.getD v) := by
  cases h with
  | none => exact L.refl v
  | some h => exact h

theorem rel_any {o o' : Option Value} (h : Option.Rel L.same o o') {p : Value → Bool}
    (hp : ∀ v w, (v == w) = true → p v = p w) : o.any p = o'.any p := by
  cases h with
  | none => rfl
  | some h => exact hp _ _ (L.beq h)

theorem rel_or {o o' u u' : Option Value} (h : Option.Rel L.same o o')
    (h' : o = none → Option.Rel L.same u u') : Option.Rel L.same (o.or u) (o'.or u') := by
  cases h with
  | none => exact h' rfl
  | some h => exact .some h

theorem rel_equality {o o' : Option Value} (h : Option.Rel L.same o o') :
    Option.Rel equality.same o o' := by
  cases h with
  | none => exact .none
  | some h => exact .some (L.beq h)

theorem equality_symm {o o' : Option Value} (h : Option.Rel equality.same o o') :
    Option.Rel equality.same o' o := by
  cases h with
  | none => exact .none
  | some h => exact .some (BEq.symm h)

theorem equality_trans {o o' u : Option Value} (h : Option.Rel equality.same o o')
    (h' : Option.Rel equality.same o' u) : Option.Rel equality.same o u := by
  cases h with
  | none => exact h'
  | some h =>
    cases h' with
    | some h' => exact .some (BEq.trans h h')

namespace Agree

theorem refl (A : Dim → Prop) (k : Context) : L.Agree A k k := fun _ _ => rel_refl _

theorem mono (h : L.Agree A k l) (hB : ∀ d, B d → A d) : L.Agree B k l :=
  fun d hd => h d (hB d hd)

theorem valueAt (h : L.Agree A k l) {d : Dim} (hd : A d) :
    L.same (k.valueAt d) (l.valueAt d) := rel_getD (h d hd) _

theorem holdsAt (h : L.Agree A k l) {g : Guard} (hg : ∀ d ∈ g.dims, A d) :
    g.holdsAt k = g.holdsAt l := by
  rw [Guard.holdsAt, Guard.holdsAt, Bool.eq_iff_iff, List.all_eq_true, List.all_eq_true]
  refine forall₂_congr fun c hc => ?_
  have hd : A c.dim := hg c.dim (IndexSet.mem_ofList.mpr (List.mem_map_of_mem hc))
  rw [rel_any (h c.dim hd) fun v w hvw => Constraint.allows_congr hvw c]

end Agree

/-! ## Equal contexts -/

/-- Where two lists bind the same dimensions, the first one is not smaller in either. -/
theorem not_lt_of_isSome {d e : Dim} {v w : Value} {es fs : List (Dim × Value)}
    (hfs : ∀ x ∈ fs.map (·.1), e < x)
    (h : (Assoc.get? ((d, v) :: es) d).isSome = (Assoc.get? ((e, w) :: fs) d).isSome) :
    ¬ d < e := by
  intro hlt
  have hnone : Assoc.get? ((e, w) :: fs) d = none := by
    refine Context.get?_eq_none fun x hx => ?_
    rcases List.mem_cons.mp hx with rfl | hx
    · exact hlt
    · exact Nat.lt_trans hlt (hfs x hx)
  rw [hnone, Assoc.get?_cons] at h
  simp at h

/-- Lists in which the same lookups find like values bind alike, binding by binding. -/
theorem Bindings.of_lookups : ∀ {es fs : List (Dim × Value)},
    (es.map (·.1)).Pairwise (· < ·) → (fs.map (·.1)).Pairwise (· < ·) →
    (∀ d, Option.Rel L.same (Assoc.get? es d) (Assoc.get? fs d)) → L.Bindings es fs
  | [], [], _, _, _ => .nil
  | [], (d, w) :: fs, _, _, h => by
      have hd := h d
      simp only [Assoc.get?_nil, Assoc.get?_cons, BEq.refl, ↓reduceIte] at hd
      cases hd
  | (d, v) :: es, [], _, _, h => by
      have hd := h d
      simp only [Assoc.get?_nil, Assoc.get?_cons, BEq.refl, ↓reduceIte] at hd
      cases hd
  | (d, v) :: es, (e, w) :: fs, hes, hfs, h => by
      obtain ⟨hd, hes'⟩ := List.pairwise_cons.mp hes
      obtain ⟨he, hfs'⟩ := List.pairwise_cons.mp hfs
      have hle := not_lt_of_isSome hd (rel_isSome (h e)).symm
      have hge := not_lt_of_isSome he (rel_isSome (h d))
      obtain rfl : d = e := Nat.le_antisymm (Nat.le_of_not_lt hle) (Nat.le_of_not_lt hge)
      have hvw : L.same v w := by
        have hrel := h d
        simp only [Assoc.get?_cons, BEq.refl, ↓reduceIte] at hrel
        cases hrel with
        | some hvw => exact hvw
      refine .cons ⟨rfl, hvw⟩ (Bindings.of_lookups hes' hfs' fun x => ?_)
      by_cases hx : d = x
      · subst hx
        rw [Context.get?_eq_none hd, Context.get?_eq_none he]
        exact .none
      · have hrel := h x
        simpa only [Assoc.get?_cons, beq_iff_eq, hx, ↓reduceIte] using hrel

theorem Bindings.beq {ps qs : List (Dim × Value)} (h : L.Bindings ps qs) : (ps == qs) = true := by
  induction h with
  | nil => rfl
  | cons hpq _ ih => rw [List.cons_beq_cons, beq_pair, hpq.1, L.beq hpq.2, ih, BEq.refl]; rfl

theorem Agree.bindings (h : L.Agree (fun _ => True) k l) : L.Bindings k.entries l.entries :=
  Bindings.of_lookups k.ascending l.ascending fun d => h d trivial

theorem Agree.beq (h : L.Agree (fun _ => True) k l) : (k == l) = true := h.bindings.beq

theorem agree_of_beq {k l : Context} (h : (k == l) = true) (A : Dim → Prop) :
    equality.Agree A k l := by
  have go : ∀ {es fs : List (Dim × Value)} (d : Dim), (es == fs) = true →
      Option.Rel equality.same (Assoc.get? es d) (Assoc.get? fs d) := by
    intro es
    induction es with
    | nil => intro fs d h; cases fs <;> first | exact .none | cases h
    | cons e es ih =>
      intro fs d h
      cases fs with
      | nil => cases h
      | cons f fs =>
        rw [List.cons_beq_cons, beq_pair, Bool.and_eq_true, Bool.and_eq_true, beq_iff_eq] at h
        rw [Assoc.get?_cons, Assoc.get?_cons, h.1.1]
        split
        · exact .some h.1.2
        · exact ih d h.2
  exact fun d _ => go d h

/-- A source answers the same where its dimensions are bound to the same. -/
theorem Agree.source (h : L.Agree A k l) {s : Source} (hs : ∀ d ∈ s.dims, A d) :
    s.get k = s.get l := by
  cases s with
  | constant v => rfl
  | table t =>
    have hkey : (t.rowKey k == t.rowKey l) = true := by
      refine Agree.beq (L := L) fun d _ => ?_
      rw [Table.rowKey, Table.rowKey, Context.get?_restrict, Context.get?_restrict]
      split
      · rename_i hd
        exact h d (hs d (List.contains_iff_mem.mp hd))
      · exact .none
    rw [Source.get, Source.get, Table.get, Table.get, Assoc.get?_congr hkey]

/-! ## Overriding -/

theorem Bindings.insertAll {ps qs : List (Dim × Value)} (h : L.Bindings ps qs) :
    ∀ {k l : Context}, L.Agree (fun _ => True) k l →
      L.Agree (fun _ => True) (k.insertAll ps) (l.insertAll qs) := by
  induction h with
  | nil => exact id
  | @cons p q ps qs hpq _ ih =>
    intro k l hkl
    refine ih fun d _ => ?_
    rw [Context.get?_insert, Context.get?_insert, hpq.1]
    split
    · exact .some hpq.2
    · exact hkl d trivial

theorem Bindings.agree {ps qs : List (Dim × Value)} (h : L.Bindings ps qs) :
    L.Agree (fun _ => True) (.ofList ps) (.ofList qs) := h.insertAll (Agree.refl _ _)

theorem Bindings.contains {ps qs : List (Dim × Value)} (h : L.Bindings ps qs) (d : Dim) :
    (Context.ofList ps).contains d = (Context.ofList qs).contains d :=
  rel_isSome (h.agree d trivial)

/-- Contexts that are overridden by like bindings agree on what these bind, too. -/
theorem Agree.override {ps qs : List (Dim × Value)} (h : L.Agree A k l) (hb : L.Bindings ps qs) :
    L.Agree (fun d => A d ∨ (Context.ofList ps).contains d = true) (k.override (.ofList ps))
      (l.override (.ofList qs)) := by
  intro d hd
  rw [Context.get?_override, Context.get?_override]
  refine rel_or (hb.agree d trivial) fun hnone => ?_
  rcases hd with hd | hd
  · exact h d hd
  · rw [Context.contains, hnone] at hd
    cases hd

end Likeness

/-- Contexts in which every lookup finds the same are the same. -/
theorem Context.eq_of_lookups {k l : Context} (h : ∀ d, k.get? d = l.get? d) : k = l := by
  have hkl : Likeness.identity.Agree (fun _ => True) k l := fun d _ => by
    rw [h d]
    exact Likeness.rel_refl _
  obtain ⟨es, hes⟩ := k
  obtain ⟨fs, hfs⟩ := l
  obtain rfl : es = fs := hkl.bindings.eq_of_identity
  rfl

end Intensional
