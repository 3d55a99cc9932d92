import Intensional.Proofs.Evaluation.Interpretation

/-!
# What names mean, without a machine

`Reference.value` evaluates a name by recursion on a height, with no memo, no frames and no
pending evaluations. It is undefined where the height does not suffice, and so on every cycle.
Where it is defined it answers the value together with a `Trace`: the dimensions that were read,
and the values that were interned on the way, in order. Which dimension a value denotes is an
input here (`Reference.number`); a table that hands out numbers one by one is compared with it
elsewhere.

The dimensions of the trace are a sound variance (`Reference.value_depends`): in every context
that agrees on them the meaning is defined, at every height from there on, with a like value,
the same reads and like interned values.
-/

namespace Intensional

/-- What an evaluation leaves behind: the dimensions it read and the values it interned. -/
structure Trace where
  reads : List Dim
  keys : List Value

namespace Trace

def nothing : Trace := ⟨[], []⟩

instance : Append Trace := ⟨fun t u => ⟨t.reads ++ u.reads, t.keys ++ u.keys⟩⟩

@[simp] theorem reads_append (t u : Trace) : (t ++ u).reads = t.reads ++ u.reads := rfl

theorem eq_of_identity {t u : Trace} (hreads : u.reads = t.reads)
    (hkeys : List.Forall₂ Likeness.identity.same t.keys u.keys) : u = t := by
  have hkeys : t.keys = u.keys := List.forall₂_eq_eq_eq (α := Value) ▸ hkeys
  cases t
  cases u
  rw [mk.injEq]
  exact ⟨hreads, hkeys.symm⟩

/-- What is left outside of a body under changed bindings. -/
def outside (delta : Context) (t : Trace) : Trace :=
  ⟨t.reads.filter fun d => !delta.contains d, t.keys⟩

end Trace

/-- What is given to code: the dimensions that values denote, and the values of names. -/
structure Sense where
  number : Value → Dim
  call : String → Context → Option (Value × Trace)

/-- What code means, where it means something. -/
def Meaning (α : Type) : Type := Sense → Option (α × Trace)

namespace Meaning

variable {α β : Type}

instance : Monad Meaning where
  pure a := fun _ => some (a, .nothing)
  bind x f := fun e => (x e).bind fun p => (f p.1 e).map fun q => (q.1, p.2 ++ q.2)

instance : Evaluator Meaning where
  note dims := fun _ => some ((), ⟨dims.toList, []⟩)
  intern v := fun e => some (e.number v, ⟨[], [v]⟩)
  beneath delta body := fun e => (body e).map fun p => (p.1, p.2.outside delta)

def call (n : String) (k : Context) : Meaning Value := fun e => e.call n k

theorem pure_eq_some {a b : α} {t : Trace} {e : Sense} :
    (pure a : Meaning α) e = some (b, t) ↔ b = a ∧ t = .nothing := by
  show some (a, Trace.nothing) = some (b, t) ↔ _
  simp [eq_comm]

theorem bind_eq_some {x : Meaning α} {f : α → Meaning β} {e : Sense} {b : β} {t : Trace} :
    (x >>= f) e = some (b, t) ↔
      ∃ a t₁ t₂, x e = some (a, t₁) ∧ f a e = some (b, t₂) ∧ t = t₁ ++ t₂ := by
  show ((x e).bind fun p => (f p.1 e).map fun q => (q.1, p.2 ++ q.2)) = some (b, t) ↔ _
  constructor
  · intro h
    obtain ⟨⟨a, t₁⟩, hx, h⟩ := Option.bind_eq_some_iff.mp h
    obtain ⟨⟨b', t₂⟩, hf, h⟩ := Option.map_eq_some_iff.mp h
    cases h
    exact ⟨a, t₁, t₂, hx, hf, rfl⟩
  · rintro ⟨a, t₁, t₂, hx, hf, rfl⟩
    rw [hx, Option.bind_some, hf, Option.map_some]

theorem beneath_eq_some {delta : Context} {x : Meaning Value} {e : Sense} {v : Value}
    {t : Trace} :
    (Evaluator.beneath delta x : Meaning Value) e = some (v, t) ↔
      ∃ u, x e = some (v, u) ∧ t = u.outside delta := by
  show ((x e).map fun p => (p.1, p.2.outside delta)) = some (v, t) ↔ _
  constructor
  · intro h
    obtain ⟨⟨w, u⟩, hx, h⟩ := Option.map_eq_some_iff.mp h
    cases h
    exact ⟨u, hx, rfl⟩
  · rintro ⟨u, hx, rfl⟩
    rw [hx, Option.map_some]

end Meaning

/-- The equations of names, with operators and the dimensions that values denote. -/
structure Reference where
  operators : OperatorTable
  group? : String → Option Group
  number : Value → Dim
  number_congr {v w : Value} : (v == w) = true → number v = number w

namespace Reference

/-- What a group's equations mean at a context, given what names mean. -/
def body (r : Reference) (g : Group) (k : Context) : Meaning Value :=
  g.interpret (Code.interpret r.operators Meaning.call) k

/-- The value of a name by evaluations that are nested at most `h` deep. -/
def value (r : Reference) : Nat → String → Context → Option (Value × Trace)
  | 0, n, _ =>
    match r.group? n with
    | none => some (.special .undef, .nothing)
    | some _ => none
  | h + 1, n, k =>
    match r.group? n with
    | none => some (.special .undef, .nothing)
    | some g => r.body g k ⟨r.number, r.value h⟩

/-- What is given to code inside evaluations that are nested at most `h` deep. -/
def sense (r : Reference) (h : Nat) : Sense := ⟨r.number, r.value h⟩

variable {r : Reference} {n : String}

theorem value_of_none (hg : r.group? n = none) (h : Nat) (k : Context) :
    r.value h n k = some (.special .undef, .nothing) := by
  cases h <;> simp only [value, hg]

theorem value_zero {g : Group} (hg : r.group? n = some g) (k : Context) :
    r.value 0 n k = none := by
  simp only [value, hg]

theorem value_succ {g : Group} (hg : r.group? n = some g) (h : Nat) (k : Context) :
    r.value (h + 1) n k = r.body g k (r.sense h) := by
  simp only [value, hg, sense]

end Reference

/-! ## The reads are a sound variance -/

section Dependence

variable (L : Likeness) (e₁ e₂ : Sense)

/-- Wherever the first computation is defined and reads within `A`, the second is defined with a
like answer and the same trace, up to likeness. -/
def Meaning.Carries (A : Dim → Prop) {α β : Type} (R : α → β → Prop) (x : Meaning α)
    (y : Meaning β) : Prop :=
  ∀ a t, x e₁ = some (a, t) → (∀ d ∈ t.reads, A d) →
    ∃ b u, y e₂ = some (b, u) ∧ R a b ∧ u.reads = t.reads ∧ List.Forall₂ L.same t.keys u.keys

variable {L e₁ e₂}

theorem Meaning.carries_noting {A : Dim → Prop} {α : Type} {R : α → α → Prop} {dims : IndexSet}
    {a b : α} (h : (∀ d ∈ dims, A d) → R a b) :
    Meaning.Carries L e₁ e₂ A R (do Evaluator.note dims; pure a)
      (do Evaluator.note dims; pure b) := by
  rintro a' t hx hA
  obtain ⟨_, t₁, t₂, hnote, hpure, rfl⟩ := Meaning.bind_eq_some.mp hx
  obtain ⟨rfl, rfl⟩ := Meaning.pure_eq_some.mp hpure
  cases hnote
  refine ⟨b, _, rfl, h fun d hd => hA d ?_, rfl, .nil⟩
  exact List.mem_append_left _ hd

/-- Carrying over is respected by every step of an evaluation. -/
def Meaning.carrier (L : Likeness) (e₁ e₂ : Sense)
    (hnumber : ∀ v w, L.same v w → e₁.number v = e₂.number w) :
    Relator Meaning Meaning where
  Index := Dim → Prop
  like := L
  contexts := L.Agree
  rel A _ _ R x y := Meaning.Carries L e₁ e₂ A R x y
  pure {A α β R a b} hab a' t hx hA := by
    obtain ⟨rfl, rfl⟩ := Meaning.pure_eq_some.mp hx
    exact ⟨b, .nothing, rfl, hab, rfl, .nil⟩
  bind {A α β γ δ R S x y f g} hxy hfg c t hx hA := by
    obtain ⟨a, t₁, t₂, ha, hc, rfl⟩ := Meaning.bind_eq_some.mp hx
    obtain ⟨b, u₁, hb, hab, hreads₁, hkeys₁⟩ :=
      hxy a t₁ ha fun d hd => hA d (List.mem_append_left _ hd)
    obtain ⟨d, u₂, hd, hcd, hreads₂, hkeys₂⟩ :=
      hfg a b hab c t₂ hc fun d hd => hA d (List.mem_append_right _ hd)
    refine ⟨d, u₁ ++ u₂, Meaning.bind_eq_some.mpr ⟨b, u₁, u₂, hb, hd, rfl⟩, hcd, ?_, ?_⟩
    · rw [Trace.reads_append, Trace.reads_append, hreads₁, hreads₂]
    · exact List.rel_append hkeys₁ hkeys₂
  look {A k l} d hkl :=
    Meaning.carries_noting fun hA => hkl.valueAt (hA d (by simp))
  consult {A k l} s hkl := by
    refine Meaning.carries_noting fun hA => ?_
    rw [hkl.source hA]
    exact L.refl _
  test {A k l} g hkl := Meaning.carries_noting fun hA => hkl.holdsAt hA
  intern {A v w} hvw a t hx hA := by
    cases hx
    exact ⟨e₂.number w, ⟨[], [w]⟩, rfl, hnumber v w hvw, rfl, .cons hvw .nil⟩
  beneath {A k l ps qs} hkl hpq := by
    refine ⟨_, hkl.override hpq, fun x y hxy v t hx hA => ?_⟩
    obtain ⟨u, hu, rfl⟩ := Meaning.beneath_eq_some.mp hx
    have hbound : ∀ d ∈ u.reads, A d ∨ (Context.ofList ps).contains d = true := by
      intro d hd
      by_cases hc : (Context.ofList ps).contains d = true
      · exact .inr hc
      · exact .inl (hA d (List.mem_filter.mpr ⟨hd, by simp [hc]⟩))
    obtain ⟨w, u', hy, hvw, hreads, hkeys⟩ := hxy v u hu hbound
    refine ⟨w, u'.outside _, Meaning.beneath_eq_some.mpr ⟨u', hy, rfl⟩, hvw, ?_, hkeys⟩
    simp only [Trace.outside, hreads, hpq.contains]

end Dependence

namespace Reference

variable {r : Reference} {L : Likeness} {n : String} {k l : Context} {v : Value} {t : Trace}

/-- A context that agrees on what was read gives a like value by the same reads, at every height
from there on. -/
theorem value_depends (hops : L.Keeps r.operators) :
    ∀ {h h' : Nat}, h ≤ h' → ∀ {n : String} {k l : Context} {v : Value} {t : Trace},
      r.value h n k = some (v, t) → L.Agree (· ∈ t.reads) k l →
      ∃ w u, r.value h' n l = some (w, u) ∧ L.same v w ∧ u.reads = t.reads ∧
        List.Forall₂ L.same t.keys u.keys := by
  intro h
  induction h with
  | zero =>
    intro h' _ n k l v t hv _
    cases hg : r.group? n with
    | none =>
      rw [value_of_none hg] at hv ⊢
      cases hv
      exact ⟨_, _, rfl, L.refl _, rfl, .nil⟩
    | some g => rw [value_zero hg] at hv; cases hv
  | succ h ih =>
    intro h' hle n k l v t hv hkl
    cases hg : r.group? n with
    | none =>
      rw [value_of_none hg] at hv ⊢
      cases hv
      exact ⟨_, _, rfl, L.refl _, rfl, .nil⟩
    | some g =>
      obtain ⟨h', rfl⟩ : ∃ m, h' = m + 1 := ⟨h' - 1, by omega⟩
      rw [value_succ hg] at hv ⊢
      let T := Meaning.carrier L (r.sense h) (r.sense h')
        fun v w hvw => r.number_congr (L.beq hvw)
      have hcall : ∀ (A : Dim → Prop) (n : String) (k l : Context), L.Agree A k l →
          T.rel A L.same (Meaning.call n k) (Meaning.call n l) := fun A n k l hkl v t hv hA =>
        ih (Nat.le_of_succ_le_succ hle) hv (hkl.mono hA)
      exact T.group hops hcall g hkl v t hv fun d hd => hd

theorem code_depends (hops : L.Keeps r.operators) {h : Nat} {c : Code}
    (hv : c.interpret r.operators Meaning.call k (r.sense h) = some (v, t))
    (hkl : L.Agree (· ∈ t.reads) k l) :
    ∃ w u, c.interpret r.operators Meaning.call l (r.sense h) = some (w, u) ∧ L.same v w ∧
      u.reads = t.reads ∧ List.Forall₂ L.same t.keys u.keys := by
  let T := Meaning.carrier L (r.sense h) (r.sense h)
    fun v w hvw => r.number_congr (L.beq hvw)
  have hcall : ∀ (A : Dim → Prop) (n : String) (k l : Context), L.Agree A k l →
      T.rel A L.same (Meaning.call n k) (Meaning.call n l) := fun A n k l hkl v t hv hA =>
    value_depends hops (Nat.le_refl h) hv (hkl.mono hA)
  exact T.code hops hcall c hkl v t hv fun d hd => hd

/-- The meaning of a name does not depend on the height once it suffices. -/
theorem value_mono {h h' : Nat} (hle : h ≤ h') (hv : r.value h n k = some (v, t)) :
    r.value h' n k = some (v, t) := by
  obtain ⟨w, u, hw, rfl, hreads, hkeys⟩ :=
    value_depends (Likeness.keeps_identity r.operators) hle hv (.refl _ k)
  rwa [Trace.eq_of_identity hreads hkeys] at hw

/-- At two heights that suffice the meaning is the same. -/
theorem value_unique {h h' : Nat} {w : Value} {u : Trace} (hv : r.value h n k = some (v, t))
    (hw : r.value h' n k = some (w, u)) : v = w ∧ t = u := by
  rcases Nat.le_total h h' with hle | hle
  · have := (value_mono hle hv).symm.trans hw
    simpa using this
  · have := hv.symm.trans (value_mono hle hw)
    simpa using this

end Reference

end Intensional
