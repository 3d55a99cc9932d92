import Intensional.Context
import Intensional.Equivalence
import Intensional.Value.Lemmas

/-!
# Laws of contexts

Each operation on contexts is told by what a lookup finds afterwards. Equality of contexts is an
equivalence, binding by binding, and equal contexts have one digest.
-/

namespace Intensional
namespace Context

/-! ## Lookup -/

theorem get?_eq_none {d : Dim} : ∀ {es : List (Dim × Value)}, (∀ e ∈ es.map (·.1), d < e) →
    Assoc.get? es d = none
  | [], _ => rfl
  | (e, w) :: rest, h => by
    have he : d < e := h e (by simp)
    rw [Assoc.get?_cons, if_neg (by simpa using Nat.ne_of_gt he)]
    exact get?_eq_none fun x hx => h x (List.mem_cons_of_mem _ hx)

theorem get?_insertAll {d : Dim} : ∀ {es : List (Dim × Value)} {k : Context},
    (es.map (·.1)).Pairwise (· < ·) →
      (k.insertAll es).get? d = (Assoc.get? es d).or (k.get? d)
  | [], _, _ => rfl
  | (e, w) :: rest, k, h => by
    obtain ⟨he, hrest⟩ := List.pairwise_cons.mp h
    have ih := @get?_insertAll d rest (k.insert e w) hrest
    rw [insertAll] at ih ⊢
    rw [List.foldl_cons, ih, get?_insert, Assoc.get?_cons]
    by_cases hd : d = e
    · subst hd
      simp [get?_eq_none he]
    · have hd' : ¬ e = d := fun h => hd h.symm
      simp [hd, hd']

/-- Overriding: the changes count where they bind, and all else is as before. -/
theorem get?_override (k delta : Context) (d : Dim) :
    (k.override delta).get? d = (delta.get? d).or (k.get? d) :=
  get?_insertAll delta.ascending

theorem get?_filter (keep : Dim → Bool) (d : Dim) : ∀ es : List (Dim × Value),
    Assoc.get? (es.filter fun e => keep e.1) d = if keep d then Assoc.get? es d else none
  | [] => by simp
  | (e, w) :: rest => by
    have ih := get?_filter keep d rest
    rw [List.filter_cons]
    by_cases hd : e = d
    · subst hd
      by_cases hk : keep e = true <;> simp_all [Assoc.get?_cons]
    · by_cases hk : keep e = true <;> simp_all [Assoc.get?_cons]

theorem get?_restrict (k : Context) (dims : List Dim) (d : Dim) :
    (k.restrict dims).get? d = if dims.contains d then k.get? d else none :=
  get?_filter dims.contains d k.entries

theorem contains_iff {k : Context} {d : Dim} : k.contains d = true ↔ ∃ v, k.get? d = some v :=
  Option.isSome_iff_exists

/-! ## Equality -/

theorem beq_def (k l : Context) : (k == l) = (k.entries == l.entries) := rfl

instance : EquivBEq Context where
  rfl {k} := (beq_def k k).trans (BEq.refl k.entries)
  symm {k l} h := (beq_def l k).trans (BEq.symm ((beq_def k l).symm.trans h))
  trans {k l m} h h' :=
    (beq_def k m).trans (BEq.trans ((beq_def k l).symm.trans h) ((beq_def l m).symm.trans h'))

theorem features_congr {k l : Context} (h : (k == l) = true) : k.features = l.features := by
  have go : ∀ {es fs : List (Dim × Value)}, (es == fs) = true → es.length = fs.length ∧
      es.flatMap (fun e => e.1 :: e.2.features) = fs.flatMap (fun e => e.1 :: e.2.features) := by
    intro es
    induction es with
    | nil => intro fs h; cases fs <;> simp_all
    | cons e es ih =>
      intro fs h
      cases fs with
      | nil => cases h
      | cons f fs =>
        rw [List.cons_beq_cons, beq_pair, Bool.and_eq_true, Bool.and_eq_true, beq_iff_eq] at h
        obtain ⟨hl, hf⟩ := ih h.2
        simp [hl, hf, h.1.1, Value.features_congr h.1.2]
  obtain ⟨hl, hf⟩ := go h
  rw [features, features, size, size, hl, hf]

instance : LawfulDigest Context where
  digest_congr h := congrArg Digest.ofNumbers (features_congr h)

end Context
end Intensional
