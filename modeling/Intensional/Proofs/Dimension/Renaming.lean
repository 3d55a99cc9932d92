import Intensional.Proofs.Dimension.Numbering

/-!
# Renaming of dimensions

A value that is interned gets the next number, so the number depends on what was interned before.
Two tables that extend one table agree on the dimensions of that table, and what is new to them
they may have numbered differently. A `Renaming` is such a pair, and `Renaming.Matches` says which
numbers stand for the same. It is one to one, because a key has one number and a number one key.

Contexts that bind the same to matching dimensions (`Renaming.Renames`) are alike for everything
that does not look at the numbers themselves: for lookups, for guards and sources of old
dimensions, and for the question whether two contexts are equal. The order of their entries may
differ. All of this asks that values mention old dimensions only (`Value.confined`): a dimension
that is a value is not renamed.
-/

namespace Intensional

/-! ## Dimensions that values mention -/

namespace Value

mutual

/-- The value mentions only dimensions below `n`. -/
def confined (n : Nat) : Value → Bool
  | .dim d => decide (d < n)
  | .set members => confinedAll n members
  | _ => true

def confinedAll (n : Nat) : List Value → Bool
  | [] => true
  | v :: vs => confined n v && confinedAll n vs

end

end Value

namespace Context

/-- The context binds only dimensions below `n`, and to values that mention no others. -/
def confined (n : Nat) (k : Context) : Bool :=
  k.entries.all fun e => decide (e.1 < n) && e.2.confined n

theorem confined_get? {n : Nat} {k : Context} {d : Dim} {v : Value} (h : k.confined n = true)
    (hv : k.get? d = some v) : d < n ∧ v.confined n = true := by
  obtain ⟨e, hmem, he⟩ := Assoc.mem_of_get? hv
  have hentry := List.all_eq_true.mp h (e, v) hmem
  rw [Bool.and_eq_true, decide_eq_true_eq] at hentry
  exact beq_iff_eq.mp he ▸ hentry

end Context

/-! ## Matching dimensions -/

/-- Two tables that extend one table. -/
structure Renaming where
  origin : DimTable
  left : DimTable
  right : DimTable
  fromLeft : origin.Within left
  fromRight : origin.Within right

namespace Renaming

def flip (ρ : Renaming) : Renaming := ⟨ρ.origin, ρ.right, ρ.left, ρ.fromRight, ρ.fromLeft⟩

/-- The number of dimensions that both sides know from the beginning. -/
def old (ρ : Renaming) : Nat := ρ.origin.size

variable {ρ : Renaming} {d d' e e' : Dim} {v w : Value} {k k' l l' : Context}

/-- A dimension of the left table and one of the right table that stand for the same: an old
dimension for itself, the others for those with the same key. -/
inductive Matches (ρ : Renaming) : Dim → Dim → Prop
  | old {d : Dim} : d < ρ.old → ρ.Matches d d
  | keyed {key : DimKey} {d e : Dim} : ρ.left.roster.find? key = some d →
    ρ.right.roster.find? key = some e → ρ.Matches d e

namespace Matches

theorem flip (h : ρ.Matches d e) : ρ.flip.Matches e d := by
  cases h with
  | old hd => exact .old hd
  | keyed hd he => exact .keyed he hd

theorem unique (h : ρ.Matches d e) (h' : ρ.Matches d e') : e = e' := by
  cases h with
  | old hd =>
    cases h' with
    | old _ => rfl
    | keyed hkey hkey' =>
      have horigin := ρ.fromLeft.old _ _ hd hkey
      exact Option.some.inj ((ρ.fromRight.find? _ _ horigin).symm.trans hkey')
  | keyed hkey hkey' =>
    cases h' with
    | old hd =>
      have horigin := ρ.fromLeft.old _ _ hd hkey
      exact Option.some.inj (hkey'.symm.trans (ρ.fromRight.find? _ _ horigin))
    | keyed hkey₁ hkey₁' =>
      obtain ⟨holder, hholder, heq⟩ := Roster.find?_eq_some_iff.mp hkey
      obtain ⟨holder₁, hholder₁, heq₁⟩ := Roster.find?_eq_some_iff.mp hkey₁
      obtain rfl : holder = holder₁ := by simpa using hholder.symm.trans hholder₁
      have hsame := ρ.right.roster.find?_congr (BEq.trans (BEq.symm heq) heq₁)
      exact Option.some.inj (hkey'.symm.trans (hsame.trans hkey₁'))

theorem eq_iff (h : ρ.Matches d e) (h' : ρ.Matches d' e') : d = d' ↔ e = e' := by
  constructor
  · rintro rfl
    exact h.unique h'
  · rintro rfl
    exact h.flip.unique h'.flip

/-- A value is interned as matching dimensions, if it mentions old dimensions only. -/
theorem of_internValue {T T' U U' : DimTable} (hv : v.confined ρ.old = true)
    (hleft : DimTable.internValue v T = (.ok d, T')) (hleft' : T'.Within ρ.left)
    (hright : DimTable.internValue v U = (.ok e, U')) (hright' : U'.Within ρ.right) :
    ρ.Matches d e := by
  have hd := hleft'.place? (DimTable.place?_internValue hleft)
  have he := hright'.place? (DimTable.place?_internValue hright)
  cases v with
  | dim c =>
    obtain rfl : c = d := Option.some.inj hd
    obtain rfl : c = e := Option.some.inj he
    exact .old (of_decide_eq_true hv)
  | _ => exact .keyed hd he

end Matches

/-! ## Contexts that are renamed -/

/-- The same value on both sides, which mentions old dimensions only. -/
def Same (ρ : Renaming) (v w : Value) : Prop := v = w ∧ v.confined ρ.old = true

/-- Contexts that bind the same to matching dimensions, and bind no others. -/
structure Renames (ρ : Renaming) (k l : Context) : Prop where
  lookup {d e : Dim} : ρ.Matches d e → k.get? d = l.get? e
  left {d : Dim} : k.contains d = true → ∃ e, ρ.Matches d e
  right {e : Dim} : l.contains e = true → ∃ d, ρ.Matches d e
  confined {d : Dim} {v : Value} : k.get? d = some v → v.confined ρ.old = true

/-- Bindings of matching dimensions to the same values. -/
def Bindings (ρ : Renaming) (ps qs : List (Dim × Value)) : Prop :=
  List.Forall₂ (fun p q => ρ.Matches p.1 q.1 ∧ ρ.Same p.2 q.2) ps qs

namespace Renames

theorem of_confined (h : k.confined ρ.old = true) : ρ.Renames k k := by
  have hold : ∀ {d : Dim}, k.contains d = true → d < ρ.old := fun hd =>
    let ⟨_, hv⟩ := Context.contains_iff.mp hd
    (Context.confined_get? h hv).1
  refine ⟨fun {d e} hde => ?_, fun hd => ⟨_, .old (hold hd)⟩, fun he => ⟨_, .old (hold he)⟩,
    fun hv => (Context.confined_get? h hv).2⟩
  cases hd : k.get? d with
  | some v =>
    obtain rfl := hde.unique (.old (hold (Context.contains_iff.mpr ⟨v, hd⟩)))
    exact hd.symm
  | none =>
    cases he : k.get? e with
    | none => rfl
    | some v =>
      obtain rfl := hde.flip.unique (.old (hold (Context.contains_iff.mpr ⟨v, he⟩)))
      exact hd.symm.trans he

theorem flip (h : ρ.Renames k l) : ρ.flip.Renames l k where
  lookup hde := (h.lookup hde.flip).symm
  left he := (h.right he).imp fun _ hde => hde.flip
  right hd := (h.left hd).imp fun _ hde => hde.flip
  confined hv := by
    obtain ⟨d, hde⟩ := h.right (Context.contains_iff.mpr ⟨_, hv⟩)
    exact h.confined ((h.lookup hde).trans hv)

/-- A dimension that matches none is bound in no renamed context. -/
theorem get?_eq_none (h : ρ.Renames k l) (he : ∀ d, ¬ ρ.Matches d e) : l.get? e = none := by
  cases hv : l.get? e with
  | none => rfl
  | some v =>
    obtain ⟨d, hde⟩ := h.right (Context.contains_iff.mpr ⟨v, hv⟩)
    exact absurd hde (he d)

theorem beq_of_beq (h : ρ.Renames k l) (h' : ρ.Renames k' l') (hk : (k == k') = true) :
    (l == l') = true := by
  refine Likeness.Agree.beq (L := .equality) fun e _ => ?_
  by_cases he : ∃ d, ρ.Matches d e
  · obtain ⟨d, hde⟩ := he
    rw [← h.lookup hde, ← h'.lookup hde]
    exact Likeness.agree_of_beq hk (fun _ => True) d trivial
  · rw [h.get?_eq_none (not_exists.mp he), h'.get?_eq_none (not_exists.mp he)]
    exact .none

/-- Renaming keeps apart what is different, and keeps equal what is equal. -/
theorem beq_congr (h : ρ.Renames k l) (h' : ρ.Renames k' l') : (k == k') = (l == l') :=
  Bool.eq_iff_iff.mpr ⟨h.beq_of_beq h', h.flip.beq_of_beq h'.flip⟩

/-! ## Looking up -/

theorem agree (h : ρ.Renames k l) : Likeness.identity.Agree (· < ρ.old) k l := fun d hd => by
  rw [h.lookup (.old hd)]
  exact Likeness.rel_refl _

theorem valueAt (h : ρ.Renames k l) (hde : ρ.Matches d e) :
    ρ.Same (k.valueAt d) (l.valueAt e) := by
  refine ⟨congrArg (Option.getD · _) (h.lookup hde), ?_⟩
  rw [Context.valueAt]
  cases hv : k.get? d with
  | none => rfl
  | some v => exact h.confined hv

/-! ## Changing -/

theorem insert (h : ρ.Renames k l) (hde : ρ.Matches d e) (hvw : ρ.Same v w) :
    ρ.Renames (k.insert d v) (l.insert e w) := by
  obtain ⟨rfl, hv⟩ := hvw
  refine ⟨fun {d' e'} h' => ?_, fun {d'} hd' => ?_, fun {e'} he' => ?_, fun {d' u} hu => ?_⟩
  · rw [Context.get?_insert, Context.get?_insert, h.lookup h']
    simp only [h'.eq_iff hde]
  · rw [Context.contains, Context.get?_insert] at hd'
    split at hd'
    · rename_i heq
      exact ⟨e, heq ▸ hde⟩
    · exact h.left hd'
  · rw [Context.contains, Context.get?_insert] at he'
    split at he'
    · rename_i heq
      exact ⟨d, heq ▸ hde⟩
    · exact h.right he'
  · rw [Context.get?_insert] at hu
    split at hu
    · cases hu
      exact hv
    · exact h.confined hu

theorem ofList {ps qs : List (Dim × Value)} (h : ρ.Bindings ps qs) :
    ρ.Renames (.ofList ps) (.ofList qs) := by
  have go : ∀ {k l : Context}, ρ.Renames k l → ρ.Renames (k.insertAll ps) (l.insertAll qs) := by
    induction h with
    | nil => exact id
    | cons hpq _ ih => exact fun hkl => ih (hkl.insert hpq.1 hpq.2)
  exact go (of_confined rfl)

theorem override (h : ρ.Renames k l) (h' : ρ.Renames k' l') :
    ρ.Renames (k.override k') (l.override l') := by
  have hcontains : ∀ {k k' : Context} {d : Dim}, (k.override k').contains d = true →
      k'.contains d = true ∨ k.contains d = true := by
    intro k k' d hd
    rw [Context.contains, Context.get?_override, Option.isSome_or, Bool.or_eq_true] at hd
    exact hd
  refine ⟨fun hde => ?_, fun hd => ?_, fun he => ?_, fun {d v} hv => ?_⟩
  · rw [Context.get?_override, Context.get?_override, h.lookup hde, h'.lookup hde]
  · exact (hcontains hd).elim h'.left h.left
  · exact (hcontains he).elim h'.right h.right
  · rw [Context.get?_override] at hv
    rcases Option.or_eq_some_iff.mp hv with hv | ⟨-, hv⟩
    · exact h'.confined hv
    · exact h.confined hv

end Renames

end Renaming

end Intensional
