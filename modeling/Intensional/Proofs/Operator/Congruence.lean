import Intensional.Operator.Builtin
import Intensional.Proofs.Context.Agreement

/-!
# Operators that respect equality

Remembered values are found by contexts that are equal, not identical, to those they were
computed at. This goes unnoticed only if the operators answer equally to equal operands
(`OperatorTable.Congruent`). Integer arithmetic does; division of doubles does not, because it
tells the two zeros apart.
-/

namespace Intensional

abbrev Value.AllEqual : List Value → List Value → Prop :=
  List.Forall₂ fun v w => (v == w) = true

namespace OperatorTable

variable {t : OperatorTable} {vs ws : List Value}

/-- Every implementation gives equal answers to equal operands of the types that it is for. -/
def Congruent (t : OperatorTable) : Prop :=
  ∀ (name : String) (types : List TypeIndex) (op : Operator), t.find? name types = some op →
    ∀ vs ws : List Value, vs.map (·.typeIndex) = types → Value.AllEqual vs ws →
      (op vs == op ws) = true

theorem congruent_empty : Congruent [] := fun _ _ _ h => (nomatch h)

theorem find?_register (t : OperatorTable) (name : String) (types : List TypeIndex)
    (op : Operator) (name' : String) (types' : List TypeIndex) :
    (t.register name types op).find? name' types' =
      if name = name' ∧ types = types' then some op else t.find? name' types' := by
  unfold OperatorTable.register OperatorTable.find?
  rw [Assoc.get?_put]
  by_cases hname : name = name'
  · subst hname
    simp only [BEq.rfl, ↓reduceIte, Option.bind_some, Assoc.get?_put, beq_iff_eq, true_and]
    split
    · rfl
    · cases t.get? name <;> rfl
  · simp [hname]

theorem apply_register (t : OperatorTable) (name : String) (types : List TypeIndex)
    (op : Operator) (name' : String) (vs : List Value) :
    (t.register name types op).apply name' vs =
      if name = name' ∧ types = vs.map (·.typeIndex) then op vs else t.apply name' vs := by
  rw [apply, find?_register]
  by_cases hsame : name = name' ∧ types = vs.map (·.typeIndex)
  · rw [if_pos hsame, if_pos hsame]
  · rw [if_neg hsame, if_neg hsame, apply]

/-- The operation gives equal answers to equal operands of the types that it is for. -/
def Respects (types : List TypeIndex) (op : Operator) : Prop :=
  ∀ vs ws : List Value, vs.map (·.typeIndex) = types → Value.AllEqual vs ws →
    (op vs == op ws) = true

theorem Congruent.register (ht : t.Congruent) {op : Operator} (name : String)
    (types : List TypeIndex) (hop : Respects types op) : (t.register name types op).Congruent := by
  intro name' types' op' h vs ws htypes hvw
  rw [find?_register] at h
  split at h
  · rename_i hsame
    cases h
    exact hop vs ws (htypes.trans hsame.2.symm) hvw
  · exact ht name' types' op' h vs ws htypes hvw

theorem types_congr (h : Value.AllEqual vs ws) :
    vs.map (·.typeIndex) = ws.map (·.typeIndex) := by
  induction h with
  | nil => rfl
  | cons h _ ih => rw [List.map_cons, List.map_cons, Value.typeIndex_congr h, ih]

theorem unmatched_congr (h : Value.AllEqual vs ws) : (unmatched vs == unmatched ws) = true := by
  induction h with
  | nil => rfl
  | @cons v w vs ws hvw _ ih =>
    unfold unmatched
    rw [List.find?_cons, List.find?_cons, Value.isSpecial_congr hvw]
    cases w.isSpecial with
    | true => exact hvw
    | false => exact ih

end OperatorTable

theorem Likeness.Keeps.register {t : OperatorTable} (h : equality.Keeps t) {op : Operator}
    (name : String) {types : List TypeIndex} (hop : OperatorTable.Respects types op) :
    equality.Keeps (t.register name types op) := by
  intro name' vs ws hvw
  rw [OperatorTable.apply_register, OperatorTable.apply_register,
    ← OperatorTable.types_congr hvw]
  split
  · rename_i hsame
    exact hop vs ws hsame.2.symm hvw
  · exact h name' vs ws hvw

/-- Congruent operators answer equally to equal operands. -/
theorem Likeness.keeps_equality {t : OperatorTable} (h : t.Congruent) : equality.Keeps t := by
  intro name vs ws hvw
  unfold OperatorTable.apply
  rw [← OperatorTable.types_congr hvw]
  cases hop : t.find? name (vs.map (·.typeIndex)) with
  | some op => exact h name _ op hop vs ws rfl hvw
  | none => exact OperatorTable.unmatched_congr hvw

namespace Builtin

/-- An operation on integers looks at its operands as integers only. -/
theorem onInts_eq (f : Int → Int → Option Int) : ∀ vs : List Value, onInts f vs =
    match vs.map Value.int? with
    | [some a, some b] => ((f a.toInt b.toInt).map exact).getD (.special .arith)
    | _ => .special .typeError
  | [] => rfl
  | [v] => by cases v <;> rfl
  | [v, w] => by cases v <;> cases w <;> rfl
  | v :: w :: _ :: _ => by cases v <;> cases w <;> rfl

theorem onInts_congr (f : Int → Int → Option Int) {vs ws : List Value}
    (h : Value.AllEqual vs ws) : (onInts f vs == onInts f ws) = true := by
  have hints : vs.map Value.int? = ws.map Value.int? := by
    induction h with
    | nil => rfl
    | cons h _ ih => rw [List.map_cons, List.map_cons, Value.int?_congr h, ih]
  rw [onInts_eq, onInts_eq, hints]
  exact BEq.rfl

/-- Sums, differences and products of integers. -/
def integers : OperatorTable :=
  let types := [TypeIndex.int, TypeIndex.int]
  (((OperatorTable.register [] "+" types (onInts fun a b => some (a + b))).register
    "-" types (onInts fun a b => some (a - b))).register
    "*" types (onInts fun a b => some (a * b)))

theorem integers_congruent : integers.Congruent :=
  ((OperatorTable.congruent_empty.register _ _ fun _ _ _ => onInts_congr _).register _ _
    fun _ _ _ => onInts_congr _).register _ _ fun _ _ _ => onInts_congr _

end Builtin

end Intensional
