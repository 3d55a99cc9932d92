import Intensional.Proofs.Operator.Congruence
import Intensional.Proofs.Value.Doubles

/-!
# Built-in operators on equal operands

Of the built-in operators all but one give equal answers to equal operands
(`Builtin.respects_of_mem`): integers, truth values and strings are equal only if they are
identical (`Value.core`), comparisons use the order of values, which agrees with equality, and sums,
differences, products and negations of doubles differ at most in the sign of a zero. The quotient
of doubles is the exception, and just where a number other than zero is divided by the two zeros
(`Builtin.TellsZeros`): the answers are infinities of opposite sign then, where a division of
integers by zero is the special value `arith`.
-/

namespace Intensional

namespace Value

variable {u v w : Value}

/-- A value without what its equality does not compare by identity. -/
def core : Value → Value
  | .float _ | .set _ | .foreign _ _ _ => .special .typeError
  | v => v

theorem core_congr (h : (v == w) = true) : v.core = w.core := by
  cases v <;> cases w <;> simp_all [beq_def, beq, core]

theorem compare_congr_right (h : (v == w) = true) (u : Value) : u.compare v = u.compare w := by
  rw [compare_swap, compare_congr h, ← compare_swap]

end Value

namespace OperatorTable

variable {s t : TypeIndex} {op : Operator}

theorem respects_one (h : ∀ v v' : Value, (v == v') = true → (op [v] == op [v']) = true) :
    Respects [s] op
  | [v], [v'], _, .cons hv .nil => h v v' hv

theorem pairs_of_types : ∀ {vs ws : List Value}, vs.map (·.typeIndex) = [s, t] →
    Value.AllEqual vs ws → ∃ v w v' w', vs = [v, w] ∧ ws = [v', w'] ∧ (v == v') = true ∧
      (w == w') = true
  | [v, w], [v', w'], _, .cons hv (.cons hw .nil) => ⟨v, w, v', w', rfl, rfl, hv, hw⟩

theorem respects_two (h : ∀ v v' w w' : Value, (v == v') = true → (w == w') = true →
      (op [v, w] == op [v', w']) = true) : Respects [s, t] op := by
  intro vs ws htypes hvw
  obtain ⟨v, w, v', w', rfl, rfl, hv, hw⟩ := pairs_of_types htypes hvw
  exact h v v' w w' hv hw

theorem respects_one_of_core (h : ∀ v, op [v] = op [v.core]) : Respects [s] op :=
  respects_one fun v v' hv => by
    rw [h v, h v', Value.core_congr hv]
    exact BEq.rfl

theorem respects_two_of_core (h : ∀ v w, op [v, w] = op [v.core, w.core]) : Respects [s, t] op :=
  respects_two fun v v' w w' hv hw => by
    rw [h v w, h v' w', Value.core_congr hv, Value.core_congr hw]
    exact BEq.rfl

/-! ## Registering many operators -/

/-- Registering operators for other types does not change an implementation. -/
theorem find?_foldl_register_of_notMem {name : String} {types : List TypeIndex}
    {os : List (String × List TypeIndex × Operator)} (t : OperatorTable)
    (h : (name, types) ∉ os.map fun o => (o.1, o.2.1)) :
    (os.foldl (fun t o => t.register o.1 o.2.1 o.2.2) t).find? name types =
      t.find? name types := by
  induction os generalizing t with
  | nil => rfl
  | cons o os ih =>
    rw [List.map_cons, List.mem_cons, not_or] at h
    rw [List.foldl_cons, ih _ h.2, find?_register, if_neg]
    rintro ⟨rfl, rfl⟩
    exact h.1 rfl

theorem find?_foldl_register {name : String} {types : List TypeIndex}
    {os : List (String × List TypeIndex × Operator)} (t : OperatorTable)
    (hnodup : (os.map fun o => (o.1, o.2.1)).Nodup) (h : (name, types, op) ∈ os) :
    (os.foldl (fun t o => t.register o.1 o.2.1 o.2.2) t).find? name types = some op := by
  induction os generalizing t with
  | nil => cases h
  | cons o os ih =>
    rw [List.map_cons, List.nodup_cons] at hnodup
    rw [List.foldl_cons]
    obtain rfl | h := List.mem_cons.mp h
    · rw [find?_foldl_register_of_notMem _ hnodup.1, find?_register, if_pos ⟨rfl, rfl⟩]
    · exact ih _ hnodup.2 h

end OperatorTable

namespace Builtin

open OperatorTable (Respects respects_one respects_two respects_one_of_core respects_two_of_core)

/-! ## The operations -/

theorem negateInt_respects (s : TypeIndex) : Respects [s] negateInt :=
  respects_one_of_core fun v => by cases v <;> rfl

theorem rangeOf_respects (s t : TypeIndex) : Respects [s, t] rangeOf :=
  respects_two_of_core fun v w => by cases v <;> cases w <;> rfl

theorem onBools_respects (f : Bool → Bool → Bool) (s t : TypeIndex) : Respects [s, t] (onBools f) :=
  respects_two_of_core fun v w => by cases v <;> cases w <;> rfl

theorem negateBool_respects (s : TypeIndex) : Respects [s] negateBool :=
  respects_one_of_core fun v => by cases v <;> rfl

theorem concat_respects (s t : TypeIndex) : Respects [s, t] concat :=
  respects_two_of_core fun v w => by cases v <;> cases w <;> rfl

theorem onOrder_respects (test : Ordering → Bool) (s t : TypeIndex) :
    Respects [s, t] (onOrder test) :=
  respects_two fun v v' w w' hv hw => by
    rw [onOrder, onOrder, Value.compare_congr hv, Value.compare_congr_right hw]
    exact BEq.rfl

/-- Equal operands are two doubles each, or neither are. -/
theorem floats_or_typeError {v v' w w' : Value} (hv : (v == v') = true) (hw : (w == w') = true) :
    (∃ x x' y y', [v, w] = [.float x, .float y] ∧ [v', w'] = [.float x', .float y'] ∧
      (x == x') = true ∧ (y == y') = true) ∨
    ∀ f, onFloats f [v, w] = .special .typeError ∧ onFloats f [v', w'] = .special .typeError := by
  cases v with
  | float x =>
    cases v' <;> first | cases hv | skip
    cases w with
    | float y =>
      cases w' <;> first | cases hw | skip
      exact .inl ⟨x, _, y, _, rfl, rfl, hv, hw⟩
    | _ => cases w' <;> first | cases hw | exact .inr fun _ => ⟨rfl, rfl⟩
  | _ => cases v' <;> first | cases hv | exact .inr fun _ => ⟨rfl, rfl⟩

theorem onFloats_respects {f : Binary64 → Binary64 → Binary64} (s t : TypeIndex)
    (hf : ∀ {x x' y y' : Binary64}, (x == x') = true → (y == y') = true →
      (f x y == f x' y') = true) : Respects [s, t] (onFloats f) :=
  respects_two fun v v' w w' hv hw => by
    obtain ⟨x, x', y, y', hvw, hvw', hx, hy⟩ | herror := floats_or_typeError hv hw
    · rw [hvw, hvw']
      exact hf hx hy
    · rw [(herror f).1, (herror f).2]
      rfl

theorem negateFloat_respects (s : TypeIndex) : Respects [s] negateFloat :=
  respects_one fun v v' hv => by
    cases v <;> cases v' <;> first | cases hv | rfl | exact Binary64.neg_congr hv

/-! ## The table -/

/-- The quotient of doubles, as it is registered. -/
def floatQuotient : String × List TypeIndex × Operator :=
  ("/", [TypeIndex.float, TypeIndex.float], onFloats Binary64.div)

theorem floatQuotient_mem : floatQuotient ∈ operators := by
  simp [operators, floatQuotient]

/-- No implementation is registered in place of another. -/
theorem signatures_nodup : (operators.map fun o => (o.1, o.2.1)).Nodup := by decide +kernel

variable {name : String} {types : List TypeIndex} {op : Operator} {vs ws : List Value}

theorem apply_install (t : OperatorTable) (ho : (name, types, op) ∈ operators)
    (htypes : vs.map (·.typeIndex) = types) : (install t).apply name vs = op vs := by
  rw [OperatorTable.apply, install, htypes,
    OperatorTable.find?_foldl_register t signatures_nodup ho]

theorem comparisons_respect (ts : List TypeIndex) (cs : List (String × (Ordering → Bool))) :
    ∀ o ∈ ts.flatMap fun t => cs.map fun c => (c.1, [t, t], onOrder c.2), Respects o.2.1 o.2.2 := by
  intro o ho
  obtain ⟨t, -, ho⟩ := List.mem_flatMap.mp ho
  obtain ⟨c, -, rfl⟩ := List.mem_map.mp ho
  exact onOrder_respects _ _ _

/-- Every built-in operator but the quotient of doubles respects equality. -/
theorem respects_of_mem : ∀ o ∈ operators, o = floatQuotient ∨ Respects o.2.1 o.2.2 := by
  refine List.forall_mem_append.mpr ⟨List.forall_mem_append.mpr ⟨?arithmetic, ?ordered⟩, ?equatable⟩
  case arithmetic =>
    simp only [List.forall_mem_cons]
    exact ⟨.inr fun _ _ _ => onInts_congr _, .inr fun _ _ _ => onInts_congr _,
      .inr fun _ _ _ => onInts_congr _, .inr fun _ _ _ => onInts_congr _,
      .inr fun _ _ _ => onInts_congr _, .inr (negateInt_respects _), .inr (rangeOf_respects _ _),
      .inr (onFloats_respects _ _ Binary64.add_congr),
      .inr (onFloats_respects _ _ Binary64.sub_congr),
      .inr (onFloats_respects _ _ Binary64.mul_congr), .inl rfl, .inr (negateFloat_respects _),
      .inr (onBools_respects _ _ _), .inr (onBools_respects _ _ _), .inr (negateBool_respects _),
      .inr (concat_respects _ _), fun _ h => nomatch h⟩
  case ordered => exact fun o ho => .inr (comparisons_respect _ _ o ho)
  case equatable => exact fun o ho => .inr (comparisons_respect _ _ o ho)

/-! ## Equal operands -/

/-- A number other than zero is divided by the one zero in `vs`, and by the other in `ws`. -/
inductive TellsZeros : String → List Value → List Value → Prop
  | quotient {x y x' y' : Binary64} (h : Binary64.TellsZeros x y y') :
      TellsZeros "/" [.float x, .float y] [.float x', .float y']

theorem TellsZeros.signature (h : TellsZeros name vs ws) :
    (name, vs.map (·.typeIndex)) = (floatQuotient.1, floatQuotient.2.1) := by
  cases h
  rfl

theorem onFloats_div_congr_iff {v v' w w' : Value} (hv : (v == v') = true) (hw : (w == w') = true) :
    (onFloats Binary64.div [v, w] == onFloats Binary64.div [v', w']) = true ↔
      ¬ TellsZeros "/" [v, w] [v', w'] := by
  obtain ⟨x, x', y, y', hvw, hvw', hx, hy⟩ | herror := floats_or_typeError hv hw
  · rw [hvw, hvw']
    exact (Binary64.div_congr_iff hx hy).trans (not_congr ⟨.quotient, fun | .quotient h => h⟩)
  · obtain ⟨hleft, hright⟩ := herror Binary64.div
    rw [hleft, hright]
    refine iff_of_true rfl fun htells => ?_
    cases htells
    cases hleft

/-- Installed over any other operators, the built-in ones give equal answers to equal operands
unless a number other than zero is divided by the two zeros. -/
theorem apply_install_congr_iff (t : OperatorTable) (ho : (name, types, op) ∈ operators)
    (htypes : vs.map (·.typeIndex) = types) (h : Value.AllEqual vs ws) :
    ((install t).apply name vs == (install t).apply name ws) = true ↔ ¬ TellsZeros name vs ws := by
  rw [apply_install t ho htypes,
    apply_install t ho ((OperatorTable.types_congr h).symm.trans htypes)]
  by_cases hquotient : (name, types, op) = floatQuotient
  · cases hquotient
    obtain ⟨v, w, v', w', rfl, rfl, hv, hw⟩ := OperatorTable.pairs_of_types htypes h
    exact onFloats_div_congr_iff hv hw
  · have hrespects := (respects_of_mem _ ho).resolve_left hquotient
    refine iff_of_true (hrespects vs ws htypes h) fun htells => hquotient ?_
    subst htypes
    exact List.inj_on_of_nodup_map signatures_nodup ho floatQuotient_mem htells.signature

/-- A zero divided by one: the sign of the zero operand is that of the zero result. -/
theorem apply_install_congr_iff_zero_over_one :
    let one : Value := .float ⟨0x3ff0000000000000⟩
    let zero : Value := .float ⟨0⟩
    let minusZero : Value := .float ⟨0x8000000000000000⟩
    floatQuotient ∈ operators ∧ [zero, one].map (·.typeIndex) = floatQuotient.2.1 ∧
      Value.AllEqual [zero, one] [minusZero, one] ∧
      ((install []).apply "/" [zero, one] == (install []).apply "/" [minusZero, one]) = true := by
  have hequal : Value.AllEqual [.float ⟨0⟩, .float ⟨0x3ff0000000000000⟩]
      [.float ⟨0x8000000000000000⟩, .float ⟨0x3ff0000000000000⟩] :=
    .cons (by decide) (.cons (by decide) .nil)
  refine ⟨floatQuotient_mem, rfl, hequal, ?_⟩
  refine (apply_install_congr_iff [] floatQuotient_mem rfl hequal).mpr ?_
  rintro ⟨h⟩
  exact h.nonzero rfl

/-- One divided by the two zeros, which are equal: the infinities are not. -/
theorem quotients_by_equal_zeros_differ :
    let one : Value := .float ⟨0x3ff0000000000000⟩
    let zero : Value := .float ⟨0⟩
    let minusZero : Value := .float ⟨0x8000000000000000⟩
    floatQuotient ∈ operators ∧ [one, zero].map (·.typeIndex) = floatQuotient.2.1 ∧
      Value.AllEqual [one, zero] [one, minusZero] ∧
      ((install []).apply "/" [one, zero] == (install []).apply "/" [one, minusZero]) = false := by
  refine ⟨floatQuotient_mem, rfl, .cons (by decide) (.cons (by decide) .nil), ?_⟩
  rw [apply_install [] floatQuotient_mem rfl, apply_install [] floatQuotient_mem rfl]
  decide

end Builtin
end Intensional
