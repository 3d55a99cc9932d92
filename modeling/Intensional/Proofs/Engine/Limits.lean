import Intensional.Proofs.Engine.Soundness

/-!
# The limit on nested evaluations

A limit on the number of nested evaluations can turn an answer into a fault, and does nothing
else: what is answered under one limit is answered under every higher one, with the same effects
(`Engine.raising_limit_keeps_answer`).

A fault ends every step that it occurs in. The only place where it is looked at is the body of
changed bindings, which passes it on. So a run that ends in a value has met no fault anywhere, and
the two runs go through the same states. This is what `EvalM.Upholds` says, and it is a relator;
the limit is read where no room is left, and there the lower run has failed already.
-/

namespace Intensional

namespace EvalM

variable {α β γ δ : Type} {R : α → β → Prop} {S : γ → δ → Prop}

/-- Wherever `x` answers a value, `y` answers a related one and reaches the same state. -/
def Upholds (R : α → β → Prop) (x : EvalM α) (y : EvalM β) : Prop :=
  ∀ s a t, x s = (.ok a, t) → ∃ b, y s = (.ok b, t) ∧ R a b

theorem upholds_refl (x : EvalM α) : Upholds Eq x x := fun _ a _ h => ⟨a, h, rfl⟩

theorem upholds_pure {a : α} {b : β} (hab : R a b) : Upholds R (pure a) (pure b) := by
  intro s a' t h
  cases h
  exact ⟨b, rfl, hab⟩

theorem upholds_bind {x : EvalM α} {y : EvalM β} {f : α → EvalM γ} {g : β → EvalM δ}
    (hxy : Upholds R x y) (hfg : ∀ a b, R a b → Upholds S (f a) (g b)) :
    Upholds S (x >>= f) (y >>= g) := by
  intro s c t h
  obtain ⟨a, s', hx, hf⟩ := Action.of_bind_ok h
  obtain ⟨b, hy, hab⟩ := hxy s a s' hx
  obtain ⟨d, hg, hcd⟩ := hfg a b hab s' c t hf
  exact ⟨d, (Action.bind_of_ok hy g).trans hg, hcd⟩

/-- The body of changed bindings passes on its fault, although it is run to learn its reads. -/
theorem upholds_beneath {x y : EvalM Value} (hxy : Upholds Eq x y) (delta : Context) :
    Upholds Eq (Evaluator.beneath delta x) (Evaluator.beneath delta y) := by
  intro s v t h
  have body : ∀ z : EvalM Value, (Evaluator.beneath delta z : EvalM Value) s =
      ((z (s.push (.new none))).1, (z (s.push (.new none))).2.pop.2.noteReads
        ((z (s.push (.new none))).2.pop.1.reads.filter fun d => !delta.contains d)) :=
    fun _ => rfl
  rw [body] at h
  obtain ⟨hv, rfl⟩ := Prod.mk.inj h
  obtain ⟨w, hy, rfl⟩ := hxy _ v _ (Prod.ext hv rfl)
  exact ⟨v, by rw [body, hy], rfl⟩

def upholding : Relator EvalM EvalM where
  Index := Unit
  like := .identity
  contexts _ k l := k = l
  rel _ _ _ R x y := Upholds R x y
  pure := upholds_pure
  bind := upholds_bind
  look _ hkl := hkl ▸ upholds_refl _
  consult _ hkl := hkl ▸ upholds_refl _
  test _ hkl := hkl ▸ upholds_refl _
  intern hvw := hvw ▸ upholds_refl _
  beneath {_ k l ps qs} hkl hpq := by
    obtain rfl := hkl
    obtain rfl := hpq.eq_of_identity
    exact ⟨(), rfl, fun _ _ hxy => upholds_beneath hxy _⟩

end EvalM

/-! ## Names -/

namespace Program

open EvalM

variable {p : Program} {n : String} {k : Context}

/-- The program under another limit. -/
def limited (p : Program) (maxDepth : Nat) : Program :=
  { p with config := { p.config with maxDepth } }

theorem upholds_ask {evaluate evaluate' : Group → EvalM Value}
    (h : ∀ g, Upholds Eq (evaluate g) (evaluate' g)) :
    Upholds Eq (p.ask n k evaluate) (p.ask n k evaluate') := by
  unfold ask
  refine upholds_bind (upholds_refl _) fun _ _ _ => ?_
  split
  · exact upholds_refl _
  · rename_i g _
    refine upholds_bind (upholds_refl _) fun answer _ hanswer => hanswer ▸ ?_
    cases answer with
    | some v => exact upholds_refl _
    | none => exact h g

theorem upholds_compute {body body' : EvalM Value} (h : Upholds Eq body body') :
    Upholds Eq (p.compute n k body) (p.compute n k body') := by
  intro s v t hv
  rcases hbody : body (s.enter n k) with ⟨e | w, b⟩
  · simp only [compute, hbody] at hv
    cases hv
  · obtain ⟨_, hbody', rfl⟩ := h _ w b hbody
    refine ⟨v, ?_, rfl⟩
    rw [← hv, compute, compute, hbody, hbody']

/-- With as much room or more, a name is answered as it was. -/
theorem upholds_demand (p : Program) (maxDepth : Nat) : ∀ {room room' : Nat}, room ≤ room' →
    ∀ (n : String) (k : Context),
      Upholds Eq (p.demand room n k) ((p.limited maxDepth).demand room' n k)
  | 0, room', _, n, k => by
      have hfault : ∀ (g : Group) (y : EvalM Value),
          Upholds Eq (Action.fault (.tooDeep n p.config.maxDepth) : EvalM Value) y := by
        intro g y s v t h
        cases h
      cases room' <;> exact upholds_ask (p := p) fun g => hfault g _
  | room + 1, room', hle, n, k => by
      obtain ⟨room', rfl⟩ : ∃ m, room' = m + 1 := ⟨room' - 1, by omega⟩
      refine upholds_ask (p := p) fun g => upholds_compute ?_
      have hcall : ∀ (i : Unit) (n : String) (k l : Context), k = l →
          Upholds Eq (p.demand room n k) ((p.limited maxDepth).demand room' n l) := by
        rintro _ n k _ rfl
        exact upholds_demand p maxDepth (Nat.le_of_succ_le_succ hle) n k
      rw [← Group.interpret_code, ← Group.interpret_code]
      exact upholding.group (Likeness.keeps_identity p.vocabulary.operators) hcall g (i := ()) rfl

end Program

/-! ## Requests -/

namespace Engine

/-- The engine under another limit. -/
def limited (s : Engine) (maxDepth : Nat) : Engine :=
  { s with program := s.program.limited maxDepth }

/-- What is answered under a limit is answered under every higher one, and leaves the same state
behind. -/
theorem raising_limit_keeps_answer {s t : Engine} {m m' : Nat} (hle : m ≤ m') {name : String}
    {k : Context} {v : Value} (h : evaluate name k (s.limited m) = (.ok v, t)) :
    evaluate name k (s.limited m') = (.ok v, t.limited m') := by
  have hgroup : (s.limited m').program.group? name = (s.limited m).program.group? name := rfl
  rcases evaluate_both hgroup k k with ⟨heval, heval'⟩ | ⟨heval, heval'⟩
  · cases heval.symm.trans h
    exact heval'
  · obtain ⟨hv, rfl⟩ := Prod.mk.inj (heval.symm.trans h)
    have hroom : (s.program.limited m).room s.machine ≤ (s.program.limited m').room s.machine :=
      Nat.sub_le_sub_right hle _
    obtain ⟨_, hrun, rfl⟩ := Program.upholds_demand (s.program.limited m) m' hroom name k
      s.machine v _ (Prod.ext hv rfl)
    have hvalue : (s.limited m').program.valueOf name k (s.limited m').machine =
        (.ok v, ((s.limited m).program.valueOf name k s.machine).2) := hrun
    rw [heval', hvalue]
    rfl

/-- The factorial of three nests four evaluations. -/
theorem raising_limit_keeps_answer_factorial :
    let s := ((start ⟨10, true⟩ Builtin.integers).serve (factorial.take 2)).2
    let k := Context.ofList [(7, .int 3)]
    evaluate "factorial" k (s.limited 9) =
      (.ok (.int 6), (evaluate "factorial" k (s.limited 4)).2.limited 9) :=
  raising_limit_keeps_answer (m := 4) (by decide) (Prod.ext rfl rfl)

end Engine

end Intensional
