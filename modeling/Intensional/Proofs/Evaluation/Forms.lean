import Intensional.Evaluation.Demand
import Intensional.Proofs.Context.Overriding

/-!
# The three forms of evaluation

Code is evaluated at a context, at a base context with a change, or at a base context with a list
of changes and an instant. The forms agree where the contexts do, and the contexts do because
overriding is associative: to merge the changes first and override the base once is to override
the base by one change after the other (`Changes.apply_eq`).

The second form looks at base and change without merging them where code is a constant or reads a
dimension that is known beforehand. There it notes what the first form notes and finds what a
lookup in the merged context finds (`Code.evalChanged_eq`), so the two are one action, and agree
in answers, reads and states alike, faults included.
-/

namespace Intensional

/-! ## The forms of evaluation -/

namespace Code

variable (ops : OperatorTable) (call : String → Context → EvalM Value)

/-- To look at base and change side by side is to look at the changed context. -/
theorem evalChanged_eq (c : Code) (base delta : Context) :
    c.evalChanged ops call base delta = c.eval ops call (base.override delta) := by
  unfold evalChanged
  split
  · rw [eval]
  · rw [eval, Context.valueAt, Context.get?_override]
  · rfl

theorem evalAt_eq (c : Code) (base : Context) (delta : Changes) (t : Instant) :
    c.evalAt ops call base delta t = (t, ·) <$> c.eval ops call (delta.apply base) := by
  rw [evalAt, evalChanged_eq, Changes.apply_eq, bind_pure_comp]

end Code

namespace Program

/-- From every state the three forms of evaluation give the same answer or the same fault, read
the same dimensions, and leave the same state; the instant is the one that was asked for. -/
theorem forms_agree (p : Program) (c : Code) (base : Context) (changes : List Context)
    (t : Instant) (s : Machine) :
    let delta := Changes.ofList changes
    let direct := p.eval c (delta.apply base)
    let changed := p.evalChanged c base delta.merged
    let timed := p.evalAt c base delta t
    changed s = direct s ∧
    timed s = ((direct s).1.map (t, ·), (direct s).2) ∧
    EvalM.tracked changed s = EvalM.tracked direct s ∧
    EvalM.tracked timed s =
      ((EvalM.tracked direct s).1.map fun ran => (ran.1.map (t, ·), ran.2),
        (EvalM.tracked direct s).2) := by
  intro delta direct changed timed
  have hchanged : changed = direct := by
    show c.evalChanged _ _ base delta.merged = _
    rw [Code.evalChanged_eq, ← Changes.apply_eq]
    rfl
  have htimed : ∀ s, timed s = ((direct s).1.map (t, ·), (direct s).2) := fun s => by
    show c.evalAt _ _ base delta t s = _
    rw [Code.evalAt_eq, Action.map_apply]
    rfl
  refine ⟨by rw [hchanged], htimed s, by rw [hchanged], ?_⟩
  simp only [EvalM.tracked, htimed]
  rfl

end Program
end Intensional
