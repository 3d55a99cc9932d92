import Intensional.Proofs.Evaluation.Calls
import Intensional.Proofs.Evaluation.Forms

/-!
# The depth of nested evaluations

The depth of a machine counts the evaluations of names that are nested, and whatever is evaluated
ends at the depth at which it began. So all names that one piece of code asks for are asked for at
the same depth, and it comes to the same whether each of them looks for itself how much room there
is, or is told (`Task.run_eq`).

Hence the value of a name satisfies the equation in which every evaluation compares the depth with
the limit before it begins (`Program.valueOf_eq`).
-/

namespace Intensional

/-! ## Names that look at the depth -/

namespace Program

variable {p : Program} {n : String} {k : Context} {s t : Machine}

theorem room_congr (p : Program) (h : s.depth = t.depth) : p.room s = p.room t := by
  rw [room, room, h]

theorem lasting_depth (depth : Nat) : Kept.Lasting fun s => s.depth = depth :=
  ⟨fun hgrows hs => hgrows.depth.trans hs, id⟩

/-- At one depth a name that looks for itself does the same as one that is told. -/
theorem growing_echoes (p : Program) (s : Machine) (n : String) (k : Context) :
    Kept.Echoes (fun t => t.depth = s.depth) Eq (p.growing (p.room s) n k) (p.valueOf n k) := by
  intro t ht
  rw [valueOf, p.room_congr ht]
  exact .refl _

/-- The names that code asks for have the room that there is where the code is evaluated. -/
theorem code_valueOf (p : Program) (c : Code) (k : Context) (s : Machine) :
    c.eval p.vocabulary.operators p.valueOf k s =
      c.eval p.vocabulary.operators (p.demand (p.room s)) k s := by
  have hcode : Kept.Echoes (fun t => t.depth = s.depth) Eq
      (c.interpret p.vocabulary.operators (p.growing (p.room s)) k)
      (c.eval p.vocabulary.operators p.valueOf k) :=
    Kept.code_echoes (lasting_depth s.depth) (p.growing_echoes s) c k
  rw [← hcode.apply_eq rfl, Kept.code_val]
  rfl

theorem group_valueOf (p : Program) (g : Group) (k : Context) (s : Machine) :
    g.value (Code.eval p.vocabulary.operators p.valueOf) k s =
      g.value (Code.eval p.vocabulary.operators (p.demand (p.room s))) k s := by
  have hgroup : Kept.Echoes (fun t => t.depth = s.depth) Eq
      (g.interpret (Code.interpret p.vocabulary.operators (p.growing (p.room s))) k)
      (g.value (Code.eval p.vocabulary.operators p.valueOf) k) :=
    Kept.group_echoes (lasting_depth s.depth) (p.growing_echoes s) g k
  rw [← hgroup.apply_eq rfl, Kept.group_val]
  rfl

/-- What is asked of the equations is asked where they begin to be evaluated. -/
theorem ask_congr {evaluate evaluate' : Group → EvalM Value}
    (h : ∀ g, evaluate g (s.asking n).countMiss = evaluate' g (s.asking n).countMiss) :
    p.ask n k evaluate s = p.ask n k evaluate' s := by
  cases hg : p.group? n with
  | none => rw [ask_undefined hg, ask_undefined hg]
  | some g => rw [ask_defined hg, ask_defined hg, h]

theorem compute_congr {body body' : EvalM Value} (h : body (s.enter n k) = body' (s.enter n k)) :
    p.compute n k body s = p.compute n k body' s := by
  rw [compute, compute, h]

/-- A name is evaluated one deeper than it is asked for, and only within the limit: where the
depth has come to the limit the answer is a fault. -/
theorem valueOf_eq (p : Program) (n : String) (k : Context) (s : Machine) :
    p.valueOf n k s = p.ask n k (fun g t =>
      if p.config.maxDepth ≤ t.depth then
        Action.fault (.tooDeep n p.config.maxDepth) t
      else p.compute n k (g.value (Code.eval p.vocabulary.operators p.valueOf) k) t) s := by
  have hdepth : (s.asking n).countMiss.depth = s.depth := s.asking_depth n
  rw [valueOf]
  cases hroom : p.room s with
  | zero =>
    refine ask_congr fun g => ?_
    rw [if_pos (hdepth ▸ Nat.le_of_sub_eq_zero hroom)]
  | succ room =>
    have hlimit : p.config.maxDepth - s.depth = room + 1 := hroom
    refine ask_congr fun g => ?_
    rw [if_neg (by omega)]
    refine compute_congr ?_
    have hinner : p.room ((s.asking n).countMiss.enter n k) = room := by
      show p.config.maxDepth - ((s.asking n).countMiss.depth + 1) = room
      omega
    rw [group_valueOf, hinner]

end Program

/-! ## Evaluations that look at the depth -/

namespace Task

/-- The evaluation, with the room that the depth leaves. -/
def run (p : Program) : Task → EvalM Value
  | .name n k => p.valueOf n k
  | .code c k => p.eval c k
  | .changed c base delta => p.evalChanged c base delta
  | .timed c base delta t => do
    let held ← p.evalAt c base delta t
    pure held.2

/-- It comes to the same whether the names of an evaluation look for themselves how much room there
is, or are told. -/
theorem run_eq (p : Program) (task : Task) (s : Machine) :
    task.run p s = task.eval p (p.room s) s := by
  cases task with
  | name n k => rfl
  | code c k => exact p.code_valueOf c k s
  | changed c base delta =>
    rw [run, eval, Program.evalChanged, Code.evalChanged_eq, Code.evalChanged_eq]
    exact p.code_valueOf c _ s
  | timed c base delta t =>
    rw [run, eval, Program.evalAt, Code.evalAt_eq, Code.evalAt_eq, Action.bind_apply,
      Action.map_apply, p.code_valueOf, Action.bind_apply, Action.map_apply]

theorem run_grows (p : Program) (task : Task) (s : Machine) : s.Grows (task.run p s).2 := by
  rw [run_eq]
  exact task.grows p (p.room s) s

end Task

/-- What is evaluated obeys a law that names obey, with the room that the depth leaves. -/
theorem Law.Obeyed.run {L : Law} {p : Program} {s : Machine} (h : L.Obeyed p (p.room s))
    (task : Task) : L.holds (p.room s) s (task.record p (p.room s) s).2 (task.run p s).2 := by
  rw [task.run_eq]
  exact h.holds task s

end Intensional
