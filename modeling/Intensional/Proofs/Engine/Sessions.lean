import Intensional.Proofs.Engine.Soundness
import Intensional.Proofs.Evaluation.Bookkeeping

/-!
# Sessions

A session is what an engine goes through: requests, evaluations of expressions, and dropping all
that is remembered. A step of a session first prepares, which may change the engine in many ways,
and then it may evaluate something (`Engine.step_eq`); the evaluation is one of those whose calls
are recorded.

Between the steps of a session the engine rests: it has no frames, its depth is zero, and nothing
is pending (`Engine.Resting`). So every evaluation begins in an orderly machine.
-/

namespace Intensional

open Machine

inductive Step where
  | request (r : Request)
  /-- An expression is compiled and evaluated. -/
  | expression (e : Expr) (k : Context)
  /-- All that is remembered is dropped. -/
  | clear

namespace Step

/-- The step edits nothing and drops nothing. -/
def asks : Step → Bool
  | .request (.edit _) => false
  | .request _ => true
  | .expression _ _ => true
  | .clear => false

end Step

namespace Engine

variable {s t : Engine}

def step (s : Engine) : Step → Engine
  | .request r => (s.handle r).2
  | .expression e k => (evaluateExpr e k s).2
  | .clear => s.forgetAll

def session (s : Engine) : List Step → Engine
  | [] => s
  | x :: xs => (s.step x).session xs

/-! ## Preparing and performing -/

/-- What a step does before it evaluates, and what it evaluates then. -/
def prepare (s : Engine) : Step → Engine × Option Task
  | .request (.edit e) => ((e.run s).2, none)
  | .request (.compile e) => ((compile e s).2, none)
  | .request (.evaluate name k) => (s, (s.program.group? name).map fun _ => .name name k)
  | .expression e k => ((compile e s).2, (compile e s).1.toOption.map fun code => .code code k)
  | .clear => (s.forgetAll, none)

def perform (s : Engine) (task : Task) : Engine :=
  { s with machine := (task.run s.program s.machine).2 }

theorem step_eq (s : Engine) (x : Step) :
    s.step x = (s.prepare x).2.elim (s.prepare x).1 (s.prepare x).1.perform := by
  match x with
  | .request (.edit _) => rfl
  | .request (.compile _) => rfl
  | .request (.evaluate name k) =>
    show (evaluate name k s).2 = _
    rcases evaluate_cases s name k with ⟨hg, heval⟩ | ⟨g, hg, heval⟩ <;>
      rw [heval, prepare, hg] <;> rfl
  | .expression e k =>
    have hstep : s.step (.expression e k) = { s with machine :=
      ((EvalM.compile e >>= fun code => s.program.eval code k) s.machine).2 } := rfl
    have hcompiled : compile e s = ((EvalM.compile e s.machine).1,
      { s with machine := (EvalM.compile e s.machine).2 }) := rfl
    rcases hcompile : EvalM.compile e s.machine with ⟨f | code, m⟩
    · rw [hstep, Action.bind_of_error hcompile, prepare, hcompiled, hcompile]
      rfl
    · rw [hstep, Action.bind_of_ok hcompile, prepare, hcompiled, hcompile]
      rfl
  | .clear => rfl

/-- A step that only asks prepares by learning dimensions. -/
theorem prepare_asks {x : Step} (hx : x.asks = true) (s : Engine) :
    ∃ T, s.machine.dims.Within T ∧
      (s.prepare x).1 = { s with machine := { s.machine with dims := T } } := by
  match x with
  | .request (.edit _) => cases hx
  | .request (.compile e) => exact ⟨_, (DimTable.Steady.compile e).within _, rfl⟩
  | .request (.evaluate _ _) => exact ⟨s.machine.dims, .refl _, rfl⟩
  | .expression e _ => exact ⟨_, (DimTable.Steady.compile e).within _, rfl⟩
  | .clear => cases hx

/-- What learning dimensions and performing keeps is kept by all that only asks. -/
theorem asking_keeps {I : Engine → Prop} {steps : List Step}
    (hsteps : ∀ x ∈ steps, x.asks = true)
    (hlearn : ∀ {t : Engine} {T : DimTable}, t.machine.dims.Within T → I t →
      I { t with machine := { t.machine with dims := T } })
    (hperform : ∀ {t : Engine} (task : Task), I t → I (t.perform task)) (hs : I s) :
    I (s.session steps) := by
  induction steps generalizing s with
  | nil => exact hs
  | cons x xs ih =>
    obtain ⟨hx, hxs⟩ := List.forall_mem_cons.mp hsteps
    refine ih hxs ?_
    obtain ⟨T, hT, hprepare⟩ := prepare_asks hx s
    rw [step_eq, hprepare]
    cases (s.prepare x).2 with
    | none => exact hlearn hT hs
    | some task => exact hperform task (hlearn hT hs)

/-- A step prepares by edits, or by dropping everything. -/
theorem prepare_cases (hs : s.program.Named) (x : Step) :
    Changes s (s.prepare x).1 ∨ (s.prepare x).1 = s.forgetAll := by
  match x with
  | .request (.edit e) => exact .inl ((edits_run e).changes s hs)
  | .request (.compile e) => exact .inl ((Edits.compile e).changes s hs)
  | .request (.evaluate _ _) => exact .inl .refl
  | .expression e _ => exact .inl ((Edits.compile e).changes s hs)
  | .clear => exact .inr rfl

/-! ## Resting -/

/-- An engine between the steps of a session. -/
structure Resting (s : Engine) : Prop where
  named : s.program.Named
  frames : s.machine.frames = []
  depth : s.machine.depth = 0
  quiet (n : String) (k : Context) : s.machine.memo.isPending n k = false

theorem resting_start (config : Config) (ops : OperatorTable) : (start config ops).Resting :=
  ⟨fun _ _ h => (nomatch h), rfl, rfl, fun _ _ => rfl⟩

theorem Change.resting (h : Change s t) (hs : s.Resting) : t.Resting := by
  cases h with
  | learn _ => exact ⟨hs.named, hs.frames, hs.depth, hs.quiet⟩
  | redefine _ _ hnamed _ =>
    exact ⟨hnamed, hs.frames, hs.depth, fun n k => isPending_forget.trans (hs.quiet n k)⟩

namespace Resting

theorem orderly (hs : s.Resting) : s.machine.Orderly s.program s.program.config.maxDepth :=
  .of_resting hs.depth hs.frames hs.quiet

/-- An engine that rests evaluates a name with all the room that there is. -/
theorem valueOf_eq (hs : s.Resting) (name : String) (k : Context) :
    s.program.valueOf name k s.machine =
      s.program.demand s.program.config.maxDepth name k s.machine := by
  rw [Program.valueOf, hs.orderly.room_eq]

theorem prepare (hs : s.Resting) (x : Step) : (s.prepare x).1.Resting ∧
    (s.prepare x).1.program.config = s.program.config := by
  rcases prepare_cases hs.named x with hchanges | hforget
  · exact ⟨hchanges.keeps Change.resting hs,
      hchanges.keeps (I := fun t => t.program.config = s.program.config)
        (fun hchange hst => hchange.config.trans hst) rfl⟩
  · rw [hforget]
    exact ⟨⟨hs.named, hs.frames, hs.depth, fun _ _ => rfl⟩, rfl⟩

theorem perform (hs : s.Resting) (task : Task) : (s.perform task).Resting := by
  have hgrows := task.run_grows s.program s.machine
  have hframes := hgrows.frames
  rw [hs.frames] at hframes
  exact ⟨hs.named, List.forall₂_nil_left_iff.mp hframes, hgrows.depth.trans hs.depth,
    fun n k => (hgrows.pending n k).trans (hs.quiet n k)⟩

/-- What holds of resting engines and is kept by preparing and by performing is kept by a step. -/
theorem step_keeps {I : Engine → Prop} (hs : s.Resting) {x : Step} (hprepare : I (s.prepare x).1)
    (hperform : ∀ {t : Engine}, t.Resting → t.program.config = s.program.config → I t →
      ∀ task, I (t.perform task)) : I (s.step x) := by
  obtain ⟨hrest, hconfig⟩ := hs.prepare x
  rw [step_eq]
  cases (s.prepare x).2 with
  | none => exact hprepare
  | some task => exact hperform hrest hconfig hprepare task

theorem step (hs : s.Resting) (x : Step) :
    (s.step x).Resting ∧ (s.step x).program.config = s.program.config :=
  hs.step_keeps (I := fun t => t.Resting ∧ t.program.config = s.program.config) (hs.prepare x)
    fun hrest _ ht task => ⟨hrest.perform task, ht.2⟩

theorem session (hs : s.Resting) (steps : List Step) :
    (s.session steps).Resting ∧ (s.session steps).program.config = s.program.config := by
  induction steps generalizing s with
  | nil => exact ⟨hs, rfl⟩
  | cons x xs ih =>
    obtain ⟨hrest, hconfig⟩ := hs.step x
    obtain ⟨hrest', hconfig'⟩ := ih hrest
    exact ⟨hrest', hconfig'.trans hconfig⟩

end Resting

end Engine

end Intensional
