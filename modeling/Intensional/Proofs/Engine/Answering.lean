import Intensional.Proofs.Engine.Registration
import Intensional.Proofs.Engine.Sessions
import Intensional.Proofs.Evaluation.Answering

/-!
# Engines that always answer

An engine can have been through anything (`Engine.Reached`): edits that have failed and others
that have not, equations that changed bindings and are gone, evaluations at all kinds of contexts
that have left their values behind. When it rests, nothing is pending, and what is remembered is
in nobody's way: either it is the answer, or the way of the context ends before it comes to a
value. So a program without changed bindings answers every question, if as many evaluations may
be nested as there are names (`Engine.plain_program_answers`).
-/

namespace Intensional

open Machine

namespace Engine

/-- What an engine can come to. Evaluations may be of any code, under changes of a context and at
any instant. -/
inductive Reached : Engine → Prop
  | start (config : Config) (ops : OperatorTable) : Reached (start config ops)
  | step {s : Engine} (x : Step) : Reached s → Reached (s.step x)
  | perform {s : Engine} (task : Task) : Reached s → Reached (s.perform task)
  | event {s : Engine} (e : Event) : Reached s → Reached (e.run s).2
  | key {s : Engine} (key : DimKey) : Reached s → Reached (onDims (DimTable.internKey key) s).2
  | unique {s : Engine} : Reached s → Reached (onDims DimTable.fresh s).2
  | types {s : Engine} {α : Type} (m : Action TypeTable α) : Reached s → Reached (onTypes m s).2
  | operators {s : Engine} (f : OperatorTable → OperatorTable) :
    Reached s → Reached (updateOperators f s)
  | resetStats {s : Engine} : Reached s → Reached s.resetStats

theorem Reached.session {s : Engine} (h : s.Reached) (steps : List Step) :
    (s.session steps).Reached := by
  induction steps generalizing s with
  | nil => exact h
  | cons x xs ih => exact ih (h.step x)

/-- An engine that rests and hands out dimensions without limit. -/
structure Roomy (s : Engine) : Prop extends s.Resting where
  unlimited : s.machine.dims.limit = none

variable {s t : Engine}

theorem Change.limit (h : Change s t) : t.machine.dims.limit = s.machine.dims.limit := by
  cases h with
  | learn hdims => exact hdims.limit
  | redefine _ _ _ _ => rfl

namespace Roomy

theorem perform (hs : s.Roomy) (task : Task) : (s.perform task).Roomy := by
  have hgrows := task.run_grows s.program s.machine
  exact ⟨hs.toResting.perform task, hgrows.dims.limit.trans hs.unlimited⟩

theorem prepare (hs : s.Roomy) (x : Step) : (s.prepare x).1.Roomy := by
  refine ⟨(hs.toResting.prepare x).1, ?_⟩
  rcases prepare_cases hs.named x with hchanges | hforget
  · exact hchanges.keeps (I := fun t => t.machine.dims.limit = none)
      (fun hchange ht => hchange.limit.trans ht) hs.unlimited
  · rw [hforget]
    exact hs.unlimited

theorem step (hs : s.Roomy) (x : Step) : (s.step x).Roomy :=
  hs.toResting.step_keeps (hs.prepare x) fun _ _ ht task => ht.perform task

theorem act (hs : s.Roomy) (a : Act) : (a.run s).2.Roomy := by
  cases a with
  | request r =>
    have hrun : (r.run s).2 = s.step (.request r) := by
      cases r <;> exact congrArg Prod.snd (Action.map_apply ..)
    show (r.run s).2.Roomy
    rw [hrun]
    exact hs.step _
  | register r => exact ⟨⟨hs.named, hs.frames, hs.depth, hs.quiet⟩, hs.unlimited⟩
  | clear => exact hs.step .clear

end Roomy

theorem Reached.roomy (h : s.Reached) : s.Roomy := by
  induction h with
  | start config ops => exact ⟨resting_start config ops, rfl⟩
  | step x _ ih => exact ih.step x
  | perform task _ ih => exact ih.perform task
  | @event s e _ ih =>
    show (s.after [e]).Roomy
    exact after_keeps (fun _ a _ ht => ht.act a) ih
  | key key _ ih =>
    exact ⟨⟨ih.named, ih.frames, ih.depth, ih.quiet⟩,
      (DimTable.within_internKey key _).limit.trans ih.unlimited⟩
  | @unique s _ ih =>
    have hlimit : (DimTable.fresh s.machine.dims).2.limit = s.machine.dims.limit := by
      rw [DimTable.fresh]
      split <;> rfl
    exact ⟨⟨ih.named, ih.frames, ih.depth, ih.quiet⟩, hlimit.trans ih.unlimited⟩
  | types m _ ih => exact ⟨⟨ih.named, ih.frames, ih.depth, ih.quiet⟩, ih.unlimited⟩
  | operators f _ ih => exact ⟨⟨ih.named, ih.frames, ih.depth, ih.quiet⟩, ih.unlimited⟩
  | resetStats _ ih => exact ⟨⟨ih.named, ih.frames, ih.depth, ih.quiet⟩, ih.unlimited⟩

/-- Where no equation changes bindings and as many evaluations may be nested as there are names
with equations, every name has a value at every context, whatever the engine has been through. -/
theorem plain_program_answers (hreach : s.Reached) (hplain : ¬ s.program.Rebinds)
    (hnames : s.program.names.length ≤ s.program.config.maxDepth) (name : String) (k : Context) :
    ∃ v, (evaluate name k s).1 = .ok v := by
  have hs := hreach.roomy
  rcases evaluate_cases s name k with ⟨-, heval⟩ | ⟨g, -, heval⟩ <;> rw [heval]
  · exact ⟨_, rfl⟩
  · have hfree : (s.program.free fun _ => false).length ≤ s.program.config.maxDepth := by
      have hlength : s.program.names.length = s.program.groups.keys.length :=
        List.length_mergeSort _
      exact Nat.le_trans (List.length_filter_le ..) (hlength ▸ hnames)
    obtain ⟨v, t, hv, -⟩ := Program.names_answer hplain _ name k _ hfree s.machine
      ⟨hs.unlimited, fun n => hs.quiet n k⟩
    rw [hs.valueOf_eq]
    exact ⟨v, congrArg Prod.fst hv⟩

/-- The dimension `x` is 7. First `h` changes bindings, and `f` and `g` have left values behind
when it becomes another. Then the three names go round in circles: where `x` is 1, `f` applies a
condition on `g`, which is `f`, and `h` reads the dimension that `g` says. -/
def tangle : List Step :=
  [.request (.compile (.dimension "x")),
    .request (.edit (.add "f" ⟨1⟩ ⟨.ofPairs [(7, .int 1)], some (.ident "g"), .ident "h"⟩ 0)),
    .request (.edit (.add "f" ⟨2⟩ (.always (.ident "g")) 1)),
    .request (.edit (.define "g" ⟨3⟩ .always (.ident "f") 2)),
    .request (.edit (.add "h" ⟨4⟩
      (.always (.under (.ident "f") [(.const (.dim 7), .const (.int 1))])) 3)),
    .request (.evaluate "h" .empty), .request (.edit (.delete ⟨4⟩)),
    .request (.edit (.add "h" ⟨5⟩ (.always (.readAt (.ident "g"))) 4))]

/-- Room for the three names is enough, and for two it is not. -/
theorem plain_program_answers_tangle :
    let s := (start ⟨3, true⟩ []).session tangle
    let t := (start ⟨2, true⟩ []).session tangle
    s.program.groups.keys = ["f", "g", "h"] ∧ s.machine.memo.holds "f" = true ∧
      (∃ v, (evaluate "h" (.ofList [(7, .int 2)]) s).1 = .ok v) ∧
      (evaluate "h" (.ofList [(7, .int 2)]) t).1 = .error (.tooDeep "f" 2) := by
  intro s t
  have hreach : s.Reached := .session (.start _ _) tangle
  have hplain : ¬ s.program.Rebinds := Program.not_rebinds_of_all rfl
  have hnames : s.program.names.length ≤ 3 := Nat.le_of_eq (List.length_mergeSort _)
  exact ⟨rfl, rfl, plain_program_answers hreach hplain hnames "h" _, rfl⟩

end Engine

end Intensional
