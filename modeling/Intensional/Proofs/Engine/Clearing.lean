import Intensional.Proofs.Engine.Soundness
import Intensional.Proofs.Evaluation.Comparison

/-!
# Answers before and after forgetting everything

What is remembered is consistent after every run of requests, also after one that has met
cycles. So if an evaluation that starts without any remembered values meets no cycle, its value
is the one that the engine answers with what it remembers.

If it does meet a cycle the values can differ. The name that a cycle leads back to is remembered
with a value that took the cycle into account, and another name of the same cycle that is asked
for afterwards does not meet the cycle any more.
-/

namespace Intensional

open Machine

namespace Engine

variable {s : Engine} {ops : OperatorTable}

theorem Sound.forgetAll (hs : s.Sound) : s.forgetAll.Sound ∧
    s.forgetAll.machine.Grounded s.program := by
  have hempty : s.forgetAll.machine.Grounded s.program := grounded_of_empty fun _ _ => rfl
  exact ⟨⟨hs.operators, hs.named, hs.resting, hs.depth, fun _ _ => rfl, hempty.consistent⟩,
    hempty⟩

/-- What an engine answers is equal to what it answers after forgetting everything, if that
evaluation meets no cycle. -/
theorem forgetting_keeps_answer (maxDepth : Nat) (hops : ops.Congruent) (requests : List Request)
    (hreach : ((start ⟨maxDepth, true⟩ ops).serve requests).2 = s) (name : String) (k : Context)
    {v w : Value} {after : Engine} (hv : (evaluate name k s).1 = .ok v)
    (hw : evaluate name k s.forgetAll = (.ok w, after))
    (hloops : after.machine.stats.loops = s.machine.stats.loops) : (v == w) = true := by
  have hserve := (grounded_start ⟨maxDepth, true⟩ hops).toSound.serve requests
  rw [hreach] at hserve
  have hcaching : s.program.config.caching = true := congrArg Config.caching hserve.config
  obtain ⟨-, hempty⟩ := hserve.sound.forgetAll
  rcases evaluate_cases s name k with ⟨hg, heval⟩ | ⟨g, hg, heval⟩ <;>
    rcases evaluate_cases s.forgetAll name k with ⟨hg', heval'⟩ | ⟨g', hg', heval'⟩
  · rw [heval] at hv
    cases heval'.symm.trans hw
    cases hv
    exact BEq.rfl
  · cases hg.symm.trans hg'
  · cases hg'.symm.trans hg
  · rw [heval] at hv
    rw [heval'] at hw
    obtain ⟨hres, rfl⟩ := Prod.mk.inj hw
    rcases Program.demand_agrees hserve.sound.operators hempty (Prod.ext hres rfl) hloops hcaching
      hserve.sound.consistent hserve.sound.quiet (.refl _) (s.program.room s.machine) rfl with
      ⟨v', hv', hwv, -⟩ | ⟨e, he, -⟩
    · cases hv.symm.trans hv'
      exact BEq.symm hwv
    · cases hv.symm.trans he

/-- The dimension `x` is 7. Where `x` is 1, `g` is false if `f` is true, and otherwise it is
true; `f` is `g`. They have been evaluated where they go round in a circle, and where `g` does
not ask for `f`. -/
def circle : List Request :=
  [.compile (.dimension "x"),
    .edit (.add "g" ⟨1⟩ ⟨.ofPairs [(7, .int 1)], some (.ident "f"), .const (.bool false)⟩ 0),
    .edit (.add "g" ⟨2⟩ (.always (.const (.bool true))) 1),
    .edit (.define "f" ⟨3⟩ .always (.ident "g") 2),
    .evaluate "f" (.ofList [(7, .int 1)]), .evaluate "g" (.ofList [(7, .int 2)])]

/-- Where `g` does not ask for `f`, its value is remembered, and the same when it is evaluated
again. -/
theorem forgetting_keeps_answer_circle :
    let s := ((start ⟨10, true⟩ []).serve circle).2
    s.machine.stats.loops = 1 ∧ (evaluate "g" (.ofList [(7, .int 2)]) s).1 = .ok (.bool true) ∧
      ((.bool true : Value) == .bool true) = true :=
  ⟨rfl, rfl, forgetting_keeps_answer 10 OperatorTable.congruent_empty circle rfl "g"
    (.ofList [(7, .int 2)]) rfl (Prod.ext rfl rfl) rfl⟩

/-- Where `g` asks for `f`, its value is another one once the value of `f` is forgotten. -/
theorem forgetting_changes_answer :
    ¬ ∀ (maxDepth : Nat) (ops : OperatorTable), ops.Congruent → ∀ (requests : List Request)
      (name : String) (k : Context) (v w : Value),
        (evaluate name k ((start ⟨maxDepth, true⟩ ops).serve requests).2).1 = .ok v →
        (evaluate name k ((start ⟨maxDepth, true⟩ ops).serve requests).2.forgetAll).1 = .ok w →
          (v == w) = true := by
  intro h
  have hequal := h 10 [] OperatorTable.congruent_empty circle "g" (.ofList [(7, .int 1)])
    (.bool false) (.bool true) rfl rfl
  cases hequal

end Engine

end Intensional
