import Intensional.Proofs.Engine.Soundness
import Intensional.Proofs.Evaluation.Rebinding

/-!
# Leaves that leave a dimension unkeyed

A value cannot be stored where the way of its context through the trie ends in a leaf before
all dimensions are keyed that the value depends on. Such a leaf can only have been stored while
the name was being evaluated, by an evaluation of the same name at another context.

This takes two things. Some equation has to change bindings, since otherwise there is no other
context. And what was stored at the other context must not hold at the outer one, where it is
found: a cycle has been met, or an operator tells equal operands apart. Otherwise evaluating the
name at the outer context would have led to itself.

The fault does come up. Where a cycle is met under changed bindings, the value depends on the
bindings that were overridden, because they decide whether the context is the pending one, and
this is not noted.
-/

namespace Intensional

namespace Engine

variable {s : Engine} {ops : OperatorTable}

/-- As long as no equation changes bindings, or the operators respect equality and no cycle has
been met, no evaluation fails on an unkeyed leaf. -/
theorem no_unkeyed_leaf (config : Config) (requests : List Request)
    (hreach : ((start config ops).serve requests).2 = s) (name : String) (k : Context)
    (hsafe : ¬ s.program.Rebinds ∨
      ops.Congruent ∧ (evaluate name k s).2.machine.stats.loops = 0)
    (n : String) (dims : IndexSet) : (evaluate name k s).1 ≠ .error (.unkeyedLeaf n dims) := by
  rcases hsafe with hplain | ⟨hops, hloops⟩
  · rcases evaluate_cases s name k with ⟨-, heval⟩ | ⟨g, -, heval⟩ <;> rw [heval]
    · intro h
      cases h
    · exact (Program.names_spare hplain _ name k).keyed s.machine n dims
  · have hstart := grounded_start config hops
    have hadvances := hstart.toSound.serve requests
    have hgrounded := hstart.serve requests
    rw [hreach] at hadvances hgrounded
    have hless := hadvances.loops
    have hless' := (hadvances.sound.evaluate name k).loops
    have hzero : (start config ops).machine.stats.loops = 0 := rfl
    exact ((hgrounded (by omega)).evaluate name k (by omega)).2 n dims

/-- The factorial changes bindings, and meets no cycle. -/
theorem no_unkeyed_leaf_factorial :
    let s := ((start ⟨10, true⟩ Builtin.integers).serve factorial).2
    s.program.Rebinds ∧ (evaluate "factorial" (.ofList [(7, .int 4)]) s).1 = .ok (.int 48) ∧
      (evaluate "factorial" (.ofList [(7, .int 4)]) s).1 ≠
        .error (.unkeyedLeaf "factorial" (.ofList [7])) :=
  ⟨⟨"factorial", _, rfl, rfl⟩, rfl,
    no_unkeyed_leaf ⟨10, true⟩ factorial rfl "factorial" (.ofList [(7, .int 4)])
      (.inr ⟨Builtin.integers_congruent, rfl⟩) "factorial" (.ofList [7])⟩

/-- The dimensions `z`, `x` and `y` are 7, 8 and 9. Where `z` is 0, the name asks for itself with
`x` overridden by 1, and reads `y` if the answer is true. -/
def overridden : List Request :=
  let itself : Code := .under (.ident "f") [(.const (.dim 8), .const (.int 1))]
  [.compile (.dimension "z"), .compile (.dimension "x"), .compile (.dimension "y"),
    .edit (.add "f" ⟨1⟩ ⟨.ofPairs [(7, .int 0)], some itself, .read 9⟩ 0),
    .edit (.add "f" ⟨2⟩ (.always (.const (.bool true))) 0)]

/-- At `x` 1 the name meets itself, and is true. This depends on `x`, but only `z` is noted. So
there is a leaf for all `x`, in the way of the value at `x` 2, which depends on `y` too. -/
theorem unkeyed_leaf_of_override :
    (evaluate "f" (.ofList [(8, .int 2), (7, .int 0)])
      ((start ⟨10, true⟩ []).serve overridden).2).1 = .error (.unkeyedLeaf "f" (.ofList [9])) := rfl

end Engine

end Intensional
