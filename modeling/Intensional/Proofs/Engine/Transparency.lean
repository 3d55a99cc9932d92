import Intensional.Proofs.Engine.Soundness
import Intensional.Proofs.Evaluation.Comparison

/-!
# Caching goes unnoticed where there are no cycles

Two engines that differ in caching only answer the same requests. If the one without caching
has a value for everything that it is asked for, and meets no cycle, then the one with caching
has a value for it too, and an equal one.

The engines are compared request by request. Between requests they have the same equations, and
tables that hand out the same dimensions (`Engine.Abreast`): an evaluation that is cut short by
a remembered value interns nothing, but what the other one interns was interned already when the
value was stored.
-/

namespace Intensional

/-- An answer that is as good as another one: an equal value for a value, and else the same. -/
inductive Reply.Matches : Reply → Reply → Prop
  | edited (r : Except Fault Bool) : Matches (.edited r) (.edited r)
  | compiled (r : Except Fault Code) : Matches (.compiled r) (.compiled r)
  | value {v w : Value} : (v == w) = true → Matches (.value (.ok v)) (.value (.ok w))

namespace Engine

variable {s t : Engine} {ops : OperatorTable}

/-- The first engine, without caching, and the second one, with caching, stand at the same
point. -/
structure Abreast (s t : Engine) : Prop where
  twin : s.Twin t
  plain : s.Sound
  cached : t.Sound
  config : s.program.config = ⟨t.program.config.maxDepth, false⟩
  caching : t.program.config.caching = true

theorem abreast_start (maxDepth : Nat) (hops : ops.Congruent) :
    (start ⟨maxDepth, false⟩ ops).Abreast (start ⟨maxDepth, true⟩ ops) :=
  ⟨⟨rfl, .refl _⟩, (grounded_start _ hops).toSound, (grounded_start _ hops).toSound, rfl, rfl⟩

theorem Abreast.edits {α : Type} {a : Action Engine α} (h : s.Abreast t) (ha : Edits a) :
    (a s).1 = (a t).1 ∧ (a s).2.Abreast (a t).2 := by
  obtain ⟨hres, htwin⟩ := ha.twin h.twin
  have hs := (ha.changes s h.plain.named).advances h.plain
  have ht := (ha.changes t h.cached.named).advances h.cached
  refine ⟨hres, htwin, hs.sound, ht.sound, ?_, ?_⟩
  · rw [hs.config, ht.config]
    exact h.config
  · rw [ht.config]
    exact h.caching

/-- An evaluation without a cycle is answered by an equal value, and leaves the engines abreast. -/
theorem Abreast.evaluate (h : s.Abreast t) (name : String) (k : Context) {v : Value}
    (hv : (evaluate name k s).1 = .ok v)
    (hloops : (evaluate name k s).2.machine.stats.loops = s.machine.stats.loops) :
    (∃ w, (evaluate name k t).1 = .ok w ∧ (v == w) = true) ∧
      (evaluate name k s).2.Abreast (evaluate name k t).2 := by
  have hs := (h.plain.evaluate name k).sound
  have ht := (h.cached.evaluate name k).sound
  have hgroup : t.program.group? name = s.program.group? name := by
    rw [h.twin.program]
    rfl
  rcases evaluate_both hgroup k k with ⟨heval, heval'⟩ | ⟨heval, heval'⟩
  · rw [heval] at hv ⊢
    rw [heval']
    cases hv
    exact ⟨⟨_, rfl, BEq.rfl⟩, h⟩
  · rw [heval] at hv hloops hs ⊢
    rw [heval'] at ht ⊢
    have hoff : s.program.config.caching = false := by rw [h.config]
    have hroom : s.program.room s.machine = t.program.room t.machine := by
      rw [Program.room, Program.room, h.plain.depth, h.cached.depth, h.config]
    have hground : s.machine.Grounded s.program := Program.grounded_of_uncached hoff _
    have hconsistent := h.cached.consistent
    rw [h.twin.program] at hconsistent
    rcases Program.demand_agrees h.plain.operators hground (Prod.ext hv rfl) hloops h.caching
      hconsistent h.cached.quiet h.twin.dims (t.program.room t.machine) rfl with
      ⟨w, hw, hvw, hdims⟩ | ⟨_, _, hless⟩
    · rw [← h.twin.program] at hw hdims
      exact ⟨⟨w, hw, hvw⟩, ⟨h.twin.program, hdims⟩, hs, ht, h.config, h.caching⟩
    · exact absurd (hless hoff) (by omega)

theorem Abreast.handle (h : s.Abreast t) (r : Request)
    (hok : ∀ e, (s.handle r).1 ≠ .value (.error e))
    (hloops : (s.handle r).2.machine.stats.loops = s.machine.stats.loops) :
    (s.handle r).1.Matches (t.handle r).1 ∧ (s.handle r).2.Abreast (t.handle r).2 := by
  cases r with
  | edit e =>
    obtain ⟨hres, hafter⟩ := h.edits (edits_run e)
    refine ⟨?_, hafter⟩
    show Reply.Matches (.edited (e.run s).1) (.edited (e.run t).1)
    rw [hres]
    exact .edited _
  | compile e =>
    obtain ⟨hres, hafter⟩ := h.edits (Edits.compile e)
    refine ⟨?_, hafter⟩
    show Reply.Matches (.compiled (compile e s).1) (.compiled (compile e t).1)
    rw [hres]
    exact .compiled _
  | evaluate name k =>
    cases hv : (Engine.evaluate name k s).1 with
    | error e => exact absurd (congrArg Reply.value hv) (hok e)
    | ok v =>
      obtain ⟨⟨w, hw, hvw⟩, hafter⟩ := h.evaluate name k hv hloops
      refine ⟨?_, hafter⟩
      show Reply.Matches (.value (Engine.evaluate name k s).1) (.value (Engine.evaluate name k t).1)
      rw [hv, hw]
      exact .value hvw

theorem Abreast.serve (h : s.Abreast t) (requests : List Request)
    (hok : ∀ e, .value (.error e) ∉ (s.serve requests).1)
    (hloops : (s.serve requests).2.machine.stats.loops = s.machine.stats.loops) :
    List.Forall₂ Reply.Matches (s.serve requests).1 (t.serve requests).1 := by
  induction requests generalizing s t with
  | nil => exact .nil
  | cons r rs ih =>
    have hless := (h.plain.handle r).loops
    have hless' := ((h.plain.handle r).sound.serve rs).loops
    have hloops : ((s.handle r).2.serve rs).2.machine.stats.loops = s.machine.stats.loops := hloops
    obtain ⟨hmatches, hafter⟩ := h.handle r
      (fun e he => hok e (he ▸ List.mem_cons_self ..)) (by omega)
    exact .cons hmatches (ih hafter (fun e he => hok e (List.mem_cons_of_mem _ he)) (by omega))

/-- If an engine without caching answers every evaluation with a value and meets no cycle, an
engine with caching answers every evaluation with an equal value. -/
theorem caching_is_transparent (maxDepth : Nat) (hops : ops.Congruent) (requests : List Request)
    {replies : List Reply} (hrun : (start ⟨maxDepth, false⟩ ops).serve requests = (replies, s))
    (hok : ∀ e, .value (.error e) ∉ replies) (hloops : s.machine.stats.loops = 0) :
    List.Forall₂ Reply.Matches replies ((start ⟨maxDepth, true⟩ ops).serve requests).1 := by
  have hserve := (abreast_start maxDepth hops).serve requests
  rw [hrun] at hserve
  exact hserve hok hloops

/-- The factorials are remembered, and forgotten when their equation is replaced. -/
theorem caching_is_transparent_factorial :
    List.Forall₂ Reply.Matches
      [.edited (.ok true), .edited (.ok true), .value (.ok (.int 6)), .edited (.ok true),
        .value (.ok (.int 12))]
      ((start ⟨10, true⟩ Builtin.integers).serve factorial).1 :=
  caching_is_transparent 10 Builtin.integers_congruent factorial (Prod.ext rfl rfl)
    (fun e h => by simp at h) rfl

end Engine

end Intensional
