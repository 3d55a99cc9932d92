import Intensional.Proofs.Engine.Requests
import Intensional.Proofs.Evaluation.Grounding
import Intensional.Proofs.Operator.Congruence

/-!
# What holds between requests

Between requests no evaluation is pending and the depth is zero, and what is remembered is
consistent with the equations that there are now (`Engine.Sound`). An edit keeps the memo
consistent since it forgets every name that the edited one leads to: what is left leads back to
other names only, and their equations are the same as before.

As long as no cycle has been met, every remembered name means something as well
(`Engine.Grounded`), and no evaluation fails on an unkeyed leaf.
-/

namespace Intensional

open Machine

/-! ## Forgetting -/

section Forgetting

variable {p q : Program} {s : Machine} {e n : String} {r : Reference}

/-- What describes the changed equations for a name that is not forgotten describes the
equations from before. -/
theorem Reference.Describes.of_forget (hvocabulary : q.vocabulary = p.vocabulary)
    (hgroups : ∀ m, m ≠ e → q.group? m = p.group? m) (hn : n ∉ s.allReaders e)
    (h : r.Describes q (s.forget e) (some n)) : r.Describes p s (some n) := by
  refine ⟨h.operators.trans (congrArg _ hvocabulary), fun m hm => ?_⟩
  have hmn : s.Leads m n := hm n rfl
  have hne : m ≠ e := by
    rintro rfl
    exact hn (allReaders_closed (s.self_mem_allReaders m) hmn)
  rw [← hgroups m hne]
  refine h.groups m fun q hq => ?_
  cases hq
  exact hmn.forget hn

theorem Machine.known?_of_forget {k : Context} {o : Value × List Dim}
    (h : (s.forget e).memo.known? n k = some o) :
    n ∉ s.allReaders e ∧ s.memo.known? n k = some o := by
  rw [known?_forget] at h
  split at h
  · cases h
  · exact ⟨‹_›, h⟩

theorem Program.consistent_forget (hs : p.consistent.holds s)
    (hconfig : q.config = p.config) (hvocabulary : q.vocabulary = p.vocabulary)
    (hgroups : ∀ m, m ≠ e → q.group? m = p.group? m) : q.consistent.holds (s.forget e) := by
  intro hcaching n k v path hv r hr hnum h w t hw
  obtain ⟨hn, hv⟩ := known?_of_forget hv
  exact hs (hconfig ▸ hcaching) n k v path hv r (hr.of_forget hvocabulary hgroups hn) hnum h w t hw

theorem Machine.Grounded.forget (hs : s.Grounded p) (hconfig : q.config = p.config)
    (hvocabulary : q.vocabulary = p.vocabulary)
    (hgroups : ∀ m, m ≠ e → q.group? m = p.group? m) : (s.forget e).Grounded q := by
  refine ⟨Program.consistent_forget hs.consistent hconfig hvocabulary hgroups, ?_⟩
  intro hcaching n k hsome r hr hnum
  obtain ⟨o, ho⟩ := Option.isSome_iff_exists.mp hsome
  obtain ⟨hn, ho⟩ := known?_of_forget ho
  exact hs.defined (hconfig ▸ hcaching) n k (Option.isSome_iff_exists.mpr ⟨o, ho⟩) r
    (hr.of_forget hvocabulary hgroups hn) hnum

/-- A memo that remembers nothing agrees with every program. -/
theorem Machine.grounded_of_empty (h : ∀ n k, s.memo.known? n k = none) : s.Grounded p := by
  constructor
  · intro _ n k v path hv
    rw [h] at hv
    cases hv
  · intro _ n k hsome
    rw [h] at hsome
    cases hsome

end Forgetting

namespace Engine

variable {s t u : Engine} {ops : OperatorTable}

/-! ## Between requests -/

/-- What holds of an engine between requests. -/
structure Sound (s : Engine) : Prop where
  operators : Likeness.equality.Keeps s.program.vocabulary.operators
  named : s.program.Named
  resting : s.machine.frames = []
  depth : s.machine.depth = 0
  quiet (n : String) (k : Context) : s.machine.memo.isPending n k = false
  consistent : s.program.consistent.holds s.machine

/-- No cycle has been met so far. -/
structure Grounded (s : Engine) : Prop extends s.Sound where
  grounded : s.machine.Grounded s.program

theorem grounded_start (config : Config) (hops : ops.Congruent) : (start config ops).Grounded := by
  have hempty : (start config ops).machine.Grounded (start config ops).program :=
    grounded_of_empty fun _ _ => rfl
  exact ⟨⟨Likeness.keeps_equality hops, fun _ _ h => (nomatch h), rfl, rfl, fun _ _ => rfl,
    hempty.consistent⟩, hempty⟩

/-- What requests do to a sound engine. -/
structure Advances (s t : Engine) : Prop where
  sound : t.Sound
  config : t.program.config = s.program.config
  loops : s.machine.stats.loops ≤ t.machine.stats.loops

theorem Advances.refl (hs : s.Sound) : s.Advances s := ⟨hs, rfl, Nat.le_refl _⟩

theorem Advances.trans (h : s.Advances t) (h' : t.Advances u) : s.Advances u :=
  ⟨h'.sound, h'.config.trans h.config, Nat.le_trans h.loops h'.loops⟩

/-! ## Edits -/

theorem Change.sound (h : Change s t) (hs : s.Sound) : t.Sound := by
  cases h with
  | learn hdims =>
    exact ⟨hs.operators, hs.named, hs.resting, hs.depth, hs.quiet,
      s.program.consistent.steady hs.consistent rfl hdims fun _ _ => id⟩
  | @redefine p name hconfig hvocabulary hnamed hgroups =>
    refine ⟨?_, hnamed, hs.resting, hs.depth,
      fun n k => isPending_forget.trans (hs.quiet n k), ?_⟩
    · show Likeness.equality.Keeps p.vocabulary.operators
      rw [hvocabulary]
      exact hs.operators
    · exact Program.consistent_forget hs.consistent hconfig hvocabulary hgroups

theorem Change.grounded (h : Change s t) (hs : s.Grounded) : t.Grounded := by
  refine ⟨h.sound hs.toSound, ?_⟩
  cases h with
  | learn hdims => exact hs.grounded.steady rfl hdims fun _ _ => id
  | redefine hconfig hvocabulary _ hgroups =>
    exact hs.grounded.forget hconfig hvocabulary hgroups

theorem Changes.advances (h : Changes s t) (hs : s.Sound) : s.Advances t :=
  h.keeps (I := s.Advances) (fun hchange hst => ⟨hchange.sound hst.sound,
    hchange.config.trans hst.config, hchange.loops ▸ hst.loops⟩) (.refl hs)

/-! ## Evaluations -/

/-- Evaluating a name is asking for it, and does nothing where it has no equations. -/
theorem evaluate_cases (s : Engine) (name : String) (k : Context) :
    (s.program.group? name = none ∧ evaluate name k s = (.ok (.special .undef), s)) ∨
    ∃ g, s.program.group? name = some g ∧ evaluate name k s =
      ((s.program.valueOf name k s.machine).1,
        { s with machine := (s.program.valueOf name k s.machine).2 }) := by
  unfold evaluate run
  dsimp only
  cases hg : s.program.group? name with
  | none => exact .inl ⟨rfl, rfl⟩
  | some g => exact .inr ⟨g, rfl, rfl⟩

/-- Where a name has equations in both of two engines or in neither, it is evaluated in both or in
neither. -/
theorem evaluate_both {s t : Engine} {name : String}
    (hg : t.program.group? name = s.program.group? name) (k l : Context) :
    (evaluate name k s = (.ok (.special .undef), s) ∧
      evaluate name l t = (.ok (.special .undef), t)) ∨
    (evaluate name k s = ((s.program.valueOf name k s.machine).1,
        { s with machine := (s.program.valueOf name k s.machine).2 }) ∧
      evaluate name l t = ((t.program.valueOf name l t.machine).1,
        { t with machine := (t.program.valueOf name l t.machine).2 })) := by
  rcases evaluate_cases s name k with ⟨hs, heval⟩ | ⟨g, hs, heval⟩ <;>
    rcases evaluate_cases t name l with ⟨ht, heval'⟩ | ⟨g', ht, heval'⟩ <;> rw [hg] at ht
  · exact .inl ⟨heval, heval'⟩
  · cases hs.symm.trans ht
  · cases hs.symm.trans ht
  · exact .inr ⟨heval, heval'⟩

theorem Sound.evaluate (hs : s.Sound) (name : String) (k : Context) :
    s.Advances (evaluate name k s).2 := by
  rcases evaluate_cases s name k with ⟨-, heval⟩ | ⟨g, -, heval⟩ <;> rw [heval]
  · exact .refl hs
  · obtain ⟨hconsistent, -⟩ := Program.names_follow hs.operators (fun _ => rfl)
      (s.program.room s.machine) name k s.machine hs.consistent
    have hgrows := (s.machine.grows_asking name).trans
      (s.program.names_grow (s.program.room s.machine) name k s.machine)
    refine ⟨⟨hs.operators, hs.named, ?_, hgrows.depth.trans hs.depth,
      fun n l => (hgrows.pending n l).trans (hs.quiet n l), hconsistent⟩, rfl, hgrows.loops⟩
    have hframes := hgrows.frames
    rw [hs.resting] at hframes
    exact List.forall₂_nil_left_iff.mp hframes

theorem Grounded.evaluate (hs : s.Grounded) (name : String) (k : Context)
    (hloops : (evaluate name k s).2.machine.stats.loops = s.machine.stats.loops) :
    (evaluate name k s).2.Grounded ∧
      ∀ n dims, (evaluate name k s).1 ≠ .error (.unkeyedLeaf n dims) := by
  have hsound := (hs.toSound.evaluate name k).sound
  rcases evaluate_cases s name k with ⟨-, heval⟩ | ⟨g, -, heval⟩ <;>
    rw [heval] at hsound hloops ⊢
  · exact ⟨hs, fun n dims h => (nomatch h)⟩
  · obtain ⟨hground, hkey, -⟩ := Program.names_ground hs.operators (fun _ => rfl)
      (s.program.room s.machine) name k s.machine hs.grounded hloops
    exact ⟨⟨hsound, hground⟩, hkey⟩

/-! ## Runs of requests -/

theorem handle_cases (hs : s.program.Named) (r : Request) :
    (∃ name k, r = .evaluate name k) ∨ Changes s (s.handle r).2 := by
  cases r with
  | edit e => exact .inr ((edits_run e).changes s hs)
  | compile e => exact .inr ((Edits.compile e).changes s hs)
  | evaluate name k => exact .inl ⟨name, k, rfl⟩

theorem Sound.handle (hs : s.Sound) (r : Request) : s.Advances (s.handle r).2 := by
  rcases handle_cases hs.named r with ⟨name, k, rfl⟩ | hchanges
  · exact hs.evaluate name k
  · exact hchanges.advances hs

theorem Sound.serve (hs : s.Sound) (requests : List Request) :
    s.Advances (s.serve requests).2 := by
  induction requests generalizing s with
  | nil => exact .refl hs
  | cons r rs ih => exact (hs.handle r).trans (ih (hs.handle r).sound)

theorem Grounded.handle (hs : s.Grounded) (r : Request)
    (hloops : (s.handle r).2.machine.stats.loops = s.machine.stats.loops) :
    (s.handle r).2.Grounded := by
  rcases handle_cases hs.named r with ⟨name, k, rfl⟩ | hchanges
  · exact (hs.evaluate name k hloops).1
  · exact hchanges.keeps Change.grounded hs

theorem Grounded.serve (hs : s.Grounded) (requests : List Request)
    (hloops : (s.serve requests).2.machine.stats.loops = s.machine.stats.loops) :
    (s.serve requests).2.Grounded := by
  induction requests generalizing s with
  | nil => exact hs
  | cons r rs ih =>
    have hless := (hs.toSound.handle r).loops
    have hless' := ((hs.toSound.handle r).sound.serve rs).loops
    have hloops : ((s.handle r).2.serve rs).2.machine.stats.loops = s.machine.stats.loops := hloops
    exact ih (hs.handle r (by omega)) (by omega)

end Engine

end Intensional
