import Intensional.Proofs.Evaluation.Grounding

/-!
# Two evaluations of a name

An evaluation without a cycle fixes the answer of every evaluation with caching that starts
while nothing is pending: whatever is remembered there, it answers an equal value, or it runs out
of room.
-/

namespace Intensional

open Machine DimTable

namespace Program

variable {p : Program} {room : Nat} {n : String} {k : Context} {s s' : Machine} {v : Value}

/-- What a name means according to an evaluation without a cycle. -/
theorem demand_means (hops : Likeness.equality.Keeps p.vocabulary.operators) (hs : s.Grounded p)
    (hrun : p.demand room n k s = (.ok v, s')) (hloops : s'.stats.loops = s.stats.loops) :
    ∃ h b t, (p.reference s'.dims).value h n k = some (b, t) ∧ (v == b) = true ∧
      Tracks .equality s.dims t.keys s'.dims ∧ (p.config.caching = false → h ≤ room) := by
  obtain ⟨-, hfollow⟩ := names_follow hops (fun _ => rfl) room n k s hs.consistent
  have hground := names_ground hops (fun _ => rfl) room n k s hs
  rw [hrun] at hfollow hground
  have hdesc := p.reference_describes s'.dims s' (some n)
  have hnum := s'.dims.numberedBy_number
  obtain ⟨-, -, hmeans⟩ := hground hloops
  obtain ⟨h, hroom, hsome⟩ := hmeans v rfl (p.reference s'.dims) hdesc hnum
  obtain ⟨⟨b, t⟩, hb⟩ := Option.isSome_iff_exists.mp hsome
  let i : Vantage := ⟨p.reference s'.dims, h, fun _ => True, k, k, none⟩
  have haccord := hfollow i rfl (.refl _ k) hdesc b t hb (.everywhere (fun _ => trivial) hnum)
  cases haccord with
  | looped hless => omega
  | ok _ hvb _ htracks _ => exact ⟨h, b, t, hb, hvb, htracks, hroom⟩

section

variable (hops : Likeness.equality.Keeps p.vocabulary.operators)
  (hs : s.Grounded p) (hrun : p.demand room n k s = (.ok v, s'))
  (hloops : s'.stats.loops = s.stats.loops) {config : Config} (hcaching : config.caching = true)
  {z : Machine} (hz : ({ p with config := config } : Program).consistent.holds z)
  (hquiet : ∀ m l, z.memo.isPending m l = false) (hdims : s.dims.Alike z.dims) (room' : Nat)
  {ran : Except Fault Value × Machine}
  (hran : ({ p with config := config } : Program).demand room' n k z = ran)

include hops hs hrun hloops hcaching hz hquiet hdims hran

/-- An evaluation with caching, and otherwise of the same program, meets no cycle. It answers an
equal value and leaves a like table behind, unless it has less room. -/
theorem demand_agrees_quietly : ran.2.stats.loops = z.stats.loops ∧
    ((∃ w, ran.1 = .ok w ∧ (v == w) = true ∧ s'.dims.Alike ran.2.dims) ∨
      ∃ e, ran.1 = .error e ∧ (p.config.caching = false → room' < room)) := by
  obtain ⟨h, b, t, hb, hvb, htracks, hroom⟩ := demand_means hops hs hrun hloops
  obtain ⟨-, hfollow⟩ := names_follow (p := { p with config := config }) hops (fun _ => rfl)
    room' n k z hz
  rw [hran] at hfollow
  have hforesees : Foresees s'.dims.number z.dims t.keys :=
    (htracks.foresees s'.dims.numberedBy_number).alike hdims
      (List.forall₂_same.mpr fun v _ => BEq.refl v)
  let i : Vantage := ⟨p.reference s'.dims, h, fun _ => True, k, k, none⟩
  have haccord := hfollow i rfl (.refl _ k) ⟨rfl, fun _ _ => rfl⟩ b t hb
    ⟨.inr ⟨fun _ => trivial, hforesees⟩, .inl fun _ => trivial⟩
  cases haccord with
  | ok hsame hwb _ htracks' _ =>
    exact ⟨hsame, .inl ⟨_, rfl, BEq.trans hvb (BEq.symm hwb), htracks.alike htracks' hdims⟩⟩
  | error hsame _ hnot =>
    refine ⟨hsame, .inr ⟨_, rfl, fun hoff => Nat.lt_of_not_le fun hle => hnot ⟨?_, hforesees⟩⟩⟩
    exact Nat.le_trans (hroom hoff) hle
  | looped _ hescapes =>
    obtain ⟨m, l, -, -, hpending, -⟩ := hescapes hcaching
    rw [hquiet] at hpending
    cases hpending

theorem demand_agrees : (∃ w, ran.1 = .ok w ∧ (v == w) = true ∧ s'.dims.Alike ran.2.dims) ∨
    ∃ e, ran.1 = .error e ∧ (p.config.caching = false → room' < room) :=
  (demand_agrees_quietly hops hs hrun hloops hcaching hz hquiet hdims room' hran).2

end

end Program

end Intensional
