import Intensional.Proofs.Evaluation.Rebinding

/-!
# Evaluations that give an answer

Where no equation changes bindings, all that is evaluated for a name is evaluated at its own
context. So the evaluations that are nested are those of different names, and there are no more
of them than names with equations: each takes one of the names away that are not pending yet
(`Program.free_lt`). With room for that many no evaluation is too deep, however the names refer
to each other (`Program.names_answer`).

The other fault that could come up is an unkeyed leaf, when a value is stored. It would have to
be met on the way of the name's own context, where nothing was known when the evaluation began
and nothing has been stored since (`Spares.unknown`).
-/

namespace Intensional

open Machine

/-- The machine hands out dimensions without limit, and `P` says what is pending at `k`. -/
structure Machine.Ready (s : Machine) (k : Context) (P : String → Bool) : Prop where
  unlimited : s.dims.limit = none
  pending (n : String) : s.memo.isPending n k = P n

theorem Machine.Ready.grows {s s' : Machine} {k : Context} {P : String → Bool} (h : s.Ready k P)
    (hgrows : s.Grows s') : s'.Ready k P :=
  ⟨hgrows.dims.limit.trans h.unlimited, fun n => (hgrows.pending n k).trans (h.pending n)⟩

/-- The step gives an answer in every machine that is ready, and leaves it ready. -/
def Serves (k : Context) (P : String → Bool) {α : Type} (x : EvalM α) : Prop :=
  ∀ s : Machine, s.Ready k P → ∃ a s', x s = (.ok a, s') ∧ s'.Ready k P

theorem Serves.compositional (k : Context) (P : String → Bool) : Compositional (Serves k P) where
  pure a s hs := ⟨a, s, rfl, hs⟩
  bind hx hf s hs := by
    obtain ⟨a, s₁, ha, hs₁⟩ := hx s hs
    rw [Action.bind_of_ok ha]
    exact hf s a (congrArg Prod.fst ha) s₁ hs₁
  noteReads dims s hs := ⟨(), _, rfl, hs.grows (s.grows_noteReads dims)⟩
  internValue v s hs := by
    obtain ⟨d, hd⟩ := DimTable.internValue_ok hs.unlimited v
    refine ⟨d, _, Prod.ext hd rfl, ?_, hs.pending⟩
    exact (DimTable.within_internValue v s.dims).limit.trans hs.unlimited

namespace Program

variable {p : Program} {n : String} {k : Context} {s : Machine} {P : String → Bool}

/-- The names that have equations and are not pending. -/
def free (p : Program) (P : String → Bool) : List String :=
  p.groups.keys.filter fun n => !P n

theorem mem_free {g : Group} (hg : p.group? n = some g) (hn : P n = false) : n ∈ p.free P := by
  obtain ⟨n', hmem, heq⟩ := Assoc.mem_of_get? hg
  obtain rfl : n' = n := beq_iff_eq.mp heq
  exact List.mem_filter.mpr ⟨List.mem_map_of_mem hmem, by rw [hn]; rfl⟩

/-- A name that becomes pending is free no more. -/
theorem free_lt (hn : n ∈ p.free P) :
    (p.free fun m => n == m || P m).length < (p.free P).length := by
  have hfree : p.free (fun m => n == m || P m) = (p.free P).filter fun m => !(n == m) := by
    rw [free, free, List.filter_filter]
    exact List.filter_congr fun m _ => Bool.not_or ..
  rw [hfree, List.length_filter_lt_length_iff_exists]
  exact ⟨n, hn, by simp⟩

/-- A name is answered if it is where it is evaluated. -/
theorem ask_answers {evaluate : Group → EvalM Value} (hs : s.Ready k P)
    (hevaluate : ∀ g (t : Machine), p.group? n = some g → P n = false → t.Ready k P →
      (p.config.caching = true → t.memo.known? n k = none) → ∃ v, (evaluate g t).1 = .ok v) :
    ∃ v, (p.ask n k evaluate s).1 = .ok v := by
  rcases p.ask_cases n k evaluate s with ⟨-, hask⟩ | ⟨g, hg, ⟨v, path, -, -, hask⟩ |
    ⟨-, hask⟩ | ⟨hpending, hmiss, hask⟩⟩ <;> rw [hask]
  · exact ⟨_, rfl⟩
  · exact ⟨v, rfl⟩
  · exact ⟨_, rfl⟩
  · have hmemo : (s.asking n).countMiss.memo = s.memo := s.asking_memo n
    refine hevaluate g _ hg ((hs.pending n).symm.trans hpending) ?_ (hmemo ▸ hmiss)
    exact hs.grows ((s.grows_asking n).trans (.of_stats (Nat.le_refl _)))

/-- An evaluated name is answered if its equations are, with the name pending too. -/
theorem compute_answers {body : EvalM Value} (hs : s.Ready k P) (hn : P n = false)
    (hserves : Serves k (fun m => n == m || P m) body) (hspares : Spares k body)
    (hmiss : p.config.caching = true → s.memo.known? n k = none)
    (hgrows : (s.enter n k).Grows (body (s.enter n k)).2) :
    ∃ v, (p.compute n k body s).1 = .ok v := by
  have hready : (s.enter n k).Ready k fun m => n == m || P m := by
    refine ⟨hs.unlimited, fun m => ?_⟩
    rw [isPending_enter, hs.pending, beq_pair, BEq.rfl, Bool.and_true]
  obtain ⟨v, b, hbody, -⟩ := hserves _ hready
  rw [hbody] at hgrows
  obtain ⟨f, fs, hframes, -⟩ := hgrows.innermost rfl
  have hkeyed := (compute_spares (p := p) hspares ((hs.pending n).trans hn) hmiss
    (by rw [hbody]; exact hgrows)).2
  have hconcludes := compute_concludes (p := p) hbody hframes
  generalize p.compute n k body s = ran at hconcludes hkeyed
  cases hconcludes with
  | passed => exact ⟨v, rfl⟩
  | stored => exact ⟨v, rfl⟩
  | refused _ e _ hstore =>
    obtain ⟨⟨left, rfl⟩, -⟩ := Memo.store_error hstore
    exact absurd rfl (hkeyed n left)

/-- A name that is answered leaves the machine ready. -/
theorem serves_of_answers {room : Nat}
    (h : ∀ s : Machine, s.Ready k P → ∃ v, (p.demand room n k s).1 = .ok v) :
    Serves k P (p.demand room n k) := by
  intro s hs
  obtain ⟨v, hv⟩ := h s hs
  exact ⟨v, _, Prod.ext hv rfl, hs.grows ((s.grows_asking n).trans (p.names_grow room n k s))⟩

/-- Where no equation changes bindings, a name is answered if there is room for all names that
are not pending. -/
theorem names_answer (hplain : ¬ p.Rebinds) : ∀ (room : Nat) (n : String) (k : Context)
    (P : String → Bool), (p.free P).length ≤ room → Serves k P (p.demand room n k)
  | 0, n, k, P, hroom => by
      refine serves_of_answers fun s hs => ask_answers hs fun g t hg hn _ _ => ?_
      have hpos := List.length_pos_of_mem (mem_free hg hn)
      omega
  | room + 1, n, k, P, hroom => by
      refine serves_of_answers fun s hs => ask_answers hs fun g t hg hn ht hmiss => ?_
      have hrebinds : g.rebinds = false := Bool.eq_false_iff.mpr fun h => hplain ⟨n, g, hg, h⟩
      have hless := free_lt (mem_free hg hn)
      refine compute_answers ht hn ?_ ?_ hmiss (body_grows (p.names_grow room) g k _)
      · exact (Serves.compositional k _).group
          (fun m => names_answer hplain room m k _ (by omega)) g hrebinds
      · exact (Spares.compositional k).group (fun m => names_spare hplain room m k) g hrebinds

end Program

end Intensional
