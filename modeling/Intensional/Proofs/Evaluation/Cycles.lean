import Intensional.Proofs.Evaluation.Bookkeeping

/-!
# The cycles of an evaluation

A cycle leads back to a pending evaluation, and makes the frames provisional that lie further in
than the frame of that evaluation. In an orderly machine there is exactly one such frame. So after
any stretch of an evaluation, those frames have become provisional that a cycle of the stretch has
gone through on its way out (`Frame.Crossed`), and the frame of a name that has been evaluated is
provisional exactly if a cycle has led to an evaluation that was pending before
(`Program.provisional_iff`).
-/

namespace Intensional

/-! ## Cycles that were met -/

/-- The evaluation that a cycle has led back to. -/
def Visit.cycle? (v : Visit) : Option (String × Context) :=
  match v.course with
  | .circular => some (v.name, v.context)
  | _ => none

/-- The evaluations that cycles have led back to, in the order in which they were met. -/
def Call.cycles (cs : List Call) : List (String × Context) :=
  (Call.visitsAll cs).filterMap Visit.cycle?

theorem Call.cycles_append (cs ds : List Call) :
    Call.cycles (cs ++ ds) = Call.cycles cs ++ Call.cycles ds := by
  rw [cycles, visitsAll_append, List.filterMap_append]
  rfl

theorem Call.cycles_mk (v : Visit) (inner : List Call) :
    Call.cycles [.mk v inner] = Call.cycles inner ++ v.cycle?.toList := by
  rw [cycles, visitsAll_singleton, visits, List.filterMap_append]
  cases h : v.cycle? <;> simp [h, cycles]

/-! ## Frames that cycles go through -/

namespace Frame

variable {n : String} {k : Context} {fs gs hs : List Frame}

theorem Grows.any_belongsTo (h : List.Forall₂ Frame.Grows fs gs) (n : String) (k : Context) :
    (gs.any fun g => g.belongsTo n k) = fs.any fun f => f.belongsTo n k := by
  induction h with
  | nil => rfl
  | cons hfg _ ih => rw [List.any_cons, List.any_cons, ih, hfg.belongsTo]

/-- What the frames `fs` are after some cycles: provisional are those that were it, and those that
a cycle goes through on its way to a frame further out. -/
inductive Crossed (cycles : List (String × Context)) : List Frame → List Frame → Prop
  | nil : Crossed cycles [] []
  | cons {f g : Frame} {fs gs : List Frame} :
    (g.provisional = true ↔ f.provisional = true ∨
      ∃ o ∈ cycles, (fs.any fun f => f.belongsTo o.1 o.2) = true) →
    Crossed cycles fs gs → Crossed cycles (f :: fs) (g :: gs)

namespace Crossed

theorem of_provisional : ∀ {fs gs : List Frame},
    gs.map Frame.provisional = fs.map Frame.provisional → Crossed [] fs gs
  | [], [], _ => .nil
  | f :: fs, g :: gs, h => by
      obtain ⟨hfg, hrest⟩ := List.cons.inj h
      refine .cons ?_ (of_provisional hrest)
      have hnone : ¬ ∃ o ∈ ([] : List (String × Context)),
          (fs.any fun f => f.belongsTo o.1 o.2) = true := fun ⟨_, ho, _⟩ => nomatch ho
      rw [hfg, or_iff_left hnone]
  | [], _ :: _, h => nomatch h
  | _ :: _, [], h => nomatch h

theorem append {os ps : List (String × Context)} (hgrows : List.Forall₂ Frame.Grows fs gs)
    (h : Crossed os fs gs) (h' : Crossed ps gs hs) : Crossed (os ++ ps) fs hs := by
  induction h generalizing hs with
  | nil =>
    cases h'
    exact .nil
  | cons hfg _ ih =>
    cases hgrows with
    | cons _ hgrows =>
      cases h' with
      | cons hgh h' =>
        refine .cons ?_ (ih hgrows h')
        rw [hgh, hfg, or_assoc]
        refine or_congr_right ?_
        simp only [Grows.any_belongsTo hgrows, List.mem_append, or_and_right, exists_or]

/-- The later frames may read more. -/
theorem later {os : List (String × Context)} (hgrows : List.Forall₂ Frame.Grows fs gs)
    (h : Crossed os fs gs) (hrest : hs.map Frame.provisional = gs.map Frame.provisional) :
    Crossed os fs hs :=
  List.append_nil os ▸ h.append hgrows (of_provisional hrest)

/-- A cycle that leads past all frames goes through none. -/
theorem past : ∀ {fs : List Frame}, (fs.any fun f => f.belongsTo n k) = false →
    Crossed [(n, k)] fs fs
  | [], _ => .nil
  | f :: fs, h => by
      obtain ⟨-, hfs⟩ := Bool.or_eq_false_iff.mp ((List.any_cons ..).symm.trans h)
      refine .cons ?_ (past hfs)
      simp only [List.mem_singleton, exists_eq_left, hfs, Bool.false_eq_true, or_false]

/-- Where one frame belongs to the evaluation, the frames further in become provisional. -/
theorem markProvisional : ∀ {fs : List Frame},
    (fs.filterMap Frame.owner).Pairwise (fun o o' => (o == o') = false) →
      (fs.any fun f => f.belongsTo n k) = true →
        Crossed [(n, k)] fs (Frame.markProvisional n k fs)
  | [], _, h => nomatch h
  | f :: fs, hdistinct, h => by
      rw [Frame.markProvisional]
      by_cases hf : f.belongsTo n k = true
      · rw [if_pos hf]
        obtain ⟨o, howner, ho⟩ := (Option.any_eq_true _ _).mp hf
        have hothers : (fs.any fun f => f.belongsTo n k) = false := by
          refine List.any_eq_false.mpr fun g hg hbelongs => ?_
          obtain ⟨o', howner', ho'⟩ := (Option.any_eq_true _ _).mp hbelongs
          rw [List.filterMap_cons_some howner, List.pairwise_cons] at hdistinct
          have hne := hdistinct.1 o' (List.mem_filterMap.mpr ⟨g, hg, howner'⟩)
          rw [BEq.trans ho (BEq.symm ho')] at hne
          cases hne
        refine .cons ?_ (past hothers)
        simp only [List.mem_singleton, exists_eq_left, hothers, Bool.false_eq_true, or_false]
      · rw [if_neg hf]
        have hrest : (fs.any fun f => f.belongsTo n k) = true := by
          rwa [List.any_cons, Bool.eq_false_iff.mpr hf, Bool.false_or] at h
        have hdistinct' : (fs.filterMap Frame.owner).Pairwise fun o o' => (o == o') = false :=
          hdistinct.sublist (List.Sublist.filterMap _ (List.sublist_cons_self ..))
        refine .cons ?_ (markProvisional hdistinct' hrest)
        simp only [List.mem_singleton, exists_eq_left, hrest, or_true]

end Crossed

end Frame

/-! ## The law of cycles -/

theorem Machine.noteReads_provisional (s : Machine) (dims : IndexSet) :
    (s.noteReads dims).frames.map Frame.provisional = s.frames.map Frame.provisional :=
  (Idles.noteReads s dims).provisional

theorem Program.Concludes.provisional {p : Program} {n : String} {k : Context} {depth : Nat}
    {b : Machine} {f : Frame} {fs : List Frame} {r : Except Fault Value}
    {ran : Except Fault Value × Machine} (h : Concludes p n k depth b f fs r ran) :
    ran.2.frames.map Frame.provisional = fs.map Frame.provisional := by
  cases h with
  | failed e => rfl
  | passed v _ => exact Machine.noteReads_provisional _ _
  | refused v e _ _ => rfl
  | stored v memo _ _ _ => exact Machine.noteReads_provisional _ _

/-- From an orderly machine, frames become provisional by the cycles that are met. -/
def Law.cycles (p : Program) : Law where
  holds room s cs s' := s.Orderly p room → Frame.Crossed (Call.cycles cs) s.frames s'.frames
  idle hidle _ := .of_provisional hidle.provisional
  append hgrows _ h h' hs := by
    rw [Call.cycles_append]
    exact (h hs).append hgrows.frames (h' (hs.of_sameBooks hgrows.sameBooks))
  beneath {room s b cs delta f fs} hgrows hframes h hs := by
    have hcrossed := h hs.push
    rw [hframes] at hcrossed
    cases hcrossed with
    | cons _ hcrossed =>
      refine hcrossed.later ?_ (Machine.noteReads_provisional _ _)
      exact (hgrows.popped hframes).frames

namespace Program

variable {p : Program} {room : Nat} {n : String} {k : Context} {s b : Machine} {g : Group}

theorem cycles_marked (p : Program) (room : Nat) : (Law.cycles p).Obeyed p room := by
  refine Law.call (fun {n k s room c} hgoes _ hs => ?_) room
  have hasking : (s.asking n).frames = s.frames := s.asking_frames n
  cases hgoes with
  | answered hanswers =>
    rw [Call.cycles_mk]
    cases hanswers with
    | undefined _ => exact .of_provisional (congrArg _ hasking)
    | remembered _ _ _ _ =>
      exact .of_provisional ((Machine.noteReads_provisional _ _).trans (congrArg _ hasking))
    | refused _ _ _ => exact .of_provisional (congrArg _ hasking)
    | circular _ hpending =>
      rw [hs.isPending_eq] at hpending
      have hloop : Frame.Crossed [(n, k)] s.frames ((s.asking n).looping n k).frames := by
        show Frame.Crossed _ _ (Frame.markProvisional n k (s.asking n).frames)
        rw [hasking]
        exact .markProvisional hs.distinct hpending
      refine hloop.later ?_ (Machine.noteReads_provisional _ _)
      exact ((s.grows_asking n).trans (Machine.grows_looping _ n k)).frames
  | evaluated _ hpending _ _ hbody hframes hinner hconcludes _ =>
    have hcrossed := hinner (hs.beginning hpending)
    have hbody := hbody.frames
    rw [Machine.beginning_frames, hframes] at hcrossed hbody
    cases hbody with
    | cons _ hbody =>
      cases hcrossed with
      | cons _ hcrossed =>
        rw [Call.cycles_mk]
        exact (List.append_nil _).symm ▸ hcrossed.later hbody hconcludes.provisional

/-- The frame of a name that has been evaluated is provisional exactly if a cycle has led to an
evaluation that was pending before. -/
theorem provisional_iff {r : Except Fault Value} {cs : List Call} {f : Frame} {fs : List Frame}
    (hs : s.Orderly p (room + 1)) (hpending : s.memo.isPending n k = false)
    (hrecord : p.recordGroup room g k (s.beginning n k) = ((r, b), cs))
    (hframes : b.frames = f :: fs) :
    f.provisional = true ↔ ∃ o ∈ Call.cycles cs, s.memo.isPending o.1 o.2 = true := by
  have hcrossed := ((p.cycles_marked room).group g k (s.beginning n k)).2.2 (hs.beginning hpending)
  rw [hrecord, Machine.beginning_frames, hframes] at hcrossed
  cases hcrossed with
  | cons hf _ =>
    have hnew : ¬ (Frame.new (some (n, k))).provisional = true := Bool.false_ne_true
    rw [hf, or_iff_right hnew]
    simp only [hs.isPending_eq]

end Program

end Intensional
