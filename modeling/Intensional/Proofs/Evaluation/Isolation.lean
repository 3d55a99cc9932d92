import Intensional.Proofs.Evaluation.Cycles
import Intensional.Proofs.Evaluation.Stores

/-!
# Evaluations by themselves

An evaluation of a name begins while others are pending. It can notice them in two ways: by a
cycle that leads to one of them, and by the room that they take up. If it answers a value and no
cycle has led to one of them, it has not noticed them at all.

To see this the evaluation is compared step by step with the same one in a machine that stands
beside the first (`Machine.Beside`): it has learned and remembers the same, and has those frames
and pending evaluations only that were added since. As long as the first one goes well and meets no
cycle that leads out, the other one does the same (`Parallel`).
-/

namespace Intensional

open Machine

/-! ## Beside a machine -/

namespace Machine

variable {o s t : Machine} {n : String} {k : Context} {p : Program} {room : Nat}

/-- The machine `s` has gone on from `o`, and `t` has done the same without what `o` has begun. -/
structure Beside (o s t : Machine) : Prop where
  dims : t.dims = s.dims
  tries : t.memo.tries = s.memo.tries
  pending (n : String) (k : Context) :
    s.memo.isPending n k = (t.memo.isPending n k || o.memo.isPending n k)
  frames : s.frames = t.frames ++ o.frames

/-- The machine without its frames and pending evaluations, at depth zero. -/
def alone (s : Machine) : Machine :=
  { s with frames := [], memo := { s.memo with pending := .empty }, depth := 0 }

theorem beside_alone (s : Machine) : s.Beside s s.alone := ⟨rfl, rfl, fun _ _ => rfl, rfl⟩

namespace Beside

theorem known? (h : o.Beside s t) (n : String) (k : Context) :
    t.memo.known? n k = s.memo.known? n k := Memo.known?_congr h.tries n k

theorem noteReads (h : o.Beside s t) (ht : t.frames ≠ []) (dims : IndexSet) :
    o.Beside (s.noteReads dims) (t.noteReads dims) := by
  obtain ⟨f, fs, hf⟩ := List.exists_cons_of_ne_nil ht
  refine ⟨?_, ?_, fun n k => ?_, ?_⟩
  · rw [noteReads_dims, noteReads_dims, h.dims]
  · rw [noteReads_memo, noteReads_memo, h.tries]
  · rw [noteReads_memo, noteReads_memo, h.pending]
  · rw [noteReads_frames, noteReads_frames, h.frames, hf]
    rfl

theorem asking (h : o.Beside s t) (n : String) : o.Beside (s.asking n) (t.asking n) := by
  refine ⟨?_, ?_, fun m l => ?_, ?_⟩
  · rw [asking_dims, asking_dims, h.dims]
  · rw [asking_memo, asking_memo, h.tries]
  · rw [asking_memo, asking_memo, h.pending]
  · rw [asking_frames, asking_frames, h.frames]

theorem push (h : o.Beside s t) (f : Frame) : o.Beside (s.push f) (t.push f) :=
  ⟨h.dims, h.tries, h.pending, congrArg (f :: ·) h.frames⟩

theorem beginning (h : o.Beside s t) (n : String) (k : Context) :
    o.Beside (s.beginning n k) (t.beginning n k) := by
  refine ⟨?_, ?_, fun m l => ?_, ?_⟩
  · rw [beginning_dims, beginning_dims, h.dims]
  · rw [beginning_memo, beginning_memo]
    exact h.tries
  · rw [beginning_memo, beginning_memo, Memo.isPending_start, Memo.isPending_start, h.pending,
      Bool.or_assoc]
  · rw [beginning_frames, beginning_frames, h.frames]
    rfl

theorem intern (h : o.Beside s t) (v : Value) :
    (EvalM.internValue v t).1 = (EvalM.internValue v s).1 ∧
      o.Beside (EvalM.internValue v s).2 (EvalM.internValue v t).2 := by
  have hsame : DimTable.internValue v t.dims = DimTable.internValue v s.dims := by rw [h.dims]
  refine ⟨?_, ?_, h.tries, h.pending, h.frames⟩
  · show (DimTable.internValue v t.dims).1 = (DimTable.internValue v s.dims).1
    rw [hsame]
  · show (DimTable.internValue v t.dims).2 = (DimTable.internValue v s.dims).2
    rw [hsame]

/-- The frames are the same up to where those begin that `o` has begun. -/
theorem innermost (h : o.Beside s t) {f : Frame} {fs : List Frame} (ht : t.frames = f :: fs) :
    s.frames = f :: (fs ++ o.frames) := by
  rw [h.frames, ht, List.cons_append]

theorem popped (h : o.Beside s t) (fs : List Frame) :
    o.Beside { s with frames := fs ++ o.frames } { t with frames := fs } :=
  ⟨h.dims, h.tries, h.pending, rfl⟩

theorem leaving (h : o.Beside s t) (hopen : o.memo.isPending n k = false) (depth depth' : Nat)
    (fs : List Frame) :
    o.Beside (s.leaving n k depth (fs ++ o.frames)) (t.leaving n k depth' fs) := by
  refine ⟨h.dims, h.tries, fun m l => ?_, rfl⟩
  show (s.memo.finish n k).isPending m l = ((t.memo.finish n k).isPending m l || _)
  rw [Memo.isPending_finish, Memo.isPending_finish, h.pending]
  cases heq : (n, k) == (m, l) with
  | false => rfl
  | true =>
    rw [beq_pair, Bool.and_eq_true, beq_iff_eq] at heq
    obtain ⟨rfl, hk⟩ := heq
    have hopen : o.memo.isPending n l = false := (Memo.isPending_congr hk).symm.trans hopen
    rw [hopen]
    rfl

/-- A cycle that leads to one of the frames of `t` goes through the same frames in both. -/
theorem looping (h : o.Beside s t) (horderly : t.Orderly p room)
    (hpending : t.memo.isPending n k = true) : o.Beside (s.looping n k) (t.looping n k) := by
  have markProvisional : ∀ {fs : List Frame}, (fs.any fun f => f.belongsTo n k) = true →
      Frame.markProvisional n k (fs ++ o.frames) =
        Frame.markProvisional n k fs ++ o.frames := by
    intro fs
    induction fs with
    | nil => exact fun h => nomatch h
    | cons f fs ih =>
      intro h
      rw [List.cons_append, Frame.markProvisional, Frame.markProvisional]
      split
      · rfl
      · rename_i hf
        rw [List.any_cons, Bool.eq_false_iff.mpr hf, Bool.false_or] at h
        rw [ih h, List.cons_append]
  refine ⟨h.dims, h.tries, h.pending, ?_⟩
  rw [horderly.isPending_eq] at hpending
  show Frame.markProvisional n k s.frames = Frame.markProvisional n k t.frames ++ o.frames
  rw [h.frames, markProvisional hpending]

/-- What has been evaluated with a value is concluded in the same way. -/
theorem conclude (h : o.Beside s t) (hopen : o.memo.isPending n k = false) {f : Frame}
    {fs : List Frame} {depth depth' : Nat} {r : Except Fault Value} {v : Value}
    (hv : (p.conclude n k f r (s.leaving n k depth (fs ++ o.frames))).1 = .ok v) : r = .ok v ∧
      ∃ x y : Machine, o.Beside x y ∧ y.frames = fs ∧
        p.conclude n k f r (s.leaving n k depth (fs ++ o.frames)) =
          (.ok v, x.noteReads f.reads) ∧
        p.conclude n k f r (t.leaving n k depth' fs) = (.ok v, y.noteReads f.reads) := by
  have hleft := h.leaving hopen depth depth' fs
  generalize hx : s.leaving n k depth (fs ++ o.frames) = x at hleft hv ⊢
  generalize hy : t.leaving n k depth' fs = y at hleft ⊢
  have hframes : y.frames = fs := hy ▸ rfl
  cases r with
  | error e => cases hv
  | ok w =>
    rw [Program.conclude] at hv
    rw [Program.conclude, Program.conclude]
    split at hv
    · rename_i hstore
      cases hmemo : x.memo.store n k f.reads w with
      | error e => rw [hmemo] at hv; cases hv
      | ok memo =>
        rw [hmemo] at hv
        cases hv
        obtain ⟨memo', hmemo', htries⟩ := Memo.store_congr hleft.tries hmemo
        refine ⟨rfl, ({ x with memo := memo } : Machine).countStore,
          ({ y with memo := memo' } : Machine).countStore, ⟨hleft.dims, htries, fun m l => ?_,
            hleft.frames⟩, hframes, ?_, ?_⟩
        · show memo.isPending m l = (memo'.isPending m l || _)
          rw [Memo.isPending, Memo.isPending, Memo.pending_store hmemo, Memo.pending_store hmemo']
          exact hleft.pending m l
        · rw [if_pos hstore]
        · rw [if_pos hstore, hmemo']
    · rename_i hstore
      cases hv
      exact ⟨rfl, x, y, hleft, hframes, by rw [if_neg hstore], by rw [if_neg hstore]⟩

end Beside

end Machine

/-! ## Steps beside each other -/

/-- What can be told of the evaluation of a name without saying where it was made. -/
def Visit.outline (v : Visit) : String × Context × Course × Except Fault Value :=
  (v.name, v.context, v.course, v.answer)

def Call.outlines (cs : List Call) : List (String × Context × Course × Except Fault Value) :=
  (Call.visitsAll cs).map Visit.outline

theorem Call.outlines_append (cs ds : List Call) :
    Call.outlines (cs ++ ds) = Call.outlines cs ++ Call.outlines ds := by
  rw [outlines, visitsAll_append, List.map_append]
  rfl

theorem Call.outlines_mk (v : Visit) (inner : List Call) :
    Call.outlines [.mk v inner] = Call.outlines inner ++ [v.outline] := by
  rw [outlines, visitsAll_singleton, visits, List.map_append]
  rfl

/-- What calls have stored can be told from their outlines. -/
theorem Program.stores_congr (p : Program) {cs ds : List Call}
    (h : Call.outlines ds = Call.outlines cs) : p.stores ds = p.stores cs := by
  have filterMap_outline : ∀ vs ws : List Visit, ws.map Visit.outline = vs.map Visit.outline →
      ws.filterMap p.stored? = vs.filterMap p.stored? := by
    intro vs
    induction vs with
    | nil =>
      intro ws h
      rw [List.map_eq_nil_iff.mp h]
    | cons v vs ih =>
      intro ws h
      obtain ⟨w, ws, rfl, hw, hws⟩ := List.map_eq_cons_iff.mp h
      obtain ⟨hname, hcontext, hcourse, hanswer⟩ :
          w.name = v.name ∧ w.context = v.context ∧ w.course = v.course ∧ w.answer = v.answer := by
        simpa [Visit.outline] using hw
      have hstored : p.stored? w = p.stored? v := by
        rw [stored?, stored?, hname, hcontext, hcourse, hanswer]
      rw [List.filterMap_cons, List.filterMap_cons, hstored, ih ws hws]
  exact filterMap_outline _ _ h

section Parallel

variable {o s t : Machine} {p : Program} {room room' : Nat} {α β γ δ : Type}

/-- No cycle has led to what is pending in `o`. -/
def Call.Inside (o : Machine) (cs : List Call) : Prop :=
  ∀ q ∈ Call.cycles cs, o.memo.isPending q.1 q.2 = false

theorem Call.inside_append {cs ds : List Call} :
    Call.Inside o (cs ++ ds) ↔ Call.Inside o cs ∧ Call.Inside o ds := by
  rw [Inside, Call.cycles_append, List.forall_mem_append]
  rfl

/-- If the first step, gone on from `o`, answers and no cycle leads to what is pending in `o`,
then the second one, without what `o` has begun, answers alike, makes the same calls and ends
beside the first. -/
def Parallel (o : Machine) (p : Program) (room : Nat) (R : α → β → Prop) (x : Recorded α)
    (y : Recorded β) : Prop :=
  ∀ {s t : Machine}, o.Beside s t → t.frames ≠ [] → t.Orderly p room →
    ∀ {a : α} {s' : Machine} {cs : List Call}, x s = ((.ok a, s'), cs) → Call.Inside o cs →
      ∃ b t' ds, y t = ((.ok b, t'), ds) ∧ R a b ∧ o.Beside s' t' ∧ t.Grows t' ∧
        Call.outlines ds = Call.outlines cs

namespace Parallel

theorem pure {R : α → β → Prop} {a : α} {b : β} (hab : R a b) :
    Parallel o p room R (Pure.pure a) (Pure.pure b) := by
  intro s t hbeside _ _ a' s' cs hx _
  cases hx
  exact ⟨b, t, [], rfl, hab, hbeside, .refl t, rfl⟩

theorem bind {R : α → β → Prop} {S : γ → δ → Prop} {x : Recorded α} {y : Recorded β}
    {f : α → Recorded γ} {g : β → Recorded δ} (hxy : Parallel o p room R x y)
    (hfg : ∀ a b, R a b → Parallel o p room S (f a) (g b)) :
    Parallel o p room S (x >>= f) (y >>= g) := by
  intro s t hbeside ht horderly c s' cs hrun hinside
  obtain ⟨a, s₁, cs₁, cs₂, hx, hf, rfl⟩ := Recorded.of_bind_ok hrun
  obtain ⟨hinside₁, hinside₂⟩ := Call.inside_append.mp hinside
  obtain ⟨b, t₁, ds₁, hy, hab, hbeside₁, hgrows₁, hds₁⟩ := hxy hbeside ht horderly hx hinside₁
  obtain ⟨d, t', ds₂, hg, hcd, hbeside₂, hgrows₂, hds₂⟩ := hfg a b hab hbeside₁
    (hgrows₁.frames_ne_nil ht) (horderly.of_sameBooks hgrows₁.sameBooks) hf hinside₂
  refine ⟨d, t', ds₁ ++ ds₂, ?_, hcd, hbeside₂, hgrows₁.trans hgrows₂, ?_⟩
  · rw [Recorded.bind_of_ok hy, hg]
  · rw [Call.outlines_append, Call.outlines_append, hds₁, hds₂]

theorem noting {R : α → β → Prop} {a : α} {b : β} (hab : R a b) (dims : IndexSet) :
    Parallel o p room R (do Evaluator.note dims; Pure.pure a)
      (do Evaluator.note dims; Pure.pure b) := by
  intro s t hbeside ht _ a' s' cs hx _
  cases hx
  exact ⟨b, t.noteReads dims, [], rfl, hab, hbeside.noteReads ht dims, t.grows_noteReads dims, rfl⟩

theorem intern (v : Value) :
    Parallel o p room Eq (Evaluator.intern v) (Evaluator.intern v) := by
  intro s t hbeside ht _ d s' cs hx _
  obtain ⟨hsame, hbeside'⟩ := hbeside.intern v
  have hall : (EvalM.internValue v s, ([] : List Call)) = ((.ok d, s'), cs) := hx
  obtain ⟨hrun, rfl⟩ := Prod.mk.inj hall
  rw [hrun] at hsame hbeside'
  exact ⟨d, (EvalM.internValue v t).2, [], Prod.ext (Prod.ext hsame rfl) rfl, rfl, hbeside',
    (Idles.internValue v t).grows, rfl⟩

theorem beneath {x y : Recorded Value} (delta : Context) (hxy : Parallel o p room Eq x y) :
    Parallel o p room Eq (Evaluator.beneath delta x) (Evaluator.beneath delta y) := by
  intro s t hbeside ht horderly v s' cs hrun hinside
  rcases hx : x (s.push (.new none)) with ⟨⟨r, b⟩, cs'⟩
  have hanswer : r = .ok v ∧ cs' = cs := by
    have hr : (x (s.push (.new none))).1.1 = .ok v := congrArg (·.1.1) hrun
    have hcs : (x (s.push (.new none))).2 = cs := congrArg Prod.snd hrun
    rw [hx] at hr hcs
    exact ⟨hr, hcs⟩
  obtain ⟨rfl, rfl⟩ := hanswer
  obtain ⟨_, b', ds, hy, rfl, hbeside', hgrows, hds⟩ :=
    hxy (hbeside.push (.new none)) (List.cons_ne_nil _ _) horderly.push hx hinside
  obtain ⟨f, fs, hframes, -⟩ := hgrows.innermost rfl
  have hpopped := hgrows.popped hframes
  rw [Recorded.beneath_apply hx (hbeside'.innermost hframes)] at hrun
  cases hrun
  refine ⟨v, b'.endingBody delta f fs, ds, Recorded.beneath_apply hy hframes, rfl,
    (hbeside'.popped fs).noteReads (hpopped.frames_ne_nil ht) _,
    hpopped.trans (grows_noteReads _ _), hds⟩

end Parallel

/-- Doing the same beside each other is respected by every step of an evaluation. -/
def paralleling (o : Machine) (p : Program) (room : Nat) : Relator Recorded Recorded where
  Index := Unit
  like := .identity
  contexts _ k l := k = l
  rel _ _ _ R x y := Parallel o p room R x y
  pure := .pure
  bind := .bind
  look d hkl := hkl ▸ Parallel.noting rfl _
  consult c hkl := hkl ▸ Parallel.noting rfl _
  test g hkl := hkl ▸ Parallel.noting rfl _
  intern {_ v w} hvw := by
    cases hvw
    exact Parallel.intern v
  beneath {_ k l ps qs} hkl hpq := by
    obtain rfl := hkl
    obtain rfl := hpq.eq_of_identity
    exact ⟨(), rfl, fun x y hxy => hxy.beneath (.ofList ps)⟩

end Parallel

/-! ## Names beside each other -/

namespace Program

variable {o s t b b' : Machine} {p : Program} {room room' : Nat} {n : String} {k : Context}
  {g : Group} {r r' : Except Fault Value} {v : Value} {f f' : Frame} {fs fs' : List Frame}
  {cs ds : List Call}

/-- If the equations of a name do the same beside each other, so does the name. -/
theorem evaluated_parallel
    (hbody : Parallel o p room' Eq (p.recordGroup room g k) (p.recordGroup room' g k))
    (hbeside : o.Beside s t) (horderly : t.Orderly p (room' + 1))
    (hpending : s.memo.isPending n k = false)
    (hrecord : p.recordGroup room g k (s.beginning n k) = ((r, b), cs))
    (hframes : b.frames = f :: fs)
    (hrecord' : p.recordGroup room' g k (t.beginning n k) = ((r', b'), ds))
    (hframes' : b'.frames = f' :: fs') (hinside : Call.Inside o cs)
    (hv : (p.conclude n k f r (b.leaving n k s.depth fs)).1 = .ok v) :
    f' = f ∧ Call.outlines ds = Call.outlines cs ∧ ∃ x y : Machine, o.Beside x y ∧
      y.frames = fs' ∧
      p.conclude n k f r (b.leaving n k s.depth fs) = (.ok v, x.noteReads f.reads) ∧
      p.conclude n k f r' (b'.leaving n k t.depth fs') = (.ok v, y.noteReads f.reads) := by
  cases r with
  | error e => cases hv
  | ok w =>
    rw [hbeside.pending, Bool.or_eq_false_iff] at hpending
    obtain ⟨_, b'', ds', hrun, rfl, hbeside', -, hds⟩ := hbody (hbeside.beginning n k)
      (by rw [beginning_frames]; exact List.cons_ne_nil _ _)
      (horderly.beginning hpending.1) hrecord hinside
    cases hrecord'.symm.trans hrun
    cases hframes.symm.trans (hbeside'.innermost hframes')
    obtain ⟨-, x, y, hxy, hy, hx, hend⟩ := hbeside'.conclude hpending.2 hv
    exact ⟨rfl, hds, x, y, hxy, hy, hx, hend⟩

/-- A name that is answered without evaluating its equations is answered alike beside. -/
theorem Answers.parallel {course : Course} {s' : Machine}
    (hroom : room ≤ room') (hbeside : o.Beside s t) (ht : t.frames ≠ [])
    (horderly : t.Orderly p room') (h : p.Answers n k s room course r s') (hv : r = .ok v)
    (hinside : ∀ q ∈ (Visit.cycle? ⟨n, k, room, s, course, r, s'⟩).toList,
      o.memo.isPending q.1 q.2 = false) :
    ∃ t', p.Answers n k t room' course r t' ∧ o.Beside s' t' := by
  have hasking := hbeside.asking n
  have htasking : (t.asking n).frames ≠ [] := t.asking_frames n ▸ ht
  cases h with
  | undefined hg => exact ⟨_, .undefined hg, hasking⟩
  | remembered hg hcaching hpending hknown =>
    rw [hbeside.pending, Bool.or_eq_false_iff] at hpending
    have hhit : o.Beside (s.asking n).countHit (t.asking n).countHit :=
      ⟨hasking.dims, hasking.tries, hasking.pending, hasking.frames⟩
    exact ⟨_, .remembered hg hcaching hpending.1 ((hbeside.known? n k).trans hknown),
      hhit.noteReads htasking _⟩
  | circular hg hpending =>
    have hopen : o.memo.isPending n k = false := hinside (n, k) (List.mem_singleton.mpr rfl)
    rw [hbeside.pending, hopen, Bool.or_false] at hpending
    have hgrows : t.Grows (t.asking n) := t.grows_asking n
    have hloop := hasking.looping (horderly.of_sameBooks hgrows.sameBooks)
      ((hgrows.pending n k).trans hpending)
    exact ⟨_, .circular hg hpending,
      hloop.noteReads ((grows_looping _ n k).frames_ne_nil htasking) _⟩
  | refused _ _ _ => cases hv

theorem Goes.parallel {H : Nat → Machine → List Call → Machine → Prop} {c : Call}
    (hbody : ∀ {room₁ room₂ : Nat}, room = room₁ + 1 → room₁ ≤ room₂ →
      ∀ (g : Group) (k : Context),
        Parallel o p room₂ Eq (p.recordGroup room₁ g k) (p.recordGroup room₂ g k))
    (hroom : room ≤ room') (hbeside : o.Beside s t) (ht : t.frames ≠ [])
    (horderly : t.Orderly p room') (hgoes : p.Goes H n k s room c)
    (hv : c.visit.answer = .ok v) (hinside : Call.Inside o [c]) :
    (p.call room' n k t).visit.answer = .ok v ∧
      o.Beside c.visit.after (p.call room' n k t).visit.after ∧
      Call.outlines [p.call room' n k t] = Call.outlines [c] := by
  cases hgoes with
  | answered hanswers =>
    obtain ⟨s'', hanswers', hbeside'⟩ := hanswers.parallel hroom hbeside ht horderly hv
      fun q hq => hinside q (by rw [Call.cycles_mk]; exact hq)
    rw [hanswers'.call, Call.outlines_mk, Call.outlines_mk]
    exact ⟨hv, hbeside', rfl⟩
  | evaluated hg hpending hmiss hrecord _ hframes _ _ hran =>
    obtain ⟨room', rfl⟩ : ∃ r, room' = r + 1 := Nat.exists_eq_succ_of_ne_zero (by omega)
    have hopen := hpending
    rw [hbeside.pending, Bool.or_eq_false_iff] at hopen
    obtain ⟨r', b', ds, f', fs', ran', hrecord', hgrows', hframes', -, hran', hcall⟩ :=
      p.call_evaluated room' hg hopen.1 fun hcaching => (hbeside.known? n k).trans (hmiss hcaching)
    have hinside : Call.Inside o _ := fun q hq => hinside q (by
      rw [Call.cycles_mk]
      exact List.mem_append_left _ hq)
    obtain ⟨rfl, hds, x, y, hxy, hy, hx, hend⟩ :=
      evaluated_parallel (hbody rfl (Nat.le_of_succ_le_succ hroom) _ k) hbeside horderly hpending
        hrecord hframes hrecord' hframes' hinside (hran ▸ hv)
    obtain rfl := hran.symm.trans hx
    obtain rfl := hran'.symm.trans hend
    rw [hcall, Call.outlines_mk, Call.outlines_mk, hds]
    refine ⟨rfl, hxy.noteReads ?_ _, rfl⟩
    have hasking : (t.asking n).countMiss.frames ≠ [] := (t.asking_frames n).symm ▸ ht
    have hopen : (t.asking n).countMiss.memo.isPending n k = false :=
      ((t.grows_asking n).pending n k).trans hopen.1
    exact hy ▸ (hgrows'.leaving hopen hframes').frames_ne_nil hasking

theorem record_parallel
    (hbody : ∀ {room₁ room₂ : Nat}, room = room₁ + 1 → room₁ ≤ room₂ →
      ∀ (g : Group) (k : Context),
        Parallel o p room₂ Eq (p.recordGroup room₁ g k) (p.recordGroup room₂ g k))
    (hroom : room ≤ room') (n : String) (k : Context) :
    Parallel o p room' Eq (p.record room n k) (p.record room' n k) := by
  intro s t hbeside ht horderly v s' cs hrun hinside
  have hgoes : p.Goes (fun _ _ _ _ => True) n k s room (p.call room n k s) :=
    p.call_goes (fun _ _ _ _ _ => trivial) n k s
  have hcall : (((p.call room n k s).visit.answer, (p.call room n k s).visit.after),
      [p.call room n k s]) = ((.ok v, s'), cs) := hrun
  obtain ⟨hvisit, rfl⟩ := Prod.mk.inj hcall
  obtain ⟨hv, rfl⟩ := Prod.mk.inj hvisit
  obtain ⟨hanswer, hbeside', hsame⟩ :=
    hgoes.parallel hbody hroom hbeside ht horderly hv hinside
  refine ⟨v, _, [p.call room' n k t], Prod.ext (Prod.ext hanswer rfl) rfl, rfl, hbeside', ?_, hsame⟩
  exact (p.call_goes (H := fun _ _ _ _ => True) (fun _ _ _ _ _ => trivial) n k t).grows

theorem group_parallel
    (hnames : ∀ (n : String) (k : Context),
      Parallel o p room' Eq (p.record room n k) (p.record room' n k)) (g : Group) (k : Context) :
    Parallel o p room' Eq (p.recordGroup room g k) (p.recordGroup room' g k) :=
  (paralleling o p room').group (Likeness.keeps_identity _)
    (fun _ n k _ hkl => hkl ▸ hnames n k) g (i := ()) rfl

/-- A name whose evaluation goes well, without a cycle that leads out, does the same in a machine
beside it with at least as much room. -/
theorem names_parallel (o : Machine) (p : Program) {room room' : Nat} (hroom : room ≤ room')
    (n : String) (k : Context) :
    Parallel o p room' Eq (p.record room n k) (p.record room' n k) := by
  induction room generalizing room' n k with
  | zero => exact record_parallel (fun h => absurd h (Nat.zero_ne_add_one _)) hroom n k
  | succ room ih =>
    refine record_parallel (fun h hle g k => ?_) hroom n k
    cases h
    exact group_parallel (ih hle) g k

/-- Let the equations of a name be evaluated, in the middle of other evaluations, with a value.
The frame of the name is provisional in the end exactly if a cycle has led to an evaluation that
was pending before. If it is not, then the evaluation is what it is with nothing pending and no
frames: it answers the same value, has read the same, stores the same and learns the same. -/
theorem evaluated_alone (hs : s.Orderly p room) (hg : p.group? n = some g)
    (hmiss : (p.peek n k s).1 = .unknown) (hv : (p.demand room n k s).1 = .ok v) :
    ∃ f : Frame, (p.call room n k s).visit.course = .evaluated f ∧
      (f.provisional = true ↔
        ∃ q ∈ Call.cycles [p.call room n k s], s.memo.isPending q.1 q.2 = true) ∧
      (f.provisional = false →
        (p.valueOf n k s.alone).1 = .ok v ∧
        (p.call p.config.maxDepth n k s.alone).visit.course = .evaluated f ∧
        p.stores [p.call p.config.maxDepth n k s.alone] = p.stores [p.call room n k s] ∧
        (p.valueOf n k s.alone).2.memo.tries = (p.demand room n k s).2.memo.tries ∧
        (p.valueOf n k s.alone).2.dims = (p.demand room n k s).2.dims) := by
  obtain ⟨hpending, hmiss⟩ := unknown_of_peek hmiss
  cases room with
  | zero =>
    rw [← call_answer, (Answers.refused hg hpending hmiss).call] at hv
    cases hv
  | succ room =>
    have hlimit := hs.limit
    obtain ⟨room', hroom⟩ : ∃ r, p.config.maxDepth = r + 1 :=
      Nat.exists_eq_succ_of_ne_zero (by omega)
    have hle : room ≤ room' := by omega
    have halone : s.alone.Orderly p (room' + 1) := hroom ▸ .of_resting rfl rfl fun _ _ => rfl
    have hvalue : p.valueOf n k s.alone = p.demand (room' + 1) n k s.alone := by
      rw [valueOf, halone.room_eq]
    obtain ⟨r, b, cs, f, fs, ran, hrecord, -, hframes, -, hran, hcall⟩ :=
      p.call_evaluated room hg hpending hmiss
    obtain ⟨r', b', ds, f', fs', ran', hrecord', -, hframes', -, hran', hcall'⟩ :=
      p.call_evaluated room' (s := s.alone) (k := k) hg rfl hmiss
    have hprovisional := provisional_iff hs hpending hrecord hframes
    rw [← call_answer, hcall] at hv
    refine ⟨f, by rw [hcall]; rfl, ?_, fun hf => ?_⟩
    · rw [hcall, Call.cycles_mk]
      exact (List.append_nil _).symm ▸ hprovisional
    · have hinside : Call.Inside s cs := fun q hq => Bool.eq_false_iff.mpr fun hq' => by
        rw [hprovisional.mpr ⟨q, hq, hq'⟩] at hf
        cases hf
      obtain ⟨rfl, hds, x, y, hxy, -, hx, hend⟩ :=
        evaluated_parallel (group_parallel (names_parallel s p hle) g k) s.beside_alone halone
          hpending hrecord hframes hrecord' hframes' hinside (hran ▸ hv)
      obtain rfl := hran.symm.trans hx
      obtain rfl := hran'.symm.trans hend
      have hstores : p.stores [p.call (room' + 1) n k s.alone] =
          p.stores [p.call (room + 1) n k s] := by
        refine p.stores_congr ?_
        rw [hcall, hcall', Call.outlines_mk, Call.outlines_mk, hds]
        rfl
      obtain ⟨m, hm, htries⟩ := p.stores_replayed (room + 1) n k s s.memo rfl
      obtain ⟨m', hm', htries'⟩ := p.stores_replayed (room' + 1) n k s.alone s.memo rfl
      rw [hstores] at hm'
      cases hm.symm.trans hm'
      rw [hvalue, hroom]
      refine ⟨?_, by rw [hcall']; rfl, hstores, htries'.symm.trans htries, ?_⟩
      · rw [← call_answer, hcall']
        rfl
      · rw [← call_after, ← call_after, hcall, hcall']
        show (y.noteReads f'.reads).dims = (x.noteReads f'.reads).dims
        rw [noteReads_dims, noteReads_dims, hxy.dims]

/-- While `h` is being evaluated, `f` asks for `g`, and `g` for `f`; this cycle does not lead
out, so the value of `f` is the same without `h`. -/
theorem evaluated_alone_mirror :
    let p := mirror 10
    let s := Machine.initial.enter "h" .empty
    s.Orderly p 9 ∧ (p.peek "f" .empty s).1 = .unknown ∧
      Call.cycles [p.call 9 "f" .empty s] = [("f", .empty)] ∧
      (p.demand 9 "f" .empty s).1 = .ok (.special .loop) ∧
      (p.valueOf "f" .empty s.alone).1 = .ok (.special .loop) := by
  have hinitial : Machine.initial.Orderly (mirror 10) 10 := .of_resting rfl rfl fun _ _ => rfl
  have hs : (Machine.initial.enter "h" .empty).Orderly (mirror 10) 9 := hinitial.enter rfl
  have hcycles : Call.cycles [(mirror 10).call 9 "f" .empty (Machine.initial.enter "h" .empty)] =
      [("f", .empty)] := rfl
  obtain ⟨f, -, hprovisional, halone⟩ :=
    evaluated_alone (n := "f") (k := .empty) hs (v := .special .loop) rfl rfl rfl
  refine ⟨hs, rfl, hcycles, rfl, (halone (Bool.eq_false_iff.mpr fun hf => ?_)).1⟩
  obtain ⟨q, hq, hpending⟩ := hprovisional.mp hf
  rw [hcycles, List.mem_singleton] at hq
  subst hq
  cases hpending

end Program

end Intensional
