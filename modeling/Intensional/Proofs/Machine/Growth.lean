import Intensional.Proofs.Dimension.Numbering
import Intensional.Proofs.Machine.Readers

/-!
# What an evaluation leaves as it was

While code is evaluated the machine only grows (`Machine.Grows`): dimensions and readers are
added, every frame reads more and may become provisional, and cycles are counted. The frames
stay those of the same names, and the same evaluations are pending.

The evaluation of a name is one of a few things, and `Program.ask_cases` and
`Program.compute_cases` say once what each of them does.
-/

namespace Intensional

/-! ## Growing -/

/-- The frame of the same name, that has read more. -/
structure Frame.Grows (f g : Frame) : Prop where
  owner : f.owner = g.owner
  reads : ∀ d ∈ f.reads, d ∈ g.reads
  provisional : f.provisional = true → g.provisional = true

namespace Frame.Grows

variable {f g h : Frame}

theorem refl (f : Frame) : f.Grows f := ⟨rfl, fun _ hd => hd, id⟩

theorem trans (hfg : f.Grows g) (hgh : g.Grows h) : f.Grows h :=
  ⟨hfg.owner.trans hgh.owner, fun d hd => hgh.reads d (hfg.reads d hd),
    fun hf => hgh.provisional (hfg.provisional hf)⟩

theorem belongsTo (hfg : f.Grows g) (n : String) (k : Context) :
    f.belongsTo n k = g.belongsTo n k := by
  rw [Frame.belongsTo, Frame.belongsTo, hfg.owner]

theorem all_refl : ∀ fs : List Frame, List.Forall₂ Frame.Grows fs fs
  | [] => .nil
  | f :: fs => .cons (refl f) (all_refl fs)

theorem all_trans {fs gs : List Frame} (h : List.Forall₂ Frame.Grows fs gs) :
    ∀ {hs : List Frame}, List.Forall₂ Frame.Grows gs hs → List.Forall₂ Frame.Grows fs hs := by
  induction h with
  | nil => intro hs h'; exact h'
  | cons hfg _ ih =>
    intro hs h'
    cases h' with
    | cons hgh h' => exact .cons (hfg.trans hgh) (ih h')

end Frame.Grows

namespace Machine

/-- What an evaluation of code can do to a machine. Only the innermost frame reads. -/
structure Grows (s s' : Machine) : Prop where
  dims : s.dims.Within s'.dims
  readers (m n : String) : AskedBy s.readers m n → AskedBy s'.readers m n
  pending (n : String) (k : Context) : s'.memo.isPending n k = s.memo.isPending n k
  frames : List.Forall₂ Frame.Grows s.frames s'.frames
  outer : s'.frames.tail.map Frame.reads = s.frames.tail.map Frame.reads
  depth : s'.depth = s.depth
  loops : s.stats.loops ≤ s'.stats.loops

variable {s s' s'' : Machine} {n m : String} {k : Context}

namespace Grows

theorem refl (s : Machine) : s.Grows s :=
  ⟨.refl _, fun _ _ => id, fun _ _ => rfl, Frame.Grows.all_refl _, rfl, rfl, Nat.le_refl _⟩

theorem trans (h : s.Grows s') (h' : s'.Grows s'') : s.Grows s'' :=
  ⟨h.dims.trans h'.dims, fun m n hmn => h'.readers m n (h.readers m n hmn),
    fun n k => (h'.pending n k).trans (h.pending n k),
    Frame.Grows.all_trans h.frames h'.frames, h'.outer.trans h.outer, h'.depth.trans h.depth,
    Nat.le_trans h.loops h'.loops⟩

theorem of_stats {stats : Stats} (h : s.stats.loops ≤ stats.loops) :
    s.Grows { s with stats := stats } :=
  ⟨.refl _, fun _ _ => id, fun _ _ => rfl, Frame.Grows.all_refl _, rfl, rfl, h⟩

theorem leads (h : s.Grows s') (hmn : s.Leads m n) : s'.Leads m n :=
  Relation.ReflTransGen.mono h.readers _ _ hmn

theorem reader (h : s.Grows s') : s'.reader = s.reader := by
  have all : ∀ {fs gs : List Frame}, List.Forall₂ Frame.Grows fs gs →
      (gs.findSome? fun f => f.owner.map (·.1)) = fs.findSome? fun f => f.owner.map (·.1) := by
    intro fs gs h
    induction h with
    | nil => rfl
    | cons hfg _ ih => rw [List.findSome?_cons, List.findSome?_cons, hfg.owner, ih]
  exact all h.frames

theorem frames_ne_nil (h : s.Grows s') (hs : s.frames ≠ []) : s'.frames ≠ [] := by
  intro hnil
  have hframes := h.frames
  rw [hnil] at hframes
  exact hs (List.forall₂_nil_right_iff.mp hframes)

/-- The innermost frame has grown; those further out have read nothing. -/
theorem innermost (h : s.Grows s') {f : Frame} {fs : List Frame} (hs : s.frames = f :: fs) :
    ∃ g gs, s'.frames = g :: gs ∧ f.Grows g ∧ List.Forall₂ Frame.Grows fs gs ∧
      gs.map Frame.reads = fs.map Frame.reads := by
  have hframes := h.frames
  have houter := h.outer
  rw [hs] at hframes houter
  obtain ⟨g, gs, hfg, hgs, heq⟩ := List.forall₂_cons_left_iff.mp hframes
  rw [heq] at houter
  exact ⟨g, gs, heq, hfg, hgs, houter⟩

/-- Pushing a frame, growing and dropping the frame again comes to growing. -/
theorem popped {f : Frame} (h : (s.push f).Grows s') {g : Frame} {gs : List Frame}
    (hframes : s'.frames = g :: gs) : s.Grows { s' with frames := gs } := by
  obtain ⟨g', gs', heq, -, hgs, houter⟩ := h.innermost rfl
  cases hframes.symm.trans heq
  refine ⟨h.dims, h.readers, h.pending, hgs, ?_, h.depth, h.loops⟩
  rw [List.map_tail, List.map_tail]
  exact congrArg List.tail houter

end Grows

/-! ## Reads -/

theorem noteReads_frames (s : Machine) (dims : IndexSet) :
    (s.noteReads dims).frames = match s.frames with
      | [] => []
      | f :: fs => { f with reads := dims.union f.reads } :: fs := by
  rw [noteReads]
  split <;> simp_all

@[simp] theorem noteReads_dims (s : Machine) (dims : IndexSet) :
    (s.noteReads dims).dims = s.dims := by
  rw [noteReads]
  split <;> rfl

@[simp] theorem noteReads_memo (s : Machine) (dims : IndexSet) :
    (s.noteReads dims).memo = s.memo := by
  rw [noteReads]
  split <;> rfl

@[simp] theorem noteReads_readers (s : Machine) (dims : IndexSet) :
    (s.noteReads dims).readers = s.readers := by
  rw [noteReads]
  split <;> rfl

@[simp] theorem noteReads_depth (s : Machine) (dims : IndexSet) :
    (s.noteReads dims).depth = s.depth := by
  rw [noteReads]
  split <;> rfl

@[simp] theorem noteReads_stats (s : Machine) (dims : IndexSet) :
    (s.noteReads dims).stats = s.stats := by
  rw [noteReads]
  split <;> rfl

theorem grows_noteReads (s : Machine) (dims : IndexSet) : s.Grows (s.noteReads dims) := by
  refine ⟨?_, ?_, ?_, ?_, ?_, noteReads_depth s dims, ?_⟩
  · rw [noteReads_dims]
    exact .refl _
  · rw [noteReads_readers]
    exact fun _ _ => id
  · rw [noteReads_memo]
    exact fun _ _ => rfl
  · rw [noteReads_frames]
    cases s.frames with
    | nil => exact .nil
    | cons f fs =>
      refine .cons ⟨rfl, fun d hd => ?_, id⟩ (Frame.Grows.all_refl fs)
      exact IndexSet.mem_union.mpr (.inr hd)
  · rw [noteReads_frames]
    cases s.frames <;> rfl
  · exact Nat.le_of_eq (congrArg Stats.loops (s.noteReads_stats dims)).symm

/-! ## Bodies under changed bindings -/

section Body

variable {delta : Context} {f : Frame} {fs : List Frame}

/-- A state in which a body under changed bindings has ended, with its frame `f` in front of `fs`.
What it has read of the bindings stays inside. -/
def endingBody (s : Machine) (delta : Context) (f : Frame) (fs : List Frame) : Machine :=
  { s with frames := fs }.noteReads (f.reads.filter fun d => !delta.contains d)

@[simp] theorem endingBody_dims : (s.endingBody delta f fs).dims = s.dims := noteReads_dims _ _
@[simp] theorem endingBody_memo : (s.endingBody delta f fs).memo = s.memo := noteReads_memo _ _
@[simp] theorem endingBody_readers : (s.endingBody delta f fs).readers = s.readers :=
  noteReads_readers _ _
@[simp] theorem endingBody_stats : (s.endingBody delta f fs).stats = s.stats := noteReads_stats _ _

theorem grows_endingBody : List.Forall₂ Frame.Grows fs (s.endingBody delta f fs).frames :=
  (grows_noteReads { s with frames := fs } _).frames

theorem endingBody_frames {g : Frame} {gs : List Frame}
    (h : (s.endingBody delta f fs).frames = g :: gs) : ∃ g₀, fs = g₀ :: gs ∧
      ∀ d, d ∈ g.reads ↔ (d ∈ f.reads ∧ delta.contains d = false) ∨ d ∈ g₀.reads := by
  rw [endingBody, noteReads_frames] at h
  cases fs with
  | nil => cases h
  | cons g₀ fs =>
    cases h
    refine ⟨g₀, rfl, fun d => ?_⟩
    rw [IndexSet.mem_union, IndexSet.mem_filter, Bool.not_eq_true']

end Body

/-! ## Asking -/

/-- A state in which an evaluation of `name` has been asked for. -/
def asking (s : Machine) (name : String) : Machine := s.countEvaluation.noteReader name

theorem noteReader_eq (s : Machine) (name : String) :
    s.noteReader name = s ∨ ∃ reader, s.reader = some reader ∧ reader ≠ name ∧
      s.noteReader name = { s with
        readers := s.readers.put name (((s.readers.get? name).getD []).insert reader) } := by
  rw [noteReader]
  split
  · exact .inl rfl
  · rename_i reader hreader
    split
    · exact .inl rfl
    · rename_i hne
      exact .inr ⟨reader, hreader, hne, rfl⟩

theorem asking_memo (s : Machine) (name : String) : (s.asking name).memo = s.memo := by
  rcases s.countEvaluation.noteReader_eq name with h | ⟨_, _, _, h⟩ <;> rw [asking, h] <;> rfl

theorem asking_dims (s : Machine) (name : String) : (s.asking name).dims = s.dims := by
  rcases s.countEvaluation.noteReader_eq name with h | ⟨_, _, _, h⟩ <;> rw [asking, h] <;> rfl

theorem asking_frames (s : Machine) (name : String) : (s.asking name).frames = s.frames := by
  rcases s.countEvaluation.noteReader_eq name with h | ⟨_, _, _, h⟩ <;> rw [asking, h] <;> rfl

@[simp] theorem asking_depth (s : Machine) (name : String) : (s.asking name).depth = s.depth := by
  rcases s.countEvaluation.noteReader_eq name with h | ⟨_, _, _, h⟩ <;> rw [asking, h] <;> rfl

theorem asking_loops (s : Machine) (name : String) :
    (s.asking name).stats.loops = s.stats.loops := by
  rcases s.countEvaluation.noteReader_eq name with h | ⟨_, _, _, h⟩ <;> rw [asking, h] <;> rfl

theorem grows_asking (s : Machine) (name : String) : s.Grows (s.asking name) := by
  refine ⟨?_, fun m n hmn => ?_, ?_, ?_, ?_, s.asking_depth name, ?_⟩
  · rw [asking_dims]
    exact .refl _
  · rcases s.countEvaluation.noteReader_eq name with h | ⟨reader, _, _, h⟩
    · rw [asking, h]
      exact hmn
    · rw [asking, h]
      show n ∈ ((Assoc.put _ _ _).get? m).getD []
      rw [Assoc.get?_put]
      split
      · rename_i hm
        rw [beq_iff_eq] at hm
        exact List.mem_insert_of_mem (hm ▸ hmn)
      · exact hmn
  · rw [asking_memo]
    exact fun _ _ => rfl
  · rw [asking_frames]
    exact Frame.Grows.all_refl _
  · rw [asking_frames]
  · exact Nat.le_of_eq (s.asking_loops name).symm

/-- The name under evaluation is a reader of every name that it asks for. -/
theorem leads_asking {q : String} (h : s.reader = some q) (name : String) :
    (s.asking name).Leads name q := by
  by_cases hq : q = name
  · exact hq ▸ .refl
  · refine .single ?_
    have heq : s.asking name = { s.countEvaluation with
        readers := s.readers.put name (((s.readers.get? name).getD []).insert q) } := by
      have hreader : s.countEvaluation.reader = some q := h
      rw [asking, noteReader, hreader]
      simp only [hq, ↓reduceIte]
      rfl
    rw [heq]
    show q ∈ ((Assoc.put _ _ _).get? name).getD []
    rw [Assoc.get?_put, BEq.refl]
    exact List.mem_insert_self ..

/-! ## Cycles -/

/-- The frames further in than the one of this name at this context are provisional. -/
def Marked (n : String) (k : Context) : List Frame → Prop
  | [] => True
  | f :: fs => f.belongsTo n k = true ∨ f.provisional = true ∧ Marked n k fs

theorem Marked.of_grows {fs gs : List Frame} (h : List.Forall₂ Frame.Grows fs gs) :
    Marked n k fs → Marked n k gs := by
  induction h with
  | nil => exact id
  | cons hfg _ ih =>
    rintro (hf | ⟨hf, hfs⟩)
    · exact .inl (hfg.belongsTo n k ▸ hf)
    · exact .inr ⟨hfg.provisional hf, ih hfs⟩

theorem marked_markProvisional (n : String) (k : Context) :
    ∀ fs : List Frame, Marked n k (Frame.markProvisional n k fs)
  | [] => trivial
  | f :: fs => by
      rw [Frame.markProvisional]
      split
      · rename_i hf
        exact .inl hf
      · exact .inr ⟨rfl, marked_markProvisional n k fs⟩

theorem grows_markProvisional (n : String) (k : Context) :
    ∀ fs : List Frame, List.Forall₂ Frame.Grows fs (Frame.markProvisional n k fs)
  | [] => .nil
  | f :: fs => by
      rw [Frame.markProvisional]
      split
      · exact Frame.Grows.all_refl _
      · exact .cons ⟨rfl, fun _ hd => hd, fun _ => rfl⟩ (grows_markProvisional n k fs)

theorem map_reads_markProvisional (n : String) (k : Context) :
    ∀ fs : List Frame, (Frame.markProvisional n k fs).map Frame.reads = fs.map Frame.reads
  | [] => rfl
  | f :: fs => by
      rw [Frame.markProvisional]
      split
      · rfl
      · rw [List.map_cons, List.map_cons, map_reads_markProvisional n k fs]

/-- A state in which a cycle has been met that leads back to this name at this context. -/
def looping (s : Machine) (n : String) (k : Context) : Machine :=
  { s.countLoop with frames := Frame.markProvisional n k s.frames }

theorem grows_looping (s : Machine) (n : String) (k : Context) : s.Grows (s.looping n k) := by
  refine ⟨.refl _, fun _ _ => id, fun _ _ => rfl, grows_markProvisional n k s.frames, ?_, rfl,
    Nat.le_succ _⟩
  rw [List.map_tail, List.map_tail]
  exact congrArg List.tail (map_reads_markProvisional n k s.frames)

/-! ## Entering and leaving -/

theorem isPending_enter {l : Context} : (s.enter n k).memo.isPending m l =
    ((n, k) == (m, l) || s.memo.isPending m l) := Memo.isPending_start

/-- A state in which the evaluation of a name has ended that was asked for at this depth, with
the frames that are left. -/
def leaving (s : Machine) (n : String) (k : Context) (depth : Nat) (fs : List Frame) : Machine :=
  { s with frames := fs, memo := s.memo.finish n k, depth }

theorem leave_eq {f : Frame} {fs : List Frame} (h : s.frames = f :: fs) (n : String)
    (k : Context) (depth : Nat) : s.leave n k depth = (f, s.leaving n k depth fs) := by
  rw [leave, pop, h]
  rfl

/-- Entering, growing and leaving comes to growing, if the name was not pending before. -/
theorem Grows.leaving {f : Frame} {fs : List Frame} (h : (s.enter n k).Grows s')
    (hpending : s.memo.isPending n k = false) (hframes : s'.frames = f :: fs) :
    s.Grows (s'.leaving n k s.depth fs) := by
  have hpushed : (s.push (.new (some (n, k)))).Grows
      { s' with memo := s.memo, depth := s.depth } :=
    ⟨h.dims, h.readers, fun _ _ => rfl, h.frames, h.outer, rfl, h.loops⟩
  have hpop := hpushed.popped hframes
  refine ⟨h.dims, h.readers, fun m l => ?_, hpop.frames, hpop.outer, rfl, h.loops⟩
  show (s'.memo.finish n k).isPending m l = _
  rw [Memo.isPending_finish, h.pending, isPending_enter]
  cases heq : (n, k) == (m, l) with
  | false => rfl
  | true =>
    rw [beq_pair, Bool.and_eq_true, beq_iff_eq] at heq
    obtain ⟨hn, hk⟩ := heq
    have : s.memo.isPending m l = s.memo.isPending n k :=
      (congrArg (s.memo.isPending · l) hn.symm).trans (Memo.isPending_congr hk).symm
    rw [this, hpending]
    rfl

end Machine

/-! ## Evaluation of a name, case by case -/

namespace Program

variable {p : Program} {n : String} {k : Context} {s : Machine}

theorem ask_undefined (hg : p.group? n = none) (evaluate : Group → EvalM Value) (s : Machine) :
    p.ask n k evaluate s = (.ok (.special .undef), s.asking n) := by
  unfold ask
  rw [hg]
  rfl

/-- A name that has equations is answered by what is known of it, and evaluated if nothing is. -/
theorem ask_defined {g : Group} (hg : p.group? n = some g) (evaluate : Group → EvalM Value)
    (s : Machine) : p.ask n k evaluate s =
      match p.peek n k s with
      | (.known v, path) => (.ok v, (s.asking n).countHit.noteReads (.ofList path))
      | (.pending, _) => (.ok (.special .loop), ((s.asking n).looping n k).noteReads k.dims)
      | (.unknown, _) => evaluate g (s.asking n).countMiss := by
  have hask : ∀ (answer : Option Value) {s' : Machine},
      p.answer? n k (s.asking n) = (.ok answer, s') →
        p.ask n k evaluate s = (answer.elim (evaluate g) pure) s' := by
    intro answer s' hanswer
    unfold ask
    rw [hg]
    refine (Action.bind_of_ok hanswer _).trans ?_
    cases answer <;> rfl
  have hsame : p.peek n k (s.asking n) = p.peek n k s := by
    rw [peek, peek, s.asking_memo]
  rcases hpeek : p.peek n k s with ⟨v | _ | _, path⟩
  · refine hask (some v) ?_
    rw [answer?, hsame, hpeek]
  · refine hask (some (.special .loop)) ?_
    rw [answer?, hsame, hpeek]
    rfl
  · refine hask none ?_
    rw [answer?, hsame, hpeek]

/-- A name that is asked for is undefined, or remembered, or pending, or evaluated. -/
theorem ask_cases (p : Program) (n : String) (k : Context) (evaluate : Group → EvalM Value)
    (s : Machine) :
    (p.group? n = none ∧ p.ask n k evaluate s = (.ok (.special .undef), s.asking n)) ∨
    (∃ g, p.group? n = some g ∧
      ((∃ v path, p.config.caching = true ∧ s.memo.known? n k = some (v, path) ∧
        p.ask n k evaluate s =
          (.ok v, (s.asking n).countHit.noteReads (.ofList path))) ∨
      (s.memo.isPending n k = true ∧ p.ask n k evaluate s =
        (.ok (.special .loop), ((s.asking n).looping n k).noteReads k.dims)) ∨
      (s.memo.isPending n k = false ∧
        (p.config.caching = true → s.memo.known? n k = none) ∧
          p.ask n k evaluate s = evaluate g (s.asking n).countMiss))) := by
  cases hg : p.group? n with
  | none => exact .inl ⟨rfl, ask_undefined hg evaluate s⟩
  | some g =>
    refine .inr ⟨g, rfl, ?_⟩
    rw [ask_defined hg]
    rcases p.peek_cases n k s with
      ⟨v, path, hcaching, hv, hpeek⟩ | ⟨hpending, path, hpeek⟩ | ⟨hpending, hnone, path, hpeek⟩
    · exact .inl ⟨v, path, hcaching, hv, by rw [hpeek]⟩
    · exact .inr (.inl ⟨hpending, by rw [hpeek]⟩)
    · exact .inr (.inr ⟨hpending, hnone, by rw [hpeek]⟩)

theorem ask_grows {evaluate : Group → EvalM Value}
    (hevaluate : ∀ (g : Group) (s : Machine), p.group? n = some g →
      s.memo.isPending n k = false → s.Grows (evaluate g s).2) (s : Machine) :
    (s.asking n).Grows (p.ask n k evaluate s).2 := by
  rcases p.ask_cases n k evaluate s with ⟨-, hask⟩ | ⟨g, hg, ⟨v, path, -, -, hask⟩ |
    ⟨-, hask⟩ | ⟨hpending, -, hask⟩⟩ <;> rw [hask]
  · exact .refl _
  · have hhit : (s.asking n).Grows (s.asking n).countHit := .of_stats (Nat.le_refl _)
    exact hhit.trans (Machine.grows_noteReads _ _)
  · exact (Machine.grows_looping (s.asking n) n k).trans (Machine.grows_noteReads _ _)
  · have hmiss : (s.asking n).Grows (s.asking n).countMiss := .of_stats (Nat.le_refl _)
    have hmemo : (s.asking n).countMiss.memo = s.memo := s.asking_memo n
    exact hmiss.trans (hevaluate g _ hg (hmemo ▸ hpending))

/-- What becomes of a name, asked for at this depth, after its body has answered `r` and reached
`b`, with the frame `f` of the name in front of `fs`: a fault is passed on; a value is answered,
and remembered unless the frame is provisional; and remembering it may be a fault. -/
inductive Concludes (p : Program) (n : String) (k : Context) (depth : Nat) (b : Machine)
    (f : Frame) (fs : List Frame) : Except Fault Value → Except Fault Value × Machine → Prop
  | failed (e : Fault) :
    Concludes p n k depth b f fs (.error e) (.error e, b.leaving n k depth fs)
  | passed (v : Value) : (p.config.caching = true → f.provisional = true) →
    Concludes p n k depth b f fs (.ok v) (.ok v, (b.leaving n k depth fs).noteReads f.reads)
  | refused (v : Value) (e : Fault) : p.config.caching = true →
    (b.leaving n k depth fs).memo.store n k f.reads v = .error e →
    Concludes p n k depth b f fs (.ok v) (.error e, b.leaving n k depth fs)
  | stored (v : Value) (memo : Memo) : p.config.caching = true → f.provisional = false →
    (b.leaving n k depth fs).memo.store n k f.reads v = .ok memo →
    Concludes p n k depth b f fs (.ok v)
      (.ok v, ({ b.leaving n k depth fs with memo := memo } : Machine).countStore.noteReads f.reads)

/-- What becomes of a name whose body has answered `r`, after its frame `f` has been given up. -/
def conclude (p : Program) (n : String) (k : Context) (f : Frame) (r : Except Fault Value)
    (s : Machine) : Except Fault Value × Machine :=
  match r with
  | .error e => (.error e, s)
  | .ok v =>
    if p.config.caching && !f.provisional then
      match s.memo.store n k f.reads v with
      | .error e => (.error e, s)
      | .ok memo => (.ok v, ({ s with memo := memo } : Machine).countStore.noteReads f.reads)
    else (.ok v, s.noteReads f.reads)

theorem compute_eq {body : EvalM Value} {r : Except Fault Value} {b : Machine} {f : Frame}
    {fs : List Frame} (hbody : body (s.enter n k) = (r, b)) (hframes : b.frames = f :: fs) :
    p.compute n k body s = p.conclude n k f r (b.leaving n k s.depth fs) := by
  simp only [compute, hbody, Machine.leave_eq hframes]
  rfl

theorem compute_concludes {body : EvalM Value} {r : Except Fault Value} {b : Machine} {f : Frame}
    {fs : List Frame} (hbody : body (s.enter n k) = (r, b)) (hframes : b.frames = f :: fs) :
    Concludes p n k s.depth b f fs r (p.compute n k body s) := by
  rw [compute_eq hbody hframes]
  cases r with
  | error e => exact .failed e
  | ok v =>
    rw [conclude]
    split
    · rename_i hstore
      rw [Bool.and_eq_true, Bool.not_eq_true'] at hstore
      split
      · rename_i e he
        exact .refused v e hstore.1 he
      · rename_i memo hmemo
        exact .stored v memo hstore.1 hstore.2 hmemo
    · rename_i hstore
      refine .passed v fun hcaching => ?_
      rw [hcaching, Bool.true_and, Bool.not_eq_true', Bool.not_eq_false] at hstore
      exact hstore

namespace Concludes

variable {b : Machine} {f : Frame} {fs : List Frame} {r : Except Fault Value} {depth : Nat}
  {ran : Except Fault Value × Machine}

theorem grows (h : Concludes p n k s.depth b f fs r ran) (hb : (s.enter n k).Grows b)
    (hpending : s.memo.isPending n k = false) (hframes : b.frames = f :: fs) :
    s.Grows ran.2 := by
  have hleft := hb.leaving hpending hframes
  cases h with
  | failed e => exact hleft
  | passed v _ => exact hleft.trans (Machine.grows_noteReads _ _)
  | refused v e _ _ => exact hleft
  | stored v memo _ _ hmemo =>
    refine Machine.Grows.trans ?_ (Machine.grows_noteReads _ _)
    refine ⟨hleft.dims, hleft.readers, fun m l => ?_, hleft.frames, hleft.outer, hleft.depth,
      hleft.loops⟩
    rw [← hleft.pending m l]
    show memo.isPending m l = _
    rw [Memo.isPending, Memo.isPending, Memo.pending_store hmemo]

theorem settled (h : Concludes p n k depth b f fs r ran) : ran.2.dims = b.dims ∧
    ran.2.readers = b.readers ∧ ran.2.stats.loops = b.stats.loops := by
  cases h with
  | failed e => exact ⟨rfl, rfl, rfl⟩
  | passed v _ =>
    rw [Machine.noteReads_dims, Machine.noteReads_readers, Machine.noteReads_stats]
    exact ⟨rfl, rfl, rfl⟩
  | refused v e _ _ => exact ⟨rfl, rfl, rfl⟩
  | stored v memo _ _ _ =>
    rw [Machine.noteReads_dims, Machine.noteReads_readers, Machine.noteReads_stats]
    exact ⟨rfl, rfl, rfl⟩

theorem outer (h : Concludes p n k depth b f fs r ran) :
    List.Forall₂ Frame.Grows fs ran.2.frames := by
  cases h with
  | failed e => exact Frame.Grows.all_refl _
  | passed v _ => exact (Machine.grows_noteReads (b.leaving n k depth fs) _).frames
  | refused v e _ _ => exact Frame.Grows.all_refl _
  | stored v memo _ _ _ =>
    exact (Machine.grows_noteReads
      ({ b.leaving n k depth fs with memo := memo } : Machine).countStore _).frames

/-- If a value is answered, it is that of the body, and the next frame reads what the frame of
the name has read. -/
theorem answered (h : Concludes p n k depth b f fs r ran) {v : Value} (hv : ran.1 = .ok v) :
    r = .ok v ∧ ∃ c : Machine, c.frames = fs ∧ ran.2 = c.noteReads f.reads := by
  cases h with
  | failed e => cases hv
  | passed w _ => cases hv; exact ⟨rfl, b.leaving n k depth fs, rfl, rfl⟩
  | refused w e _ _ => cases hv
  | stored w memo _ _ _ =>
    cases hv
    exact ⟨rfl, ({ b.leaving n k depth fs with memo := memo } : Machine).countStore, rfl, rfl⟩

/-- What is remembered afterwards was remembered before, or is the value that was answered. -/
theorem recalled (h : Concludes p n k depth b f fs r ran) {m : String} {l : Context} {w : Value}
    {path : List Dim} (hl : ran.2.memo.known? m l = some (w, path)) :
    b.memo.known? m l = some (w, path) ∨
      p.config.caching = true ∧ f.provisional = false ∧ r = .ok w ∧ ran.1 = .ok w ∧ m = n ∧
        Likeness.equality.Agree (· ∈ path) k l ∧ ∀ d ∈ f.reads, d ∈ path := by
  cases h with
  | failed e => exact .inl hl
  | passed v _ =>
    rw [Machine.noteReads_memo] at hl
    exact .inl hl
  | refused v e _ _ => exact .inl hl
  | stored v memo hcaching hprov hmemo =>
    rw [Machine.noteReads_memo] at hl
    rcases Memo.known?_store hmemo hl with hold | ⟨hm, rfl, hagree, hreads⟩
    · exact .inl hold
    · exact .inr ⟨hcaching, hprov, rfl, rfl, hm, hagree, hreads⟩

end Concludes

end Program

end Intensional
