import Intensional.Proofs.Evaluation.Keeping

/-!
# The calls of an evaluation

An evaluation calls names, and what it calls calls further names. `Program.call` is the evaluation
of a name with all of this written down: every call has where it was made and with how much room,
how it went, where it ended, and the calls that its equations have made.

The record is kept by a monad of its own, in which code is evaluated like in any other
(`Recorded`). Leaving it out gives the evaluation back (`Task.record_run`).

Properties of what is called are shown stretch by stretch. A `Law` is a property of stretches
that holds where nothing is called and of two stretches in a row; if every call obeys it when its
equations do (`Program.Goes` says in which ways a call can go), all evaluations obey it
(`Law.call`).
-/

namespace Intensional

/-- How the evaluation of a name has gone. -/
inductive Course where
  /-- The name has no equations. -/
  | undefined
  /-- There was a remembered value. -/
  | remembered
  /-- The evaluation was pending already: a cycle. -/
  | circular
  /-- There was no room for another evaluation. -/
  | refused
  /-- The equations were evaluated, in a frame that was `f` in the end. -/
  | evaluated (f : Frame)

/-- The evaluation of a name: where it began and with how much room, how it went, and what came
of it. -/
structure Visit where
  name : String
  context : Context
  room : Nat
  before : Machine
  course : Course
  answer : Except Fault Value
  after : Machine

/-- The evaluation of a name, with the calls that its equations have made. -/
inductive Call where
  | mk (visit : Visit) (inner : List Call)

namespace Call

def visit : Call → Visit
  | mk v _ => v

mutual

/-- All evaluations that belong to a call, in the order in which they ended. -/
def visits : Call → List Visit
  | mk v inner => visitsAll inner ++ [v]

def visitsAll : List Call → List Visit
  | [] => []
  | c :: cs => visits c ++ visitsAll cs

end

@[simp] theorem visitsAll_append (cs ds : List Call) :
    visitsAll (cs ++ ds) = visitsAll cs ++ visitsAll ds := by
  induction cs with
  | nil => rfl
  | cons c cs ih => rw [List.cons_append, visitsAll, visitsAll, ih, List.append_assoc]

@[simp] theorem visitsAll_singleton (c : Call) : visitsAll [c] = c.visits :=
  List.append_nil c.visits

end Call

/-! ## Steps with a record -/

/-- A step of an evaluation, and the calls that it makes. -/
def Recorded (α : Type) : Type := Machine → (Except Fault α × Machine) × List Call

namespace Recorded

variable {α β : Type}

instance : Monad Recorded where
  pure a := fun s => ((.ok a, s), [])
  bind x f := fun s =>
    match x s with
    | ((.ok a, s'), cs) => ((f a s').1, cs ++ (f a s').2)
    | ((.error e, s'), cs) => ((.error e, s'), cs)

/-- The step without the record. -/
def run (x : Recorded α) : EvalM α := fun s => (x s).1

/-- A step that makes no calls. -/
def silent (x : EvalM α) : Recorded α := fun s => (x s, [])

/-- A step that is one call. -/
def single (call : Machine → Call) : Recorded Value := fun s =>
  (((call s).visit.answer, (call s).visit.after), [call s])

instance : Evaluator Recorded where
  note dims := silent (EvalM.noteReads dims)
  intern v := silent (EvalM.internValue v)
  beneath delta x := fun s => (Evaluator.beneath delta x.run s, (x (s.push (.new none))).2)

theorem bind_of_ok {x : Recorded α} {s s' : Machine} {a : α} {cs : List Call}
    (h : x s = ((.ok a, s'), cs)) (f : α → Recorded β) :
    (x >>= f) s = ((f a s').1, cs ++ (f a s').2) := by
  show (match x s with
    | ((.ok a, s'), cs) => ((f a s').1, cs ++ (f a s').2)
    | ((.error e, s'), cs) => ((.error e, s'), cs)) = _
  rw [h]

theorem bind_of_error {x : Recorded α} {s s' : Machine} {e : Fault} {cs : List Call}
    (h : x s = ((.error e, s'), cs)) (f : α → Recorded β) :
    (x >>= f) s = ((.error e, s'), cs) := by
  show (match x s with
    | ((.ok a, s'), cs) => ((f a s').1, cs ++ (f a s').2)
    | ((.error e, s'), cs) => ((.error e, s'), cs)) = _
  rw [h]

/-- If a second step answers, the first one has. -/
theorem of_bind_ok {x : Recorded α} {f : α → Recorded β} {s s' : Machine} {b : β}
    {cs : List Call} (h : (x >>= f) s = ((.ok b, s'), cs)) :
    ∃ a s₁ cs₁ cs₂, x s = ((.ok a, s₁), cs₁) ∧ f a s₁ = ((.ok b, s'), cs₂) ∧
      cs = cs₁ ++ cs₂ := by
  rcases hx : x s with ⟨⟨e | a, s₁⟩, cs₁⟩
  · rw [bind_of_error hx] at h
    cases h
  · rw [bind_of_ok hx] at h
    obtain ⟨hf, rfl⟩ := Prod.mk.inj h
    exact ⟨a, s₁, cs₁, _, rfl, Prod.ext hf rfl, rfl⟩

theorem beneath_apply {delta : Context} {x : Recorded Value} {s b : Machine}
    {r : Except Fault Value} {cs : List Call} {f : Frame} {fs : List Frame}
    (hx : x (s.push (.new none)) = ((r, b), cs)) (hframes : b.frames = f :: fs) :
    (Evaluator.beneath delta x : Recorded Value) s = ((r, b.endingBody delta f fs), cs) := by
  show ((Evaluator.beneath delta x.run : EvalM Value) s, (x (s.push (.new none))).2) = _
  rw [EvalM.beneath_apply (congrArg Prod.fst hx) hframes, hx]

end Recorded

/-! ## The record of a name -/

namespace Machine

/-- A state in which the equations of a name begin to be evaluated. -/
def beginning (s : Machine) (n : String) (k : Context) : Machine :=
  (s.asking n).countMiss.enter n k

variable (s : Machine) (n : String) (k : Context)

@[simp] theorem beginning_frames : (s.beginning n k).frames = .new (some (n, k)) :: s.frames :=
  congrArg (_ :: ·) (s.asking_frames n)

@[simp] theorem beginning_memo : (s.beginning n k).memo = s.memo.start n k :=
  congrArg (Memo.start · n k) (s.asking_memo n)

@[simp] theorem beginning_dims : (s.beginning n k).dims = s.dims := s.asking_dims n

theorem beginning_reader : (s.beginning n k).reader = some n := rfl

end Machine

namespace Program

/-- A call of a name. Where its equations are evaluated, `evaluate` says how this has gone and
what they have called. -/
def callBy (p : Program) (room : Nat) (n : String) (k : Context) (s : Machine)
    (evaluate : Group → Course × List Call) : Call :=
  let went : Course × List Call :=
    match p.group? n with
    | none => (.undefined, [])
    | some g =>
      match (p.peek n k s).1 with
      | .known _ => (.remembered, [])
      | .pending => (.circular, [])
      | .unknown => evaluate g
  let ran := p.demand room n k s
  .mk ⟨n, k, room, s, went.1, ran.1, ran.2⟩ went.2

/-- The evaluation of a name, if at most `room` evaluations may be nested from here. -/
def call (p : Program) : Nat → String → Context → Machine → Call
  | 0, n, k, s => p.callBy 0 n k s fun _ => (.refused, [])
  | room + 1, n, k, s => p.callBy (room + 1) n k s fun g =>
      let ran := g.interpret
        (Code.interpret p.vocabulary.operators fun n k => Recorded.single (p.call room n k)) k
        (s.beginning n k)
      (.evaluated (ran.1.2.leave n k s.depth).1, ran.2)

def record (p : Program) (room : Nat) (n : String) (k : Context) : Recorded Value :=
  .single (p.call room n k)

def recordCode (p : Program) (room : Nat) (c : Code) (k : Context) : Recorded Value :=
  c.interpret p.vocabulary.operators (p.record room) k

def recordGroup (p : Program) (room : Nat) (g : Group) (k : Context) : Recorded Value :=
  g.interpret (Code.interpret p.vocabulary.operators (p.record room)) k

variable {p : Program} {room : Nat} {n : String} {k : Context} {s : Machine} {g : Group}

theorem call_succ (p : Program) (room : Nat) (n : String) (k : Context) (s : Machine) :
    p.call (room + 1) n k s = p.callBy (room + 1) n k s fun g =>
      (.evaluated ((p.recordGroup room g k (s.beginning n k)).1.2.leave n k s.depth).1,
        (p.recordGroup room g k (s.beginning n k)).2) := rfl

/-- The call of a name ends as its evaluation does. -/
theorem call_visit (p : Program) (room : Nat) (n : String) (k : Context) (s : Machine) :
    ∃ course, (p.call room n k s).visit =
      ⟨n, k, room, s, course, (p.demand room n k s).1, (p.demand room n k s).2⟩ := by
  cases room with
  | zero => exact ⟨_, rfl⟩
  | succ room => exact ⟨_, rfl⟩

theorem call_answer (p : Program) (room : Nat) (n : String) (k : Context) (s : Machine) :
    (p.call room n k s).visit.answer = (p.demand room n k s).1 := by
  obtain ⟨course, h⟩ := p.call_visit room n k s
  rw [h]

theorem call_after (p : Program) (room : Nat) (n : String) (k : Context) (s : Machine) :
    (p.call room n k s).visit.after = (p.demand room n k s).2 := by
  obtain ⟨course, h⟩ := p.call_visit room n k s
  rw [h]

theorem record_apply (p : Program) (room : Nat) (n : String) (k : Context) (s : Machine) :
    p.record room n k s = (p.demand room n k s, [p.call room n k s]) := by
  show (((p.call room n k s).visit.answer, (p.call room n k s).visit.after), _) = _
  rw [call_answer, call_after]

/-- In what ways a name is answered without evaluating its equations. -/
inductive Answers (p : Program) (n : String) (k : Context) (s : Machine) :
    Nat → Course → Except Fault Value → Machine → Prop
  | undefined {room : Nat} : p.group? n = none →
    Answers p n k s room .undefined (.ok (.special .undef)) (s.asking n)
  | remembered {room : Nat} {g : Group} {v : Value} {path : List Dim} : p.group? n = some g →
    p.config.caching = true → s.memo.isPending n k = false →
    s.memo.known? n k = some (v, path) →
    Answers p n k s room .remembered (.ok v) ((s.asking n).countHit.noteReads (.ofList path))
  | circular {room : Nat} {g : Group} : p.group? n = some g → s.memo.isPending n k = true →
    Answers p n k s room .circular (.ok (.special .loop))
      (((s.asking n).looping n k).noteReads k.dims)
  | refused {g : Group} : p.group? n = some g → s.memo.isPending n k = false →
    (p.config.caching = true → s.memo.known? n k = none) →
    Answers p n k s 0 .refused (.error (.tooDeep n p.config.maxDepth)) (s.asking n).countMiss

namespace Answers

variable {course : Course} {r : Except Fault Value} {s' : Machine}

theorem grows (h : p.Answers n k s room course r s') : s.Grows s' := by
  have hasking := s.grows_asking n
  cases h with
  | undefined _ => exact hasking
  | remembered _ _ _ _ =>
    have hhit : s.Grows (s.asking n).countHit := hasking.trans (.of_stats (Nat.le_refl _))
    exact hhit.trans (Machine.grows_noteReads _ _)
  | circular _ _ =>
    exact (hasking.trans (Machine.grows_looping _ n k)).trans (Machine.grows_noteReads _ _)
  | refused _ _ _ => exact hasking.trans (.of_stats (Nat.le_refl _))

theorem memo (h : p.Answers n k s room course r s') : s'.memo = s.memo := by
  have hasking := s.asking_memo n
  cases h with
  | undefined _ => exact hasking
  | remembered _ _ _ _ => exact (Machine.noteReads_memo _ _).trans hasking
  | circular _ _ => exact (Machine.noteReads_memo _ _).trans hasking
  | refused _ _ _ => exact hasking

theorem readers (h : p.Answers n k s room course r s') : s'.readers = (s.asking n).readers := by
  cases h with
  | undefined _ => rfl
  | remembered _ _ _ _ => exact Machine.noteReads_readers _ _
  | circular _ _ => exact Machine.noteReads_readers _ _
  | refused _ _ _ => rfl

end Answers

/-- In what ways the evaluation of a name can go. `H` is known of the stretch in which the
equations of the name are evaluated. -/
inductive Goes (p : Program) (H : Nat → Machine → List Call → Machine → Prop) (n : String)
    (k : Context) (s : Machine) : Nat → Call → Prop
  | answered {room : Nat} {course : Course} {r : Except Fault Value} {s' : Machine} :
    p.Answers n k s room course r s' → Goes p H n k s room (.mk ⟨n, k, room, s, course, r, s'⟩ [])
  | evaluated {room : Nat} {g : Group} {r : Except Fault Value} {b : Machine} {cs : List Call}
    {f : Frame} {fs : List Frame} {ran : Except Fault Value × Machine} : p.group? n = some g →
    s.memo.isPending n k = false → (p.config.caching = true → s.memo.known? n k = none) →
    p.recordGroup room g k (s.beginning n k) = ((r, b), cs) → (s.beginning n k).Grows b →
    b.frames = f :: fs → H room (s.beginning n k) cs b → Concludes p n k s.depth b f fs r ran →
    p.conclude n k f r (b.leaving n k s.depth fs) = ran →
    Goes p H n k s (room + 1) (.mk ⟨n, k, room + 1, s, .evaluated f, ran.1, ran.2⟩ cs)

theorem Goes.grows {H : Nat → Machine → List Call → Machine → Prop} {c : Call}
    (h : p.Goes H n k s room c) : s.Grows c.visit.after := by
  cases h with
  | answered h => exact h.grows
  | evaluated _ hpending _ _ hgrows hframes _ hconcludes _ =>
    have hmiss : s.Grows (s.asking n).countMiss :=
      (s.grows_asking n).trans (.of_stats (Nat.le_refl _))
    rw [← hmiss.depth] at hconcludes
    exact hmiss.trans (hconcludes.grows hgrows ((hmiss.pending n k).trans hpending) hframes)

end Program

/-! ## Laws of what is called -/

/-- What a step can do that calls no name: dimensions are learned, and the innermost frame reads. -/
structure Machine.Idles (s s' : Machine) : Prop where
  grows : s.Grows s'
  memo : s'.memo = s.memo
  readers : s'.readers = s.readers
  provisional : s'.frames.map Frame.provisional = s.frames.map Frame.provisional

namespace Machine.Idles

theorem refl (s : Machine) : s.Idles s := ⟨.refl s, rfl, rfl, rfl⟩

theorem noteReads (s : Machine) (dims : IndexSet) : s.Idles (s.noteReads dims) := by
  refine ⟨s.grows_noteReads dims, s.noteReads_memo dims, s.noteReads_readers dims, ?_⟩
  rw [noteReads_frames]
  cases s.frames <;> rfl

theorem internValue (v : Value) (s : Machine) : s.Idles (EvalM.internValue v s).2 :=
  ⟨(EvalM.keeps_internValue (I := .always) v s).1, rfl, rfl, rfl⟩

end Machine.Idles

/-- A property of stretches of an evaluation: with how much room for the names it calls, from
where, what it has called, and to where. -/
structure Law where
  holds : Nat → Machine → List Call → Machine → Prop
  idle {room : Nat} {s s' : Machine} : s.Idles s' → holds room s [] s'
  append {room : Nat} {s s' s'' : Machine} {cs ds : List Call} : s.Grows s' → s'.Grows s'' →
    holds room s cs s' → holds room s' ds s'' → holds room s (cs ++ ds) s''
  beneath {room : Nat} {s b : Machine} {cs : List Call} {delta : Context} {f : Frame}
    {fs : List Frame} : (s.push (.new none)).Grows b → b.frames = f :: fs →
    holds room (s.push (.new none)) cs b → holds room s cs (b.endingBody delta f fs)

namespace Law

variable {α β γ δ : Type} {L : Law} {p : Program} {room : Nat} {n : String} {k : Context}

/-- The recorded step does the same as the other one with a related answer, and what it does
obeys the law. -/
def Records (L : Law) (room : Nat) (R : α → β → Prop) (x : Recorded α) (y : EvalM β) : Prop :=
  ∀ s, Kept.Echo R (x s).1 (y s) ∧ s.Grows (x s).1.2 ∧ L.holds room s (x s).2 (x s).1.2

theorem records_silent {R : α → β → Prop} {x : EvalM α} {y : EvalM β}
    (hecho : ∀ s, Kept.Echo R (x s) (y s)) (hidle : ∀ s : Machine, s.Idles (x s).2) :
    L.Records room R (.silent x) y := fun s => ⟨hecho s, (hidle s).grows, L.idle (hidle s)⟩

theorem records_pure {R : α → β → Prop} {a : α} {b : β} (hab : R a b) :
    L.Records room R (pure a) (pure b) :=
  records_silent (x := pure a) (fun _ => .ok hab) fun s => .refl s

theorem records_bind {R : α → β → Prop} {S : γ → δ → Prop} {x : Recorded α} {y : EvalM β}
    {f : α → Recorded γ} {g : β → EvalM δ} (hxy : L.Records room R x y)
    (hfg : ∀ a b, R a b → L.Records room S (f a) (g b)) :
    L.Records room S (x >>= f) (y >>= g) := by
  intro s
  obtain ⟨hecho, hgrows, hholds⟩ := hxy s
  rcases hx : x s with ⟨⟨e | a, s'⟩, cs⟩
  · rw [Recorded.bind_of_error hx]
    rw [hx] at hecho hgrows hholds
    refine ⟨?_, hgrows, hholds⟩
    rw [Action.bind_apply]
    generalize y s = right at hecho
    cases hecho with
    | error => exact .error
  · rw [Recorded.bind_of_ok hx]
    rw [hx] at hecho hgrows hholds
    rw [Action.bind_apply]
    generalize y s = right at hecho
    cases hecho with
    | ok hab =>
      obtain ⟨hecho', hgrows', hholds'⟩ := hfg _ _ hab s'
      exact ⟨hecho', hgrows.trans hgrows', L.append hgrows hgrows' hholds hholds'⟩

theorem records_noting {R : α → β → Prop} {a : α} {b : β} (hab : R a b) (dims : IndexSet) :
    L.Records room R (do Evaluator.note dims; pure a) (do Evaluator.note dims; pure b) :=
  records_bind (records_silent (R := Eq) (fun _ => .ok rfl) fun s => .noteReads s dims)
    fun _ _ _ => records_pure hab

theorem records_beneath {x : Recorded Value} {y : EvalM Value} (delta : Context)
    (hxy : L.Records room Eq x y) :
    L.Records room Eq (Evaluator.beneath delta x) (Evaluator.beneath delta y) := by
  have hrun : x.run = y := Kept.eq_of_echo fun s => (hxy s).1
  intro s
  obtain ⟨-, hgrows, hholds⟩ := hxy (s.push (.new none))
  rcases hx : x (s.push (.new none)) with ⟨⟨r, b⟩, cs⟩
  rw [hx] at hgrows hholds
  obtain ⟨f, fs, hframes, -⟩ := hgrows.innermost rfl
  have hend : (Evaluator.beneath delta x.run : EvalM Value) s = (r, b.endingBody delta f fs) :=
    EvalM.beneath_apply (congrArg Prod.fst hx) hframes
  rw [Recorded.beneath_apply hx hframes, ← hrun, hend]
  refine ⟨Kept.Echo.refl _, ?_, L.beneath hgrows hframes hholds⟩
  exact (hgrows.popped hframes).trans (Machine.grows_noteReads _ _)

/-- Leaving out the record, and obeying a law, is respected by every step of an evaluation. -/
def recording (L : Law) (room : Nat) : Relator Recorded EvalM where
  Index := Unit
  like := .identity
  contexts _ k l := k = l
  rel _ _ _ R x y := L.Records room R x y
  pure := records_pure
  bind := records_bind
  look d hkl := hkl ▸ records_noting rfl _
  consult c hkl := hkl ▸ records_noting rfl _
  test g hkl := hkl ▸ records_noting rfl _
  intern {_ v w} hvw := by
    cases hvw
    exact records_silent (fun s => Kept.Echo.refl (EvalM.internValue v s)) fun s => .internValue v s
  beneath {_ k l ps qs} hkl hpq := by
    obtain rfl := hkl
    obtain rfl := hpq.eq_of_identity
    exact ⟨(), rfl, fun x y hxy => records_beneath (.ofList ps) hxy⟩

/-- Every call of a name obeys the law. -/
def Obeyed (L : Law) (p : Program) (room : Nat) : Prop :=
  ∀ (n : String) (k : Context) (s : Machine),
    L.holds room s [p.call room n k s] (p.demand room n k s).2

theorem Obeyed.record (h : L.Obeyed p room) (n : String) (k : Context) :
    L.Records room Eq (p.record room n k) (p.demand room n k) := by
  intro s
  rw [p.record_apply]
  exact ⟨Kept.Echo.refl _, (s.grows_asking n).trans (p.names_grow room n k s), h n k s⟩

theorem Obeyed.code (h : L.Obeyed p room) (c : Code) (k : Context) :
    L.Records room Eq (p.recordCode room c k)
      (c.eval p.vocabulary.operators (p.demand room) k) := by
  rw [← Code.interpret_eq_eval]
  exact (L.recording room).code (Likeness.keeps_identity _)
    (fun _ n k l hkl => hkl ▸ h.record n k) c (i := ()) rfl

theorem Obeyed.group (h : L.Obeyed p room) (g : Group) (k : Context) :
    L.Records room Eq (p.recordGroup room g k)
      (g.value (Code.eval p.vocabulary.operators (p.demand room)) k) := by
  rw [← Group.interpret_code]
  exact (L.recording room).group (Likeness.keeps_identity _)
    (fun _ n k l hkl => hkl ▸ h.record n k) g (i := ()) rfl

end Law

/-! ## The law of no property -/

/-- What holds of all stretches: nothing in particular. -/
def Law.always : Law := ⟨fun _ _ _ _ => True, fun _ => trivial, fun _ _ _ _ => trivial,
  fun _ _ _ => trivial⟩

namespace Program

variable {p : Program} {room : Nat} {n : String} {k : Context} {s : Machine} {g : Group}

theorem recordGroup_run (p : Program) (room : Nat) (g : Group) (k : Context) :
    (p.recordGroup room g k).run =
      g.value (Code.eval p.vocabulary.operators (p.demand room)) k :=
  Kept.eq_of_echo fun s =>
    (Law.Obeyed.group (L := .always) (fun _ _ _ => trivial) g k s).1

/-! ### Looking a name up -/

theorem peek_known {v : Value} {path : List Dim} (hcaching : p.config.caching = true)
    (hpending : s.memo.isPending n k = false) (hv : s.memo.known? n k = some (v, path)) :
    p.peek n k s = (.known v, path) := by
  rcases p.peek_cases n k s with ⟨w, path', -, hw, hpeek⟩ | ⟨hpending', -⟩ | ⟨-, hmiss, -⟩
  · cases hv.symm.trans hw
    exact hpeek
  · cases hpending.symm.trans hpending'
  · cases (hmiss hcaching).symm.trans hv

theorem peek_pending (p : Program) (hpending : s.memo.isPending n k = true) :
    p.peek n k s = (.pending, []) := by
  simp only [peek, Memo.find, hpending, ↓reduceIte, ite_self]

theorem peek_unknown (hpending : s.memo.isPending n k = false)
    (hmiss : p.config.caching = true → s.memo.known? n k = none) :
    ∃ path, p.peek n k s = (.unknown, path) := by
  rcases p.peek_cases n k s with ⟨w, path, hcaching, hw, -⟩ | ⟨hpending', -⟩ | ⟨-, -, hpeek⟩
  · cases (hmiss hcaching).symm.trans hw
  · cases hpending.symm.trans hpending'
  · exact hpeek

theorem unknown_of_peek (h : (p.peek n k s).1 = .unknown) :
    s.memo.isPending n k = false ∧ (p.config.caching = true → s.memo.known? n k = none) := by
  rcases p.peek_cases n k s with
    ⟨w, path, -, -, hpeek⟩ | ⟨-, path, hpeek⟩ | ⟨hpending, hmiss, -⟩
  · rw [hpeek] at h
    cases h
  · rw [hpeek] at h
    cases h
  · exact ⟨hpending, hmiss⟩

/-! ### The ways of a call -/

/-- Where a name is answered without evaluating its equations, nothing is called. How the name is
looked up says how it is answered. -/
theorem Answers.call {course : Course} {r : Except Fault Value} {s' : Machine}
    (h : p.Answers n k s room course r s') :
    p.call room n k s = .mk ⟨n, k, room, s, course, r, s'⟩ [] := by
  have answered : ∀ {room : Nat} {course : Course} {r : Except Fault Value} {s' : Machine},
      (∀ evaluate, p.callBy room n k s evaluate =
        .mk ⟨n, k, room, s, course, (p.demand room n k s).1, (p.demand room n k s).2⟩ []) →
      (∀ evaluate, p.ask n k evaluate s = (r, s')) →
        p.call room n k s = .mk ⟨n, k, room, s, course, r, s'⟩ [] := by
    intro room course r s' hcall hask
    have hrun : p.demand room n k s = (r, s') := by cases room <;> exact hask _
    rw [hrun] at hcall
    cases room <;> exact hcall _
  cases h with
  | undefined hg =>
    exact answered (fun _ => by simp only [callBy, hg]) fun _ => ask_undefined hg _ s
  | remembered hg hcaching hpending hv =>
    have hpeek := peek_known hcaching hpending hv
    exact answered (fun _ => by simp only [callBy, hg, hpeek])
      fun _ => (ask_defined hg _ s).trans (by rw [hpeek])
  | circular hg hpending =>
    have hpeek := p.peek_pending hpending
    exact answered (fun _ => by simp only [callBy, hg, hpeek])
      fun _ => (ask_defined hg _ s).trans (by rw [hpeek])
  | refused hg hpending hmiss =>
    obtain ⟨path, hpeek⟩ := peek_unknown hpending hmiss
    have hrun : p.demand 0 n k s =
        (.error (.tooDeep n p.config.maxDepth), (s.asking n).countMiss) :=
      (ask_defined hg _ s).trans (by rw [hpeek]; rfl)
    simp only [Program.call, callBy, hg, hpeek, hrun]

/-- Where its equations are evaluated, a name calls what they call. -/
theorem call_evaluated (p : Program) (room : Nat) (hg : p.group? n = some g)
    (hpending : s.memo.isPending n k = false)
    (hmiss : p.config.caching = true → s.memo.known? n k = none) :
    ∃ r b cs f fs ran, p.recordGroup room g k (s.beginning n k) = ((r, b), cs) ∧
      (s.beginning n k).Grows b ∧ b.frames = f :: fs ∧ Concludes p n k s.depth b f fs r ran ∧
      p.conclude n k f r (b.leaving n k s.depth fs) = ran ∧
      p.call (room + 1) n k s = .mk ⟨n, k, room + 1, s, .evaluated f, ran.1, ran.2⟩ cs := by
  obtain ⟨path, hpeek⟩ := peek_unknown hpending hmiss
  have hrun : p.demand (room + 1) n k s = p.compute n k
      (g.value (Code.eval p.vocabulary.operators (p.demand room)) k)
        (s.asking n).countMiss := (ask_defined hg _ s).trans (by rw [hpeek])
  have hgrows := body_grows (p.names_grow room) g k (s.beginning n k)
  rcases hrecord : p.recordGroup room g k (s.beginning n k) with ⟨⟨r, b⟩, cs⟩
  have hvalue : g.value (Code.eval p.vocabulary.operators (p.demand room)) k
      (s.beginning n k) = (r, b) := by
    rw [← recordGroup_run]
    exact congrArg Prod.fst hrecord
  rw [hvalue] at hgrows
  obtain ⟨f, fs, hframes, -⟩ := hgrows.innermost (s.beginning_frames n k)
  have hdepth : (s.asking n).countMiss.depth = s.depth := s.asking_depth n
  refine ⟨r, b, cs, f, fs, p.demand (room + 1) n k s, rfl, hgrows, hframes, ?_, ?_, ?_⟩
  · exact hdepth ▸ hrun ▸ compute_concludes hvalue hframes
  · exact hdepth ▸ (hrun.trans (compute_eq hvalue hframes)).symm
  · simp only [call_succ, callBy, hg, hpeek, hrecord, Machine.leave_eq hframes]

/-- The evaluation of a name goes in one of these ways. -/
theorem call_goes {H : Nat → Machine → List Call → Machine → Prop}
    (hbody : ∀ room', room = room' + 1 → ∀ (g : Group) (k : Context) (s : Machine),
      H room' s (p.recordGroup room' g k s).2 (p.recordGroup room' g k s).1.2)
    (n : String) (k : Context) (s : Machine) : p.Goes H n k s room (p.call room n k s) := by
  have answered : ∀ {room : Nat} {course : Course} {r : Except Fault Value} {s' : Machine},
      p.Answers n k s room course r s' → p.Goes H n k s room (p.call room n k s) :=
    fun h => h.call ▸ .answered h
  cases hg : p.group? n with
  | none => exact answered (.undefined hg)
  | some g =>
    cases hpending : s.memo.isPending n k with
    | true => exact answered (.circular hg hpending)
    | false =>
      by_cases hknown : p.config.caching = true ∧ (s.memo.known? n k).isSome = true
      · obtain ⟨hcaching, hsome⟩ := hknown
        obtain ⟨⟨v, path⟩, hv⟩ := Option.isSome_iff_exists.mp hsome
        exact answered (.remembered hg hcaching hpending hv)
      · have hmiss : p.config.caching = true → s.memo.known? n k = none := fun hcaching =>
          Option.not_isSome_iff_eq_none.mp fun hsome => hknown ⟨hcaching, hsome⟩
        cases room with
        | zero => exact answered (.refused hg hpending hmiss)
        | succ room =>
          obtain ⟨r, b, cs, f, fs, ran, hrecord, hgrows, hframes, hconcludes, hran, hcall⟩ :=
            p.call_evaluated room hg hpending hmiss
          have hH := hbody room rfl g k (s.beginning n k)
          rw [hrecord] at hH
          rw [hcall]
          exact .evaluated hg hpending hmiss hrecord hgrows hframes hH hconcludes hran

end Program

/-- A law is obeyed by all evaluations if it is obeyed in every way in which one can go. -/
theorem Law.call {L : Law} {p : Program}
    (hstep : ∀ {n : String} {k : Context} {s : Machine} {room : Nat} {c : Call},
      p.Goes L.holds n k s room c → s.Grows c.visit.after → L.holds room s [c] c.visit.after) :
    ∀ room : Nat, L.Obeyed p room := by
  intro room
  induction room with
  | zero =>
    intro n k s
    have hgoes : p.Goes L.holds n k s 0 (p.call 0 n k s) :=
      p.call_goes (fun _ h => absurd h (Nat.zero_ne_add_one _)) n k s
    exact p.call_after 0 n k s ▸ hstep hgoes hgoes.grows
  | succ room ih =>
    intro n k s
    have hgoes : p.Goes L.holds n k s (room + 1) (p.call (room + 1) n k s) :=
      p.call_goes (fun room' h g k s => by cases h; exact (ih.group g k s).2.2) n k s
    exact p.call_after (room + 1) n k s ▸ hstep hgoes hgoes.grows

/-! ## What can be evaluated -/

/-- What an evaluation is asked for: the value of a name, or that of code in one of its forms. -/
inductive Task where
  | name (n : String) (k : Context)
  | code (c : Code) (k : Context)
  | changed (c : Code) (base delta : Context)
  | timed (c : Code) (base : Context) (delta : Changes) (t : Instant)

/-- The value at a base context changed by `delta`, in any monad. -/
def Code.interpretChanged {m : Type → Type} [Monad m] [Evaluator m] (ops : OperatorTable)
    (call : String → Context → m Value) (code : Code) (base delta : Context) : m Value :=
  match code with
  | .const v => pure v
  | .read d => do
    Evaluator.note (.ofList [d])
    pure (((delta.get? d).or (base.get? d)).getD (.special .dimension))
  | code => code.interpret ops call (base.override delta)

namespace Task

/-- The evaluation, if at most `room` evaluations of names may be nested from here. -/
def eval (p : Program) (room : Nat) : Task → EvalM Value
  | .name n k => p.demand room n k
  | .code c k => c.eval p.vocabulary.operators (p.demand room) k
  | .changed c base delta => c.evalChanged p.vocabulary.operators (p.demand room) base delta
  | .timed c base delta t => do
    let held ← c.evalAt p.vocabulary.operators (p.demand room) base delta t
    pure held.2

/-- The evaluation with a record of all calls. -/
def record (p : Program) (room : Nat) : Task → Recorded Value
  | .name n k => p.record room n k
  | .code c k => p.recordCode room c k
  | .changed c base delta =>
    c.interpretChanged p.vocabulary.operators (p.record room) base delta
  | .timed c base delta _ =>
    c.interpretChanged p.vocabulary.operators (p.record room) base delta.merged

end Task

namespace Law

variable {L : Law} {p : Program} {room : Nat}

theorem Obeyed.changed (h : L.Obeyed p room) (c : Code) (base delta : Context) :
    L.Records room Eq (c.interpretChanged p.vocabulary.operators (p.record room) base delta)
      (c.evalChanged p.vocabulary.operators (p.demand room) base delta) := by
  cases c with
  | const v => exact records_pure rfl
  | read d => exact records_noting rfl _
  | _ => exact h.code _ _

/-- A law that names obey is obeyed by everything that is evaluated. -/
theorem Obeyed.task (h : L.Obeyed p room) (task : Task) :
    L.Records room Eq (task.record p room) (task.eval p room) := by
  cases task with
  | name n k => exact h.record n k
  | code c k => exact h.code c k
  | changed c base delta => exact h.changed c base delta
  | timed c base delta t =>
    have heval : Task.eval p room (.timed c base delta t) =
        c.evalChanged p.vocabulary.operators (p.demand room) base delta.merged := by
      funext s
      simp only [Task.eval, Code.evalAt, bind_assoc, pure_bind, bind_pure]
    rw [heval]
    exact h.changed c base delta.merged

end Law

namespace Task

variable (p : Program) (room : Nat) (task : Task)

theorem record_run : (task.record p room).run = task.eval p room :=
  Kept.eq_of_echo fun s => (Law.Obeyed.task (L := .always) (fun _ _ _ => trivial) task s).1

theorem grows (s : Machine) : s.Grows (task.eval p room s).2 := by
  rw [← record_run]
  exact (Law.Obeyed.task (L := .always) (fun _ _ _ => trivial) task s).2.1

end Task

theorem Law.Obeyed.holds {L : Law} {p : Program} {room : Nat} (h : L.Obeyed p room) (task : Task)
    (s : Machine) : L.holds room s (task.record p room s).2 (task.eval p room s).2 := by
  rw [← task.record_run]
  exact (h.task task s).2.2

end Intensional
