import Intensional.Proofs.Evaluation.Interpretation
import Intensional.Proofs.Machine.Growth

/-!
# Evaluation steps that keep an invariant

`Kept I α` is the type of those steps that only let the machine grow and keep the invariant `I`.
They form a monad of their own, in which code can be evaluated like in any other, and
forgetting the proofs gives the evaluation back (`Kept.group_val`). So what code does to the
machine follows from what names do to it, and a relation between evaluations may use it at
every step.
-/

namespace Intensional

namespace Machine

/-- A property of machines that depends on the remembered values, and does not get lost when
dimensions and readers are added. -/
structure Invariant where
  holds : Machine → Prop
  steady {s s' : Machine} : holds s → s'.memo.tries = s.memo.tries → s.dims.Within s'.dims →
    (∀ m n, AskedBy s.readers m n → AskedBy s'.readers m n) → holds s'

variable {s s' : Machine} {I : Invariant}

theorem Invariant.noteReads (h : I.holds s) (dims : IndexSet) : I.holds (s.noteReads dims) := by
  have hgrows := s.grows_noteReads dims
  exact I.steady h (by rw [noteReads_memo]) hgrows.dims hgrows.readers

theorem Invariant.frames (h : I.holds s) (fs : List Frame) : I.holds { s with frames := fs } :=
  I.steady h rfl (.refl _) fun _ _ => id

end Machine

namespace EvalM

open Machine

variable {I : Invariant} {α β : Type}

/-- The step only lets the machine grow, and keeps the invariant. -/
def Keeps (I : Invariant) (x : EvalM α) : Prop :=
  ∀ s, s.Grows (x s).2 ∧ (I.holds s → I.holds (x s).2)

theorem keeps_result (r : Except Fault α) : Keeps I (Action.ofExcept r) :=
  fun s => ⟨.refl s, id⟩

theorem keeps_pure (a : α) : Keeps I (pure a) := keeps_result (.ok a)

theorem keeps_bind {x : EvalM α} {f : α → EvalM β} (hx : Keeps I x) (hf : ∀ a, Keeps I (f a)) :
    Keeps I (x >>= f) := by
  intro s
  obtain ⟨hgrows, hholds⟩ := hx s
  rw [Action.bind_apply]
  rcases hres : x s with ⟨_ | a, s₁⟩
  · rw [hres] at hgrows hholds
    exact ⟨hgrows, hholds⟩
  · rw [hres] at hgrows hholds
    exact ⟨hgrows.trans (hf a s₁).1, fun h => (hf a s₁).2 (hholds h)⟩

theorem keeps_noteReads (dims : IndexSet) : Keeps I (EvalM.noteReads dims) :=
  fun s => ⟨s.grows_noteReads dims, fun h => Invariant.noteReads h dims⟩

theorem keeps_internValue (v : Value) : Keeps I (EvalM.internValue v) := by
  intro s
  have hdims := DimTable.within_internValue v s.dims
  exact ⟨⟨hdims, fun _ _ => id, fun _ _ => rfl, Frame.Grows.all_refl _, rfl, rfl,
    Nat.le_refl _⟩, fun h => I.steady h rfl hdims fun _ _ => id⟩

/-- A step in a frame of its own, from where it ends. -/
theorem tracked_apply {x : EvalM α} {s b : Machine} {r : Except Fault α} {f : Frame}
    {fs : List Frame} (hx : x (s.push (.new none)) = (r, b)) (hframes : b.frames = f :: fs) :
    tracked x s = (.ok (r, f.reads), { b with frames := fs }) := by
  simp only [tracked, hx, pop, hframes]

/-- Where a step in a frame of its own ends. -/
theorem Keeps.tracked_cases {x : EvalM α} (hx : Keeps I x) (s : Machine) :
    ∃ (r : Except Fault α) (b : Machine) (f : Frame) (fs : List Frame),
      x (s.push (.new none)) = (r, b) ∧ b.frames = f :: fs ∧
        EvalM.tracked x s = (.ok (r, f.reads), { b with frames := fs }) := by
  obtain ⟨hgrows, -⟩ := hx (s.push (.new none))
  rcases hrun : x (s.push (.new none)) with ⟨r, b⟩
  rw [hrun] at hgrows
  obtain ⟨f, fs, hframes, -⟩ := hgrows.innermost rfl
  exact ⟨r, b, f, fs, rfl, hframes, tracked_apply hrun hframes⟩

theorem Keeps.tracked {x : EvalM α} (hx : Keeps I x) : Keeps I (tracked x) := by
  intro s
  obtain ⟨hgrows, hholds⟩ := hx (s.push (.new none))
  obtain ⟨r, b, f, fs, hrun, hframes, htracked⟩ := hx.tracked_cases s
  rw [hrun] at hgrows hholds
  rw [htracked]
  exact ⟨hgrows.popped hframes, fun h => Invariant.frames (hholds (Invariant.frames h _)) fs⟩

theorem beneath_apply {delta : Context} {x : EvalM Value} {s b : Machine}
    {r : Except Fault Value} {f : Frame} {fs : List Frame}
    (hx : x (s.push (.new none)) = (r, b)) (hframes : b.frames = f :: fs) :
    (Evaluator.beneath delta x : EvalM Value) s = (r, b.endingBody delta f fs) :=
  Action.bind_of_ok (tracked_apply hx hframes) _

theorem Keeps.beneath {x : EvalM Value} (hx : Keeps I x) (delta : Context) :
    Keeps I (Evaluator.beneath delta x) :=
  keeps_bind hx.tracked fun _ => keeps_bind (keeps_noteReads _) fun _ => keeps_result _

end EvalM

open EvalM

/-- The steps that only let the machine grow, and keep the invariant. -/
def Kept (I : Machine.Invariant) (α : Type) : Type := { x : EvalM α // Keeps I x }

namespace Kept

variable {I : Machine.Invariant} {α β : Type}

instance : Monad (Kept I) where
  pure a := ⟨pure a, keeps_pure a⟩
  bind x f := ⟨x.val >>= fun a => (f a).val, keeps_bind x.property fun a => (f a).property⟩

instance : Evaluator (Kept I) where
  note dims := ⟨EvalM.noteReads dims, keeps_noteReads dims⟩
  intern v := ⟨EvalM.internValue v, keeps_internValue v⟩
  beneath delta x := ⟨Evaluator.beneath delta x.val, x.property.beneath delta⟩

theorem bind_val (x : Kept I α) (f : α → Kept I β) :
    (x >>= f).val = x.val >>= fun a => (f a).val := rfl

theorem grows_bind (x : Kept I α) (f : α → Kept I β) (s : Machine) :
    (x.val s).2.Grows ((x >>= f).val s).2 := by
  rw [bind_val, Action.bind_apply]
  rcases x.val s with ⟨e | a, s'⟩
  · exact .refl s'
  · exact ((f a).property s').1

/-- A run, and one with the same effect and a related answer. -/
inductive Echo (R : α → β → Prop) :
    Except Fault α × Machine → Except Fault β × Machine → Prop
  | ok {a : α} {b : β} {s : Machine} : R a b → Echo R (.ok a, s) (.ok b, s)
  | error {e : Fault} {s : Machine} : Echo R (.error e, s) (.error e, s)

theorem Echo.refl : ∀ ran : Except Fault α × Machine, Echo Eq ran ran
  | (.ok _, _) => .ok rfl
  | (.error _, _) => .error

theorem eq_of_echo {x y : EvalM α} (h : ∀ s, Echo Eq (x s) (y s)) : x = y := by
  funext s
  have h := h s
  generalize x s = left at h
  generalize y s = right at h
  cases h with
  | ok hab => cases hab; rfl
  | error => rfl

/-! ### Forgetting the proofs -/

/-- A property that a machine does not lose when it grows, and that bodies under changed bindings
find as well. -/
structure Lasting (P : Machine → Prop) : Prop where
  grows {s s' : Machine} : s.Grows s' → P s → P s'
  push {s : Machine} : P s → P (s.push (.new none))

/-- Where `P` holds, the second step has the effect of the first and a related answer. -/
def Echoes (P : Machine → Prop) (R : α → β → Prop) (x : Kept I α) (y : EvalM β) : Prop :=
  ∀ s, P s → Echo R (x.val s) (y s)

namespace Echoes

variable {P : Machine → Prop} {γ δ : Type}

theorem val (x : Kept I α) : Echoes P Eq x x.val := fun _ _ => .refl _

theorem apply_eq {x : Kept I α} {y : EvalM α} (h : Echoes P Eq x y) {s : Machine} (hs : P s) :
    x.val s = y s := by
  have hecho := h s hs
  generalize x.val s = left at hecho
  generalize y s = right at hecho
  cases hecho with
  | ok hab => rw [hab]
  | error => rfl

theorem bind (hP : Lasting P) {R : α → β → Prop} {S : γ → δ → Prop} {x : Kept I α} {y : EvalM β}
    {f : α → Kept I γ} {g : β → EvalM δ} (hxy : Echoes P R x y)
    (hfg : ∀ a b, R a b → Echoes P S (f a) (g b)) : Echoes P S (x >>= f) (y >>= g) := by
  intro s hs
  have hecho := hxy s hs
  have hgrows := (x.property s).1
  rw [bind_val, Action.bind_apply, Action.bind_apply]
  generalize x.val s = left at hecho hgrows
  generalize y s = right at hecho
  cases hecho with
  | ok hab => exact hfg _ _ hab _ (hP.grows hgrows hs)
  | error => exact .error

theorem beneath (hP : Lasting P) {x : Kept I Value} {y : EvalM Value} (hxy : Echoes P Eq x y)
    (delta : Context) : Echoes P Eq (Evaluator.beneath delta x) (Evaluator.beneath delta y) := by
  intro s hs
  have hbody := hxy.apply_eq (hP.push hs)
  obtain ⟨r, b, f, fs, hrun, hframes, -⟩ := x.property.tracked_cases s
  show Echo Eq ((Evaluator.beneath delta x.val : EvalM Value) s) _
  rw [beneath_apply hrun hframes, beneath_apply (hbody ▸ hrun) hframes]
  exact .refl _

end Echoes

/-- Forgetting the proofs is respected by every step of an evaluation. -/
def forgetting (I : Machine.Invariant) {P : Machine → Prop} (hP : Lasting P) :
    Relator (Kept I) EvalM where
  Index := Unit
  like := .identity
  contexts _ k l := k = l
  rel _ _ _ R x y := Echoes P R x y
  pure hab _ _ := .ok hab
  bind := Echoes.bind hP
  look _ hkl := hkl ▸ .val _
  consult _ hkl := hkl ▸ .val _
  test _ hkl := hkl ▸ .val _
  intern hvw := hvw ▸ .val _
  beneath {_ k l ps qs} hkl hpq := by
    obtain rfl := hkl
    obtain rfl := hpq.eq_of_identity
    exact ⟨(), rfl, fun _ _ hxy => hxy.beneath hP _⟩

section Names

variable {P : Machine → Prop} (hP : Lasting P) {ops : OperatorTable}
  {call : String → Context → Kept I Value} {call' : String → Context → EvalM Value}
  (hcall : ∀ (n : String) (k : Context), Echoes P Eq (call n k) (call' n k))

include hP hcall

theorem group_echoes (g : Group) (k : Context) :
    Echoes P Eq (g.interpret (Code.interpret ops call) k) (g.value (Code.eval ops call') k) := by
  rw [← Group.interpret_code]
  exact (forgetting I hP).group (Likeness.keeps_identity ops)
    (fun _ n k _ hkl => hkl ▸ hcall n k) g (i := ()) rfl

theorem code_echoes (c : Code) (k : Context) :
    Echoes P Eq (c.interpret ops call k) (c.eval ops call' k) := by
  rw [← Code.interpret_eq_eval]
  exact (forgetting I hP).code (Likeness.keeps_identity ops)
    (fun _ n k _ hkl => hkl ▸ hcall n k) c (i := ()) rfl

end Names

theorem lasting_true : Lasting fun _ => True := ⟨fun _ => id, id⟩

theorem group_val {ops : OperatorTable} {call : String → Context → Kept I Value} (g : Group)
    (k : Context) : (g.interpret (Code.interpret ops call) k).val =
      g.value (Code.eval ops fun n k => (call n k).val) k :=
  funext fun _ => (group_echoes lasting_true (fun _ _ => .val _) g k).apply_eq trivial

theorem code_val {ops : OperatorTable} {call : String → Context → Kept I Value} (c : Code)
    (k : Context) : (c.interpret ops call k).val =
      c.eval ops (fun n k => (call n k).val) k :=
  funext fun _ => (code_echoes lasting_true (fun _ _ => .val _) c k).apply_eq trivial

end Kept

/-! ## Names let the machine grow -/

def Machine.Invariant.always : Machine.Invariant := ⟨fun _ => True, fun _ _ _ _ => trivial⟩

namespace Program

theorem body_grows {p : Program} {room : Nat}
    (h : ∀ (n : String) (k : Context) (s : Machine), (s.asking n).Grows (p.demand room n k s).2)
    (g : Group) (k : Context) (s : Machine) :
    s.Grows (g.value (Code.eval p.vocabulary.operators (p.demand room)) k s).2 := by
  let call (n : String) (k : Context) : Kept .always Value :=
    ⟨p.demand room n k, fun s => ⟨(s.grows_asking n).trans (h n k s), fun _ => trivial⟩⟩
  have hval : (g.interpret (Code.interpret p.vocabulary.operators call) k).val =
      g.value (Code.eval p.vocabulary.operators (p.demand room)) k := Kept.group_val g k
  rw [← hval]
  exact ((g.interpret (Code.interpret p.vocabulary.operators call) k).property s).1

/-- The evaluation of a name lets the machine grow, from where the name has been asked for. -/
theorem names_grow (p : Program) : ∀ (room : Nat) (n : String) (k : Context) (s : Machine),
    (s.asking n).Grows (p.demand room n k s).2
  | 0, _, _, s => ask_grows (fun _ s _ _ => .refl s) s
  | room + 1, n, k, s => by
      refine ask_grows (fun g s _ hpending => ?_) s
      have hgrows := body_grows (names_grow p room) g k (s.enter n k)
      generalize g.value (Code.eval p.vocabulary.operators (p.demand room)) k = body at hgrows ⊢
      rcases hrun : body (s.enter n k) with ⟨res, c⟩
      rw [hrun] at hgrows
      obtain ⟨f, fs, hframes, -⟩ := hgrows.innermost rfl
      exact (compute_concludes (p := p) hrun hframes).grows hgrows hpending hframes

/-- The evaluation of a name, as a step that lets the machine grow. -/
def growing (p : Program) (room : Nat) (n : String) (k : Context) : Kept .always Value :=
  ⟨p.demand room n k, fun s => ⟨(s.grows_asking n).trans (p.names_grow room n k s),
    fun _ => trivial⟩⟩

end Program

end Intensional
