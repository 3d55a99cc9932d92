import Mathlib.Logic.Relation
import Intensional.Engine.Basic
import Intensional.Proofs.Dimension.Numbering

/-!
# Requests

An engine is used by requests: equations are edited, expressions are compiled, and names are
evaluated. `Engine.serve` answers them in order; a fault is an answer like any other, and the
engine goes on from the state that was reached.

What an edit can do is said once (`Engine.Change`): it may learn dimensions, and it may change
the equations of one name, and then all that depends on the name is forgotten. Edits look at
the equations and at the dimensions only, so two engines that have the same of both stay so
(`Engine.Edits`).
-/

namespace Intensional

inductive Edit where
  | define (name : String) (id : Equation.Id) (guard : Guard) (body : Expr) (time : Nat)
  | add (name : String) (id : Equation.Id) (d : Definition) (time : Nat)
  | addSource (name : String) (id : Equation.Id) (source : Source) (time : Nat)
  | replace (id : Equation.Id) (d : Definition) (time : Nat)
  | delete (id : Equation.Id)

inductive Request where
  | edit (e : Edit)
  | compile (e : Expr)
  | evaluate (name : String) (k : Context)

/-- What an engine answers: whether an edit has found its equation, code, or a value. -/
inductive Reply where
  | edited (r : Except Fault Bool)
  | compiled (r : Except Fault Code)
  | value (r : Except Fault Value)

/-- Do an edit. The answer is whether there was something to edit. -/
def Edit.run : Edit → Action Engine Bool
  | .define name id guard body time => do
      Engine.define name id guard body time
      pure true
  | .add name id d time => do
      Engine.add name id d time
      pure true
  | .addSource name id source time => do
      Engine.addSource name id source time
      pure true
  | .replace id d time => Engine.replace id d time
  | .delete id => Engine.delete id

namespace Engine

def compile (e : Expr) : Action Engine Code := run fun _ => EvalM.compile e

def handle (s : Engine) : Request → Reply × Engine
  | .edit e => ((e.run s).map .edited id)
  | .compile e => ((compile e s).map .compiled id)
  | .evaluate name k => ((evaluate name k s).map .value id)

def serve (s : Engine) : List Request → List Reply × Engine
  | [] => ([], s)
  | r :: rs => ((s.handle r).1 :: ((s.handle r).2.serve rs).1, ((s.handle r).2.serve rs).2)

/-- An engine without equations. -/
def start (config : Config) (ops : OperatorTable) : Engine :=
  updateOperators (fun _ => ops) (initial config)

end Engine

/-! ## Groups under their names -/

/-- Every group stands under its own name. -/
def Program.Named (p : Program) : Prop := ∀ n g, p.group? n = some g → g.name = n

namespace Program

variable {p : Program} {n name : String} {g : Group}

theorem Named.groupOf (h : p.Named) (n : String) : (p.groupOf n).name = n := by
  unfold Program.groupOf
  cases hg : p.group? n with
  | none => rfl
  | some g => exact h n g hg

theorem group?_setGroup : (p.setGroup g).group? n =
    if g.name = n then (if g.isEmpty then none else some g) else p.group? n := by
  unfold setGroup group?
  cases g.isEmpty with
  | true => simp [Assoc.get?_erase]
  | false => simp [Assoc.get?_put]

theorem groupOf_config (p : Program) (config : Config) (n : String) :
    groupOf { p with config := config } n = p.groupOf n := rfl

theorem Named.setGroup (h : p.Named) (g : Group) : (p.setGroup g).Named := by
  intro n g' hg'
  rw [group?_setGroup] at hg'
  split at hg'
  · split at hg' <;> cases hg'
    assumption
  · exact h n g' hg'

theorem setGroup_other (hname : g.name = name) (hn : n ≠ name) :
    (p.setGroup g).group? n = p.group? n := by
  rw [group?_setGroup, hname, if_neg (Ne.symm hn)]

end Program

theorem Group.name_of_add {g g' : Group} {id : Equation.Id} {d : Definition} {time : Nat}
    (h : g.add id d time = .ok g') : g'.name = g.name := by
  unfold Group.add at h
  split at h <;> cases h
  rfl

theorem Group.name_of_replace {g g' : Group} {id : Equation.Id} {d : Definition} {time : Nat}
    (h : g.replace? id d time = some g') : g'.name = g.name := by
  unfold Group.replace? at h
  split at h <;> cases h
  rfl

namespace Engine

variable {α β : Type} {s s' t : Engine}

/-! ## What an edit can do -/

/-- A step of an edit. -/
inductive Change : Engine → Engine → Prop
  /-- Dimensions are learned. -/
  | learn {s : Engine} {T : DimTable} : s.machine.dims.Within T →
    Change s { s with machine := { s.machine with dims := T } }
  /-- The equations of a name are changed, and what depends on it is forgotten. -/
  | redefine {s : Engine} {p : Program} {name : String} : p.config = s.program.config →
    p.vocabulary = s.program.vocabulary → p.Named →
    (∀ n, n ≠ name → p.group? n = s.program.group? n) →
    Change s (forget { s with program := p } name)

theorem Change.named (h : Change s t) (hs : s.program.Named) : t.program.Named := by
  cases h with
  | learn => exact hs
  | redefine _ _ hnamed _ => exact hnamed

theorem Change.config (h : Change s t) : t.program.config = s.program.config := by
  cases h with
  | learn => rfl
  | redefine hconfig => exact hconfig

theorem Change.loops (h : Change s t) : t.machine.stats.loops = s.machine.stats.loops := by
  cases h <;> rfl

def Changes : Engine → Engine → Prop := Relation.ReflTransGen Change

/-- What a step preserves is preserved by all steps. -/
theorem Changes.keeps {I : Engine → Prop} (hI : ∀ {s t}, Change s t → I s → I t)
    (h : Changes s t) (hs : I s) : I t := by
  induction h with
  | refl => exact hs
  | tail _ hchange ih => exact hI hchange ih

/-- The engines have the same equations and operators, and dimensions that are alike. -/
structure Twin (s t : Engine) : Prop where
  program : t.program = { s.program with config := t.program.config }
  dims : s.machine.dims.Alike t.machine.dims

theorem Twin.eq (h : s.Twin t) : ∃ (config : Config) (m : Machine),
    t = ⟨{ s.program with config := config }, m⟩ ∧ s.machine.dims.Alike m.dims :=
  ⟨t.program.config, t.machine, congrArg (Engine.mk · t.machine) h.program, h.dims⟩

/-- The action makes changes only, and looks at nothing else than equations and dimensions. -/
structure Edits (a : Action Engine α) : Prop where
  changes (s : Engine) : s.program.Named → Changes s (a s).2
  twin {s t : Engine} : s.Twin t → (a s).1 = (a t).1 ∧ (a s).2.Twin (a t).2

namespace Edits

theorem pure (a : α) : Edits (Pure.pure a) := ⟨fun _ _ => .refl, fun h => ⟨rfl, h⟩⟩

theorem bind {a : Action Engine α} {f : α → Action Engine β} (ha : Edits a)
    (hf : ∀ v, Edits (f v)) : Edits (a >>= f) := by
  refine ⟨fun s hs => ?_, fun {s t} h => ?_⟩
  · have hfirst := ha.changes s hs
    rw [Action.bind_apply]
    rcases hres : a s with ⟨e | v, s'⟩
    · rwa [hres] at hfirst
    · rw [hres] at hfirst
      exact hfirst.trans ((hf v).changes s' (hfirst.keeps Change.named hs))
  · obtain ⟨hres, htwin⟩ := ha.twin h
    rw [Action.bind_apply, Action.bind_apply]
    generalize a s = ran at hres htwin ⊢
    generalize a t = ran' at hres htwin ⊢
    obtain ⟨r, s'⟩ := ran
    obtain ⟨r', t'⟩ := ran'
    obtain rfl : r = r' := hres
    cases r with
    | error e => exact ⟨rfl, htwin⟩
    | ok v => exact (hf v).twin htwin

theorem compile (e : Expr) : Edits (compile e) := by
  have hsteady := DimTable.Steady.compile e
  refine ⟨fun s _ => .single (.learn (hsteady.within s.machine.dims)), fun {s t} h => ?_⟩
  obtain ⟨hres, halike⟩ := hsteady.alike h.dims
  exact ⟨hres, h.program, halike⟩

end Edits

theorem Edits.add (name : String) (id : Equation.Id) (d : Definition) (time : Nat) :
    Edits (add name id d time) := by
  refine ⟨fun s hs => ?_, fun {s t} h => ?_⟩
  · unfold Engine.add
    split
    · exact .refl
    · cases hadd : (s.program.groupOf name).add id d time with
      | error e => exact .refl
      | ok g =>
        have hname : g.name = name := (Group.name_of_add hadd).trans (hs.groupOf name)
        exact .single (.redefine rfl rfl (hs.setGroup g) fun n hn =>
          Program.setGroup_other hname hn)
  · obtain ⟨config, m, rfl, hdims⟩ := h.eq
    unfold Engine.add
    dsimp only
    split
    · exact ⟨rfl, rfl, hdims⟩
    · dsimp only [Program.groupOf_config]
      cases (s.program.groupOf name).add id d time with
      | error e => exact ⟨rfl, rfl, hdims⟩
      | ok g => exact ⟨rfl, rfl, hdims⟩

theorem Edits.delete (id : Equation.Id) : Edits (delete id) := by
  refine ⟨fun s hs => ?_, fun {s t} h => ?_⟩
  · unfold Engine.delete
    cases s.program.owners.get? id with
    | none => exact .refl
    | some name =>
      exact .single (.redefine rfl rfl (hs.setGroup _) fun n hn =>
        Program.setGroup_other (hs.groupOf name) hn)
  · obtain ⟨config, m, rfl, hdims⟩ := h.eq
    unfold Engine.delete
    dsimp only
    cases s.program.owners.get? id with
    | none => exact ⟨rfl, rfl, hdims⟩
    | some name => exact ⟨rfl, rfl, hdims⟩

theorem Edits.replace (id : Equation.Id) (d : Definition) (time : Nat) :
    Edits (replace id d time) := by
  refine ⟨fun s hs => ?_, fun {s t} h => ?_⟩
  · unfold Engine.replace
    cases s.program.owners.get? id with
    | none => exact .refl
    | some name =>
      dsimp only
      cases hreplace : (s.program.groupOf name).replace? id d time with
      | none => exact .refl
      | some g =>
        have hname : g.name = name := (Group.name_of_replace hreplace).trans (hs.groupOf name)
        exact .single (.redefine rfl rfl (hs.setGroup g) fun n hn =>
          Program.setGroup_other hname hn)
  · obtain ⟨config, m, rfl, hdims⟩ := h.eq
    unfold Engine.replace
    dsimp only
    cases s.program.owners.get? id with
    | none => exact ⟨rfl, rfl, hdims⟩
    | some name =>
      dsimp only [Program.groupOf_config]
      cases (s.program.groupOf name).replace? id d time with
      | none => exact ⟨rfl, rfl, hdims⟩
      | some g => exact ⟨rfl, rfl, hdims⟩

theorem edits_run : ∀ e : Edit, Edits e.run
  | .define name id guard body time =>
      .bind (.bind (.compile body) fun code => .add name id ⟨guard, none, code⟩ time) fun _ =>
        .pure true
  | .add name id d time => .bind (.add name id d time) fun _ => .pure true
  | .addSource name id source time =>
      .bind (.add name id (.always (.source source)) time) fun _ => .pure true
  | .replace id d time => .replace id d time
  | .delete id => .delete id

/-! ## An example -/

/-- The factorial of three, and what it is with two in place of one for the factorial of zero.
The name `n` is interned as dimension 7. -/
def factorial : List Request :=
  let step : Expr := .apply "-" [.read (.dimension "n"), .const (.int 1)]
  let smaller : Expr := .under (.ident "factorial") [(.dimension "n", step)]
  [.edit (.define "factorial" ⟨1⟩ .always (.apply "*" [.read (.dimension "n"), smaller]) 0),
    .edit (.define "factorial" ⟨2⟩ (.ofPairs [(7, .int 0)]) (.const (.int 1)) 1),
    .evaluate "factorial" (.ofList [(7, .int 3)]),
    .edit (.replace ⟨2⟩ ⟨.ofPairs [(7, .int 0)], none, .const (.int 2)⟩ 2),
    .evaluate "factorial" (.ofList [(7, .int 3)])]

end Engine

end Intensional
