import Intensional.Evaluation.Demand
import Intensional.Proofs.Context.Agreement

/-!
# Code in any monad

The evaluation of code uses its monad in a few ways only: it notes reads, it interns values, and
it runs a body under changed bindings. `Code.interpret` and `Group.interpret` are the evaluation
over any monad that offers these (`Evaluator`); at the monad of the machine they are
`Code.eval` and `Group.value` (`Code.interpret_eq_eval`, `Group.interpret_eq_value`).

Two monads can then be compared once and for all. A `Relator` is a relation between their
computations that the few steps respect; `Relator.code` and `Relator.group` say that it holds
of all code and of all groups as soon as it holds of names. What an evaluation keeps, what it
depends on, and that a memo does not show, are relators.
-/

namespace Intensional

/-- What the evaluation of code asks of the monad it takes place in. -/
class Evaluator (m : Type → Type) [Monad m] where
  note : IndexSet → m Unit
  intern : Value → m Dim
  /-- Run the body of some changes. What it reads of the changed dimensions stays inside. -/
  beneath : Context → m Value → m Value

instance : Evaluator EvalM where
  note := EvalM.noteReads
  intern := EvalM.internValue
  beneath delta body := do
    let (result, reads) ← EvalM.tracked body
    EvalM.noteReads (reads.filter fun d => !delta.contains d)
    Action.ofExcept result

namespace Evaluator

variable {m : Type → Type} [Monad m] [Evaluator m]

def look (k : Context) (d : Dim) : m Value := do
  note (.ofList [d])
  pure (k.valueAt d)

def consult (s : Source) (k : Context) : m Value := do
  note s.dims
  pure (s.get k)

def test (g : Guard) (k : Context) : m Bool := do
  note g.dims
  pure (g.holdsAt k)

end Evaluator

section Interpret

variable {m : Type → Type} [Monad m] [Evaluator m]

open Evaluator

namespace Code

mutual

/-- The value of code at a context, in any monad. -/
def interpret (ops : OperatorTable) (call : String → Context → m Value) :
    Code → Context → m Value
  | .const v, _ => pure v
  | .read d, k => look k d
  | .readAt key, k => do
    let v ← interpret ops call key k
    if v.isSpecial then pure v
    else do
      let d ← intern v
      look k d
  | .ident n, k => call n k
  | .apply op args, k => do
    let vs ← interpretAll ops call args k
    pure (ops.apply op vs)
  | .cond test yes no, k => do
    match ← interpret ops call test k with
    | .bool true => interpret ops call yes k
    | .bool false => interpret ops call no k
    | .special s => pure (.special s)
    | _ => pure (.special .typeError)
  | .under body bindings, k => do
    match ← interpretBindings ops call bindings k with
    | .error v => pure v
    | .ok pairs =>
      let delta := Context.ofList pairs
      beneath delta (interpret ops call body (k.override delta))
  | .source s, k => consult s k

def interpretAll (ops : OperatorTable) (call : String → Context → m Value) :
    List Code → Context → m (List Value)
  | [], _ => pure []
  | c :: cs, k => do
    let v ← interpret ops call c k
    let vs ← interpretAll ops call cs k
    pure (v :: vs)

/-- The dimensions and values of a list of bindings, or the first special value among the keys. -/
def interpretBindings (ops : OperatorTable) (call : String → Context → m Value) :
    List (Code × Code) → Context → m (Except Value (List (Dim × Value)))
  | [], _ => pure (.ok [])
  | (key, value) :: rest, k => do
    let v ← interpret ops call key k
    if v.isSpecial then pure (.error v)
    else do
      let d ← intern v
      let w ← interpret ops call value k
      match ← interpretBindings ops call rest k with
      | .error v => pure (.error v)
      | .ok pairs => pure (.ok ((d, w) :: pairs))

end

end Code

/-- The equation applies, in any monad. -/
def Equation.interpret (eval : Code → Context → m Value) (k : Context) (e : Equation) :
    m Bool := do
  if ← test e.guard k then
    match e.definition.condition with
    | none => pure true
    | some condition => do
      let v ← eval condition k
      pure v.isTrue
  else pure false

def interpretApplicable (eval : Code → Context → m Value) (k : Context) :
    List Equation → m (List Equation)
  | [] => pure []
  | e :: es => do
    let applies ← e.interpret eval k
    let rest ← interpretApplicable eval k es
    pure (if applies then e :: rest else rest)

def Group.interpret (eval : Code → Context → m Value) (g : Group) (k : Context) : m Value := do
  match Choice.among (← interpretApplicable eval k g.equations) with
  | .only e => eval e.definition.body k
  | .nothing => pure (.special .undef)
  | .tied _ => pure (.special .multiDef)

end Interpret

/-! ## At the monad of the machine -/

namespace Code

mutual

theorem interpret_eq_eval (ops : OperatorTable) (call : String → Context → EvalM Value) :
    ∀ (c : Code) (k : Context), c.interpret ops call k = c.eval ops call k
  | .const _, _ | .read _, _ | .ident _, _ | .source _, _ => rfl
  | .readAt key, k => by
    rw [interpret, eval, interpret_eq_eval ops call key k]
    rfl
  | .apply op args, k => by
    rw [interpret, eval, interpretAll_eq_evalAll ops call args k]
  | .cond test yes no, k => by
    rw [interpret, interpret_eq_eval ops call test k, interpret_eq_eval ops call yes k,
      interpret_eq_eval ops call no k]
    rfl
  | .under body bindings, k => by
    rw [interpret, eval, interpretBindings_eq_evalBindings ops call bindings k]
    simp only [interpret_eq_eval ops call body]
    rfl

theorem interpretAll_eq_evalAll (ops : OperatorTable) (call : String → Context → EvalM Value) :
    ∀ (cs : List Code) (k : Context), interpretAll ops call cs k = evalAll ops call cs k
  | [], _ => rfl
  | c :: cs, k => by
    rw [interpretAll, evalAll, interpret_eq_eval ops call c k,
      interpretAll_eq_evalAll ops call cs k]

theorem interpretBindings_eq_evalBindings (ops : OperatorTable)
    (call : String → Context → EvalM Value) :
    ∀ (bs : List (Code × Code)) (k : Context),
      interpretBindings ops call bs k = evalBindings ops call bs k
  | [], _ => rfl
  | (key, value) :: rest, k => by
    rw [interpretBindings, evalBindings, interpret_eq_eval ops call key k,
      interpret_eq_eval ops call value k, interpretBindings_eq_evalBindings ops call rest k]
    rfl

end

end Code

theorem Equation.interpret_eq_applies (eval : Code → Context → EvalM Value) (k : Context)
    (e : Equation) : e.interpret eval k = e.applies eval k := by
  rw [Equation.interpret, Equation.applies, Evaluator.test, bind_assoc]
  simp only [pure_bind]
  rfl

theorem interpretApplicable_eq_applicable (eval : Code → Context → EvalM Value) (k : Context) :
    ∀ es : List Equation, interpretApplicable eval k es = applicable eval k es
  | [] => rfl
  | e :: es => by
    rw [interpretApplicable, applicable, e.interpret_eq_applies,
      interpretApplicable_eq_applicable eval k es]

theorem Group.interpret_eq_value (eval : Code → Context → EvalM Value) (g : Group)
    (k : Context) : g.interpret eval k = g.value eval k := by
  rw [Group.interpret, interpretApplicable_eq_applicable]
  show _ = (applicable eval k g.equations >>= fun es => pure (Choice.among es)) >>= _
  rw [bind_assoc]
  rfl

theorem Group.interpret_code (ops : OperatorTable) (call : String → Context → EvalM Value)
    (g : Group) (k : Context) :
    g.interpret (Code.interpret ops call) k = g.value (Code.eval ops call) k := by
  have heval : Code.interpret ops call = Code.eval ops call := by
    funext c k
    rw [Code.interpret_eq_eval]
  rw [heval, Group.interpret_eq_value]

/-! ## Relators -/

/-- A relation between the computations of two monads, and between the contexts and values that
they handle, that every step of an evaluation respects. The relation may change where bindings
do: this is what the index is for. -/
structure Relator (m₁ m₂ : Type → Type) [Monad m₁] [Monad m₂] [Evaluator m₁] [Evaluator m₂] where
  Index : Type
  like : Likeness
  contexts : Index → Context → Context → Prop
  rel : Index → ∀ {α β : Type}, (α → β → Prop) → m₁ α → m₂ β → Prop
  pure {i : Index} {α β : Type} {R : α → β → Prop} {a : α} {b : β} :
    R a b → rel i R (Pure.pure a) (Pure.pure b)
  bind {i : Index} {α β γ δ : Type} {R : α → β → Prop} {S : γ → δ → Prop} {x : m₁ α} {y : m₂ β}
    {f : α → m₁ γ} {g : β → m₂ δ} :
    rel i R x y → (∀ a b, R a b → rel i S (f a) (g b)) → rel i S (x >>= f) (y >>= g)
  look {i : Index} {k l : Context} (d : Dim) :
    contexts i k l → rel i like.same (Evaluator.look k d) (Evaluator.look l d)
  consult {i : Index} {k l : Context} (s : Source) :
    contexts i k l → rel i like.same (Evaluator.consult s k) (Evaluator.consult s l)
  test {i : Index} {k l : Context} (g : Guard) :
    contexts i k l → rel i Eq (Evaluator.test g k) (Evaluator.test g l)
  intern {i : Index} {v w : Value} :
    like.same v w → rel i Eq (Evaluator.intern v) (Evaluator.intern w)
  beneath {i : Index} {k l : Context} {ps qs : List (Dim × Value)} :
    contexts i k l → like.Bindings ps qs →
      ∃ j, contexts j (k.override (.ofList ps)) (l.override (.ofList qs)) ∧
        ∀ (x : m₁ Value) (y : m₂ Value), rel j like.same x y →
          rel i like.same (Evaluator.beneath (.ofList ps) x) (Evaluator.beneath (.ofList qs) y)

namespace Relator

variable {m₁ m₂ : Type → Type} [Monad m₁] [Monad m₂] [Evaluator m₁] [Evaluator m₂]
  (T : Relator m₁ m₂)

/-- Both lists of bindings ended in a special value, or neither did. -/
inductive Outcome : Except Value (List (Dim × Value)) → Except Value (List (Dim × Value)) → Prop
  | error {v w : Value} : T.like.same v w → Outcome (.error v) (.error w)
  | ok {ps qs : List (Dim × Value)} : T.like.Bindings ps qs → Outcome (.ok ps) (.ok qs)

variable {T} {ops : OperatorTable} {call₁ : String → Context → m₁ Value}
  {call₂ : String → Context → m₂ Value}

mutual

/-- What is related on names is related on all code. -/
theorem code (hops : T.like.Keeps ops)
    (hcall : ∀ i n k l, T.contexts i k l → T.rel i T.like.same (call₁ n k) (call₂ n l)) :
    ∀ (c : Code) {i : T.Index} {k l : Context}, T.contexts i k l →
      T.rel i T.like.same (c.interpret ops call₁ k) (c.interpret ops call₂ l)
  | .const v, i, k, l, h => by
      simp only [Code.interpret]
      exact T.pure (T.like.refl v)
  | .read d, i, k, l, h => by
      simp only [Code.interpret]
      exact T.look d h
  | .readAt key, i, k, l, h => by
      simp only [Code.interpret]
      refine T.bind (code hops hcall key h) fun v w hvw => ?_
      rw [Value.isSpecial_congr (T.like.beq hvw)]
      split
      · exact T.pure hvw
      · refine T.bind (T.intern hvw) fun d e hde => ?_
        subst hde
        exact T.look d h
  | .ident n, i, k, l, h => by
      simp only [Code.interpret]
      exact hcall i n k l h
  | .apply op args, i, k, l, h => by
      simp only [Code.interpret]
      exact T.bind (codeAll hops hcall args h) fun vs ws hvs => T.pure (hops op vs ws hvs)
  | .cond test yes no, i, k, l, h => by
      simp only [Code.interpret]
      refine T.bind (code hops hcall test h) fun v w hvw => ?_
      have hb := Value.bool?_congr (T.like.beq hvw)
      have hs := Value.special?_congr (T.like.beq hvw)
      split
      · cases w <;> simp only [Value.bool?, Option.some.injEq, reduceCtorEq] at hb
        subst hb
        exact code hops hcall yes h
      · cases w <;> simp only [Value.bool?, Option.some.injEq, reduceCtorEq] at hb
        subst hb
        exact code hops hcall no h
      · cases w <;> simp only [Value.special?, Option.some.injEq, reduceCtorEq] at hs
        exact T.pure hvw
      · rename_i h₁ h₂ h₃
        have : ∀ u : Value, w = u → u.bool? = none ∧ u.special? = none := by
          rintro u rfl
          rw [← hb, ← hs]
          cases v with
          | bool b => cases b <;> simp_all
          | special s => exact absurd rfl (h₃ s)
          | _ => exact ⟨rfl, rfl⟩
        cases w <;> simp only [Value.bool?, Value.special?, forall_eq', reduceCtorEq, and_false,
          false_and] at this
        all_goals exact T.pure (T.like.refl _)
  | .under body bindings, i, k, l, h => by
      simp only [Code.interpret]
      refine T.bind (codeBindings hops hcall bindings h) fun o o' ho => ?_
      cases ho with
      | error hvw => exact T.pure hvw
      | ok hps =>
        obtain ⟨j, hj, hbeneath⟩ := T.beneath h hps
        exact hbeneath _ _ (code hops hcall body hj)
  | .source s, i, k, l, h => by
      simp only [Code.interpret]
      exact T.consult s h

theorem codeAll (hops : T.like.Keeps ops)
    (hcall : ∀ i n k l, T.contexts i k l → T.rel i T.like.same (call₁ n k) (call₂ n l)) :
    ∀ (cs : List Code) {i : T.Index} {k l : Context}, T.contexts i k l →
      T.rel i (List.Forall₂ T.like.same) (Code.interpretAll ops call₁ cs k)
        (Code.interpretAll ops call₂ cs l)
  | [], i, k, l, h => by
      simp only [Code.interpretAll]
      exact T.pure .nil
  | c :: cs, i, k, l, h => by
      simp only [Code.interpretAll]
      refine T.bind (code hops hcall c h) fun v w hvw => ?_
      exact T.bind (codeAll hops hcall cs h) fun vs ws hvs => T.pure (.cons hvw hvs)

theorem codeBindings (hops : T.like.Keeps ops)
    (hcall : ∀ i n k l, T.contexts i k l → T.rel i T.like.same (call₁ n k) (call₂ n l)) :
    ∀ (bs : List (Code × Code)) {i : T.Index} {k l : Context}, T.contexts i k l →
      T.rel i T.Outcome (Code.interpretBindings ops call₁ bs k)
        (Code.interpretBindings ops call₂ bs l)
  | [], i, k, l, h => by
      simp only [Code.interpretBindings]
      exact T.pure (.ok .nil)
  | (key, value) :: rest, i, k, l, h => by
      simp only [Code.interpretBindings]
      refine T.bind (code hops hcall key h) fun v w hvw => ?_
      rw [Value.isSpecial_congr (T.like.beq hvw)]
      split
      · exact T.pure (.error hvw)
      · refine T.bind (T.intern hvw) fun d e hde => ?_
        refine T.bind (code hops hcall value h) fun a b hab => ?_
        refine T.bind (codeBindings hops hcall rest h) fun o o' ho => ?_
        cases ho with
        | error hvw => exact T.pure (.error hvw)
        | ok hps => exact T.pure (.ok (.cons ⟨hde, hab⟩ hps))

end

theorem applicable {eval₁ : Code → Context → m₁ Value} {eval₂ : Code → Context → m₂ Value}
    {i : T.Index} {k l : Context} (h : T.contexts i k l)
    (heval : ∀ c, T.rel i T.like.same (eval₁ c k) (eval₂ c l)) :
    ∀ es : List Equation,
      T.rel i Eq (interpretApplicable eval₁ k es) (interpretApplicable eval₂ l es)
  | [] => T.pure rfl
  | e :: es => by
      have applies : T.rel i Eq (e.interpret eval₁ k) (e.interpret eval₂ l) := by
        refine T.bind (T.test e.guard h) fun a b hab => ?_
        subst hab
        split
        · split
          · exact T.pure rfl
          · refine T.bind (heval _) fun v w hvw => T.pure ?_
            exact Value.isTrue_congr (T.like.beq hvw)
        · exact T.pure rfl
      refine T.bind applies fun a b hab => ?_
      refine T.bind (applicable h heval es) fun fs gs hfs => ?_
      subst hab hfs
      exact T.pure rfl

/-- What is related on names is related on the equations of a name. -/
theorem group (hops : T.like.Keeps ops)
    (hcall : ∀ i n k l, T.contexts i k l → T.rel i T.like.same (call₁ n k) (call₂ n l))
    (g : Group) {i : T.Index} {k l : Context} (h : T.contexts i k l) :
    T.rel i T.like.same (g.interpret (Code.interpret ops call₁) k)
      (g.interpret (Code.interpret ops call₂) l) := by
  have heval := fun c => code hops hcall c h
  refine T.bind (applicable h heval g.equations) fun es fs hes => ?_
  subst hes
  split
  · exact heval _
  · exact T.pure (T.like.refl _)
  · exact T.pure (T.like.refl _)

end Relator

end Intensional
