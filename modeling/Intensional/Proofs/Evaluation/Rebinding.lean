import Intensional.Proofs.Evaluation.Keeping

/-!
# Equations that change no bindings

Code without a body under changed bindings evaluates all names at the context that it is
evaluated at itself. So nothing can be remembered for a name that is pending there: asking for
it again is a cycle. What the name has read can then be stored without meeting a leaf, whether
there are cycles or not.
-/

namespace Intensional

open Machine

namespace Code

mutual

/-- Some part of the code is a body under changed bindings. -/
def rebinds : Code → Bool
  | .const _ | .read _ | .ident _ | .source _ => false
  | .readAt key => rebinds key
  | .apply _ args => anyRebinds args
  | .cond test yes no => rebinds test || rebinds yes || rebinds no
  | .under _ _ => true

def anyRebinds : List Code → Bool
  | [] => false
  | c :: cs => rebinds c || anyRebinds cs

end

end Code

def Equation.rebinds (e : Equation) : Bool :=
  e.definition.condition.any Code.rebinds || e.definition.body.rebinds

def Group.rebinds (g : Group) : Bool := g.equations.any Equation.rebinds

/-! ## Steps made of steps -/

/-- A property that a step has if the steps that it is made of have it. What comes after a step
needs to have it for the answers of the step only. -/
structure Compositional (P : {α : Type} → EvalM α → Prop) : Prop where
  pure {α : Type} (a : α) : P (Pure.pure a : EvalM α)
  bind {α β : Type} {x : EvalM α} {f : α → EvalM β} : P x →
    (∀ s a, (x s).1 = .ok a → P (f a)) → P (x >>= f)
  noteReads (dims : IndexSet) : P (EvalM.noteReads dims)
  internValue (v : Value) : P (EvalM.internValue v)

/-- The equations that apply are among those that are tried. -/
theorem mem_of_applicable {eval : Code → Context → EvalM Value} {k : Context} :
    ∀ {es : List Equation} {fs : List Equation} {s : Machine},
      (applicable eval k es s).1 = .ok fs → ∀ f ∈ fs, f ∈ es
  | [], _, _, h, f, hf => by
      cases h
      cases hf
  | e :: es, fs, s, h, f, hf => by
      obtain ⟨applies, s₁, -, hrest⟩ := Action.of_bind_ok (Prod.ext h rfl : _ = (_, _))
      obtain ⟨rest, s₂, hes, hend⟩ := Action.of_bind_ok hrest
      have hmem := mem_of_applicable (congrArg Prod.fst hes)
      cases hend
      cases applies with
      | true => exact List.mem_cons.mpr ((List.mem_cons.mp hf).imp id (hmem f))
      | false => exact List.mem_cons_of_mem _ (hmem f hf)

namespace Compositional

variable {P : {α : Type} → EvalM α → Prop} {ops : OperatorTable}
  {call : String → Context → EvalM Value} {k : Context}

mutual

/-- Code that changes no bindings has the property if the names have it at its own context. -/
theorem code (h : Compositional P) (hcall : ∀ n, P (call n k)) :
    ∀ c : Code, c.rebinds = false → P (c.eval ops call k)
  | .const v, _ => by
      simp only [Code.eval]
      exact h.pure v
  | .read d, _ => by
      simp only [Code.eval]
      exact h.bind (h.noteReads _) fun _ _ _ => h.pure _
  | .readAt key, hplain => by
      simp only [Code.eval]
      refine h.bind (h.code hcall key hplain) fun _ v _ => ?_
      split
      · exact h.pure v
      · exact h.bind (h.internValue v) fun _ d _ =>
          h.bind (h.noteReads _) fun _ _ _ => h.pure _
  | .ident n, _ => by
      simp only [Code.eval]
      exact hcall n
  | .apply op args, hplain => by
      simp only [Code.eval]
      exact h.bind (h.codeAll hcall args hplain) fun _ _ _ => h.pure _
  | .cond test yes no, hplain => by
      simp only [Code.rebinds, Bool.or_eq_false_iff] at hplain
      simp only [Code.eval]
      refine h.bind (h.code hcall test hplain.1.1) fun _ v _ => ?_
      split
      · exact h.code hcall yes hplain.1.2
      · exact h.code hcall no hplain.2
      · exact h.pure _
      · exact h.pure _
  | .source s, _ => by
      simp only [Code.eval]
      exact h.bind (h.noteReads _) fun _ _ _ => h.pure _

theorem codeAll (h : Compositional P) (hcall : ∀ n, P (call n k)) :
    ∀ cs : List Code, Code.anyRebinds cs = false → P (Code.evalAll ops call cs k)
  | [], _ => by
      simp only [Code.evalAll]
      exact h.pure _
  | c :: cs, hplain => by
      simp only [Code.anyRebinds, Bool.or_eq_false_iff] at hplain
      simp only [Code.evalAll]
      exact h.bind (h.code hcall c hplain.1) fun _ _ _ =>
        h.bind (h.codeAll hcall cs hplain.2) fun _ _ _ => h.pure _

end

variable (h : Compositional P) (hcall : ∀ n, P (call n k))

include h hcall

theorem applies (e : Equation) (he : e.rebinds = false) :
    P (e.applies (Code.eval ops call) k) := by
  rw [Equation.rebinds, Bool.or_eq_false_iff] at he
  refine h.bind (h.noteReads _) fun _ _ _ => ?_
  split
  · cases hcondition : e.definition.condition with
    | none => exact h.pure _
    | some c =>
      rw [hcondition, Option.any_some] at he
      exact h.bind (h.code hcall c he.1) fun _ _ _ => h.pure _
  · exact h.pure _

theorem applicable : ∀ es : List Equation, (∀ e ∈ es, e.rebinds = false) →
    P (Intensional.applicable (Code.eval ops call) k es)
  | [], _ => h.pure _
  | e :: es, hes => h.bind (h.applies hcall e (hes e (List.mem_cons_self ..))) fun _ _ _ =>
      h.bind (applicable es fun e he => hes e (List.mem_cons_of_mem _ he)) fun _ _ _ => h.pure _

theorem group (g : Group) (hg : g.rebinds = false) :
    P (g.value (Code.eval ops call) k) := by
  have hall : ∀ e ∈ g.equations, e.rebinds = false := by
    intro e he
    exact Bool.eq_false_iff.mpr fun h => by
      rw [Group.rebinds, List.any_eq_false] at hg
      exact hg e he h
  have hchoose : P (g.choose (Code.eval ops call) k) :=
    h.bind (h.applicable hcall g.equations hall) fun _ _ _ => h.pure _
  refine h.bind hchoose fun s c hc => ?_
  cases c with
  | only e =>
    obtain ⟨es, s₁, hes, hend⟩ := Action.of_bind_ok (Prod.ext hc rfl : _ = (_, _))
    have hamong : Choice.among es = .only e := Except.ok.inj (congrArg Prod.fst hend)
    have he := hall e (mem_of_applicable (congrArg Prod.fst hes) e (Choice.mem_of_only hamong))
    rw [Equation.rebinds, Bool.or_eq_false_iff] at he
    exact h.code hcall _ he.2
  | nothing => exact h.pure _
  | tied ids => exact h.pure _

end Compositional

/-! ## What is pending is left alone -/

variable {k : Context}

/-- The step leaves alone what is pending at `k`: it stays pending, nothing is remembered for it,
and no leaf is left unkeyed. -/
structure Spares (k : Context) {α : Type} (x : EvalM α) : Prop where
  pending (s : Machine) (n : String) : (x s).2.memo.isPending n k = s.memo.isPending n k
  unknown (s : Machine) (n : String) : s.memo.isPending n k = true → s.memo.known? n k = none →
    (x s).2.memo.known? n k = none
  keyed (s : Machine) (n : String) (dims : IndexSet) : (x s).1 ≠ .error (.unkeyedLeaf n dims)

namespace Spares

variable {α β : Type}

theorem pure (a : α) : Spares k (Pure.pure a : EvalM α) :=
  ⟨fun _ _ => rfl, fun _ _ _ h => h, fun _ _ _ h => (nomatch h)⟩

theorem bind {x : EvalM α} {f : α → EvalM β} (hx : Spares k x)
    (hf : ∀ s a, (x s).1 = .ok a → Spares k (f a)) : Spares k (x >>= f) := by
  have step : ∀ s, (∃ e, (x s).1 = .error e ∧ (x >>= f) s = (.error e, (x s).2)) ∨
      ∃ a, Spares k (f a) ∧ (x >>= f) s = f a (x s).2 := by
    intro s
    rcases hres : x s with ⟨e | a, s₁⟩
    · exact .inl ⟨e, rfl, Action.bind_of_error hres f⟩
    · exact .inr ⟨a, hf s a (by rw [hres]), Action.bind_of_ok hres f⟩
  constructor
  · intro s n
    rcases step s with ⟨e, -, h⟩ | ⟨a, ha, h⟩ <;> rw [h]
    · exact hx.pending s n
    · exact (ha.pending _ n).trans (hx.pending s n)
  · intro s n hpending hnone
    have hnone' := hx.unknown s n hpending hnone
    rcases step s with ⟨e, -, h⟩ | ⟨a, ha, h⟩ <;> rw [h]
    · exact hnone'
    · exact ha.unknown _ n ((hx.pending s n).trans hpending) hnone'
  · intro s n dims
    have hx' := hx.keyed s n dims
    rcases step s with ⟨e, he, h⟩ | ⟨a, ha, h⟩ <;> rw [h]
    · rw [he] at hx'
      intro heq
      cases heq
      exact hx' rfl
    · exact ha.keyed _ n dims

theorem noteReads (dims : IndexSet) : Spares k (EvalM.noteReads dims) := by
  have hmemo (s : Machine) : (EvalM.noteReads dims s).2.memo = s.memo := s.noteReads_memo dims
  refine ⟨fun s n => by rw [hmemo], fun s n _ h => by rw [hmemo]; exact h, fun s n _ h => ?_⟩
  cases h

theorem internValue (v : Value) : Spares k (EvalM.internValue v) := by
  refine ⟨fun _ _ => rfl, fun _ _ _ h => h, fun s n dims h => ?_⟩
  obtain ⟨size, hsize⟩ :=
    DimTable.internValue_error (Prod.ext h rfl : DimTable.internValue v s.dims = (_, _))
  cases hsize

theorem compositional (k : Context) : Compositional (Spares k) :=
  ⟨pure, bind, noteReads, internValue⟩

end Spares

/-! ## Names -/

namespace Program

variable {p : Program} {k : Context}

/-- Some equation of the program changes bindings. -/
def Rebinds (p : Program) : Prop := ∃ n g, p.group? n = some g ∧ g.rebinds = true

theorem not_rebinds_of_all (h : p.groups.all (fun e => !e.2.rebinds) = true) : ¬ p.Rebinds := by
  rintro ⟨n, g, hg, hrebinds⟩
  obtain ⟨n', hmem, -⟩ := Assoc.mem_of_get? hg
  have hplain := List.all_eq_true.mp h _ hmem
  rw [hrebinds] at hplain
  cases hplain

/-- An evaluated name leaves alone what is pending at its context if its equations do. -/
theorem compute_spares {n : String} {s : Machine} {body : EvalM Value}
    (hbody : Spares k body) (hpending : s.memo.isPending n k = false)
    (hmiss : p.config.caching = true → s.memo.known? n k = none)
    (hgrows : (s.enter n k).Grows (body (s.enter n k)).2) :
    (∀ m, s.memo.isPending m k = true → s.memo.known? m k = none →
      (p.compute n k body s).2.memo.known? m k = none) ∧
    ∀ m dims, (p.compute n k body s).1 ≠ .error (.unkeyedLeaf m dims) := by
  obtain ⟨f, fs, hframes, -⟩ := hgrows.innermost rfl
  have hconcludes := compute_concludes (p := p)
    (Prod.ext rfl rfl : body (s.enter n k) = (_, _)) hframes
  refine ⟨fun m hm hnone => ?_, fun m dims he => ?_⟩
  · have hbefore : (body (s.enter n k)).2.memo.known? m k = none := by
      refine hbody.unknown (s.enter n k) m ?_ hnone
      rw [isPending_enter, hm, Bool.or_true]
    refine Option.eq_none_iff_forall_not_mem.mpr fun o ho => ?_
    rcases hconcludes.recalled (Option.mem_def.mp ho) with hold | ⟨-, -, -, -, rfl, -⟩
    · rw [hbefore] at hold
      cases hold
    · rw [hpending] at hm
      cases hm
  · generalize hres : (body (s.enter n k)).1 = res at hconcludes
    generalize p.compute n k body s = ran at hconcludes he
    cases hconcludes with
    | failed e => exact hbody.keyed _ m dims (hres.trans he)
    | passed => cases he
    | stored => cases he
    | refused v e hcaching hstore =>
      have hself : (body (s.enter n k)).2.memo.known? n k = none := by
        refine hbody.unknown (s.enter n k) n ?_ (hmiss hcaching)
        rw [isPending_enter, BEq.rfl, Bool.true_or]
      have hleaf : ((body (s.enter n k)).2.memo.known? n k).isSome = true :=
        (Memo.store_error hstore).2
      rw [hself] at hleaf
      cases hleaf

/-- A name that is asked for leaves alone what is pending at its context if it does so where it is
evaluated. -/
theorem ask_spares {n : String} {evaluate : Group → EvalM Value}
    (hgrows : ∀ s : Machine, (s.asking n).Grows (p.ask n k evaluate s).2)
    (hevaluate : ∀ g s, p.group? n = some g → s.memo.isPending n k = false →
      (p.config.caching = true → s.memo.known? n k = none) →
        (∀ m, s.memo.isPending m k = true → s.memo.known? m k = none →
          (evaluate g s).2.memo.known? m k = none) ∧
        ∀ m dims, (evaluate g s).1 ≠ .error (.unkeyedLeaf m dims)) :
    Spares k (p.ask n k evaluate) := by
  have spares : ∀ s : Machine, (∀ m, s.memo.isPending m k = true → s.memo.known? m k = none →
      (p.ask n k evaluate s).2.memo.known? m k = none) ∧
        ∀ m dims, (p.ask n k evaluate s).1 ≠ .error (.unkeyedLeaf m dims) := by
    intro s
    rcases p.ask_cases n k evaluate s with ⟨-, hask⟩ | ⟨g, hg, ⟨v, path, -, -, hask⟩ |
      ⟨-, hask⟩ | ⟨hpending, hmiss, hask⟩⟩ <;> rw [hask]
    · rw [s.asking_memo n]
      exact ⟨fun _ _ h => h, fun _ _ h => (nomatch h)⟩
    · have hmemo : ((s.asking n).countHit.noteReads (.ofList path)).memo = s.memo :=
        (noteReads_memo _ _).trans (s.asking_memo n)
      rw [hmemo]
      exact ⟨fun _ _ h => h, fun _ _ h => (nomatch h)⟩
    · have hmemo : (((s.asking n).looping n k).noteReads k.dims).memo = s.memo :=
        (noteReads_memo _ _).trans (s.asking_memo n)
      rw [hmemo]
      exact ⟨fun _ _ h => h, fun _ _ h => (nomatch h)⟩
    · have hmemo : (s.asking n).countMiss.memo = s.memo := s.asking_memo n
      have h := hevaluate g (s.asking n).countMiss hg
      rw [hmemo] at h
      exact h hpending hmiss
  exact ⟨fun s m => ((hgrows s).pending m k).trans (by rw [s.asking_memo n]),
    fun s => (spares s).1, fun s => (spares s).2⟩

/-- Where no equation changes bindings, a name leaves alone what is pending at its context. -/
theorem names_spare (hplain : ¬ p.Rebinds) : ∀ (room : Nat) (n : String) (k : Context),
    Spares k (p.demand room n k)
  | 0, n, k => by
      refine ask_spares (names_grow p 0 n k) ?_
      exact fun g s _ _ _ => ⟨fun _ _ h => h, fun m dims h => by cases h⟩
  | room + 1, n, k => by
      refine ask_spares (names_grow p (room + 1) n k) ?_
      intro g s hg hpending hmiss
      have hrebinds : g.rebinds = false := Bool.eq_false_iff.mpr fun h => hplain ⟨n, g, hg, h⟩
      have hbody : Spares k (g.value (Code.eval p.vocabulary.operators (p.demand room)) k) :=
        (Spares.compositional k).group (fun n => names_spare hplain room n k) g hrebinds
      exact compute_spares hbody hpending hmiss (body_grows (p.names_grow room) g k _)

end Program

end Intensional
