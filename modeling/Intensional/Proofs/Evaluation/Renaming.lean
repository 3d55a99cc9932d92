import Intensional.Proofs.Dimension.Renaming
import Intensional.Proofs.Evaluation.Calls

/-!
# Evaluation under renamed dimensions

Without caching, two evaluations of a name at renamed contexts answer the same
(`Program.names_mirrored`), if the program mentions old dimensions only. They intern the same
values, and every value as matching dimensions, whatever else their tables know. They meet a cycle
at the same places, because a pending evaluation is found by an equal context, and renaming keeps
equal contexts equal and different ones different.

Which dimensions match is read off the tables that the two evaluations end with. So the renaming
is there before the evaluations begin, and need not grow with them: what a table knows at some
point it knows in the end. A table that has run full on one side ends the comparison.
-/

namespace Intensional

/-! ## Dimensions that a program mentions -/

/-- The values that the source answers mention only dimensions below `n`, and it looks at no
others. -/
def Source.confined (n : Nat) : Source → Bool
  | .constant v => v.confined n
  | .table t => t.dims.toList.all (decide <| · < n) && t.rows.all fun row => row.2.confined n

def Guard.confined (n : Nat) (g : Guard) : Bool := g.dims.toList.all (decide <| · < n)

namespace Code

mutual

/-- The code mentions only dimensions below `n`. -/
def confined (n : Nat) : Code → Bool
  | .const v => v.confined n
  | .read d => decide (d < n)
  | .readAt key => confined n key
  | .ident _ => true
  | .apply _ args => confinedAll n args
  | .cond test yes no => confined n test && confined n yes && confined n no
  | .under body bindings => confined n body && confinedBindings n bindings
  | .source s => s.confined n

def confinedAll (n : Nat) : List Code → Bool
  | [] => true
  | c :: cs => confined n c && confinedAll n cs

def confinedBindings (n : Nat) : List (Code × Code) → Bool
  | [] => true
  | (key, value) :: rest => confined n key && confined n value && confinedBindings n rest

end

end Code

def Equation.confined (n : Nat) (e : Equation) : Bool :=
  e.guard.confined n && e.definition.condition.all (·.confined n) && e.definition.body.confined n

def Group.confined (n : Nat) (g : Group) : Bool := g.equations.all (·.confined n)

/-- All equations of the program mention only dimensions below `n`. -/
def Program.confined (p : Program) (n : Nat) : Bool := p.groups.all fun g => g.2.confined n

/-- Applied to values that mention only dimensions below `n`, the operators answer such values. -/
def OperatorTable.Confines (ops : OperatorTable) (n : Nat) : Prop :=
  ∀ (op : String) (vs : List Value), (∀ v ∈ vs, v.confined n = true) →
    (ops.apply op vs).confined n = true

theorem OperatorTable.confines_empty (n : Nat) : Confines [] n := by
  intro op vs _
  show (unmatched vs).confined n = true
  rw [unmatched]
  cases hfind : vs.find? (·.isSpecial) with
  | none => rfl
  | some v =>
    have hspecial := List.find?_some hfind
    cases v <;> first | rfl | cases hspecial

theorem Program.confined_group? {p : Program} {n : Nat} {name : String} {g : Group}
    (h : p.confined n = true) (hg : p.group? name = some g) :
    ∀ e ∈ g.equations, e.confined n = true := by
  obtain ⟨name', hmem, -⟩ := Assoc.mem_of_get? hg
  exact List.all_eq_true.mp (List.all_eq_true.mp h (name', g) hmem)

namespace Renaming

variable {ρ : Renaming} {k l : Context} {s s' t t' : Machine} {n : String}

theorem Renames.holdsAt (h : ρ.Renames k l) {g : Guard} (hg : g.confined ρ.old = true) :
    g.holdsAt k = g.holdsAt l :=
  h.agree.holdsAt fun d hd => of_decide_eq_true (List.all_eq_true.mp hg d hd)

theorem Renames.source (h : ρ.Renames k l) {c : Source} (hc : c.confined ρ.old = true) :
    ρ.Same (c.get k) (c.get l) := by
  cases c with
  | constant v => exact ⟨rfl, hc⟩
  | table t =>
    obtain ⟨hdims, hrows⟩ := Bool.and_eq_true_iff.mp hc
    refine ⟨h.agree.source fun d hd => of_decide_eq_true (List.all_eq_true.mp hdims d hd), ?_⟩
    show (t.get k).confined ρ.old = true
    rw [Table.get]
    cases hrow : t.rows.get? (t.rowKey k) with
    | none => rfl
    | some v =>
      obtain ⟨key, hmem, -⟩ := Assoc.mem_of_get? hrow
      exact List.all_eq_true.mp hrows (key, v) hmem

/-! ## Steps that mirror each other -/

/-- The same evaluations are pending, at renamed contexts. -/
def Level (ρ : Renaming) (s t : Machine) : Prop :=
  ∀ (n : String) (k l : Context), ρ.Renames k l → s.memo.isPending n k = t.memo.isPending n l

theorem Level.grows (h : ρ.Level s t) (hs : s.Grows s') (ht : t.Grows t') : ρ.Level s' t' :=
  fun n k l hkl => (hs.pending n k).trans ((h n k l hkl).trans (ht.pending n l).symm)

theorem Level.beginning (h : ρ.Level s t) (n : String) (hkl : ρ.Renames k l) :
    ρ.Level (s.beginning n k) (t.beginning n l) := by
  intro m k' l' hkl'
  rw [Machine.beginning_memo, Machine.beginning_memo, Memo.isPending_start, Memo.isPending_start,
    h m k' l' hkl', beq_pair, beq_pair, hkl.beq_congr hkl']

/-- Answers that tell the same, unless a table has run full on the way to one of them. -/
inductive Tally {α β : Type} (R : α → β → Prop) : Except Fault α → Except Fault β → Prop
  | ok {a : α} {b : β} : R a b → Tally R (.ok a) (.ok b)
  | error (e : Fault) : Tally R (.error e) (.error e)
  | leftFull (size : Nat) (r : Except Fault β) : Tally R (.error (.tableFull .dimension size)) r
  | rightFull (r : Except Fault α) (size : Nat) : Tally R r (.error (.tableFull .dimension size))

theorem Tally.mono {α β : Type} {R S : α → β → Prop} {r : Except Fault α} {r' : Except Fault β}
    (h : Tally R r r') (hRS : ∀ a b, R a b → S a b) : Tally S r r' := by
  cases h with
  | ok hab => exact .ok (hRS _ _ hab)
  | error e => exact .error e
  | leftFull size _ => exact .leftFull size _
  | rightFull _ size => exact .rightFull _ size

/-- From states that are level, the two steps answer what tells the same, if the tables that they
end with are those of the renaming, or come to be. -/
def Mirrors (ρ : Renaming) {α β : Type} (R : α → β → Prop) (x : Kept .always α)
    (y : Kept .always β) : Prop :=
  ∀ s t, ρ.Level s t → (x.val s).2.dims.Within ρ.left → (y.val t).2.dims.Within ρ.right →
    Tally R (x.val s).1 (y.val t).1

section Mirrors

variable {α β γ δ : Type} {R : α → β → Prop} {S : γ → δ → Prop}

theorem mirrors_pure {a : α} {b : β} (hab : R a b) :
    ρ.Mirrors R (pure a) (pure b) := fun _ _ _ _ _ => .ok hab

theorem mirrors_noting {a : α} {b : β} (hab : R a b) (dims dims' : IndexSet) :
    ρ.Mirrors R (do Evaluator.note dims; pure a) (do Evaluator.note dims'; pure b) :=
  fun _ _ _ _ _ => .ok hab

theorem mirrors_bind {x : Kept .always α} {y : Kept .always β} {f : α → Kept .always γ}
    {g : β → Kept .always δ} (hxy : ρ.Mirrors R x y)
    (hfg : ∀ a b, R a b → ρ.Mirrors S (f a) (g b)) : ρ.Mirrors S (x >>= f) (y >>= g) := by
  intro s t hlevel hleft hright
  have htally := hxy s t hlevel ((Kept.grows_bind x f s).dims.trans hleft)
    ((Kept.grows_bind y g t).dims.trans hright)
  have hlevel' := hlevel.grows (x.property s).1 (y.property t).1
  rw [Kept.bind_val, Action.bind_apply] at hleft hright ⊢
  rw [Kept.bind_val, Action.bind_apply]
  generalize x.val s = ran at *
  generalize y.val t = ran' at *
  obtain ⟨r, s'⟩ := ran
  obtain ⟨r', t'⟩ := ran'
  cases htally with
  | ok hab => exact hfg _ _ hab s' t' hlevel' hleft hright
  | error e => exact .error e
  | leftFull size r => exact .leftFull size _
  | rightFull r size => exact .rightFull _ size

theorem mirrors_intern {v w : Value} (h : ρ.Same v w) :
    ρ.Mirrors ρ.Matches (Evaluator.intern v) (Evaluator.intern w) := by
  obtain ⟨rfl, hv⟩ := h
  intro s t _ hleft hright
  have hval : ∀ s : Machine, (Evaluator.intern v : Kept .always Dim).val s =
      ((DimTable.internValue v s.dims).1,
        { s with dims := (DimTable.internValue v s.dims).2 }) := fun _ => rfl
  rw [hval] at hleft hright ⊢
  rw [hval]
  rcases hs : DimTable.internValue v s.dims with ⟨e | d, T⟩
  · obtain ⟨size, rfl⟩ := DimTable.internValue_error hs
    exact .leftFull size _
  · rcases ht : DimTable.internValue v t.dims with ⟨e | d', U⟩
    · obtain ⟨size, rfl⟩ := DimTable.internValue_error ht
      exact .rightFull _ size
    · rw [hs] at hleft
      rw [ht] at hright
      exact .ok (.of_internValue hv hs hleft ht hright)

theorem mirrors_beneath {x y : Kept .always Value} (delta delta' : Context)
    (hxy : ρ.Mirrors ρ.Same x y) :
    ρ.Mirrors ρ.Same (Evaluator.beneath delta x) (Evaluator.beneath delta' y) := by
  have hend : ∀ (delta : Context) (z : Kept .always Value) (s : Machine),
      ((Evaluator.beneath delta z : Kept .always Value).val s).1 = (z.val (s.push (.new none))).1 ∧
      ((Evaluator.beneath delta z : Kept .always Value).val s).2.dims =
        (z.val (s.push (.new none))).2.dims := by
    intro delta z s
    obtain ⟨r, b, f, fs, hrun, hframes, -⟩ := z.property.tracked_cases s
    have hval : (Evaluator.beneath delta z : Kept .always Value).val s =
        (r, b.endingBody delta f fs) := EvalM.beneath_apply hrun hframes
    rw [hval, hrun]
    exact ⟨rfl, Machine.endingBody_dims ..⟩
  intro s t hlevel hleft hright
  obtain ⟨hres, hdims⟩ := hend delta x s
  obtain ⟨hres', hdims'⟩ := hend delta' y t
  rw [hdims] at hleft
  rw [hdims'] at hright
  rw [hres, hres']
  exact hxy _ _ hlevel hleft hright

theorem mirrors_look {d e : Dim} (h : ρ.Renames k l) (hde : ρ.Matches d e) :
    ρ.Mirrors ρ.Same (Evaluator.look k d) (Evaluator.look l e) :=
  mirrors_noting (h.valueAt hde) _ _

end Mirrors

/-! ## Code -/

section Code

variable {ops : OperatorTable} {callₗ callᵣ : String → Context → Kept .always Value}

/-- Both lists of bindings ended in one special value, or neither did. -/
inductive Outcome (ρ : Renaming) :
    Except Value (List (Dim × Value)) → Except Value (List (Dim × Value)) → Prop
  | error {v w : Value} : ρ.Same v w → ρ.Outcome (.error v) (.error w)
  | ok {ps qs : List (Dim × Value)} : ρ.Bindings ps qs → ρ.Outcome (.ok ps) (.ok qs)

mutual

/-- Code that mentions old dimensions only mirrors itself at renamed contexts, if names do. -/
theorem mirrors_code (hops : ops.Confines ρ.old)
    (hcall : ∀ n k l, ρ.Renames k l → ρ.Mirrors ρ.Same (callₗ n k) (callᵣ n l)) :
    ∀ (c : Code) {k l : Context}, c.confined ρ.old = true → ρ.Renames k l →
      ρ.Mirrors ρ.Same (c.interpret ops callₗ k) (c.interpret ops callᵣ l)
  | .const v, k, l, hc, h => by
      simp only [Code.interpret]
      exact mirrors_pure ⟨rfl, hc⟩
  | .read d, k, l, hc, h => by
      simp only [Code.interpret]
      exact mirrors_look h (.old (of_decide_eq_true hc))
  | .readAt key, k, l, hc, h => by
      simp only [Code.interpret]
      refine mirrors_bind (mirrors_code hops hcall key hc h) fun v w hvw => ?_
      obtain ⟨rfl, hv⟩ := hvw
      split
      · exact mirrors_pure ⟨rfl, hv⟩
      · exact mirrors_bind (mirrors_intern ⟨rfl, hv⟩) fun d e hde => mirrors_look h hde
  | .ident n, k, l, hc, h => by
      simp only [Code.interpret]
      exact hcall n k l h
  | .apply op args, k, l, hc, h => by
      simp only [Code.interpret]
      refine mirrors_bind (mirrors_codeAll hops hcall args hc h) fun vs ws hvs => ?_
      obtain ⟨rfl, hvs⟩ := hvs
      exact mirrors_pure ⟨rfl, hops op vs hvs⟩
  | .cond test yes no, k, l, hc, h => by
      simp only [Code.confined, Bool.and_eq_true] at hc
      simp only [Code.interpret]
      refine mirrors_bind (mirrors_code hops hcall test hc.1.1 h) fun v w hvw => ?_
      obtain ⟨rfl, -⟩ := hvw
      split
      · exact mirrors_code hops hcall yes hc.1.2 h
      · exact mirrors_code hops hcall no hc.2 h
      · exact mirrors_pure ⟨rfl, rfl⟩
      · exact mirrors_pure ⟨rfl, rfl⟩
  | .under body bindings, k, l, hc, h => by
      simp only [Code.confined, Bool.and_eq_true] at hc
      simp only [Code.interpret]
      refine mirrors_bind (mirrors_codeBindings hops hcall bindings hc.2 h) fun o o' ho => ?_
      cases ho with
      | error hvw => exact mirrors_pure hvw
      | ok hps =>
        have hchanged := h.override (.ofList hps)
        exact mirrors_beneath _ _ (mirrors_code hops hcall body hc.1 hchanged)
  | .source c, k, l, hc, h => by
      simp only [Code.interpret]
      exact mirrors_noting (h.source hc) _ _

theorem mirrors_codeAll (hops : ops.Confines ρ.old)
    (hcall : ∀ n k l, ρ.Renames k l → ρ.Mirrors ρ.Same (callₗ n k) (callᵣ n l)) :
    ∀ (cs : List Code) {k l : Context}, Code.confinedAll ρ.old cs = true → ρ.Renames k l →
      ρ.Mirrors (fun vs ws => vs = ws ∧ ∀ v ∈ vs, v.confined ρ.old = true)
        (Code.interpretAll ops callₗ cs k) (Code.interpretAll ops callᵣ cs l)
  | [], k, l, hcs, h => by
      simp only [Code.interpretAll]
      exact mirrors_pure ⟨rfl, nofun⟩
  | c :: cs, k, l, hcs, h => by
      simp only [Code.confinedAll, Bool.and_eq_true] at hcs
      simp only [Code.interpretAll]
      refine mirrors_bind (mirrors_code hops hcall c hcs.1 h) fun v w hvw => ?_
      refine mirrors_bind (mirrors_codeAll hops hcall cs hcs.2 h) fun vs ws hvs => mirrors_pure ?_
      obtain ⟨rfl, hv⟩ := hvw
      obtain ⟨rfl, hvs⟩ := hvs
      exact ⟨rfl, List.forall_mem_cons.mpr ⟨hv, hvs⟩⟩

theorem mirrors_codeBindings (hops : ops.Confines ρ.old)
    (hcall : ∀ n k l, ρ.Renames k l → ρ.Mirrors ρ.Same (callₗ n k) (callᵣ n l)) :
    ∀ (bs : List (Code × Code)) {k l : Context}, Code.confinedBindings ρ.old bs = true →
      ρ.Renames k l → ρ.Mirrors ρ.Outcome (Code.interpretBindings ops callₗ bs k)
        (Code.interpretBindings ops callᵣ bs l)
  | [], k, l, hbs, h => by
      simp only [Code.interpretBindings]
      exact mirrors_pure (.ok .nil)
  | (key, value) :: rest, k, l, hbs, h => by
      simp only [Code.confinedBindings, Bool.and_eq_true] at hbs
      simp only [Code.interpretBindings]
      refine mirrors_bind (mirrors_code hops hcall key hbs.1.1 h) fun v w hvw => ?_
      obtain ⟨rfl, hv⟩ := hvw
      split
      · exact mirrors_pure (.error ⟨rfl, hv⟩)
      · refine mirrors_bind (mirrors_intern ⟨rfl, hv⟩) fun d e hde => ?_
        refine mirrors_bind (mirrors_code hops hcall value hbs.1.2 h) fun a b hab => ?_
        refine mirrors_bind (mirrors_codeBindings hops hcall rest hbs.2 h) fun o o' ho => ?_
        cases ho with
        | error hvw => exact mirrors_pure (.error hvw)
        | ok hps => exact mirrors_pure (.ok (.cons ⟨hde, hab⟩ hps))

end

variable (hops : ops.Confines ρ.old)
  (hcall : ∀ n k l, ρ.Renames k l → ρ.Mirrors ρ.Same (callₗ n k) (callᵣ n l))

include hops hcall

theorem mirrors_applicable (h : ρ.Renames k l) : ∀ es : List Equation,
    (∀ e ∈ es, e.confined ρ.old = true) →
      ρ.Mirrors (fun fs gs => fs = gs ∧ ∀ e ∈ fs, e.confined ρ.old = true)
        (interpretApplicable (Code.interpret ops callₗ) k es)
        (interpretApplicable (Code.interpret ops callᵣ) l es)
  | [], _ => mirrors_pure ⟨rfl, nofun⟩
  | e :: es, hes => by
      obtain ⟨he, hes⟩ := List.forall_mem_cons.mp hes
      have hparts := he
      simp only [Equation.confined, Bool.and_eq_true] at hparts
      have happlies : ρ.Mirrors Eq (e.interpret (Code.interpret ops callₗ) k)
          (e.interpret (Code.interpret ops callᵣ) l) := by
        refine mirrors_bind (mirrors_noting (R := Eq) (h.holdsAt hparts.1.1) _ _) fun a b hab => ?_
        subst hab
        split
        · cases hcondition : e.definition.condition with
          | none => exact mirrors_pure rfl
          | some c =>
            rw [hcondition, Option.all_some] at hparts
            refine mirrors_bind (mirrors_code hops hcall c hparts.1.2 h) fun v w hvw => ?_
            exact mirrors_pure (congrArg Value.isTrue hvw.1)
        · exact mirrors_pure rfl
      refine mirrors_bind happlies fun a b hab => ?_
      refine mirrors_bind (mirrors_applicable h es hes) fun fs gs hfs => mirrors_pure ?_
      obtain ⟨rfl, hfs⟩ := hfs
      subst hab
      refine ⟨rfl, ?_⟩
      split
      · exact List.forall_mem_cons.mpr ⟨he, hfs⟩
      · exact hfs

theorem mirrors_group (h : ρ.Renames k l) (g : Group)
    (hg : ∀ e ∈ g.equations, e.confined ρ.old = true) :
    ρ.Mirrors ρ.Same (g.interpret (Code.interpret ops callₗ) k)
      (g.interpret (Code.interpret ops callᵣ) l) := by
  refine mirrors_bind (mirrors_applicable hops hcall h g.equations hg) fun es fs hes => ?_
  obtain ⟨rfl, hes⟩ := hes
  split
  · rename_i e hchoice
    have he := hes e (Choice.mem_of_only hchoice)
    rw [Equation.confined, Bool.and_eq_true] at he
    exact mirrors_code hops hcall _ he.2 h
  · exact mirrors_pure ⟨rfl, rfl⟩
  · exact mirrors_pure ⟨rfl, rfl⟩

end Code

end Renaming

/-! ## Names -/

namespace Program

variable {p : Program} {ρ : Renaming} {n : String} {k l : Context} {s t : Machine}

/-- Without caching a name that has equations is a cycle, or is evaluated. -/
theorem ask_uncached {g : Group} (hcaching : p.config.caching = false) (hg : p.group? n = some g)
    (evaluate : Group → EvalM Value) (s : Machine) : p.ask n k evaluate s =
      if s.memo.isPending n k then
        (.ok (.special .loop), ((s.asking n).looping n k).noteReads k.dims)
      else evaluate g (s.asking n).countMiss := by
  rw [ask_defined hg, peek, hcaching, if_neg Bool.false_ne_true]
  cases s.memo.isPending n k <;> rfl

theorem Concludes.uncached {depth : Nat} {b : Machine} {f : Frame} {fs : List Frame}
    {r : Except Fault Value} {ran : Except Fault Value × Machine}
    (h : p.Concludes n k depth b f fs r ran) (hcaching : p.config.caching = false) : ran.1 = r := by
  cases h with
  | failed e => rfl
  | passed v _ => rfl
  | refused v e hcached _ => cases hcaching.symm.trans hcached
  | stored v memo hcached _ _ => cases hcaching.symm.trans hcached

/-- Without caching a name is answered what its body answers. -/
theorem compute_uncached (hcaching : p.config.caching = false) (body : Kept .always Value)
    (s : Machine) :
    (p.compute n k body.val s).1 = (body.val (s.enter n k)).1 ∧
      (p.compute n k body.val s).2.dims = (body.val (s.enter n k)).2.dims := by
  rcases hrun : body.val (s.enter n k) with ⟨r, b⟩
  have hgrows := (body.property (s.enter n k)).1
  rw [hrun] at hgrows
  obtain ⟨f, fs, hframes, -⟩ := hgrows.innermost rfl
  have hconcludes := compute_concludes (p := p) hrun hframes
  exact ⟨hconcludes.uncached hcaching, hconcludes.settled.1⟩

/-- Where nothing is remembered, a name that is asked for on both sides is undefined on both, or
pending on both, or evaluated on both. -/
theorem ask_mirrored {evaluate evaluate' : Group → EvalM Value}
    (hcaching : p.config.caching = false) (hlevel : ρ.Level s t) (hkl : ρ.Renames k l)
    (h : ∀ g, p.group? n = some g → p.ask n k evaluate s = evaluate g (s.asking n).countMiss →
      p.ask n l evaluate' t = evaluate' g (t.asking n).countMiss →
        Renaming.Tally ρ.Same (evaluate g (s.asking n).countMiss).1
          (evaluate' g (t.asking n).countMiss).1) :
    Renaming.Tally ρ.Same (p.ask n k evaluate s).1 (p.ask n l evaluate' t).1 := by
  cases hg : p.group? n with
  | none =>
    rw [ask_undefined hg, ask_undefined hg]
    exact .ok ⟨rfl, rfl⟩
  | some g =>
    have hask := ask_uncached (k := k) hcaching hg evaluate s
    have hask' := ask_uncached (k := l) hcaching hg evaluate' t
    rw [← hlevel n k l hkl] at hask'
    cases hpending : s.memo.isPending n k with
    | true =>
      rw [hask, hask', hpending]
      exact .ok ⟨rfl, rfl⟩
    | false =>
      rw [hpending] at hask hask'
      rw [hask, hask']
      exact h g hg hask hask'

/-- Without caching a name mirrors itself at renamed contexts: it answers what its equations
answer, and ends with the same table. -/
theorem names_mirrored (hcaching : p.config.caching = false) (hp : p.confined ρ.old = true)
    (hops : p.vocabulary.operators.Confines ρ.old) : ∀ (room : Nat) (n : String) (k l : Context),
      ρ.Renames k l → ρ.Mirrors ρ.Same (p.growing room n k) (p.growing room n l) := by
  intro room
  induction room with
  | zero =>
    intro n k l hkl s t hlevel _ _
    exact ask_mirrored hcaching hlevel hkl fun _ _ _ _ => .error _
  | succ room ih =>
    intro n k l hkl s t hlevel hleft hright
    refine ask_mirrored hcaching hlevel hkl fun g hg hask hask' => ?_
    let body (k : Context) : Kept .always Value :=
      g.interpret (Code.interpret p.vocabulary.operators (p.growing room)) k
    have hbody (k : Context) : (body k).val =
        g.value (Code.eval p.vocabulary.operators (p.demand room)) k := Kept.group_val g k
    have hends := compute_uncached (n := n) (k := k) hcaching (body k) (s.asking n).countMiss
    have hends' := compute_uncached (n := n) (k := l) hcaching (body l) (t.asking n).countMiss
    have hdims : ((p.growing (room + 1) n k).val s).2.dims =
        ((body k).val (s.beginning n k)).2.dims := by
      rw [hbody k] at hends ⊢
      exact (congrArg (fun ran => ran.2.dims) hask).trans hends.2
    have hdims' : ((p.growing (room + 1) n l).val t).2.dims =
        ((body l).val (t.beginning n l)).2.dims := by
      rw [hbody l] at hends' ⊢
      exact (congrArg (fun ran => ran.2.dims) hask').trans hends'.2
    rw [hdims] at hleft
    rw [hdims'] at hright
    rw [← hbody, ← hbody, hends.1, hends'.1]
    exact Renaming.mirrors_group hops ih hkl g (confined_group? hp hg) _ _
      (hlevel.beginning n hkl) hleft hright

end Program

end Intensional
