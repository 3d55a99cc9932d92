import Intensional.Evaluation.Demand
import Intensional.Proofs.Equation.Candidates
import Intensional.Proofs.Equation.Group

/-!
# The choice does not depend on the order of equations

An equation is chosen by its guard and its condition. Its time and its number only decide where
it stands in its group, and so the order in which a tie lists it. Two groups with the same
definitions under the same identities therefore make the same choice, however they were built
(`Group.same_choice`), at every context at which their conditions are answered and are true in
the one as in the other.

The equations that apply are a filter of those of the group, and the most specific ones a filter
of these. Neither asks for more of an equation than its identity and definition, so both agree
up to order.
-/

namespace Intensional

/-! ## Most specific equations, up to order -/

namespace Choice

variable {es fs : List Equation}

/-- The choices are of one kind, of one equation up to its time and number, and of the same
identities up to order. -/
inductive Same : Choice → Choice → Prop
  | nothing : Same .nothing .nothing
  | only {e f : Equation} (h : e.clause = f.clause) : Same (.only e) (.only f)
  | tied {ids ids' : List Equation.Id} (h : ids.Perm ids') : Same (.tied ids) (.tied ids')

/-- No definition is more specific than the one of the clause. -/
def tops (clauses : List (Equation.Id × Definition)) (c : Equation.Id × Definition) : Bool :=
  !clauses.any fun d => d.2.guard.narrower c.2.guard

theorem map_clause_mostSpecific (es : List Equation) :
    (mostSpecific es).map (·.clause) =
      (es.map (·.clause)).filter (tops (es.map (·.clause))) := by
  rw [List.filter_map]
  refine congrArg (List.map _) (List.filter_congr fun e _ => ?_)
  simp only [tops, Function.comp_apply, List.any_map]
  rfl

theorem perm_mostSpecific (h : (es.map (·.clause)).Perm (fs.map (·.clause))) :
    ((mostSpecific es).map (·.clause)).Perm ((mostSpecific fs).map (·.clause)) := by
  have htops : tops (es.map (·.clause)) = tops (fs.map (·.clause)) := by
    funext c
    rw [tops, tops, h.any_eq]
  rw [map_clause_mostSpecific, map_clause_mostSpecific, htops]
  exact h.filter _

/-- A single equation is chosen, and of any other number none. -/
def ofBest : List Equation → Choice
  | [e] => .only e
  | best => .tied (best.map (·.id))

theorem among_several (e f : Equation) (es : List Equation) :
    among (e :: f :: es) = ofBest (mostSpecific (e :: f :: es)) := rfl

theorem perm_ids (h : (es.map (·.clause)).Perm (fs.map (·.clause))) :
    (es.map (·.id)).Perm (fs.map (·.id)) := by
  have h := h.map Prod.fst
  rw [List.map_map, List.map_map] at h
  exact h

theorem same_ofBest (h : (es.map (·.clause)).Perm (fs.map (·.clause))) :
    (ofBest es).Same (ofBest fs) := by
  have hlength := h.length_eq
  rw [List.length_map, List.length_map] at hlength
  match es, fs, hlength with
  | [], [], _ => exact .tied .nil
  | [e], [f], _ => exact .only (List.singleton_perm_singleton.mp h)
  | e :: e' :: es, f :: f' :: fs, _ => exact .tied (perm_ids h)

theorem same_among (h : (es.map (·.clause)).Perm (fs.map (·.clause))) :
    (among es).Same (among fs) := by
  have hlength := h.length_eq
  rw [List.length_map, List.length_map] at hlength
  match es, fs, hlength with
  | [], [], _ => exact .nothing
  | [e], [f], _ => exact .only (List.singleton_perm_singleton.mp h)
  | e :: e' :: es, f :: f' :: fs, _ =>
    rw [among_several, among_several]
    exact same_ofBest (perm_mostSpecific h)

end Choice

/-! ## Trying the equations -/

section

variable {eval : Code → Context → EvalM Value} {k : Context} {truth : Equation.Id → Bool}

/-- While the equations are tried in turn, from a state on, the condition of each one whose guard
holds is answered, and whether it is true is known from its identity. -/
def Answered (eval : Code → Context → EvalM Value) (k : Context) (truth : Equation.Id → Bool) :
    List Equation → Machine → Prop
  | [], _ => True
  | e :: es, s =>
    (e.guard.holdsAt k = true → ∀ condition, e.definition.condition = some condition →
      ∃ v, (eval condition k (s.noteReads e.guard.dims)).1 = .ok v ∧ v.isTrue = truth e.id) ∧
    Answered eval k truth es (e.applies eval k s).2

/-- The guard holds, and the condition, if any, is true. -/
def admits (k : Context) (truth : Equation.Id → Bool) (c : Equation.Id × Definition) : Bool :=
  c.2.guard.holdsAt k && (c.2.condition.isNone || truth c.1)

theorem Equation.applies_of_answered {e : Equation} {s : Machine}
    (h : e.guard.holdsAt k = true → ∀ condition, e.definition.condition = some condition →
      ∃ v, (eval condition k (s.noteReads e.guard.dims)).1 = .ok v ∧ v.isTrue = truth e.id) :
    e.applies eval k s = (.ok (admits k truth e.clause), (e.applies eval k s).2) := by
  refine Prod.ext ?_ rfl
  have hnote : EvalM.noteReads e.guard.dims s = (.ok (), s.noteReads e.guard.dims) := rfl
  have hguard : admits k truth e.clause =
      (e.guard.holdsAt k && (e.definition.condition.isNone || truth e.id)) := rfl
  rw [hguard, applies, Action.bind_of_ok hnote]
  cases hk : e.guard.holdsAt k with
  | false => rfl
  | true =>
    rw [if_pos rfl]
    cases hcondition : e.definition.condition with
    | none => rfl
    | some condition =>
      obtain ⟨v, hv, htruth⟩ := h hk condition hcondition
      generalize hran : eval condition k (s.noteReads e.guard.dims) = ran at hv
      obtain ⟨r, s'⟩ := ran
      obtain rfl : r = .ok v := hv
      dsimp only
      rw [Action.bind_of_ok hran, ← htruth]
      rfl

/-- The equations that apply are those that are admitted. -/
theorem applicable_of_answered : ∀ {es : List Equation} {s : Machine},
    Answered eval k truth es s →
      ∃ s', applicable eval k es s = (.ok (es.filter fun e => admits k truth e.clause), s')
  | [], s, _ => ⟨s, rfl⟩
  | e :: es, s, ⟨he, hes⟩ => by
    obtain ⟨s', hrest⟩ := applicable_of_answered hes
    refine ⟨s', ?_⟩
    rw [applicable, Action.bind_of_ok (Equation.applies_of_answered he), Action.bind_of_ok hrest,
      List.filter_cons]
    rfl

end

/-! ## Groups with the same definitions -/

namespace Group

variable {g : Group} {k : Context} {es : List Equation} {ids : List Equation.Id}

/-- The identities are those of equations of the group, in the order of times and numbers. -/
def Lists (g : Group) (ids : List Equation.Id) : Prop :=
  ∃ es : List Equation, es.Sublist g.equations ∧ es.Pairwise (fun e f => e.before f = true) ∧
    ids = es.map (·.id)

theorem InOrder.lists (hg : g.InOrder) (hes : es.Sublist g.equations)
    (h : Choice.among es = .tied ids) : g.Lists ids := by
  have hsub : (Choice.mostSpecific es).Sublist g.equations := List.filter_sublist.trans hes
  exact ⟨_, hsub, hg.sorted.sublist hsub, (Choice.among_eq_tied h).1⟩

/-- Two groups with the same definitions make the same choice, whatever the changes that they
were built by and the times of these, if the conditions are answered in both and are true in both
or in none. A tie lists its identities in the order of each group. -/
theorem same_choice (name₁ name₂ : String) (changes₁ changes₂ : List Change)
    (eval₁ eval₂ : Code → Context → EvalM Value) (k : Context) (truth : Equation.Id → Bool)
    (s₁ s₂ : Machine) (hsame : ∀ id, (build name₁ changes₁).definition? id =
      (build name₂ changes₂).definition? id)
    (h₁ : Answered eval₁ k truth (build name₁ changes₁).equations s₁)
    (h₂ : Answered eval₂ k truth (build name₂ changes₂).equations s₂) :
    ∃ c₁ c₂, ((build name₁ changes₁).choose eval₁ k s₁).1 = .ok c₁ ∧
      ((build name₂ changes₂).choose eval₂ k s₂).1 = .ok c₂ ∧ c₁.Same c₂ ∧
      (∀ ids, c₁ = .tied ids → (build name₁ changes₁).Lists ids) ∧
      ∀ ids, c₂ = .tied ids → (build name₂ changes₂).Lists ids := by
  have hg₁ := inOrder_build name₁ changes₁
  have hg₂ := inOrder_build name₂ changes₂
  have hperm := ((hg₁.perm_iff hg₂).mpr hsame).filter (admits k truth)
  rw [List.filter_map, List.filter_map] at hperm
  obtain ⟨s₁', htried₁⟩ := applicable_of_answered h₁
  obtain ⟨s₂', htried₂⟩ := applicable_of_answered h₂
  refine ⟨_, _, ?_, ?_, Choice.same_among hperm, fun ids => hg₁.lists List.filter_sublist,
    fun ids => hg₂.lists List.filter_sublist⟩
  · rw [choose, Action.bind_of_ok htried₁]
    rfl
  · rw [choose, Action.bind_of_ok htried₂]
    rfl

/-- Two equations with one guard, of which one has a condition that is true, and a third one with
a condition that is false. The first two are made in the other order, and the second of them is
replaced. -/
theorem same_choice_reordered :
    let guard : Guard := ⟨[⟨7, .mem, .range ⟨some 1, some 3⟩⟩]⟩
    let certain : Definition := ⟨guard, some (.const (.bool true)), .const (.int 1)⟩
    let plain : Definition := ⟨guard, none, .const (.int 2)⟩
    let never : Definition := ⟨.always, some (.const (.bool false)), .const (.int 3)⟩
    let changes₁ : List Change := [.add ⟨1⟩ certain 4, .add ⟨2⟩ plain 5, .add ⟨3⟩ never 6]
    let changes₂ : List Change := [.add ⟨2⟩ never 1, .add ⟨1⟩ certain 8, .add ⟨1⟩ plain 0,
      .replace ⟨2⟩ plain 7, .remove ⟨4⟩, .add ⟨3⟩ never 9]
    let eval := (Program.empty ⟨10, true⟩).eval
    let k := Context.ofList [(7, .int 2)]
    let truth (id : Equation.Id) := id == ⟨1⟩
    (∀ id, (build "f" changes₁).definition? id = (build "g" changes₂).definition? id) ∧
      Answered eval k truth (build "f" changes₁).equations .initial ∧
      Answered eval k truth (build "g" changes₂).equations .initial ∧
      ((build "f" changes₁).choose eval k .initial).1 = .ok (.tied [⟨1⟩, ⟨2⟩]) ∧
      ((build "g" changes₂).choose eval k .initial).1 = .ok (.tied [⟨2⟩, ⟨1⟩]) ∧
      Choice.Same (.tied [⟨1⟩, ⟨2⟩]) (.tied [⟨2⟩, ⟨1⟩]) := by
  intro guard certain plain never changes₁ changes₂ eval k truth
  have hg₁ : (build "f" changes₁).equations =
      [⟨⟨1⟩, certain, 4, 0⟩, ⟨⟨2⟩, plain, 5, 1⟩, ⟨⟨3⟩, never, 6, 2⟩] := rfl
  have hg₂ : (build "g" changes₂).equations =
      [⟨⟨2⟩, plain, 7, 2⟩, ⟨⟨1⟩, certain, 8, 1⟩, ⟨⟨3⟩, never, 9, 3⟩] := rfl
  have hsame : ∀ id, (build "f" changes₁).definition? id = (build "g" changes₂).definition? id := by
    refine ((inOrder_build "f" changes₁).perm_iff (inOrder_build "g" changes₂)).mp ?_
    rw [hg₁, hg₂]
    exact .swap ..
  have h₁ : Answered eval k truth (build "f" changes₁).equations .initial := by
    rw [hg₁]
    refine ⟨?_, ?_, ?_, trivial⟩ <;> rintro - _ ⟨⟩ <;> exact ⟨_, rfl, rfl⟩
  have h₂ : Answered eval k truth (build "g" changes₂).equations .initial := by
    rw [hg₂]
    refine ⟨?_, ?_, ?_, trivial⟩ <;> rintro - _ ⟨⟩ <;> exact ⟨_, rfl, rfl⟩
  obtain ⟨c₁, c₂, hc₁, hc₂, hc, -⟩ :=
    same_choice "f" "g" changes₁ changes₂ eval eval k truth .initial .initial hsame h₁ h₂
  cases hc₁
  cases hc₂
  exact ⟨hsame, h₁, h₂, rfl, rfl, hc⟩

end Group

end Intensional
