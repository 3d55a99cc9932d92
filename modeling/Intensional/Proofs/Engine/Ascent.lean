import Intensional.Proofs.Engine.Sessions
import Intensional.Proofs.Evaluation.Stores
import Intensional.Proofs.Memo.Ascent

/-!
# Whether the ways of a session ascend

What happens to the remembered values in a session is a run of operations on a memo: a step first
forgets the values of some names, and then its evaluation stores values (`Engine.deeds`). So the
ways ascend between the steps of a session exactly if no store of the session goes back
(`ways_ascend_iff`). A step cannot hide a store that does: evaluations forget nothing, and a way
that does not ascend is only prolonged.

There are sessions whose ways do not ascend (`way_that_descends`). It takes a name that looks at a
greater dimension first, and at a smaller one only for some values of the greater.
-/

namespace Intensional

open Machine

/-! ## Forgetting and storing as operations -/

theorem Assoc.isSome_get?_of_mem {ν : Type} {m : Assoc String ν} {e : String × ν} (h : e ∈ m) :
    (m.get? e.1).isSome = true := by
  induction m with
  | nil => cases h
  | cons f m ih =>
    rw [get?_cons]
    by_cases hfe : (f.1 == e.1) = true
    · rw [if_pos hfe]
      rfl
    · rw [if_neg hfe]
      rcases List.mem_cons.mp h with rfl | h
      · exact absurd (BEq.refl _) hfe
      · exact ih h

/-- The store as an operation on a memo. -/
def Store.op (t : Store) : Memo.Op := .store t.name t.context t.dims.toList t.value

namespace Memo

variable {m m' : Memo} {names : List String} {ts : List Store}

/-- The names that have values in the first memo only. -/
def lost (m m' : Memo) : List String := m.tries.keys.filter fun n => !m'.holds n

theorem without_lost (h : m'.tries = m.tries.without names) :
    m.tries.without (m.lost m') = m'.tries := by
  rw [h]
  refine List.filter_congr fun x hx => decide_eq_decide.mpr (not_congr ?_)
  have hkey : x.1 ∈ m.tries.keys := List.mem_map_of_mem hx
  have hheld := Assoc.isSome_get?_of_mem hx
  rw [lost, List.mem_filter, holds, Assoc.contains, h, Assoc.get?_without]
  by_cases hname : x.1 ∈ names <;> simp [hkey, hheld, hname]

theorem applyAll_forget (m : Memo) (names : List String) :
    m.applyAll (names.map .forget) = m.without names := by
  rw [← foldl_forget]
  induction names generalizing m with
  | nil => rfl
  | cons n names ih => exact ih (m.forget n)

theorem apply_op (m : Memo) (t : Store) : m.apply t.op = (t.into m).toOption.getD m := by
  have hdims : IndexSet.ofList t.dims.toList = t.dims :=
    IndexSet.ext_mem fun _ => IndexSet.mem_ofList
  rw [Store.op, Memo.apply, hdims]
  rfl

theorem applyAll_stores (h : ts.foldlM Store.into m = .ok m') :
    m.applyAll (ts.map Store.op) = m' := by
  induction ts generalizing m with
  | nil => cases h; rfl
  | cons t ts ih =>
    rw [List.foldlM_cons] at h
    rw [List.map_cons, applyAll, apply_op]
    cases hinto : t.into m with
    | error e => rw [hinto] at h; cases h
    | ok m₁ => rw [hinto] at h; exact ih h

/-- Stores only prolong ways. -/
theorem way_prefix_stores (m : Memo) (ts : List Store) (n : String) (k : Context) :
    m.way n k <+: (m.applyAll (ts.map Store.op)).way n k := by
  induction ts generalizing m with
  | nil => exact List.prefix_rfl
  | cons t ts ih =>
    refine List.IsPrefix.trans ?_ (ih (m.apply t.op))
    rw [apply_op]
    cases h : t.into m with
    | error e => exact List.prefix_rfl
    | ok m' =>
      obtain ⟨q, hway, -, -⟩ := way_store_append h n k
      exact ⟨q, hway.symm⟩

/-- Where names are forgotten first and then values are stored, no store has gone back if the ways
ascend in the end. -/
theorem onward_iff_ascends (hm : m.Ascends) (names : List String) (ts : List Store) :
    m.Onward (names.map .forget ++ ts.map Store.op) ↔
      (m.applyAll (names.map .forget ++ ts.map Store.op)).Ascends := by
  constructor
  · exact fun h => (ascends_throughout_iff hm _).mpr h _ List.prefix_rfl
  · intro hend
    induction names generalizing m with
    | cons n names ih => exact ⟨trivial, ih ((ascends_apply_iff hm (.forget n)).mpr trivial) hend⟩
    | nil =>
      induction ts generalizing m with
      | nil => trivial
      | cons t ts ih =>
        have hfirst : (m.apply t.op).Ascends := fun n k =>
          (hend n k).sublist (way_prefix_stores (m.apply t.op) ts n k).sublist
        exact ⟨(ascends_apply_iff hm t.op).mp hfirst, ih hfirst hend⟩

end Memo

namespace Engine

variable {s t : Engine} {m : Memo}

/-! ## What a session does to the remembered values -/

/-- What a step does to the remembered values. -/
def deeds (s : Engine) (x : Step) : List Memo.Op :=
  let (t, task?) := s.prepare x
  let calls := task?.elim [] fun task =>
    (task.record t.program (t.program.room t.machine) t.machine).2
  (s.machine.memo.lost t.machine.memo).map .forget ++ (t.program.stores calls).map Store.op

/-- What the steps of a session do to the remembered values. -/
def allDeeds (s : Engine) : List Step → List Memo.Op
  | [] => []
  | x :: xs => s.deeds x ++ (s.step x).allDeeds xs

theorem Change.without (h : Change s t) :
    ∃ names, t.machine.memo.tries = s.machine.memo.tries.without names := by
  cases h with
  | learn _ => exact ⟨[], (Assoc.without_nil _).symm⟩
  | redefine _ _ _ _ => exact ⟨_, congrArg Memo.tries (memo_forget _ _)⟩

theorem Resting.prepare_without (hs : s.Resting) (x : Step) :
    ∃ names, (s.prepare x).1.machine.memo.tries = s.machine.memo.tries.without names := by
  rcases prepare_cases hs.named x with hchanges | hforget
  · refine hchanges.keeps
      (I := fun t => ∃ names, t.machine.memo.tries = s.machine.memo.tries.without names)
      (fun hchange ⟨names, hnames⟩ => ?_) ⟨[], (Assoc.without_nil _).symm⟩
    obtain ⟨names', hnames'⟩ := hchange.without
    exact ⟨names ++ names', by rw [hnames', hnames, Assoc.without_without]⟩
  · refine ⟨s.machine.memo.tries.keys, ?_⟩
    rw [hforget]
    refine (List.filter_eq_nil_iff.mpr fun e he => ?_).symm
    have hkey : e.1 ∈ s.machine.memo.tries.keys := List.mem_map_of_mem he
    simp [hkey]

/-- A step leaves the values that its deeds leave. -/
theorem Resting.deeds_replayed (hs : s.Resting) (hm : m.tries = s.machine.memo.tries) (x : Step) :
    (m.applyAll (s.deeds x)).tries = (s.step x).machine.memo.tries := by
  obtain ⟨names, hnames⟩ := hs.prepare_without x
  rw [step_eq, deeds, Memo.applyAll_append]
  generalize s.prepare x = prepared at hnames ⊢
  obtain ⟨t, task?⟩ := prepared
  have hforgotten : (m.applyAll ((s.machine.memo.lost t.machine.memo).map .forget)).tries =
      t.machine.memo.tries := by
    rw [Memo.applyAll_forget, Memo.without, hm]
    exact Memo.without_lost hnames
  cases task? with
  | none => exact hforgotten
  | some task =>
    obtain ⟨m', hstores, hend⟩ := (t.program.stores_replayed _).run task _ hforgotten
    exact (congrArg Memo.tries (Memo.applyAll_stores hstores)).trans hend

theorem onward_deeds_iff (hasc : m.Ascends) (s : Engine) (x : Step) :
    m.Onward (s.deeds x) ↔ (m.applyAll (s.deeds x)).Ascends :=
  Memo.onward_iff_ascends hasc _ _

/-- The ways ascend between the steps of a session exactly if no store goes back. -/
theorem Resting.ascends_iff (hs : s.Resting) (hm : m.tries = s.machine.memo.tries)
    (hasc : m.Ascends) (steps : List Step) :
    (∀ past, past <+: steps → (s.session past).machine.memo.Ascends) ↔
      m.Onward (s.allDeeds steps) := by
  induction steps generalizing s m with
  | nil =>
    refine iff_of_true (fun past hpast => ?_) trivial
    rw [List.prefix_nil.mp hpast]
    exact hasc.of_congr hm
  | cons x xs ih =>
    have hdeeds := hs.deeds_replayed hm x
    rw [allDeeds, Memo.onward_append, onward_deeds_iff hasc]
    constructor
    · intro hall
      have hstep : (s.step x).machine.memo.Ascends :=
        hall [x] (List.cons_prefix_cons.mpr ⟨rfl, List.nil_prefix⟩)
      have hnext := hstep.of_congr hdeeds.symm
      refine ⟨hnext, (ih (hs.step x).1 hdeeds hnext).mp fun past hpast => ?_⟩
      exact hall (x :: past) (List.cons_prefix_cons.mpr ⟨rfl, hpast⟩)
    · rintro ⟨hnext, hrest⟩ past hpast
      cases past with
      | nil => exact hasc.of_congr hm
      | cons y past =>
        obtain ⟨rfl, hpast'⟩ := List.cons_prefix_cons.mp hpast
        exact (ih (hs.step y).1 hdeeds hnext).mpr hrest past hpast'

end Engine

/-- All ways ascend at all times exactly if no store goes back: in every run of operations on a
memo, and in every session of an engine. Stores that look in order do not go back. The way is what
a lookup reports. -/
theorem ways_ascend_iff (ops : List Memo.Op) (config : Config) (table : OperatorTable)
    (steps : List Step) :
    ((∀ past, past <+: ops → (Memo.empty.applyAll past).Ascends) ↔ Memo.empty.Onward ops) ∧
    ((∀ past, past <+: steps →
        ((Engine.start config table).session past).machine.memo.Ascends) ↔
      Memo.empty.Onward ((Engine.start config table).allDeeds steps)) ∧
    ((∀ past, past <+: ops →
        (Memo.Log.empty.noteAll .empty past).entries.Pairwise Memo.Entry.InOrder) →
      Memo.empty.Onward ops) ∧
    ∀ (m : Memo) n k, m.isPending n k = false → (m.find n k).2 = m.way n k :=
  ⟨Memo.ascends_throughout_iff Memo.ascends_empty ops,
    (Engine.resting_start config table).ascends_iff rfl Memo.ascends_empty steps,
    Memo.onward_of_inOrder Memo.founded_empty ops, fun _ _ _ => Memo.find_way⟩

/-- The value of `f` depends on dimension 7 only for some values of dimension 8. It is stored
first for a value of 8 for which it does not, and then the way to another looks at 8 before 7. -/
theorem way_that_descends :
    let m := Memo.empty.applyAll [.store "f" (.ofList [(8, .bool true)]) [8] (.int 0),
      .store "f" (.ofList [(7, .int 5), (8, .bool false)]) [7, 8] (.int 5)]
    let x : Expr := .read (.dimension "x")
    let y : Expr := .read (.dimension "y")
    let s := (Engine.start ⟨10, true⟩ []).session
      [.request (.edit (.define "g" ⟨1⟩ .always x 0)),
        .request (.edit (.define "f" ⟨2⟩ .always (.cond y (.const (.int 0)) x) 1)),
        .request (.evaluate "f" (.ofList [(8, .bool true)])),
        .request (.evaluate "f" (.ofList [(7, .int 5), (8, .bool false)]))]
    m.find "f" (.ofList [(7, .int 5), (8, .bool false)]) = (.known (.int 5), [8, 7]) ∧
      ¬ m.Ascends ∧
      s.machine.memo.find "f" (.ofList [(7, .int 5), (8, .bool false)]) =
        (.known (.int 5), [8, 7]) ∧
      ¬ s.machine.memo.Ascends := by
  refine ⟨rfl, fun hm => ?_, rfl, fun hs => ?_⟩
  · have hway : [8, 7].Pairwise (· < ·) := hm "f" (.ofList [(7, .int 5), (8, .bool false)])
    exact absurd hway (by decide)
  · have hway : [8, 7].Pairwise (· < ·) := hs "f" (.ofList [(7, .int 5), (8, .bool false)])
    exact absurd hway (by decide)

end Intensional
