import Intensional.Proofs.Engine.Sessions
import Intensional.Proofs.Evaluation.Ledger

/-!
# No value outlives what it came from

The ledger of a session has the call tree of every value that the engine remembers. It is sound
between the steps of the session: from all names in the tree of a value the readers lead to the
name of the value. An edit forgets every name that the edited one leads to, so what is left has
come from other names (`Engine.edit_leaves_no_stale_value`).
-/

namespace Intensional

open Machine

/-- The name whose equations an edit is about. -/
def Edit.name? (s : Engine) : Edit → Option String
  | .define name _ _ _ _ => some name
  | .add name _ _ _ => some name
  | .addSource name _ _ _ => some name
  | .replace id _ _ => s.program.owners.get? id
  | .delete id => s.program.owners.get? id

namespace Engine

variable {s t : Engine} {L : Ledger} {e : String} {edit : Edit}

/-! ## The ledger of a session -/

/-- The ledger after a step. -/
def settle (s : Engine) (L : Ledger) (x : Step) : Ledger :=
  match s.prepare x with
  | (_, none) => L
  | (t, some task) =>
    let p := t.program
    (Call.settleAll p (task.record p (p.room t.machine) t.machine).2 L).2

/-- The ledger after the steps of a session. -/
def ledger (s : Engine) (L : Ledger) : List Step → Ledger
  | [] => L
  | x :: xs => (s.step x).ledger (s.settle L x) xs

theorem Change.ledger (h : Change s t) (hL : L.Sound s.machine) : L.Sound t.machine := by
  cases h with
  | learn _ => exact hL.mono rfl fun _ _ => id
  | redefine _ _ _ _ => exact hL.forget _

theorem Resting.settle (hs : s.Resting) (hL : L.Sound s.machine) (x : Step) :
    (s.settle L x).Sound (s.step x).machine := by
  have hprepare : L.Sound (s.prepare x).1.machine := by
    rcases prepare_cases hs.named x with hchanges | hforget
    · exact hchanges.keeps (I := fun t => L.Sound t.machine) (fun h => h.ledger) hL
    · rw [hforget]
      exact Ledger.sound_of_empty fun _ _ => rfl
  rw [step_eq, Engine.settle]
  generalize s.prepare x = prepared at hprepare ⊢
  obtain ⟨t, _ | task⟩ := prepared
  · exact hprepare
  · exact ((t.program.ledger_kept _).run task L hprepare).1

theorem Resting.ledger (hs : s.Resting) (hL : L.Sound s.machine) (steps : List Step) :
    (s.ledger L steps).Sound (s.session steps).machine := by
  induction steps generalizing s L with
  | nil => exact hL
  | cons x xs ih => exact ih (hs.step x).1 (hs.settle hL x)

/-! ## Edits that succeed -/

theorem add_forgets {name : String} {id : Equation.Id} {d : Definition} {time : Nat}
    (h : add name id d time s = (.ok (), t)) : t.machine = s.machine.forget name := by
  unfold add at h
  split at h
  · cases h
  · split at h <;> cases h
    rfl

/-- An edit that succeeds forgets the name that it is about. It may have learned dimensions
before. -/
theorem edit_forgets (h : edit.run s = (.ok true, t)) (he : edit.name? s = some e) :
    ∃ T, t.machine = { s.machine with dims := T }.forget e := by
  cases edit with
  | define name id guard body time =>
    cases he
    obtain ⟨_, u, hdefine, hend⟩ := Action.of_bind_ok h
    obtain ⟨code, s', hcompile, hadd⟩ := Action.of_bind_ok hdefine
    cases hend
    obtain rfl : (compile body s).2 = s' := congrArg Prod.snd hcompile
    have hforget := add_forgets hadd
    exact ⟨_, hforget⟩
  | add name id d time =>
    cases he
    obtain ⟨_, u, hadd, hend⟩ := Action.of_bind_ok h
    cases hend
    exact ⟨s.machine.dims, add_forgets hadd⟩
  | addSource name id source time =>
    cases he
    obtain ⟨_, u, hadd, hend⟩ := Action.of_bind_ok h
    cases hend
    exact ⟨s.machine.dims, add_forgets hadd⟩
  | replace id d time =>
    have h : replace id d time s = (.ok true, t) := h
    have he : s.program.owners.get? id = some e := he
    rw [replace, he] at h
    simp only at h
    split at h <;> cases h
    exact ⟨s.machine.dims, rfl⟩
  | delete id =>
    have h : delete id s = (.ok true, t) := h
    have he : s.program.owners.get? id = some e := he
    rw [delete, he] at h
    cases h
    exact ⟨s.machine.dims, rfl⟩

/-- After an edit that succeeds no value is remembered that has come from the edited name: the
tree of every remembered value is in the ledger, and the edited name is not in it. -/
theorem edit_leaves_no_stale_value (maxDepth : Nat) (ops : OperatorTable) (steps : List Step)
    (edit : Edit) (hreach : (start ⟨maxDepth, true⟩ ops).session steps = s)
    (hledger : (start ⟨maxDepth, true⟩ ops).ledger .empty steps = L)
    (hedit : edit.run s = (.ok true, t)) (he : edit.name? s = some e) {n : String} {k : Context}
    {v : Value} {path : List Dim} (hfind : t.machine.memo.find n k = (.known v, path)) :
    n ∈ L n k ∧ e ∉ L n k := by
  have hsound : L.Sound s.machine := by
    rw [← hreach, ← hledger]
    exact (resting_start ⟨maxDepth, true⟩ ops).ledger (Ledger.sound_of_empty fun _ _ => rfl) steps
  obtain ⟨T, ht⟩ := edit_forgets hedit he
  have hknown := Memo.known?_of_find hfind
  rw [ht] at hknown
  obtain ⟨hn, hbefore⟩ := known?_of_forget hknown
  obtain ⟨hself, hleads⟩ := hsound n k (Option.isSome_iff_exists.mpr ⟨_, hbefore⟩)
  refine ⟨hself, fun hmem => hn ?_⟩
  exact allReaders_closed (self_mem_allReaders _ e) (hleads e hmem)

/-- The name `f` is `g`, `g` is `h`, which has no equations, and `c` is a constant. -/
def chain : List Step :=
  [.request (.edit (.define "f" ⟨1⟩ .always (.ident "g") 0)),
    .request (.edit (.define "g" ⟨2⟩ .always (.ident "h") 1)),
    .request (.edit (.define "c" ⟨3⟩ .always (.const (.int 7)) 2)),
    .request (.evaluate "f" .empty), .request (.evaluate "c" .empty)]

/-- The undefined `h` is in the tree of `f`. When it is defined, the value of `c` is left. -/
theorem edit_leaves_no_stale_value_chain :
    let s := (start ⟨10, true⟩ []).session chain
    let L := (start ⟨10, true⟩ []).ledger .empty chain
    let t := (Edit.run (.define "h" ⟨4⟩ .always (.const (.int 1)) 3) s).2
    s.machine.memo.find "f" .empty = (.known (.special .undef), []) ∧
      L "f" .empty = ["f", "g", "h"] ∧ t.machine.memo.find "f" .empty = (.unknown, []) ∧
      t.machine.memo.find "c" .empty = (.known (.int 7), []) ∧ "c" ∈ L "c" .empty ∧
      "h" ∉ L "c" .empty :=
  ⟨rfl, rfl, rfl, rfl, edit_leaves_no_stale_value 10 [] chain
    (.define "h" ⟨4⟩ .always (.const (.int 1)) 3) rfl rfl (Prod.ext rfl rfl) rfl (v := .int 7) rfl⟩

end Engine

end Intensional
