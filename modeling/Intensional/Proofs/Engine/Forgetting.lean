import Intensional.Proofs.Engine.Staleness
import Intensional.Proofs.Machine.Sweep

/-!
# What an edit forgets

A successful edit of a name takes from the memo the values of the names that it leads to, itself
included, and from the readers their records, and leaves all others alone. Which names these are
is a matter of the readers as they were before the edit. So it is all the same whether they are
found before anything is forgotten or in a sweep that forgets as it goes, and in what order the
sweep takes the readers of a name (`Engine.edit_forgets_readers`).
-/

namespace Intensional

open Machine

namespace Machine

variable {s : Machine} {e n : String}

theorem forget_reader (h : s.Leads e n) :
    (s.forget e).memo.tries.get? n = none ∧ (s.forget e).readers.get? n = none := by
  rw [memo_forget, readers_forget, Memo.without, Assoc.get?_without, Assoc.get?_without,
    if_pos (mem_allReaders.mpr h), if_pos (mem_allReaders.mpr h)]
  exact ⟨rfl, rfl⟩

theorem forget_other (h : ¬ s.Leads e n) :
    (s.forget e).memo.tries.get? n = s.memo.tries.get? n ∧
      (s.forget e).readers.get? n = s.readers.get? n ∧
      ∀ k, (s.forget e).memo.find n k = s.memo.find n k := by
  have hn : n ∉ s.allReaders e := fun hn => h (mem_allReaders.mp hn)
  have htries : (s.forget e).memo.tries.get? n = s.memo.tries.get? n := by
    rw [memo_forget, Memo.without, Assoc.get?_without, if_neg hn]
  refine ⟨htries, get?_forget hn, fun k => ?_⟩
  rw [Memo.find, Memo.find, htries, isPending_forget]

end Machine

namespace Engine

variable {s t : Engine} {edit : Edit}

/-- An edit that succeeds is about some name. -/
theorem edit_name? (h : edit.run s = (.ok true, t)) : ∃ e, edit.name? s = some e := by
  have owned : ∀ {id : Equation.Id} {run : Action Engine Bool}, run s = (.ok true, t) →
      (s.program.owners.get? id = none → run s = (.ok false, s)) →
      ∃ e, s.program.owners.get? id = some e := by
    intro id run hrun hnone
    refine Option.ne_none_iff_exists'.mp fun hid => ?_
    cases hrun.symm.trans (hnone hid)
  cases edit with
  | define name id guard body time => exact ⟨name, rfl⟩
  | add name id d time => exact ⟨name, rfl⟩
  | addSource name id source time => exact ⟨name, rfl⟩
  | replace id d time => exact owned h fun hid => by rw [Edit.run, replace, hid]
  | delete id => exact owned h fun hid => by rw [Edit.run, delete, hid]

/-- A successful edit of `e` forgets the tries and the records of readers of exactly the names
that `e` leads to, and counts those that had a trie. A sweep from `e` comes to the same end in
whatever order it takes the readers. -/
theorem edit_forgets_readers (h : edit.run s = (.ok true, t)) :
    ∃ e, edit.name? s = some e ∧
      (∀ n, s.machine.Leads e n →
        t.machine.memo.tries.get? n = none ∧ t.machine.readers.get? n = none) ∧
      (∀ n, ¬ s.machine.Leads e n →
        t.machine.memo.tries.get? n = s.machine.memo.tries.get? n ∧
        t.machine.readers.get? n = s.machine.readers.get? n ∧
        ∀ k, t.machine.memo.find n k = s.machine.memo.find n k) ∧
      t.machine.stats.invalidations = s.machine.stats.invalidations +
        {n | s.machine.Leads e n ∧ s.machine.memo.holds n = true}.ncard ∧
      (Sweep.start s.machine e).EndsIn fun w =>
        w.memo = t.machine.memo ∧ w.readers = t.machine.readers ∧
          s.machine.stats.invalidations + w.dropped = t.machine.stats.invalidations := by
  obtain ⟨e, he⟩ := edit_name? h
  obtain ⟨T, ht⟩ := edit_forgets h he
  refine ⟨e, he, ?_⟩
  rw [ht]
  exact ⟨fun _ hn => forget_reader hn, fun _ hn => forget_other hn, invalidations_forget _ e,
    Sweep.start_endsIn _ e⟩

/-- The names `f` and `g` are each other and `h` is `g`, while `c` is a constant. -/
def twins : List Step :=
  [.request (.edit (.define "f" ⟨1⟩ .always (.ident "g") 0)),
    .request (.edit (.define "g" ⟨2⟩ .always (.ident "f") 1)),
    .request (.edit (.define "h" ⟨3⟩ .always (.ident "g") 2)),
    .request (.edit (.define "c" ⟨4⟩ .always (.const (.int 7)) 3)),
    .request (.evaluate "h" .empty), .request (.evaluate "c" .empty)]

/-- The readers have a circle. Without its equation `f` takes the values of `g` and `h` away, and
had none itself. -/
theorem edit_forgets_readers_twins :
    let s := (start ⟨10, true⟩ []).session twins
    let t := (Edit.run (.delete ⟨1⟩) s).2
    s.machine.readers = [("g", ["f", "h"]), ("f", ["g"])] ∧
      s.machine.memo.tries.keys = ["g", "h", "c"] ∧ t.machine.readers = [] ∧
      t.machine.memo.tries.keys = ["c"] ∧
      {n | s.machine.Leads "f" n ∧ s.machine.memo.holds n = true}.ncard = 2 ∧
      (Sweep.start s.machine "f").EndsIn fun w =>
        w.memo = t.machine.memo ∧ w.readers = [] ∧ 0 + w.dropped = 2 := by
  intro s t
  have hedit : Edit.run (.delete ⟨1⟩) s = (.ok true, t) := Prod.ext rfl rfl
  obtain ⟨e, he, -, -, hcount, hsweep⟩ := edit_forgets_readers hedit
  obtain rfl : "f" = e := Option.some.inj he
  have hbefore : s.machine.stats.invalidations = 0 := rfl
  have hafter : t.machine.stats.invalidations = 2 := rfl
  rw [hbefore, hafter, Nat.zero_add] at hcount
  exact ⟨rfl, rfl, rfl, rfl, hcount.symm, hsweep⟩

end Engine

end Intensional
