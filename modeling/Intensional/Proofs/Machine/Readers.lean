import Mathlib.Logic.Relation
import Intensional.Proofs.Memo.Recall

/-!
# What is forgotten with a name

An edit of a name forgets the values of all names that its value may have gone into. These are
the names that it leads to along the recorded readers (`Machine.Leads`). The search for them
stops after as many rounds as there are records, and has found all of them by then
(`Machine.allReaders_closed`): a round that finds a new name has used up a record.

What is left after forgetting is what it was: the values of the other names, and the readers on
every way to them (`Machine.known?_forget`, `Machine.Leads.forget`).
-/

namespace Intensional

namespace Machine

variable {readers : Assoc String (List String)} {seen last ns : List String} {e m n : String}

/-- The evaluation of `n` has asked for `m`. -/
def AskedBy (readers : Assoc String (List String)) (m n : String) : Prop :=
  n ∈ (readers.get? m).getD []

/-- The value of `m` may have gone into the value of `n`, directly or through others. -/
def Leads (s : Machine) : String → String → Prop := Relation.ReflTransGen (AskedBy s.readers)

theorem AskedBy.mem_keys (h : AskedBy readers m n) : m ∈ readers.keys := by
  unfold AskedBy at h
  induction readers with
  | nil => cases h
  | cons e es ih =>
    rw [Assoc.get?_cons] at h
    split at h
    · rename_i heq
      rw [beq_iff_eq] at heq
      exact heq ▸ List.mem_cons_self ..
    · exact List.mem_cons_of_mem _ (ih h)

/-! ## One round -/

theorem foldl_unseen (ns : List String) : ∀ seen : List String, ∃ new,
    ns.foldl (fun seen n => if n ∈ seen then seen else seen ++ [n]) seen = seen ++ new ∧
      (∀ n ∈ new, n ∉ seen) ∧ ∀ n, n ∈ seen ++ new ↔ n ∈ seen ∨ n ∈ ns := by
  induction ns with
  | nil => exact fun seen => ⟨[], by simp, by simp, by simp⟩
  | cons x xs ih =>
    intro seen
    by_cases hx : x ∈ seen
    · obtain ⟨new, hnew, hfresh, hmem⟩ := ih seen
      refine ⟨new, by rw [List.foldl_cons, if_pos hx, hnew], hfresh, fun n => ?_⟩
      rw [hmem, List.mem_cons]
      refine or_congr_right' fun hn => ⟨.inr, ?_⟩
      rintro (rfl | h)
      · exact absurd hx hn
      · exact h
    · obtain ⟨new, hnew, hfresh, hmem⟩ := ih (seen ++ [x])
      refine ⟨x :: new, ?_, ?_, fun n => ?_⟩
      · rw [List.foldl_cons, if_neg hx, hnew, List.append_assoc, List.singleton_append]
      · intro n hn hseen
        rcases List.mem_cons.mp hn with rfl | hn
        · exact hx hseen
        · exact hfresh n hn (List.mem_append_left _ hseen)
      · rw [← List.singleton_append, ← List.append_assoc, hmem, List.mem_append,
          List.mem_singleton, List.mem_cons, or_assoc]

theorem addReaders_eq (readers : Assoc String (List String)) (seen last : List String) :
    ∃ new, addReaders readers seen last = seen ++ new ∧ (∀ n ∈ new, n ∉ seen) ∧
      ∀ n, n ∈ seen ++ new ↔ n ∈ seen ∨ ∃ m ∈ last, AskedBy readers m n := by
  obtain ⟨new, hnew, hfresh, hmem⟩ :=
    foldl_unseen (last.flatMap fun n => (readers.get? n).getD []) seen
  refine ⟨new, hnew, hfresh, fun n => ?_⟩
  rw [hmem, List.mem_flatMap]
  rfl

/-! ## All rounds -/

/-- The readers of all names that were seen and are not among the last have been seen. -/
def Expanded (readers : Assoc String (List String)) (seen last : List String) : Prop :=
  (∀ m ∈ last, m ∈ seen) ∧ ∀ m ∈ seen, m ∉ last → ∀ n, AskedBy readers m n → n ∈ seen

def unexpanded (readers : Assoc String (List String)) (seen last : List String) : List String :=
  readers.keys.filter fun m => decide (m ∉ seen ∨ m ∈ last)

section Round

variable {new : List String} (hfresh : ∀ n ∈ new, n ∉ seen)
  (hmem : ∀ n, n ∈ seen ++ new ↔ n ∈ seen ∨ ∃ m ∈ last, AskedBy readers m n)

include hmem

theorem Expanded.reader (h : Expanded readers seen last) (hm : m ∈ seen)
    (hmn : AskedBy readers m n) : n ∈ seen ++ new := by
  by_cases hlast : m ∈ last
  · exact (hmem n).mpr (.inr ⟨m, hlast, hmn⟩)
  · exact List.mem_append_left _ (h.2 m hm hlast n hmn)

theorem Expanded.next (h : Expanded readers seen last) : Expanded readers (seen ++ new) new :=
  ⟨fun _ hm => List.mem_append_right _ hm, fun _ hm hout _ hmn =>
    h.reader hmem ((List.mem_append.mp hm).resolve_right hout) hmn⟩

include hfresh

/-- A round uses up the record that its first new name comes from. -/
theorem Expanded.unexpanded_lt (h : Expanded readers seen last) {x : String} (hx : x ∈ new) :
    (unexpanded readers (seen ++ new) new).length < (unexpanded readers seen last).length := by
  obtain ⟨m, hm, hmx⟩ := ((hmem x).mp (List.mem_append_right _ hx)).resolve_left (hfresh x hx)
  have hold : ∀ y, y ∈ seen → ¬ (y ∉ seen ++ new ∨ y ∈ new) := by
    rintro y hy (h | h)
    · exact h (List.mem_append_left _ hy)
    · exact hfresh y h hy
  have hsub : unexpanded readers (seen ++ new) new =
      (unexpanded readers seen last).filter fun m => decide (m ∉ seen ++ new ∨ m ∈ new) := by
    rw [unexpanded, unexpanded, List.filter_filter]
    refine List.filter_congr fun y _ => ?_
    rw [Bool.eq_iff_iff, Bool.and_eq_true, decide_eq_true_eq, decide_eq_true_eq]
    exact ⟨fun h => ⟨h, .inl fun hy => hold y hy h⟩, fun h => h.1⟩
  rw [hsub, List.length_filter_lt_length_iff_exists]
  refine ⟨m, List.mem_filter.mpr ⟨hmx.mem_keys, by simp [hm]⟩, ?_⟩
  rw [decide_eq_true_eq]
  exact hold m (h.1 m hm)

end Round

/-- A list from which no reader leads out, as long as `rounds` bounds the records left. -/
theorem closeReaders_closed : ∀ (rounds : Nat) {seen last : List String},
    Expanded readers seen last → (unexpanded readers seen last).length ≤ rounds →
      (∀ m ∈ seen, m ∈ closeReaders readers rounds seen last) ∧
      ∀ m ∈ closeReaders readers rounds seen last, ∀ n, AskedBy readers m n →
        n ∈ closeReaders readers rounds seen last
  | 0, seen, last, hexp, hlen => by
      refine ⟨fun m hm => hm, fun m hm n hmn => ?_⟩
      by_cases hlast : m ∈ last
      · have hmem : m ∈ unexpanded readers seen last :=
          List.mem_filter.mpr ⟨hmn.mem_keys, by simp [hlast]⟩
        rw [List.length_eq_zero_iff.mp (Nat.le_zero.mp hlen)] at hmem
        cases hmem
      · exact hexp.2 m hm hlast n hmn
  | rounds + 1, seen, last, hexp, hlen => by
      obtain ⟨new, hnew, hfresh, hmem⟩ := addReaders_eq readers seen last
      simp only [closeReaders, hnew, List.length_append, List.drop_left]
      split
      · rename_i hstop
        obtain rfl : new = [] := List.length_eq_zero_iff.mp (by omega)
        refine ⟨fun m hm => hm, fun m hm n hmn => ?_⟩
        simpa using hexp.reader hmem hm hmn
      · rename_i hgo
        obtain ⟨x, hx⟩ : ∃ x, x ∈ new := List.exists_mem_of_ne_nil _ fun h => hgo (by simp [h])
        have hless := hexp.unexpanded_lt hfresh hmem hx
        obtain ⟨hkeep, hclosed⟩ := closeReaders_closed rounds (hexp.next hmem) (by omega)
        exact ⟨fun m hm => hkeep m (List.mem_append_left _ hm), hclosed⟩

theorem allReaders_spec (s : Machine) (e : String) : e ∈ s.allReaders e ∧
    ∀ m ∈ s.allReaders e, ∀ n, AskedBy s.readers m n → n ∈ s.allReaders e := by
  have hexp : Expanded s.readers [e] [e] := ⟨fun m hm => hm, fun m hm hout => absurd hm hout⟩
  have hlen : (unexpanded s.readers [e] [e]).length ≤ s.readers.length :=
    Nat.le_trans (List.length_filter_le ..) (Nat.le_of_eq (List.length_map ..))
  obtain ⟨hkeep, hclosed⟩ := closeReaders_closed s.readers.length hexp hlen
  exact ⟨hkeep e (List.mem_singleton.mpr rfl), hclosed⟩

theorem self_mem_allReaders (s : Machine) (e : String) : e ∈ s.allReaders e :=
  (s.allReaders_spec e).1

/-- No way leads out of the names that are found; so they are all that a name leads to. -/
theorem allReaders_closed {s : Machine} (hm : m ∈ s.allReaders e) (h : s.Leads m n) :
    n ∈ s.allReaders e := by
  induction h with
  | refl => exact hm
  | tail _ hmn ih => exact (s.allReaders_spec e).2 _ ih _ hmn

/-- Whatever is kept along the readers holds of all names that are found. -/
theorem closeReaders_sound {P : String → Prop}
    (hread : ∀ m n, P m → AskedBy readers m n → P n) :
    ∀ (rounds : Nat) {seen last : List String}, (∀ m ∈ last, P m) → (∀ m ∈ seen, P m) →
      ∀ m ∈ closeReaders readers rounds seen last, P m
  | 0, _, _, _, hseen => hseen
  | rounds + 1, seen, last, hlast, hseen => by
      obtain ⟨new, hnew, -, hmem⟩ := addReaders_eq readers seen last
      have hall : ∀ n ∈ seen ++ new, P n := fun n hn => by
        rcases (hmem n).mp hn with hn | ⟨m, hm, hmn⟩
        · exact hseen n hn
        · exact hread m n (hlast m hm) hmn
      simp only [closeReaders, hnew, List.length_append, List.drop_left]
      split
      · exact hseen
      · exact closeReaders_sound hread rounds
          (fun m hm => hall m (List.mem_append_right _ hm)) hall

/-- The names that are found are those that a name leads to. -/
theorem mem_allReaders {s : Machine} : n ∈ s.allReaders e ↔ s.Leads e n := by
  constructor
  · have hstart : ∀ m ∈ [e], s.Leads e m := fun m hm => by
      rw [List.mem_singleton.mp hm]
      exact .refl
    exact fun hn => closeReaders_sound (fun _ _ hm hmn => hm.tail hmn) _ hstart hstart n hn
  · exact allReaders_closed (s.self_mem_allReaders e)

theorem nodup_addReaders (h : seen.Nodup) : (addReaders readers seen last).Nodup := by
  unfold addReaders
  generalize (last.flatMap fun n => (readers.get? n).getD []) = ns
  induction ns generalizing seen with
  | nil => exact h
  | cons x xs ih =>
    rw [List.foldl_cons]
    split
    · exact ih h
    · rename_i hx
      exact ih (List.nodup_append.mpr ⟨h, List.pairwise_singleton _ x, fun m hm y hy hmy =>
        hx (List.mem_singleton.mp hy ▸ hmy ▸ hm)⟩)

theorem nodup_closeReaders : ∀ (rounds : Nat) {seen last : List String}, seen.Nodup →
    (closeReaders readers rounds seen last).Nodup
  | 0, _, _, h => h
  | rounds + 1, _, _, h => by
      rw [closeReaders]
      split
      · exact h
      · exact nodup_closeReaders rounds (nodup_addReaders h)

/-- No name is found twice. -/
theorem nodup_allReaders (s : Machine) (e : String) : (s.allReaders e).Nodup :=
  nodup_closeReaders _ (List.pairwise_singleton _ e)

end Machine

/-! ## Leaving names out -/

namespace Assoc

variable {ν : Type} {names names' : List String} {name : String}

/-- The entries whose names are not listed. -/
def without (m : Assoc String ν) (names : List String) : Assoc String ν :=
  m.filter fun x => decide (x.1 ∉ names)

theorem without_nil (m : Assoc String ν) : m.without [] = m := by simp [without]

theorem erase_without (m : Assoc String ν) :
    (m.without names).erase name = m.without (name :: names) := by
  rw [without, without, erase, List.filter_filter]
  exact List.filter_congr fun x _ => Bool.eq_iff_iff.mpr (by simp)

/-- The order in which names are erased does not matter. -/
theorem foldl_erase (m : Assoc String ν) : names.foldl erase m = m.without names := by
  induction names generalizing m with
  | nil => exact (without_nil m).symm
  | cons x xs ih =>
    rw [List.foldl_cons, ih, without, without, erase, List.filter_filter]
    exact List.filter_congr fun y _ => Bool.eq_iff_iff.mpr (by simp [and_comm])

theorem get?_without (m : Assoc String ν) (name : String) :
    (m.without names).get? name = if name ∈ names then none else m.get? name := by
  induction names with
  | nil => rw [without_nil, if_neg List.not_mem_nil]
  | cons x xs ih =>
    rw [← erase_without, get?_erase, ih]
    by_cases hx : x = name
    · rw [if_pos (beq_iff_eq.mpr hx), if_pos (hx ▸ List.mem_cons_self ..)]
    · have hmem : name ∈ x :: xs ↔ name ∈ xs := by simp [Ne.symm hx]
      rw [if_neg (mt beq_iff_eq.mp hx), if_congr hmem rfl rfl]

theorem without_congr (m : Assoc String ν) (h : ∀ n, n ∈ names ↔ n ∈ names') :
    m.without names = m.without names' :=
  List.filter_congr fun x _ => decide_eq_decide.mpr (not_congr (h x.1))

theorem without_without (m : Assoc String ν) (names names' : List String) :
    (m.without names).without names' = m.without (names ++ names') := by
  rw [without, without, without, List.filter_filter]
  exact List.filter_congr fun x _ => Bool.eq_iff_iff.mpr (by simp [and_comm])

end Assoc

def Memo.without (m : Memo) (names : List String) : Memo :=
  { m with tries := m.tries.without names }

theorem Memo.foldl_forget (names : List String) (m : Memo) :
    names.foldl Memo.forget m = m.without names := by
  have fold : names.foldl Memo.forget m =
      { m with tries := names.foldl Assoc.erase m.tries } := by
    induction names generalizing m with
    | nil => rfl
    | cons x xs ih => exact ih (m.forget x)
  rw [fold, Assoc.foldl_erase, Memo.without]

namespace Machine

/-! ## What is left -/

variable {s : Machine} {k : Context}

theorem memo_forget (s : Machine) (e : String) :
    (s.forget e).memo = s.memo.without (s.allReaders e) :=
  Memo.foldl_forget _ _

theorem readers_forget (s : Machine) (e : String) :
    (s.forget e).readers = s.readers.without (s.allReaders e) :=
  Assoc.foldl_erase _

/-- A forgotten name has no value, and all others have the values they had. -/
theorem known?_forget : (s.forget e).memo.known? n k =
    if n ∈ s.allReaders e then none else s.memo.known? n k := by
  rw [memo_forget, Memo.known?, Memo.known?, Memo.without, Assoc.get?_without]
  split <;> rfl

theorem isPending_forget : (s.forget e).memo.isPending n k = s.memo.isPending n k := by
  rw [memo_forget]
  rfl

theorem get?_forget (h : m ∉ s.allReaders e) :
    (s.forget e).readers.get? m = s.readers.get? m := by
  rw [readers_forget, Assoc.get?_without, if_neg h]

theorem Leads.forget (h : s.Leads m n) (hn : n ∉ s.allReaders e) : (s.forget e).Leads m n := by
  induction h using Relation.ReflTransGen.head_induction_on with
  | refl => exact .refl
  | @head m m' hmm' hrest ih =>
    have hm : m ∉ s.allReaders e := fun hm =>
      hn (allReaders_closed hm (.head hmm' hrest))
    refine .head ?_ ih
    rw [AskedBy, get?_forget hm]
    exact hmm'

end Machine

end Intensional
