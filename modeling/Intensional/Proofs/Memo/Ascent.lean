import Intensional.Proofs.Memo.Log

/-!
# Ways that ascend

A store takes the dimensions that are left in ascending order, but first it follows the way that
earlier stores have made for its context. A dimension that is left may be smaller than one that
has been passed, and then the way to the new value does not ascend. So all ways ascend as long as
no store goes back (`Memo.Op.Onward`), and not any longer (`Memo.ascends_throughout_iff`).

Every branch on a way was made by a store that agrees with the way up to there, and that has all
its smaller dimensions there (`Memo.Founded`). So no store goes back if whether a dimension is
looked at depends on smaller dimensions only (`Memo.Entry.InOrder`).
-/

namespace Intensional

open Likeness

namespace Trie

variable {k l : Context} {v : Value} {p q : List Dim} {t t' : Trie} {left : IndexSet} {e : Dim}

theorem not_append_cons_initial (p : List Dim) (e : Dim) (q : List Dim) : ¬ p ++ e :: q <+: p := by
  intro h
  have hlength := h.length_le
  rw [List.length_append, List.length_cons] at hlength
  omega

/-- Contexts that agree on the way of one go the same way. -/
theorem way_agree (h : equality.Agree (· ∈ t.way l) k l) : t.way k = t.way l := by
  induction t using induct with
  | leaf u => rfl
  | branch d cs ih =>
    rw [way_branch] at h
    have hd := h d (List.mem_cons_self ..)
    rw [way_branch, way_branch, get?_congr hd]
    cases hc : cs.get? (l.get? d) with
    | none => rfl
    | some c =>
      rw [hc] at h
      exact congrArg (d :: ·) (ih _ _ c hc (h.mono fun x hx => List.mem_cons_of_mem _ hx))

/-- On a new path a context has passed what it agrees on, and all that comes before. -/
theorem way_path_split {dims : List Dim} (h : (Trie.path k v dims).way l = p ++ e :: q) :
    equality.Agree (· ∈ p) k l ∧ p ++ [e] <+: dims := by
  induction dims generalizing p with
  | nil => cases p <;> cases h
  | cons d ds ih =>
    have hpath : Trie.path k v (d :: ds) =
      .branch d (DigitTree.empty.put (k.get? d) (Trie.path k v ds)) := rfl
    rw [hpath, way_branch, DigitTree.get?_put] at h
    cases p with
    | nil =>
      obtain ⟨rfl, -⟩ := List.cons.inj h
      refine ⟨fun x hx => (List.not_mem_nil hx).elim, ?_⟩
      exact List.cons_prefix_cons.mpr ⟨rfl, List.nil_prefix⟩
    | cons d' p =>
      obtain ⟨rfl, hrest⟩ := List.cons.inj h
      by_cases hkl : (k.get? d == l.get? d) = true
      · rw [if_pos hkl] at hrest
        obtain ⟨hagree, hprefix⟩ := ih hrest
        refine ⟨fun x hx => ?_, List.cons_prefix_cons.mpr ⟨rfl, hprefix⟩⟩
        rcases List.mem_cons.mp hx with rfl | hx
        · exact equality_rel.mpr hkl
        · exact hagree x hx
      · rw [if_neg hkl] at hrest
        cases p <;> cases hrest

/-- In an ascending list all that is smaller than a member stands before it. -/
theorem mem_of_prefix_of_lt {dims : IndexSet} {d : Dim} (h : p ++ [e] <+: dims.toList)
    (hd : d ∈ dims) (hlt : d < e) : d ∈ p := by
  obtain ⟨rest, hrest⟩ := h
  have hasc := dims.ascending
  rw [← hrest, List.append_assoc] at hasc
  rw [IndexSet.mem_def, ← hrest, List.append_assoc] at hd
  rcases List.mem_append.mp hd with hd | hd
  · exact hd
  · rcases List.mem_cons.mp hd with rfl | hd
    · exact absurd hlt (Nat.lt_irrefl _)
    · exact absurd ((List.pairwise_cons.mp (List.pairwise_append.mp hasc).2.1).1 d hd)
        (Nat.lt_asymm hlt)

/-- A branch that a store has made: the contexts that come there agree with its own, and have
passed all smaller dimensions that were left. -/
theorem way_store_new (h : t.store k v left = .ok t') (hway : t'.way l = p ++ e :: q)
    (hp : t.way l <+: p) : equality.Agree (· ∈ p) k l ∧ ∀ d ∈ left, d < e → d ∈ p := by
  induction t using induct generalizing t' left p with
  | leaf u =>
    rw [store] at h
    split at h <;> cases h
    cases p <;> cases hway
  | branch d cs ih =>
    obtain ⟨c', rfl, hc'⟩ := store_branch_eq_ok h
    rw [way_branch] at hp
    rw [way_branch, DigitTree.get?_put] at hway
    obtain ⟨p, rfl⟩ : ∃ p', p = d :: p' := by
      cases p with
      | nil => cases List.prefix_nil.mp hp
      | cons d' p => exact ⟨p, by rw [(List.cons.inj hway).1]⟩
    obtain ⟨-, hway⟩ := List.cons.inj hway
    obtain ⟨-, hp⟩ := List.cons_prefix_cons.mp hp
    by_cases hkl : (k.get? d == l.get? d) = true
    · rw [if_pos hkl] at hway
      have hbelow : equality.Agree (· ∈ p) k l ∧ ∀ x ∈ left.erase d, x < e → x ∈ p := by
        rcases hc' with ⟨-, rfl⟩ | ⟨c, hc, hstore⟩
        · obtain ⟨hagree, hprefix⟩ := way_path_split hway
          exact ⟨hagree, fun x hx hlt => mem_of_prefix_of_lt hprefix hx hlt⟩
        · rw [← DigitTree.get?_congr hkl, hc] at hp
          exact ih _ _ c hc hstore hway hp
      refine ⟨fun x hx => ?_, fun x hx hlt => ?_⟩
      · rcases List.mem_cons.mp hx with rfl | hx
        · exact equality_rel.mpr hkl
        · exact hbelow.1 x hx
      · by_cases hxd : x = d
        · exact hxd ▸ List.mem_cons_self ..
        · exact List.mem_cons_of_mem _ (hbelow.2 x (IndexSet.mem_erase.mpr ⟨hx, hxd⟩) hlt)
    · rw [if_neg hkl] at hway
      rw [hway] at hp
      exact absurd hp (not_append_cons_initial p e q)

end Trie

namespace Memo

variable {m m' : Memo} {n n' : String} {k l : Context} {v : Value} {p q : List Dim}
  {dims : IndexSet} {e : Dim} {log : Log}

/-! ## Ways -/

/-- Where nothing is pending, a lookup reports the way. -/
theorem find_way (h : m.isPending n k = false) : (m.find n k).2 = m.way n k := by
  rw [find, if_neg (Bool.not_eq_true _ ▸ h), way]
  cases m.tries.get? n with
  | none => rfl
  | some t =>
    rw [Option.map_some, Option.getD_some, Trie.way]
    rcases ht : t.find k with ⟨_ | _, _⟩ <;> simp only [ht]

theorem way_agree (h : equality.Agree (· ∈ m.way n l) k l) : m.way n k = m.way n l := by
  rw [way, way]
  rw [way] at h
  cases ht : m.tries.get? n with
  | none => rfl
  | some t =>
    rw [ht] at h
    exact Trie.way_agree h

theorem way_congr (h : m.tries = m'.tries) (n : String) (k : Context) : m.way n k = m'.way n k := by
  rw [way, way, h]

theorem way_forget (m : Memo) (n n' : String) (k : Context) :
    (m.forget n).way n' k = if n = n' then [] else m.way n' k := by
  rw [way, way, forget, Assoc.get?_erase]
  simp only [beq_iff_eq]
  split <;> rfl

/-- A store prolongs ways by dimensions that it was made under and that are not on them. -/
theorem way_store_append (h : m.store n k dims v = .ok m') (n' : String) (l : Context) :
    ∃ q, m'.way n' l = m.way n' l ++ q ∧ q.Sublist dims.toList ∧ ∀ d ∈ q, d ∉ m.way n' l := by
  obtain ⟨t', rfl, ht'⟩ := store_eq_ok h
  rw [way, way, Assoc.get?_put]
  by_cases hn : n = n'
  · subst hn
    rw [if_pos (BEq.refl n)]
    rcases ht' with ⟨hnone, rfl⟩ | ⟨t, ht, hstore⟩
    · rw [hnone]
      exact ⟨_, rfl, (Trie.way_path k v dims.toList l).sublist, fun d _ => List.not_mem_nil⟩
    · rw [ht]
      obtain ⟨q, hway, hsub, hnew, -⟩ := Trie.way_store hstore l
      exact ⟨q, hway, hsub, hnew⟩
  · rw [if_neg (fun h => hn (beq_iff_eq.mp h))]
    exact ⟨[], (List.append_nil _).symm, List.nil_sublist _, fun d hd => (List.not_mem_nil hd).elim⟩

theorem way_store_new (h : m.store n k dims v = .ok m') (hway : m'.way n' l = p ++ e :: q)
    (hp : m.way n' l <+: p) :
    n = n' ∧ equality.Agree (· ∈ p) k l ∧ ∀ d ∈ dims, d < e → d ∈ p := by
  obtain ⟨t', rfl, ht'⟩ := store_eq_ok h
  rw [way, Assoc.get?_put] at hway
  by_cases hn : n = n'
  · subst hn
    rw [if_pos (BEq.refl n)] at hway
    refine ⟨rfl, ?_⟩
    rcases ht' with ⟨-, rfl⟩ | ⟨t, ht, hstore⟩
    · obtain ⟨hagree, hprefix⟩ := Trie.way_path_split hway
      exact ⟨hagree, fun d hd hlt => Trie.mem_of_prefix_of_lt hprefix hd hlt⟩
    · rw [way, ht] at hp
      exact Trie.way_store_new hstore hway hp
  · rw [if_neg (fun h => hn (beq_iff_eq.mp h))] at hway
    rw [way, hway] at hp
    exact absurd hp (Trie.not_append_cons_initial p e q)

/-! ## Ascending -/

/-- Every way looks at its dimensions in ascending order. -/
def Ascends (m : Memo) : Prop := ∀ n k, (m.way n k).Pairwise (· < ·)

theorem ascends_empty : empty.Ascends := fun _ _ => .nil

theorem Ascends.of_congr (hm : m.Ascends) (h : m.tries = m'.tries) : m'.Ascends := fun n k => by
  rw [← way_congr h]
  exact hm n k

/-- Ways ascend after a store exactly if it goes on with greater dimensions only. What is new on
any way stands on the way of the store itself. -/
theorem ascends_store_iff (hm : m.Ascends) (h : m.store n k dims v = .ok m') :
    m'.Ascends ↔ ∀ d ∈ dims, d ∉ m.way n k → ∀ e ∈ m.way n k, e < d := by
  constructor
  · intro hm' d hd hnew e he
    obtain ⟨q, hway, -, -⟩ := way_store_append h n k
    have hasc := hm' n k
    have hmem := mem_way_store h hd
    rw [hway] at hasc hmem
    exact (List.pairwise_append.mp hasc).2.2 e he d ((List.mem_append.mp hmem).resolve_left hnew)
  · intro honward n' l
    obtain ⟨q, hway, hsub, hnew⟩ := way_store_append h n' l
    rw [hway]
    refine List.pairwise_append.mpr ⟨hm n' l, dims.ascending.sublist hsub, fun e he d hd => ?_⟩
    cases q with
    | nil => cases hd
    | cons x xs =>
      obtain ⟨rfl, hagree, -⟩ := way_store_new h hway List.prefix_rfl
      have hsame : m.way n k = m.way n l := way_agree hagree
      exact honward d (hsub.subset hd) (hsame ▸ hnew d hd) e (hsame ▸ he)

/-- A store that succeeds brings to the way that it follows only dimensions greater than those
on it. -/
def Op.Onward (m : Memo) : Op → Prop
  | .store n k dims v => ∀ m', m.store n k (.ofList dims) v = .ok m' →
      ∀ d ∈ dims, d ∉ m.way n k → ∀ e ∈ m.way n k, e < d
  | _ => True

/-- No store goes back. -/
def Onward (m : Memo) : List Op → Prop
  | [] => True
  | op :: ops => op.Onward m ∧ (m.apply op).Onward ops

theorem applyAll_append (m : Memo) (ops ops' : List Op) :
    m.applyAll (ops ++ ops') = (m.applyAll ops).applyAll ops' := by
  induction ops generalizing m with
  | nil => rfl
  | cons op ops ih => exact ih (m.apply op)

theorem onward_append {ops ops' : List Op} :
    m.Onward (ops ++ ops') ↔ m.Onward ops ∧ (m.applyAll ops).Onward ops' := by
  induction ops generalizing m with
  | nil => exact (and_iff_right trivial).symm
  | cons op ops ih =>
    rw [List.cons_append, Onward, Onward, ih, and_assoc]
    rfl

theorem ascends_apply_iff (hm : m.Ascends) (op : Op) : (m.apply op).Ascends ↔ op.Onward m := by
  cases op with
  | store n k ds v =>
    rw [apply, Op.Onward]
    cases h : m.store n k (.ofList ds) v with
    | ok m' =>
      refine (ascends_store_iff hm h).trans ⟨fun honward _ _ d hd => ?_, fun honward d hd => ?_⟩
      · exact honward d (IndexSet.mem_ofList.mpr hd)
      · exact honward m' rfl d (IndexSet.mem_ofList.mp hd)
    | error f => exact iff_of_true hm fun _ hstored => by cases hstored
  | start n k => exact iff_of_true hm trivial
  | finish n k => exact iff_of_true hm trivial
  | forget n =>
    refine iff_of_true (fun n' k => ?_) trivial
    rw [apply, way_forget]
    split
    · exact .nil
    · exact hm n' k
  | clear => exact iff_of_true ascends_empty trivial

/-- All ways ascend at all times exactly if no store goes back. -/
theorem ascends_throughout_iff (hm : m.Ascends) (ops : List Op) :
    (∀ past, past <+: ops → (m.applyAll past).Ascends) ↔ m.Onward ops := by
  induction ops generalizing m with
  | nil =>
    refine iff_of_true (fun past hpast => ?_) trivial
    rw [List.prefix_nil.mp hpast]
    exact hm
  | cons op ops ih =>
    rw [Onward]
    constructor
    · intro hall
      have hop : (m.apply op).Ascends :=
        hall [op] (List.cons_prefix_cons.mpr ⟨rfl, List.nil_prefix⟩)
      refine ⟨(ascends_apply_iff hm op).mp hop, (ih hop).mp fun past hpast => ?_⟩
      exact hall (op :: past) (List.cons_prefix_cons.mpr ⟨rfl, hpast⟩)
    · rintro ⟨hop, hops⟩ past hpast
      have hnext := (ascends_apply_iff hm op).mpr hop
      cases past with
      | nil => exact hm
      | cons op' past =>
        obtain ⟨rfl, hpast'⟩ := List.cons_prefix_cons.mp hpast
        exact (ih hnext).mpr hops past hpast'

/-! ## Looking in order -/

/-- Below a dimension that the earlier of two stores for one name looks at, and up to which they
agree, the later one looks at nothing else than the earlier one. -/
def Entry.InOrder (later earlier : Entry) : Prop :=
  earlier.name = later.name → ∀ e ∈ earlier.dims,
    equality.Agree (fun d => d ∈ earlier.dims ∧ d < e) earlier.context later.context →
      ∀ d ∈ later.dims, d < e → d ∈ earlier.dims

/-- Every branch on a way was made by a store that agrees with the way up to there. -/
def Founded (m : Memo) (log : Log) : Prop :=
  ∀ n l p e q, m.way n l = p ++ e :: q → ∃ g ∈ log.entries, g.name = n ∧ e ∈ g.dims ∧
    equality.Agree (· ∈ p) g.context l ∧ ∀ d ∈ g.dims, d < e → d ∈ p

theorem founded_empty : empty.Founded .empty := fun _ _ p _ _ h => by cases p <;> cases h

theorem Founded.store (hm : m.Founded log) {ds : List Dim}
    (h : m.store n k (.ofList ds) v = .ok m') :
    m'.Founded { log with entries := ⟨n, k, ds, m'.way n k, v⟩ :: log.entries } := by
  intro n' l p e q hway
  obtain ⟨r, happend, hsub, -⟩ := way_store_append h n' l
  by_cases hnew : m.way n' l <+: p
  · obtain ⟨rfl, hagree, hbefore⟩ := way_store_new h hway hnew
    refine ⟨_, List.mem_cons_self .., rfl, ?_, hagree, fun d hd => ?_⟩
    · obtain ⟨s, rfl⟩ := hnew
      rw [happend, List.append_assoc] at hway
      have hr : r = s ++ e :: q := List.append_cancel_left hway
      have hmem : e ∈ r := hr ▸ List.mem_append_right s (List.mem_cons_self ..)
      exact IndexSet.mem_ofList.mp (hsub.subset hmem)
    · exact hbefore d (IndexSet.mem_ofList.mpr hd)
  · obtain ⟨s, hs⟩ := (List.prefix_or_prefix_of_prefix ⟨r, happend.symm⟩
      ⟨e :: q, hway.symm⟩).resolve_left hnew
    cases s with
    | nil =>
      rw [List.append_nil] at hs
      exact absurd (hs ▸ List.prefix_rfl) hnew
    | cons e' s =>
      rw [happend, ← hs, List.append_assoc] at hway
      obtain ⟨rfl, -⟩ := List.cons.inj (List.append_cancel_left hway)
      obtain ⟨g, hg, hfounded⟩ := hm n' l p e' s hs.symm
      exact ⟨g, List.mem_cons_of_mem _ hg, hfounded⟩

theorem Founded.apply (hm : m.Founded log) (op : Op) : (m.apply op).Founded (log.note m op) := by
  cases op with
  | store n k ds v =>
    rw [Memo.apply, Log.note]
    cases h : m.store n k (.ofList ds) v with
    | ok m' => exact hm.store h
    | error f => exact hm
  | start n k => exact hm
  | finish n k => exact hm
  | forget n =>
    intro n' l p e q hway
    rw [Memo.apply, way_forget] at hway
    split at hway
    · cases p <;> cases hway
    · rename_i hn
      obtain ⟨g, hg, rfl, hfounded⟩ := hm n' l p e q hway
      exact ⟨g, List.mem_filter.mpr ⟨hg, bne_iff_ne.mpr (Ne.symm hn)⟩, rfl, hfounded⟩
  | clear => exact founded_empty

/-- Stores that look in order do not go back: every branch on the way was made by an earlier store,
which has passed all smaller dimensions. -/
theorem onward_of_inOrder (hm : m.Founded log) (ops : List Op)
    (h : ∀ past, past <+: ops → (log.noteAll m past).entries.Pairwise Entry.InOrder) :
    m.Onward ops := by
  induction ops generalizing m log with
  | nil => trivial
  | cons op ops ih =>
    have hrest : (m.apply op).Onward ops := ih (hm.apply op) fun past hpast =>
      h (op :: past) (List.cons_prefix_cons.mpr ⟨rfl, hpast⟩)
    refine ⟨?_, hrest⟩
    cases op with
    | store n k ds v =>
      intro m' hstore d hd hnew e he
      have hentries := h [.store n k ds v] (List.cons_prefix_cons.mpr ⟨rfl, List.nil_prefix⟩)
      rw [Log.noteAll, Log.noteAll, Log.note, hstore] at hentries
      obtain ⟨p, q, hway⟩ := List.append_of_mem he
      obtain ⟨g, hg, hname, heg, hagree, hbefore⟩ := hm n k p e q hway
      have hpassed : d < e → d ∈ m.way n k := fun hlt => by
        have hread := (List.pairwise_cons.mp hentries).1 g hg hname e heg
          (fun x hx => hagree x (hbefore x hx.1 hx.2)) d hd hlt
        rw [hway]
        exact List.mem_append_left _ (hbefore d hread hlt)
      have hne : d ≠ e := fun hde => hnew (hde ▸ he)
      have hle : ¬ d < e := fun hlt => hnew (hpassed hlt)
      exact Nat.lt_of_le_of_ne (Nat.le_of_not_lt hle) (Ne.symm hne)
    | _ => trivial

end Memo

end Intensional
