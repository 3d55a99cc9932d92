import Intensional.Proofs.Memo.Recall

/-!
# The shape of a trie

The way of a context through a trie is the list of dimensions that are looked at for it, whether
it ends at a value or not (`Trie.way`). Storing a value prolongs ways and changes nothing else of
them, and it prolongs them by dimensions that they have not looked at (`Trie.way_store`). So no
way ever looks at one dimension twice, and a way that has reached a value stays as it is.

A store adds one value to a trie if its context had none there, and otherwise replaces the value
that it had (`Trie.count_store`).
-/

namespace Intensional

open Likeness

namespace Trie

variable {k l : Context} {v w : Value} {p : List Dim} {t t' : Trie} {left : IndexSet}

/-! ## Ways -/

/-- The dimensions that are looked at for a context. -/
def way (t : Trie) (k : Context) : List Dim := (t.find k).2

theorem way_branch (d : Dim) (cs : DigitTree (Option Value) Trie) (l : Context) :
    (branch d cs).way l = d :: ((cs.get? (l.get? d)).map (·.way l)).getD [] := by
  rw [way, find, findAt_eq, ← DigitTree.get?]
  cases cs.get? (l.get? d) <;> rfl

theorem isSome_known?_branch (d : Dim) (cs : DigitTree (Option Value) Trie) (l : Context) :
    ((branch d cs).known? l).isSome = ((cs.get? (l.get? d)).bind (·.known? l)).isSome := by
  rw [known?, find, findAt_eq, ← DigitTree.get?]
  cases cs.get? (l.get? d) with
  | none => rfl
  | some c => rw [Option.map_some, Option.getD_some, Option.bind_some, known?, Option.isSome_map,
      Option.isSome_map]

theorem way_of_known? (h : t.known? k = some (v, p)) : t.way k = p := by
  obtain ⟨u, -, h⟩ := Option.map_eq_some_iff.mp h
  exact congrArg Prod.snd h

/-- On a new path a context goes as far as it agrees with the one of the path. -/
theorem way_path (k : Context) (v : Value) (dims : List Dim) (l : Context) :
    (Trie.path k v dims).way l <+: dims := by
  induction dims with
  | nil => exact List.prefix_rfl
  | cons d ds ih =>
    have hpath : Trie.path k v (d :: ds) =
      .branch d (DigitTree.empty.put (k.get? d) (Trie.path k v ds)) := rfl
    rw [hpath, way_branch, DigitTree.get?_put, List.cons_prefix_cons]
    refine ⟨rfl, ?_⟩
    split
    · exact ih
    · exact List.nil_prefix

/-- Storing prolongs ways by dimensions that were left and not looked at. A way that has reached
a value is as long as before. -/
theorem way_store (h : t.store k v left = .ok t') (l : Context) :
    ∃ q, t'.way l = t.way l ++ q ∧ q.Sublist left.toList ∧ (∀ d ∈ q, d ∉ t.way l) ∧
      ((t.known? l).isSome = true → q = []) := by
  induction t using induct generalizing t' left with
  | leaf u =>
    rw [store] at h
    split at h <;> cases h
    exact ⟨[], rfl, List.nil_sublist _, fun d hd => (List.not_mem_nil hd).elim, fun _ => rfl⟩
  | branch d cs ih =>
    obtain ⟨c', rfl, hc'⟩ := store_branch_eq_ok h
    have herase : (left.erase d).toList.Sublist left.toList := List.filter_sublist
    rw [way_branch, way_branch, DigitTree.get?_put]
    by_cases hkl : (k.get? d == l.get? d) = true
    · rw [if_pos hkl]
      rcases hc' with ⟨hnone, rfl⟩ | ⟨c, hc, hstore⟩
      · rw [DigitTree.get?_congr hkl] at hnone
        rw [hnone]
        have hpath := (way_path k v (left.erase d).toList l).sublist
        refine ⟨_, rfl, hpath.trans herase, fun e he hed => ?_, fun hknown => ?_⟩
        · obtain rfl : e = d := List.mem_singleton.mp hed
          exact (IndexSet.mem_erase.mp (hpath.subset he)).2 rfl
        · rw [isSome_known?_branch, hnone] at hknown
          cases hknown
      · obtain ⟨q, hway, hsub, hnew, hend⟩ := ih _ _ c hc hstore
        rw [DigitTree.get?_congr hkl] at hc
        rw [hc]
        refine ⟨q, congrArg (d :: ·) hway, hsub.trans herase, fun e he hmem => ?_,
          fun hknown => ?_⟩
        · rcases List.mem_cons.mp hmem with rfl | hmem
          · exact (IndexSet.mem_erase.mp (hsub.subset he)).2 rfl
          · exact hnew e he hmem
        · rw [isSome_known?_branch, hc] at hknown
          exact hend hknown
    · rw [if_neg hkl]
      exact ⟨[], (List.append_nil _).symm, List.nil_sublist _,
        fun e he => (List.not_mem_nil he).elim, fun _ => rfl⟩

theorem nodup_toList (s : IndexSet) : s.toList.Nodup := s.ascending.imp Nat.ne_of_lt

/-- No way of a new path looks at a dimension twice. -/
theorem nodup_way_path (k : Context) (v : Value) (dims : IndexSet) (l : Context) :
    ((Trie.path k v dims.toList).way l).Nodup :=
  (nodup_toList dims).sublist (way_path k v dims.toList l).sublist

theorem nodup_way_store (ht : ∀ l, (t.way l).Nodup) (h : t.store k v left = .ok t')
    (l : Context) : (t'.way l).Nodup := by
  obtain ⟨q, hway, hsub, hnew, -⟩ := way_store h l
  rw [hway]
  exact List.nodup_append.mpr ⟨ht l, (nodup_toList left).sublist hsub,
    fun d hd e he hde => hnew e he (hde ▸ hd)⟩

/-- A value that is replaced is found on the way on which the old one was. -/
theorem known?_store_again (h : t.store k v left = .ok t') (hk : t.known? k = some (w, p)) :
    t'.known? k = some (v, p) := by
  obtain ⟨p', hp'⟩ := known?_store_self h
  obtain ⟨q, hway, -, -, hend⟩ := way_store h k
  rw [hend (Option.isSome_iff_exists.mpr ⟨_, hk⟩), List.append_nil, way_of_known? hk,
    way_of_known? hp'] at hway
  rw [hp', hway]

/-- The way to a new value has all the dimensions that were left. -/
theorem mem_way_store (h : t.store k v left = .ok t') (hk : t'.known? k = some (w, p)) {d : Dim}
    (hd : d ∈ left) : d ∈ p := by
  induction t using induct generalizing t' left p with
  | leaf u =>
    rw [store] at h
    split at h
    · rename_i hleft
      exact absurd hd (IndexSet.isEmpty_iff.mp hleft d)
    · cases h
  | branch e cs ih =>
    obtain ⟨c', rfl, hc'⟩ := store_branch_eq_ok h
    obtain ⟨c, q, hc, hq, rfl⟩ := known?_branch.mp hk
    rw [DigitTree.get?_put, if_pos (BEq.refl _)] at hc
    cases hc
    by_cases hde : d = e
    · exact hde ▸ List.mem_cons_self ..
    · have hleft : d ∈ left.erase e := IndexSet.mem_erase.mpr ⟨hd, hde⟩
      refine List.mem_cons_of_mem _ ?_
      rcases hc' with ⟨-, rfl⟩ | ⟨c₀, hold, hstore⟩
      · obtain ⟨-, rfl, -⟩ := known?_path hq
        exact hleft
      · exact ih _ _ c₀ hold hstore hq hleft

/-! ## Counts -/

theorem count_path (k : Context) (v : Value) (dims : List Dim) :
    (Trie.path k v dims).count = 1 := by
  induction dims with
  | nil => rfl
  | cons d ds ih =>
    have hcount : (Trie.path k v (d :: ds)).count = (Trie.path k v ds).count := rfl
    rw [hcount, ih]

/-- Putting a trie under a key adds its values, and takes those of the one that it replaces. -/
theorem countAll_putAt (key : Option Value) (c : Trie) (cs : DigitTree (Option Value) Trie) :
    ∀ n : Nat, countAll (cs.putAt key c n) + (cs.getAt key n).elim 0 count =
      countAll cs + c.count := by
  induction cs with
  | nil => intro n; simp [DigitTree.putAt, DigitTree.getAt, countAll]
  | hole zero one ih₀ ih₁ =>
    intro n
    have h₀ := ih₀ (n / 2)
    have h₁ := ih₁ (n / 2)
    simp only [DigitTree.putAt, DigitTree.getAt]
    split <;> rw [countAll, countAll] <;> omega
  | node key' child zero one ih₀ ih₁ =>
    intro n
    have h₀ := ih₀ (n / 2)
    have h₁ := ih₁ (n / 2)
    simp only [DigitTree.putAt, DigitTree.getAt]
    split
    · rw [countAll, countAll, Option.elim_some]
      omega
    · split <;> rw [countAll, countAll] <;> omega

/-- A store brings in one value more if its context had none. -/
theorem count_store (h : t.store k v left = .ok t') :
    t'.count = t.count + if (t.known? k).isSome then 0 else 1 := by
  induction t using induct generalizing t' left with
  | leaf u =>
    rw [store] at h
    split at h <;> cases h
    rfl
  | branch d cs ih =>
    obtain ⟨c', rfl, hc'⟩ := store_branch_eq_ok h
    have hput := countAll_putAt (k.get? d) c' cs (digest (k.get? d))
    rw [← DigitTree.put, ← DigitTree.get?] at hput
    rw [count, count, isSome_known?_branch]
    rcases hc' with ⟨hnone, rfl⟩ | ⟨c, hc, hstore⟩
    · rw [hnone, Option.elim_none, count_path] at hput
      rw [hnone]
      exact hput
    · have hchild := ih _ _ c hc hstore
      rw [hc, Option.elim_some] at hput
      rw [hc, Option.bind_some]
      omega

end Trie

end Intensional
