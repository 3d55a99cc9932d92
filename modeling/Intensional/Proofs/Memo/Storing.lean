import Intensional.Proofs.Memo.Log

/-!
# Storing in place

`Trie.store` decides on the way down and rebuilds the trie on the way up. A store can also work
in place: it walks down one place at a time and changes what is there. A vacant place becomes a
branch on the least dimension that is left, and the walk goes on through the branch that it has
just made; so a trie has been changed by the time that a leaf is met. The walk ends all the same,
because a new branch takes up a dimension that is left (`Trie.steps_vacant`).

A walk that fails has changed nothing: below a new branch there is nothing to meet but vacant
places, so what stands above a leaf was there before, and putting it back makes the trie that it
was (`Trie.walk_eq`). It fails where the way of its context ends at a value, and a dimension that
it was to store under is not on this way (`Trie.store_eq_error`).
-/

namespace Intensional

namespace DigitTree

variable {κ ν : Type} [BEq κ] {key : κ} {v : ν}

/-- Putting back what is there changes nothing. -/
theorem putAt_getAt {t : DigitTree κ ν} : ∀ {n : Nat}, t.getAt key n = some v →
    t.putAt key v n = t := by
  induction t with
  | nil => intro n h; cases h
  | hole zero one ih₀ ih₁ =>
    intro n h
    rw [getAt] at h
    rw [putAt]
    split <;> rename_i hn
    · rw [ih₀ (by rwa [if_pos hn] at h)]
    · rw [ih₁ (by rwa [if_neg hn] at h)]
  | node key' v' zero one ih₀ ih₁ =>
    intro n h
    rw [getAt] at h
    rw [putAt]
    by_cases hkey : (key' == key) = true
    · rw [if_pos hkey] at h ⊢
      cases h
      rfl
    · rw [if_neg hkey] at h ⊢
      split <;> rename_i hn
      · rw [ih₀ (by rwa [if_pos hn] at h)]
      · rw [ih₁ (by rwa [if_neg hn] at h)]

theorem put_get? [Digest κ] {t : DigitTree κ ν} (h : t.get? key = some v) : t.put key v = t :=
  putAt_getAt h

end DigitTree

theorem Assoc.put_get? {κ ν : Type} [BEq κ] {key : κ} {v : ν} :
    ∀ {m : Assoc κ ν}, m.get? key = some v → m.put key v = m
  | (key', v') :: m, h => by
    rw [get?_cons] at h
    rw [put]
    split <;> rename_i hkey
    · rw [if_pos hkey] at h
      cases h
      rfl
    · rw [if_neg hkey] at h
      rw [put_get? h]

namespace Trie

variable {k : Context} {v : Value} {left e : IndexSet}

/-- What storing makes of a place. -/
def storeHere (k : Context) (v : Value) (left : IndexSet) : Option Trie → Except IndexSet Trie
  | some t => t.store k v left
  | none => .ok (path k v left.toList)

theorem store_child (d : Dim) (cs : DigitTree (Option Value) Trie) :
    (branch d cs).store k v left = (storeHere k v (left.erase d) (cs.get? (k.get? d))).map
      fun c => .branch d (cs.put (k.get? d) c) := by
  rw [store_branch]
  cases cs.get? (k.get? d) <;> rfl

/-! ## When a store fails -/

/-- The dimensions that are left and not looked at for a context. -/
def missed (t : Trie) (k : Context) (left : IndexSet) : IndexSet :=
  left.filter fun d => decide (d ∉ t.way k)

theorem mem_missed {t : Trie} {d : Dim} : d ∈ t.missed k left ↔ d ∈ left ∧ d ∉ t.way k := by
  rw [missed, IndexSet.mem_filter, decide_eq_true_eq]

theorem missed_leaf {u : Value} : (Trie.leaf u).missed k left = left :=
  IndexSet.ext_mem fun _ => mem_missed.trans (and_iff_left List.not_mem_nil)

/-- What a branch misses is missed by its child. -/
theorem missed_branch {d : Dim} {cs : DigitTree (Option Value) Trie} {c : Trie}
    (hc : cs.get? (k.get? d) = some c) :
    (branch d cs).missed k left = c.missed k (left.erase d) := by
  refine IndexSet.ext_mem fun x => ?_
  rw [mem_missed, mem_missed, way_branch, hc, IndexSet.mem_erase, Option.map_some,
    Option.getD_some, List.mem_cons, not_or, and_assoc]

/-- A store fails where the way of its context ends at a value and does not look at all that is
left; and it says what is missed. -/
theorem store_eq_error {t : Trie} : t.store k v left = .error e ↔
    (t.known? k).isSome = true ∧ e = t.missed k left ∧ (t.missed k left).isEmpty = false := by
  induction t using induct generalizing left with
  | leaf u =>
    rw [store, missed_leaf]
    cases left.isEmpty with
    | true => simp
    | false => exact ⟨fun h => ⟨rfl, (Except.error.inj h).symm, rfl⟩,
        fun h => congrArg Except.error h.2.1.symm⟩
  | branch d cs ih =>
    rw [store_child, isSome_known?_branch]
    cases hc : cs.get? (k.get? d) with
    | none => simp [storeHere, Except.map]
    | some c =>
      rw [missed_branch hc, Option.bind_some, ← ih _ _ c hc, storeHere]
      cases c.store k v (left.erase d) with
      | ok c' => simp [Except.map]
      | error e' => exact ⟨fun h => congrArg _ (Except.error.inj h),
          fun h => congrArg _ (Except.error.inj h)⟩

/-! ## Walking in place -/

/-- A branch above a place, without the child that leads there. -/
abbrev Above := List (Dim × DigitTree (Option Value) Trie)

/-- The whole trie, when the branches above a place get back what is there. -/
def up (k : Context) : Above → Trie → Trie
  | [], t => t
  | (d, cs) :: above, t => up k above (.branch d (cs.put (k.get? d) t))

/-- How far it is to the end of a walk. A dimension that is left and not on the way makes a
branch of a vacant place, and leads through it. -/
def steps (k : Context) (left : IndexSet) : Option Trie → Nat
  | some t => (t.way k).length + 2 * (t.missed k left).toList.length
  | none => 2 * left.toList.length

theorem steps_branch (k : Context) (left : IndexSet) (d : Dim)
    (cs : DigitTree (Option Value) Trie) :
    steps k (left.erase d) (cs.get? (k.get? d)) < steps k left (some (.branch d cs)) := by
  cases hc : cs.get? (k.get? d) with
  | none =>
    have hmissed : (branch d cs).missed k left = left.erase d := by
      refine IndexSet.ext_mem fun x => ?_
      rw [mem_missed, way_branch, hc, IndexSet.mem_erase]
      simp
    rw [steps, steps, hmissed, way_branch]
    simp
  | some c =>
    rw [steps, steps, missed_branch hc, way_branch, hc]
    simp

/-- A new branch takes up one of the dimensions that are left. -/
theorem steps_vacant {d : Dim} (k : Context) (hd : d ∈ left) :
    steps k left (some (.branch d .empty)) < steps k left none := by
  have hmissed : (branch d .empty).missed k left = left.erase d := by
    refine IndexSet.ext_mem fun x => ?_
    rw [mem_missed, way_branch, IndexSet.mem_erase]
    simp
  have hway : (branch d .empty).way k = [d] := by rw [way_branch]; rfl
  have herase : (left.erase d).toList.length < left.toList.length := by
    rw [IndexSet.erase, IndexSet.filter, List.length_filter_lt_length_iff_exists]
    exact ⟨d, hd, by simp⟩
  rw [steps, steps, hmissed, hway, List.length_singleton]
  omega

/-- Store in place from a place on. A walk that fails leaves the dimensions that are left and the
trie as it is by then. -/
def walk (k : Context) (v : Value) (above : Above) (left : IndexSet) :
    Option Trie → Except (IndexSet × Trie) Trie
  | some (.branch d cs) => walk k v ((d, cs) :: above) (left.erase d) (cs.get? (k.get? d))
  | some (.leaf u) =>
    if left.isEmpty then .ok (up k above (.leaf v)) else .error (left, up k above (.leaf u))
  | none =>
    match _h : left.toList with
    | [] => .ok (up k above (.leaf v))
    | d :: _ => walk k v above left (some (.branch d .empty))
termination_by here => steps k left here
decreasing_by
  · exact steps_branch k left d cs
  · exact steps_vacant k (IndexSet.mem_def.mpr (_h ▸ List.mem_cons_self ..))

theorem storeHere_vacant {d : Dim} {ds : List Dim} (h : left.toList = d :: ds) :
    storeHere k v left (some (.branch d .empty)) = storeHere k v left none := by
  have herase : (left.erase d).toList = ds := by
    have hpair : (d :: ds).Pairwise (· < ·) := h ▸ left.ascending
    have hd : ∀ x ∈ ds, x ≠ d := fun x hx =>
      Nat.ne_of_gt ((List.pairwise_cons.mp hpair).1 x hx)
    calc (left.erase d).toList = left.toList.filter (· != d) := rfl
      _ = (d :: ds).filter (· != d) := by rw [h]
      _ = ds := by simpa using hd
  rw [storeHere, store_child, DigitTree.get?_empty, storeHere, storeHere, herase, h]
  rfl

/-- A walk from a place ends with what storing makes of it, put back where it was. If it fails,
the trie is the one that it started from. -/
theorem walk_eq (k : Context) (v : Value) (above : Above) (left : IndexSet) (here : Option Trie) :
    walk k v above left here =
      match storeHere k v left here with
      | .ok t => .ok (up k above t)
      | .error e => .error (e, up k above (here.getD (.leaf v))) := by
  induction above, left, here using walk.induct k with
  | case1 above left d cs ih =>
    rw [walk, ih, storeHere, store_child]
    cases hc : cs.get? (k.get? d) with
    | none => rfl
    | some c =>
      simp only [storeHere, Option.getD_some, up]
      cases c.store k v (left.erase d) with
      | ok c' => rfl
      | error e => rw [DigitTree.put_get? hc]; rfl
  | case2 above left u hleft =>
    rw [walk, storeHere, store, if_pos hleft, if_pos hleft]
  | case3 above left u hleft =>
    rw [walk, storeHere, store, if_neg hleft, if_neg hleft]
    rfl
  | case4 above left h =>
    rw [walk, storeHere]
    split
    · rw [h]
      rfl
    · rename_i hcons
      cases h.symm.trans hcons
  | case5 above left d ds h ih =>
    rw [walk]
    split
    · rename_i hnil
      cases h.symm.trans hnil
    · rename_i d' ds' hcons
      cases h.symm.trans hcons
      rw [ih, storeHere_vacant h, storeHere]

end Trie

namespace Memo

variable {m m' : Memo} {n : String} {k : Context} {v : Value} {e : Fault}

/-- Store in place: how it ends, if it fails, and the memo as it is then. -/
def storeInPlace (m : Memo) (n : String) (k : Context) (dims : IndexSet) (v : Value) :
    Option Fault × Memo :=
  match Trie.walk k v [] dims (m.tries.get? n) with
  | .ok t => (none, { m with tries := m.tries.put n t })
  | .error (left, t) => (some (.unkeyedLeaf n left), { m with tries := m.tries.put n t })

/-- The dimensions that are not on the way of a name for a context. -/
def missed (m : Memo) (n : String) (k : Context) (dims : IndexSet) : IndexSet :=
  dims.filter fun d => decide (d ∉ m.way n k)

theorem store_eq_error {dims : IndexSet} : m.store n k dims v = .error e ↔
    (m.known? n k).isSome = true ∧ e = .unkeyedLeaf n (m.missed n k dims) ∧
      (m.missed n k dims).isEmpty = false := by
  rw [store, known?, missed, way]
  cases m.tries.get? n with
  | none => simp
  | some t =>
    simp only [Option.bind_some, Option.map_some, Option.getD_some]
    cases hs : t.store k v dims with
    | ok t' =>
      simp only [reduceCtorEq, false_iff]
      rintro ⟨hknown, -, hne⟩
      cases hs.symm.trans (Trie.store_eq_error.mpr ⟨hknown, rfl, hne⟩)
    | error left =>
      obtain ⟨hknown, rfl, hne⟩ := Trie.store_eq_error.mp hs
      exact ⟨fun h => ⟨hknown, (Except.error.inj h).symm, hne⟩,
        fun h => congrArg Except.error h.2.1.symm⟩

/-- In place the memo ends as it does otherwise, and a failure leaves it as it was. -/
theorem storeInPlace_eq (dims : IndexSet) : m.storeInPlace n k dims v =
    match m.store n k dims v with
    | .ok m' => (none, m')
    | .error e => (some e, m) := by
  rw [storeInPlace, Trie.walk_eq, store]
  cases ht : m.tries.get? n with
  | none => rfl
  | some t =>
    simp only [Trie.storeHere]
    cases t.store k v dims with
    | ok t' => rfl
    | error left =>
      have hput : m.tries.put n t = m.tries := Assoc.put_get? ht
      simp only [Option.getD_some, Trie.up, hput]

theorem isEmpty_missed {dims : IndexSet} :
    (m.missed n k dims).isEmpty = false ↔ ∃ d ∈ dims, d ∉ m.way n k := by
  rw [← Bool.not_eq_true, IndexSet.isEmpty_iff, missed]
  push Not
  exact exists_congr fun d => by rw [IndexSet.mem_filter, decide_eq_true_eq]

/-- A store fails exactly where its name has a value for its context and one of its dimensions is
not on the way there; the fault names those that are not. In place it ends as it does otherwise,
and a failure leaves the memo as it was. What it stores under is a set, in whatever order and
with whatever repeats it is given. -/
theorem store_all_or_nothing (m : Memo) (n : String) (k : Context) (ds : List Dim) (v : Value) :
    ((∃ e, m.store n k (.ofList ds) v = .error e) ↔
      (m.known? n k).isSome = true ∧ ∃ d ∈ ds, d ∉ m.way n k) ∧
    (∀ e, m.store n k (.ofList ds) v = .error e →
      e = .unkeyedLeaf n (m.missed n k (.ofList ds)) ∧
      m.storeInPlace n k (.ofList ds) v = (some e, m)) ∧
    (∀ m', m.store n k (.ofList ds) v = .ok m' →
      m.storeInPlace n k (.ofList ds) v = (none, m')) ∧
    ∀ ds' : List Dim, (∀ d, d ∈ ds' ↔ d ∈ ds) →
      m.storeInPlace n k (.ofList ds') v = m.storeInPlace n k (.ofList ds) v := by
  refine ⟨?fails, ?fault, ?succeeds, ?order⟩
  case fails =>
    simp only [store_eq_error, exists_and_left, exists_and_right, exists_eq, true_and,
      isEmpty_missed, IndexSet.mem_ofList]
  case fault =>
    intro e he
    exact ⟨(store_eq_error.mp he).2.1, by rw [storeInPlace_eq, he]⟩
  case succeeds =>
    intro m' hm'
    rw [storeInPlace_eq, hm']
  case order =>
    intro ds' h
    have hset : IndexSet.ofList ds' = .ofList ds :=
      IndexSet.ext_mem fun d => by rw [IndexSet.mem_ofList, IndexSet.mem_ofList, h]
    rw [hset]

/-- A value that looks at `x` is in the way of one that looks at `x` and `y`, except where `x` is
another. -/
theorem store_all_or_nothing_leaf :
    let m := empty.applyAll [.store "f" (.ofList [(7, .int 1), (8, .int 10)]) [7] (.int 0)]
    m.storeInPlace "f" (.ofList [(7, .int 1), (8, .int 11)]) (.ofList [8, 7, 8]) (.int 5) =
        (some (.unkeyedLeaf "f" (.ofList [8])), m) ∧
      ((m.storeInPlace "f" (.ofList [(7, .int 2)]) (.ofList [8, 7]) (.int 5)).1 = none) ∧
      m.storeInPlace "f" (.ofList [(7, .int 2)]) (.ofList [7, 8, 7]) (.int 5) =
        m.storeInPlace "f" (.ofList [(7, .int 2)]) (.ofList [8, 7]) (.int 5) := by
  intro m
  obtain ⟨-, hfault, -, -⟩ :=
    store_all_or_nothing m "f" (.ofList [(7, .int 1), (8, .int 11)]) [8, 7, 8] (.int 5)
  obtain ⟨-, -, hok, horder⟩ :=
    store_all_or_nothing m "f" (.ofList [(7, .int 2)]) [8, 7] (.int 5)
  exact ⟨(hfault _ rfl).2, congrArg Prod.fst (hok _ rfl), horder [7, 8, 7] fun d => by grind⟩

end Memo

end Intensional
