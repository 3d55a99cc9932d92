import Intensional.Evaluation.Demand
import Intensional.Proofs.Context.Agreement

/-!
# What a memo remembers

`Memo.known?` is the remembered value of a name at a context, with the dimensions that were
looked at to find it. Three laws say what there is to know of it. A value found over some
dimensions is found for every context that agrees on them (`Memo.known?_agree`). After storing,
what is found was found before, or is the new value found over all dimensions it was stored
under (`Memo.known?_store`). Storing fails only where something is found already
(`Memo.store_error`).
-/

namespace Intensional

theorem DigitTree.get?_congr {κ ν : Type} [BEq κ] [Digest κ] [EquivBEq κ] [LawfulDigest κ]
    {k l : κ} (h : (k == l) = true) (t : DigitTree κ ν) : t.get? k = t.get? l := by
  have getAt_congr : ∀ n, t.getAt k n = t.getAt l n := by
    induction t with
    | nil => intro n; rfl
    | hole zero one ih₀ ih₁ => intro n; simp only [getAt, ih₀, ih₁]
    | node j w zero one ih₀ ih₁ => intro n; simp only [getAt, ih₀, ih₁, BEq.congr_right h]
  rw [get?, get?, digest_congr h, getAt_congr]

theorem Likeness.equality_rel {o o' : Option Value} :
    Option.Rel equality.same o o' ↔ (o == o') = true := by
  constructor
  · intro h
    cases h with
    | none => rfl
    | some h => exact h
  · intro h
    cases o <;> cases o' <;> first | exact .none | exact .some h | cases h

open Likeness

namespace Trie

variable {k l : Context} {v w : Value} {path p : List Dim}

section Induct

variable {P : Trie → Prop}

mutual

/-- Induction on tries: from the children of a branch, however they are found, to the branch. -/
theorem induct (leaf : ∀ v, P (.leaf v))
    (branch : ∀ d (cs : DigitTree (Option Value) Trie),
      (∀ key n c, cs.getAt key n = some c → P c) → P (.branch d cs)) : ∀ t, P t
  | .leaf v => leaf v
  | .branch d cs => branch d cs (induct_children leaf branch cs)

theorem induct_children (leaf : ∀ v, P (.leaf v))
    (branch : ∀ d (cs : DigitTree (Option Value) Trie),
      (∀ key n c, cs.getAt key n = some c → P c) → P (.branch d cs)) :
    ∀ (cs : DigitTree (Option Value) Trie) (key : Option Value) (n : Nat) (c : Trie),
      cs.getAt key n = some c → P c
  | .nil, key, n, c, h => by cases h
  | .hole zero one, key, n, c, h => by
      rw [DigitTree.getAt] at h
      split at h
      · exact induct_children leaf branch zero key _ c h
      · exact induct_children leaf branch one key _ c h
  | .node key' child zero one, key, n, c, h => by
      have hchild := induct leaf branch child
      rw [DigitTree.getAt] at h
      split at h
      · cases h
        exact hchild
      · split at h
        · exact induct_children leaf branch zero key _ c h
        · exact induct_children leaf branch one key _ c h

end

end Induct

/-- The value that is found, if there is one, and the dimensions looked at to find it. -/
def known? (t : Trie) (k : Context) : Option (Value × List Dim) :=
  (t.find k).1.map fun v => (v, (t.find k).2)

theorem known?_branch {d : Dim} {cs : DigitTree (Option Value) Trie} :
    (branch d cs).known? k = some (v, path) ↔
      ∃ c p, cs.get? (k.get? d) = some c ∧ c.known? k = some (v, p) ∧ path = d :: p := by
  rw [known?, find, findAt_eq, ← DigitTree.get?]
  cases hc : cs.get? (k.get? d) with
  | none => simp
  | some c =>
    simp only [Option.map_some, Option.getD_some, Option.some.injEq, exists_and_left]
    rw [Option.map_eq_some_iff]
    constructor
    · rintro ⟨u, hu, h⟩
      cases h
      exact ⟨c, rfl, _, by rw [known?, hu, Option.map_some], rfl⟩
    · rintro ⟨_, rfl, p, hp, rfl⟩
      rw [known?, Option.map_eq_some_iff] at hp
      obtain ⟨u, hu, h⟩ := hp
      cases h
      exact ⟨v, hu, rfl⟩

theorem get?_congr {cs : DigitTree (Option Value) Trie} {d : Dim}
    (h : Option.Rel equality.same (k.get? d) (l.get? d)) :
    cs.get? (k.get? d) = cs.get? (l.get? d) :=
  DigitTree.get?_congr (equality_rel.mp h) cs

theorem known?_agree {t : Trie} (h : t.known? k = some (v, path))
    (hkl : equality.Agree (· ∈ path) k l) : t.known? l = some (v, path) := by
  induction t using induct generalizing path with
  | leaf w => exact h
  | branch d cs ih =>
    obtain ⟨c, p, hc, hp, rfl⟩ := known?_branch.mp h
    have hd := hkl d (List.mem_cons_self ..)
    refine known?_branch.mpr ⟨c, p, ?_, ?_, rfl⟩
    · rwa [← get?_congr hd]
    · exact ih _ _ c hc hp (hkl.mono fun e he => List.mem_cons_of_mem _ he)

/-- A new path leads to its value those contexts that agree on its dimensions. -/
theorem known?_path {dims : List Dim} (h : (Trie.path k v dims).known? l = some (w, p)) :
    w = v ∧ p = dims ∧ equality.Agree (· ∈ dims) k l := by
  induction dims generalizing p with
  | nil =>
    cases h
    exact ⟨rfl, rfl, fun d hd => by cases hd⟩
  | cons d ds ih =>
    obtain ⟨c, q, hc, hq, rfl⟩ := known?_branch.mp h
    rw [DigitTree.get?_put] at hc
    split at hc
    · rename_i hkl
      cases hc
      obtain ⟨hw, rfl, hagree⟩ := ih hq
      refine ⟨hw, rfl, fun e he => ?_⟩
      rcases List.mem_cons.mp he with rfl | he
      · exact equality_rel.mpr hkl
      · exact hagree e he
    · cases hc

/-- The child for a context, or a new path, takes in the value. -/
theorem store_branch (k : Context) (v : Value) (left : IndexSet) (d : Dim)
    (cs : DigitTree (Option Value) Trie) :
    (branch d cs).store k v left =
      (match cs.get? (k.get? d) with
        | some c => c.store k v (left.erase d)
        | none => .ok (Trie.path k v (left.erase d).toList)).map
          fun c => .branch d (cs.put (k.get? d) c) := by
  rw [store, storeAt_eq, DigitTree.get?]
  cases cs.getAt (k.get? d) (digest (k.get? d)) with
  | none => rfl
  | some c =>
    simp only
    cases c.store k v (left.erase d) <;> rfl

theorem store_branch_eq_ok {d : Dim} {cs : DigitTree (Option Value) Trie} {left : IndexSet}
    {t' : Trie} (h : (branch d cs).store k v left = .ok t') :
    ∃ c', t' = .branch d (cs.put (k.get? d) c') ∧
      ((cs.get? (k.get? d) = none ∧ c' = Trie.path k v (left.erase d).toList) ∨
        ∃ c, cs.get? (k.get? d) = some c ∧ c.store k v (left.erase d) = .ok c') := by
  rw [store_branch] at h
  cases hold : cs.get? (k.get? d) with
  | none =>
    rw [hold] at h
    cases h
    exact ⟨_, rfl, .inl ⟨rfl, rfl⟩⟩
  | some c =>
    rw [hold] at h
    cases hs : c.store k v (left.erase d) with
    | error e => simp only [hs] at h; cases h
    | ok c' => simp only [hs] at h; cases h; exact ⟨c', rfl, .inr ⟨c, rfl, hs⟩⟩

/-- What is found after storing was found before, or is the new value. -/
theorem known?_store {t t' : Trie} {left : IndexSet} (h : t.store k v left = .ok t')
    (hl : t'.known? l = some (w, p)) :
    t.known? l = some (w, p) ∨
      w = v ∧ equality.Agree (· ∈ p) k l ∧ ∀ d ∈ left, d ∈ p := by
  induction t using induct generalizing t' left p with
  | leaf u =>
    rw [store] at h
    split at h
    · rename_i hleft
      cases h
      cases hl
      refine .inr ⟨rfl, fun d hd => (List.not_mem_nil hd).elim, fun d hd => ?_⟩
      exact absurd hd (IndexSet.isEmpty_iff.mp hleft d)
    · cases h
  | branch d cs ih =>
    obtain ⟨c', rfl, hc'⟩ := store_branch_eq_ok h
    obtain ⟨c, q, hc, hq, rfl⟩ := known?_branch.mp hl
    rw [DigitTree.get?_put] at hc
    split at hc
    · rename_i hkl
      cases hc
      have hd : Option.Rel equality.same (k.get? d) (l.get? d) := equality_rel.mpr hkl
      have hnew : (w = v ∧ equality.Agree (· ∈ q) k l ∧ ∀ e ∈ left.erase d, e ∈ q) →
          w = v ∧ equality.Agree (· ∈ d :: q) k l ∧ ∀ e ∈ left, e ∈ d :: q := by
        rintro ⟨hw, hagree, hleft⟩
        refine ⟨hw, fun e he => ?_, fun e he => ?_⟩
        · rcases List.mem_cons.mp he with rfl | he
          · exact hd
          · exact hagree e he
        · by_cases hed : e = d
          · exact hed ▸ List.mem_cons_self ..
          · exact List.mem_cons_of_mem _ (hleft e (IndexSet.mem_erase.mpr ⟨he, hed⟩))
      rcases hc' with ⟨-, rfl⟩ | ⟨c₀, hold, hstore⟩
      · obtain ⟨hw, rfl, hagree⟩ := known?_path hq
        exact .inr (hnew ⟨hw, hagree, fun e he => he⟩)
      · rcases ih _ _ c₀ hold hstore hq with hbefore | hafter
        · refine .inl (known?_branch.mpr ⟨c₀, q, ?_, hbefore, rfl⟩)
          rwa [← get?_congr hd]
        · exact .inr (hnew hafter)
    · exact .inl (known?_branch.mpr ⟨c, q, hc, hq, rfl⟩)

theorem known?_path_self (k : Context) (v : Value) (dims : List Dim) :
    (Trie.path k v dims).known? k = some (v, dims) := by
  induction dims with
  | nil => rfl
  | cons d ds ih =>
    refine known?_branch.mpr ⟨Trie.path k v ds, ds, ?_, ih, rfl⟩
    rw [DigitTree.get?_put, BEq.refl, if_pos rfl]
    rfl

/-- What has been stored is found where it was stored. -/
theorem known?_store_self {t t' : Trie} {left : IndexSet} (h : t.store k v left = .ok t') :
    ∃ p, t'.known? k = some (v, p) := by
  induction t using induct generalizing t' left with
  | leaf u =>
    rw [store] at h
    split at h <;> cases h
    exact ⟨[], rfl⟩
  | branch d cs ih =>
    obtain ⟨c', rfl, hc'⟩ := store_branch_eq_ok h
    have hfound : ∃ p, c'.known? k = some (v, p) := by
      rcases hc' with ⟨-, rfl⟩ | ⟨c, hc, hstore⟩
      · exact ⟨_, known?_path_self k v _⟩
      · exact ih _ _ c hc hstore
    obtain ⟨p, hp⟩ := hfound
    refine ⟨d :: p, known?_branch.mpr ⟨c', p, ?_, hp, rfl⟩⟩
    rw [DigitTree.get?_put, BEq.refl, if_pos rfl]

/-- What is found on another way is found after storing, also where the ways part further on. -/
theorem known?_store_other {t t' : Trie} {left : IndexSet} (h : t.store k v left = .ok t')
    (hl : t.known? l = some (w, p)) (hother : ¬ equality.Agree (· ∈ p) k l) :
    t'.known? l = some (w, p) := by
  induction t using induct generalizing t' left p with
  | leaf u =>
    cases hl
    exact absurd (fun d hd => (List.not_mem_nil hd).elim) hother
  | branch d cs ih =>
    obtain ⟨c', rfl, hc'⟩ := store_branch_eq_ok h
    obtain ⟨c, q, hc, hq, rfl⟩ := known?_branch.mp hl
    by_cases hkl : (k.get? d == l.get? d) = true
    · have hd : Option.Rel equality.same (k.get? d) (l.get? d) := equality_rel.mpr hkl
      have hother : ¬ equality.Agree (· ∈ q) k l := fun hagree => hother fun e he => by
        rcases List.mem_cons.mp he with rfl | he
        · exact hd
        · exact hagree e he
      rcases hc' with ⟨hnone, -⟩ | ⟨c₀, hold, hstore⟩
      · rw [get?_congr hd, hc] at hnone
        cases hnone
      · rw [get?_congr hd] at hold
        cases hold.symm.trans hc
        refine known?_branch.mpr ⟨c', q, ?_, ih _ _ c hc hstore hq hother, rfl⟩
        rw [DigitTree.get?_put, if_pos hkl]
    · refine known?_branch.mpr ⟨c, q, ?_, hq, rfl⟩
      rw [DigitTree.get?_put, if_neg hkl, hc]

/-- Storing fails only where a value is found. -/
theorem store_error {t : Trie} {left e : IndexSet} (h : t.store k v left = .error e) :
    (t.known? k).isSome = true := by
  induction t using induct generalizing left e with
  | leaf u => rfl
  | branch d cs ih =>
    rw [store_branch] at h
    cases hc : cs.get? (k.get? d) with
    | none => rw [hc] at h; cases h
    | some c =>
      rw [hc] at h
      simp only at h
      cases hs : c.store k v (left.erase d) with
      | ok c' => rw [hs] at h; cases h
      | error e' =>
        obtain ⟨⟨w, p⟩, hp⟩ := Option.isSome_iff_exists.mp (ih _ _ c hc hs)
        exact Option.isSome_iff_exists.mpr ⟨_, known?_branch.mpr ⟨c, p, hc, hp, rfl⟩⟩

end Trie

namespace Memo

variable {m m' : Memo} {n n' : String} {k l : Context} {v w : Value} {path p : List Dim}

def known? (m : Memo) (n : String) (k : Context) : Option (Value × List Dim) :=
  (m.tries.get? n).bind fun t => t.known? k

theorem known?_congr (h : m.tries = m'.tries) (n : String) (k : Context) :
    m.known? n k = m'.known? n k := by
  rw [known?, known?, h]

/-- What a lookup answers is remembered. -/
theorem known?_of_find (h : m.find n k = (.known v, path)) : m.known? n k = some (v, path) := by
  rw [find] at h
  split at h
  · cases h
  · cases ht : m.tries.get? n with
    | none => rw [ht] at h; cases h
    | some t =>
      rw [ht] at h
      simp only at h
      rw [known?, ht, Option.bind_some, Trie.known?]
      rcases hfind : t.find k with ⟨_ | w, path'⟩
      · rw [hfind] at h
        cases h
      · rw [hfind] at h
        cases h
        rfl

theorem known?_agree (h : m.known? n k = some (v, path))
    (hkl : equality.Agree (· ∈ path) k l) : m.known? n l = some (v, path) := by
  obtain ⟨t, ht, hv⟩ := Option.bind_eq_some_iff.mp h
  exact Option.bind_eq_some_iff.mpr ⟨t, ht, Trie.known?_agree hv hkl⟩

theorem known?_put {t : Trie} :
    known? { m with tries := m.tries.put n t } n' l =
      if n = n' then t.known? l else m.known? n' l := by
  rw [known?, known?, Assoc.get?_put]
  simp only [beq_iff_eq]
  split <;> rfl

theorem known?_forget : (m.forget n).known? n' k = if n = n' then none else m.known? n' k := by
  rw [known?, known?, forget, Assoc.get?_erase]
  simp only [beq_iff_eq]
  split <;> rfl

/-- Storing changes the trie of the name, or gives it one. -/
theorem store_eq_ok {dims : IndexSet} (h : m.store n k dims v = .ok m') :
    ∃ t', m' = { m with tries := m.tries.put n t' } ∧
      ((m.tries.get? n = none ∧ t' = Trie.path k v dims.toList) ∨
        ∃ t, m.tries.get? n = some t ∧ t.store k v dims = .ok t') := by
  rw [store] at h
  cases ht : m.tries.get? n with
  | none =>
    rw [ht] at h
    cases h
    exact ⟨_, rfl, .inl ⟨rfl, rfl⟩⟩
  | some t =>
    rw [ht] at h
    simp only at h
    cases hs : t.store k v dims with
    | error e => rw [hs] at h; cases h
    | ok t' =>
      rw [hs] at h
      cases h
      exact ⟨t', rfl, .inr ⟨t, rfl, hs⟩⟩

theorem known?_store {dims : IndexSet} (h : m.store n k dims v = .ok m')
    (hl : m'.known? n' l = some (w, p)) :
    m.known? n' l = some (w, p) ∨
      n' = n ∧ w = v ∧ equality.Agree (· ∈ p) k l ∧ ∀ d ∈ dims, d ∈ p := by
  obtain ⟨t', rfl, ht'⟩ := store_eq_ok h
  rw [known?_put] at hl
  split at hl
  · rename_i hn
    subst hn
    rcases ht' with ⟨-, rfl⟩ | ⟨t, ht, hstore⟩
    · obtain ⟨hw, rfl, hagree⟩ := Trie.known?_path hl
      exact .inr ⟨rfl, hw, hagree, fun d hd => hd⟩
    · rcases Trie.known?_store hstore hl with hold | hnew
      · exact .inl (Option.bind_eq_some_iff.mpr ⟨t, ht, hold⟩)
      · exact .inr ⟨rfl, hnew⟩
  · exact .inl hl

/-- What has been stored is found where it was stored. -/
theorem known?_store_self {dims : IndexSet} (h : m.store n k dims v = .ok m') :
    ∃ p, m'.known? n k = some (v, p) := by
  obtain ⟨t', rfl, ht'⟩ := store_eq_ok h
  rw [known?_put, if_pos rfl]
  rcases ht' with ⟨-, rfl⟩ | ⟨t, -, hstore⟩
  · exact ⟨_, Trie.known?_path_self k v _⟩
  · exact Trie.known?_store_self hstore

/-- What is found on another way, or for another name, is found after storing. -/
theorem known?_store_other {dims : IndexSet} (h : m.store n k dims v = .ok m')
    (hl : m.known? n' l = some (w, p)) (hother : n = n' → ¬ equality.Agree (· ∈ p) k l) :
    m'.known? n' l = some (w, p) := by
  obtain ⟨t', rfl, ht'⟩ := store_eq_ok h
  rw [known?_put]
  split
  · rename_i hn
    subst hn
    obtain ⟨t₀, ht₀, hv⟩ := Option.bind_eq_some_iff.mp hl
    rcases ht' with ⟨hnone, -⟩ | ⟨t, ht, hstore⟩
    · cases hnone.symm.trans ht₀
    · cases ht₀.symm.trans ht
      exact Trie.known?_store_other hstore hv (hother rfl)
  · exact hl

/-- Storing fails only with an unkeyed leaf, and only where a value is found. -/
theorem store_error {dims : IndexSet} {e : Fault} (h : m.store n k dims v = .error e) :
    (∃ left, e = .unkeyedLeaf n left) ∧ (m.known? n k).isSome = true := by
  rw [store] at h
  cases ht : m.tries.get? n with
  | none => rw [ht] at h; cases h
  | some t =>
    rw [ht] at h
    simp only at h
    cases hs : t.store k v dims with
    | ok t' => rw [hs] at h; cases h
    | error left =>
      rw [hs] at h
      cases h
      refine ⟨⟨left, rfl⟩, ?_⟩
      rw [known?, ht]
      exact Trie.store_error hs

theorem pending_store {dims : IndexSet} (h : m.store n k dims v = .ok m') :
    m'.pending = m.pending := by
  obtain ⟨t', rfl, -⟩ := store_eq_ok h
  rfl

/-- What storing does to the tries depends on the tries only. -/
theorem store_congr {m₁ m₂ : Memo} {dims : IndexSet} (htries : m₂.tries = m₁.tries)
    (h : m₁.store n k dims v = .ok m) :
    ∃ m', m₂.store n k dims v = .ok m' ∧ m'.tries = m.tries := by
  rw [store] at h
  rw [store, htries]
  split at h
  · cases h
    exact ⟨_, rfl, rfl⟩
  · split at h <;> cases h
    exact ⟨_, rfl, rfl⟩

/-! ## Pending evaluations -/

theorem isPending_start :
    (m.start n k).isPending n' l = ((n, k) == (n', l) || m.isPending n' l) := by
  rw [isPending, isPending, start, DigitTree.contains, DigitTree.contains, DigitTree.get?_put]
  cases (n, k) == (n', l) <;> rfl

theorem isPending_finish :
    (m.finish n k).isPending n' l = (!((n, k) == (n', l)) && m.isPending n' l) := by
  rw [isPending, isPending, finish, DigitTree.contains, DigitTree.contains,
    DigitTree.get?_erase]
  cases (n, k) == (n', l) <;> rfl

theorem isPending_congr (hkl : (k == l) = true) : m.isPending n k = m.isPending n l := by
  have : ((n, k) == (n, l)) = true := by rw [beq_pair, hkl, BEq.refl]; rfl
  rw [isPending, isPending, DigitTree.contains, DigitTree.contains,
    DigitTree.get?_congr this]

end Memo

/-! ## Looking a name up -/

/-- A name is known, or pending, or neither. -/
theorem Program.peek_cases (p : Program) (n : String) (k : Context) (s : Machine) :
    (∃ v path, p.config.caching = true ∧ s.memo.known? n k = some (v, path) ∧
      p.peek n k s = (.known v, path)) ∨
    (s.memo.isPending n k = true ∧ ∃ path, p.peek n k s = (.pending, path)) ∨
    (s.memo.isPending n k = false ∧
      (p.config.caching = true → s.memo.known? n k = none) ∧
        ∃ path, p.peek n k s = (.unknown, path)) := by
  cases hpending : s.memo.isPending n k with
  | true =>
    refine .inr (.inl ⟨rfl, [], ?_⟩)
    simp only [peek, Memo.find, hpending, ↓reduceIte, ite_self]
  | false =>
    cases hcaching : p.config.caching with
    | false =>
      refine .inr (.inr ⟨rfl, nofun, [], ?_⟩)
      simp only [peek, hcaching, hpending, Bool.false_eq_true, ↓reduceIte]
    | true =>
      have hpeek : p.peek n k s = s.memo.find n k := by rw [peek, if_pos hcaching]
      rw [hpeek, Memo.find, if_neg (by simp [hpending]), Memo.known?]
      cases s.memo.tries.get? n with
      | none => exact .inr (.inr ⟨rfl, fun _ => rfl, [], rfl⟩)
      | some t =>
        rw [Option.bind_some, Trie.known?]
        rcases hfind : t.find k with ⟨_ | v, path⟩
        · exact .inr (.inr ⟨rfl, fun _ => rfl, path, by simp only [hfind]⟩)
        · exact .inl ⟨v, path, rfl, rfl, by simp only [hfind]⟩

end Intensional
