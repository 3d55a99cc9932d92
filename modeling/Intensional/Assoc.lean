/-!
# Finite maps up to an equality

A finite map is its list of entries. Keys are found with `==`, which may be coarser than
identity: putting a value under a key equal to one already present keeps the old key and
replaces the value. New keys go to the end, so that the entries stay in the order in which
their keys first came.
-/

namespace Intensional

/-- A finite map, as the list of its entries. -/
abbrev Assoc (κ ν : Type) := List (κ × ν)

namespace Assoc

variable {κ ν : Type} [BEq κ]

def get? : Assoc κ ν → κ → Option ν
  | [], _ => none
  | (k', v) :: m, k => if k' == k then some v else get? m k

/-- Put `v` under `k`; the key of an equal entry stays. -/
def put : Assoc κ ν → κ → ν → Assoc κ ν
  | [], k, v => [(k, v)]
  | (k', v') :: m, k, v => if k' == k then (k', v) :: m else (k', v') :: put m k v

def erase (m : Assoc κ ν) (k : κ) : Assoc κ ν := m.filter fun e => !(e.1 == k)

def contains (m : Assoc κ ν) (k : κ) : Bool := (m.get? k).isSome

def keys (m : Assoc κ ν) : List κ := m.map (·.1)

/-- No key is equal to one that comes after it. -/
def Distinct (m : Assoc κ ν) : Prop := m.Pairwise fun a b => (a.1 == b.1) = false

/-! ## Laws -/

@[simp] theorem get?_nil (k : κ) : get? ([] : Assoc κ ν) k = none := rfl

theorem get?_cons (e : κ × ν) (m : Assoc κ ν) (k : κ) :
    get? (e :: m) k = if e.1 == k then some e.2 else get? m k := rfl

theorem get?_congr [EquivBEq κ] {k l : κ} (h : (k == l) = true) :
    ∀ m : Assoc κ ν, m.get? k = m.get? l
  | [] => rfl
  | e :: m => by rw [get?_cons, get?_cons, get?_congr h m, BEq.congr_right h]

/-- What is found after putting: the new value under every equal key, all else as before. -/
theorem get?_put [EquivBEq κ] (k l : κ) (v : ν) :
    ∀ m : Assoc κ ν, (m.put k v).get? l = if k == l then some v else m.get? l
  | [] => rfl
  | (k', v') :: m => by
    unfold put
    split
    · rename_i h
      simp only [get?_cons, BEq.congr_left h]
      split <;> rfl
    · rename_i h
      simp only [get?_cons, get?_put k l v m]
      split
      · rename_i hl
        have : (k == l) = false := by
          cases hkl : k == l with
          | false => rfl
          | true => exact absurd (BEq.trans hl (BEq.symm hkl)) h
        simp [this]
      · rfl

theorem get?_erase [EquivBEq κ] (k l : κ) :
    ∀ m : Assoc κ ν, (m.erase k).get? l = if k == l then none else m.get? l
  | [] => by simp [erase]
  | (k', v') :: m => by
    have ih := get?_erase k l m
    unfold erase at ih ⊢
    rw [List.filter_cons]
    cases h : k' == k with
    | true =>
      simp only [Bool.not_true, Bool.false_eq_true, ↓reduceIte, ih, get?_cons, BEq.congr_left h]
      split <;> simp_all
    | false =>
      simp only [Bool.not_false, ↓reduceIte, get?_cons, ih]
      cases hl : k' == l with
      | true =>
        have : (k == l) = false := by
          cases hkl : k == l with
          | false => rfl
          | true => rw [BEq.trans hl (BEq.symm hkl)] at h; cases h
        simp [this]
      | false => simp

/-- What is found stands in the map, under an equal key. -/
theorem mem_of_get? {k : κ} {v : ν} :
    ∀ {m : Assoc κ ν}, m.get? k = some v → ∃ k', (k', v) ∈ m ∧ (k' == k) = true
  | (k', v') :: m, h => by
    rw [get?_cons] at h
    split at h
    · rename_i hk
      cases h
      exact ⟨k', List.mem_cons_self .., hk⟩
    · obtain ⟨k'', hmem, hk⟩ := mem_of_get? h
      exact ⟨k'', List.mem_cons_of_mem _ hmem, hk⟩

theorem mem_keys_put {k x : κ} {v : ν} :
    ∀ {m : Assoc κ ν}, x ∈ (m.put k v).keys → x = k ∨ x ∈ m.keys
  | [], h => by simpa [put, keys] using h
  | (k', v') :: m, h => by
    unfold put at h
    split at h
    · exact .inr (by simpa [keys] using h)
    · rcases List.mem_cons.mp h with rfl | h
      · exact .inr (List.mem_cons_self ..)
      · exact (mem_keys_put h).imp id (List.mem_cons_of_mem _)

theorem Distinct.erase {m : Assoc κ ν} (h : m.Distinct) (k : κ) : (m.erase k).Distinct :=
  List.Pairwise.filter _ h

theorem Distinct.put {k : κ} {v : ν} : ∀ {m : Assoc κ ν}, m.Distinct → (m.put k v).Distinct
  | [], _ => by simp [Distinct, Assoc.put]
  | (k', v') :: m, h => by
    obtain ⟨h₁, h₂⟩ := List.pairwise_cons.mp h
    unfold Assoc.put
    split
    · exact List.pairwise_cons.mpr ⟨h₁, h₂⟩
    · rename_i hk
      refine List.pairwise_cons.mpr ⟨fun e he => ?_, Distinct.put h₂⟩
      have : e.1 ∈ (Assoc.put m k v).keys := List.mem_map_of_mem he
      rcases mem_keys_put this with hek | hek
      · rw [hek]
        exact Bool.eq_false_iff.mpr hk
      · obtain ⟨e', he', heq⟩ := List.mem_map.mp hek
        exact heq ▸ h₁ e' he'

end Assoc
end Intensional
