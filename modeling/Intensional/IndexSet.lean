/-!
# Finite sets of indices

Types and dimensions are identified by small natural numbers. A set of them is its strictly
ascending list, so two sets are equal exactly when they have the same members
(`IndexSet.ext_mem`) and every answer that lists a set lists it in ascending order.
-/

namespace Intensional

/-- A finite set of indices, held as its strictly ascending list. -/
structure IndexSet where
  toList : List Nat
  ascending : toList.Pairwise (· < ·)
deriving DecidableEq

namespace IndexSet

instance : Membership Nat IndexSet := ⟨fun s n => n ∈ s.toList⟩

instance (n : Nat) (s : IndexSet) : Decidable (n ∈ s) :=
  inferInstanceAs (Decidable (n ∈ s.toList))

theorem mem_def {n : Nat} {s : IndexSet} : n ∈ s ↔ n ∈ s.toList := Iff.rfl

/-! ## Building a set -/

def empty : IndexSet := ⟨[], .nil⟩

instance : Inhabited IndexSet := ⟨empty⟩

/-- Place `n` in an ascending list that may already hold it. -/
def place (n : Nat) : List Nat → List Nat
  | [] => [n]
  | m :: ms => if n < m then n :: m :: ms else if n = m then m :: ms else m :: place n ms

theorem mem_place {n m : Nat} : ∀ {ms : List Nat}, m ∈ place n ms ↔ m = n ∨ m ∈ ms
  | [] => by simp [place]
  | k :: ms => by
    unfold place
    split
    · simp
    · split
      · rename_i h
        subst h
        simp
      · have ih : m ∈ place n ms ↔ m = n ∨ m ∈ ms := mem_place
        simp only [List.mem_cons, ih]
        grind

theorem pairwise_place {n : Nat} :
    ∀ {ms : List Nat}, ms.Pairwise (· < ·) → (place n ms).Pairwise (· < ·)
  | [], _ => by simp [place]
  | k :: ms, h => by
    obtain ⟨hk, hms⟩ := List.pairwise_cons.mp h
    unfold place
    split
    · rename_i hn
      refine List.pairwise_cons.mpr ⟨fun z hz => ?_, h⟩
      rcases List.mem_cons.mp hz with rfl | hz
      · exact hn
      · exact Nat.lt_trans hn (hk z hz)
    · split
      · exact h
      · refine List.pairwise_cons.mpr ⟨fun z hz => ?_, pairwise_place hms⟩
        rcases mem_place.mp hz with rfl | hz
        · omega
        · exact hk z hz

def insert (n : Nat) (s : IndexSet) : IndexSet := ⟨place n s.toList, pairwise_place s.ascending⟩

/-- The set of the indices of a list, whatever their order and repeats. -/
def ofList (ns : List Nat) : IndexSet := ns.foldr insert empty

/-- Place `m` in an ascending list, and go on with `rest` on what is greater. -/
def mergeFrom (m : Nat) (rest : List Nat → List Nat) : List Nat → List Nat
  | [] => m :: rest []
  | n :: ns =>
    if n < m then n :: mergeFrom m rest ns
    else if n = m then m :: rest ns
    else m :: rest (n :: ns)

/-- Merge two ascending lists, what they share once. -/
def merge : List Nat → List Nat → List Nat
  | [], ns => ns
  | m :: ms, ns => mergeFrom m (merge ms) ns

theorem mem_mergeFrom {m k : Nat} {ms : List Nat} {rest : List Nat → List Nat}
    (h : ∀ ns : List Nat, k ∈ rest ns ↔ k ∈ ms ∨ k ∈ ns) :
    ∀ {ns : List Nat}, k ∈ mergeFrom m rest ns ↔ k ∈ m :: ms ∨ k ∈ ns
  | [] => by simp [mergeFrom, h]
  | n :: ns => by
    have ih : k ∈ mergeFrom m rest ns ↔ k ∈ m :: ms ∨ k ∈ ns := mem_mergeFrom h
    unfold mergeFrom
    split
    · simp only [List.mem_cons, ih]
      grind
    · split
      · rename_i hn
        subst hn
        simp only [List.mem_cons, h]
        grind
      · simp only [List.mem_cons, h]
        grind

theorem mem_merge {k : Nat} :
    ∀ {ms ns : List Nat}, k ∈ merge ms ns ↔ k ∈ ms ∨ k ∈ ns
  | [], ns => by simp [merge]
  | m :: ms, ns => mem_mergeFrom fun _ => mem_merge

theorem pairwise_mergeFrom {m : Nat} {ms : List Nat} (hm : ∀ k ∈ ms, m < k)
    {rest : List Nat → List Nat} (h : ∀ k (ns : List Nat), k ∈ rest ns ↔ k ∈ ms ∨ k ∈ ns)
    (hrest : ∀ {ns : List Nat}, ns.Pairwise (· < ·) → (rest ns).Pairwise (· < ·)) :
    ∀ {ns : List Nat}, ns.Pairwise (· < ·) → (mergeFrom m rest ns).Pairwise (· < ·)
  | [], _ => by
    refine List.pairwise_cons.mpr ⟨fun k hk => ?_, hrest .nil⟩
    exact hm k (by simpa using (h k []).mp hk)
  | n :: ns, hns => by
    obtain ⟨hn, hns'⟩ := List.pairwise_cons.mp hns
    unfold mergeFrom
    split
    · refine List.pairwise_cons.mpr ⟨fun k hk => ?_, pairwise_mergeFrom hm h hrest hns'⟩
      rcases (mem_mergeFrom fun ns => h k ns).mp hk with hk | hk
      · grind
      · exact hn k hk
    · split
      · rename_i hnm
        subst hnm
        refine List.pairwise_cons.mpr ⟨fun k hk => ?_, hrest hns'⟩
        exact ((h k ns).mp hk).elim (hm k) (hn k)
      · refine List.pairwise_cons.mpr ⟨fun k hk => ?_, hrest hns⟩
        rcases (h k (n :: ns)).mp hk with hk | hk
        · exact hm k hk
        · grind

theorem pairwise_merge : ∀ {ms ns : List Nat}, ms.Pairwise (· < ·) → ns.Pairwise (· < ·) →
    (merge ms ns).Pairwise (· < ·)
  | [], _, _, hns => hns
  | _ :: _, _, hms, hns =>
    pairwise_mergeFrom (List.pairwise_cons.mp hms).1 (fun _ _ => mem_merge)
      (fun h => pairwise_merge (List.pairwise_cons.mp hms).2 h) hns

def union (s t : IndexSet) : IndexSet :=
  ⟨merge s.toList t.toList, pairwise_merge s.ascending t.ascending⟩

def filter (keep : Nat → Bool) (s : IndexSet) : IndexSet :=
  ⟨s.toList.filter keep, s.ascending.filter _⟩

def erase (n : Nat) (s : IndexSet) : IndexSet := s.filter (· != n)

/-! ## Questions -/

def contains (s : IndexSet) (n : Nat) : Bool := decide (n ∈ s)

def isEmpty (s : IndexSet) : Bool := s.toList.isEmpty

def subset (s t : IndexSet) : Bool := s.toList.all t.contains

/-- Sets are ordered as their ascending lists are, member by member. -/
def compare (s t : IndexSet) : Ordering := List.compareLex Ord.compare s.toList t.toList

/-! ## Membership -/

@[simp] theorem not_mem_empty {n : Nat} : ¬ n ∈ empty := by simp [mem_def, empty]

@[simp] theorem mem_insert {n m : Nat} {s : IndexSet} : m ∈ s.insert n ↔ m = n ∨ m ∈ s :=
  mem_place

@[simp] theorem mem_ofList {m : Nat} : ∀ {ns : List Nat}, m ∈ ofList ns ↔ m ∈ ns
  | [] => by simp [ofList]
  | n :: ns => by
    have ih : m ∈ ofList ns ↔ m ∈ ns := mem_ofList
    rw [ofList] at ih ⊢
    rw [List.foldr_cons, mem_insert, ih, List.mem_cons]

@[simp] theorem mem_union {m : Nat} {s t : IndexSet} : m ∈ s.union t ↔ m ∈ s ∨ m ∈ t :=
  mem_merge

@[simp] theorem mem_filter {m : Nat} {keep : Nat → Bool} {s : IndexSet} :
    m ∈ s.filter keep ↔ m ∈ s ∧ keep m = true := by
  simp [filter, mem_def]

@[simp] theorem mem_erase {m n : Nat} {s : IndexSet} : m ∈ s.erase n ↔ m ∈ s ∧ m ≠ n := by
  simp [erase]

@[simp] theorem contains_eq_true {s : IndexSet} {n : Nat} : s.contains n = true ↔ n ∈ s := by
  simp [contains]

theorem subset_eq_true {s t : IndexSet} : s.subset t = true ↔ ∀ n ∈ s, n ∈ t := by
  simp [subset, mem_def]

theorem isEmpty_iff {s : IndexSet} : s.isEmpty = true ↔ ∀ n, ¬ n ∈ s := by
  simp [isEmpty, mem_def, List.eq_nil_iff_forall_not_mem]

/-- Strictly ascending lists with the same members are the same list. -/
theorem eq_of_mem_iff : ∀ {ms ns : List Nat}, ms.Pairwise (· < ·) → ns.Pairwise (· < ·) →
    (∀ k, k ∈ ms ↔ k ∈ ns) → ms = ns
  | [], [], _, _, _ => rfl
  | [], n :: ns, _, _, h => by simpa using h n
  | m :: ms, [], _, _, h => by simpa using h m
  | m :: ms, n :: ns, hm, hn, h => by
    obtain ⟨hm₁, hm₂⟩ := List.pairwise_cons.mp hm
    obtain ⟨hn₁, hn₂⟩ := List.pairwise_cons.mp hn
    have hmn : m = n := by
      have h₁ := (h m).mp (List.mem_cons_self ..)
      have h₂ := (h n).mpr (List.mem_cons_self ..)
      rcases List.mem_cons.mp h₁ with h₁ | h₁
      · exact h₁
      · rcases List.mem_cons.mp h₂ with h₂ | h₂
        · exact h₂.symm
        · exact absurd (hm₁ n h₂) (Nat.lt_asymm (hn₁ m h₁))
    subst hmn
    congr 1
    refine eq_of_mem_iff hm₂ hn₂ fun k => ⟨fun hk => ?_, fun hk => ?_⟩
    · rcases List.mem_cons.mp ((h k).mp (List.mem_cons_of_mem _ hk)) with rfl | hk'
      · exact absurd (hm₁ k hk) (Nat.lt_irrefl k)
      · exact hk'
    · rcases List.mem_cons.mp ((h k).mpr (List.mem_cons_of_mem _ hk)) with rfl | hk'
      · exact absurd (hn₁ k hk) (Nat.lt_irrefl k)
      · exact hk'

theorem ext_mem {s t : IndexSet} (h : ∀ n, n ∈ s ↔ n ∈ t) : s = t := by
  obtain ⟨ms, hm⟩ := s
  obtain ⟨ns, hn⟩ := t
  simp only [mk.injEq]
  exact eq_of_mem_iff hm hn h

end IndexSet
end Intensional
