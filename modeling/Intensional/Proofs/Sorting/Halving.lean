import Intensional.Sorting

/-!
# Search by halving

A list is searched by looking at its middle and going on in one half. What is searched for is
given by a function that tells on which side of it an element lies. The answer is a place: that
of an element which lies on neither side, or else the one at which such an element would have to
be inserted.

The search looks at few elements and trusts that the list is in line, so that whatever comes
before an element of the left side is on the left side, and whatever comes after one of the right
side on the right. Of such a list the answer is a decomposition (`search_found`, `search_missed`),
and this is all that is used of the search elsewhere.
-/

namespace Intensional
namespace Sorting

variable {α : Type} {side : α → Ordering} {xs : List α} {left right i : Nat}

/-- Search the places from `left` up to `right`, of which the last does not count. -/
def searchBetween (side : α → Ordering) (xs : List α) (left right : Nat) : Except Nat Nat :=
  if left < right then
    let middle := left + (right - left) / 2
    match xs[middle]?.map side with
    | some .lt => searchBetween side xs (middle + 1) right
    | some .gt => searchBetween side xs left middle
    | some .eq => .ok middle
    | none => .error left
  else .error left
termination_by right - left

def search (side : α → Ordering) (xs : List α) : Except Nat Nat :=
  searchBetween side xs 0 xs.length

/-- The number of elements of which `p` is true, in a list that has all of these first. -/
def partitionPoint (p : α → Bool) (xs : List α) : Nat :=
  match search (fun x => if p x then .lt else .gt) xs with
  | .ok i => i
  | .error i => i

/-! ## Lists that are in line -/

/-- Elements of the left side come before all others, and those of the right side after. -/
def InLine (side : α → Ordering) (xs : List α) : Prop :=
  xs.Pairwise fun x y => (side y = .lt → side x = .lt) ∧ (side x = .gt → side y = .gt)

theorem InLine.ordered (h : InLine side xs) {j : Nat} {x y : α} (hx : xs[i]? = some x)
    (hy : xs[j]? = some y) (hij : i ≤ j) :
    (side y = .lt → side x = .lt) ∧ (side x = .gt → side y = .gt) := by
  rcases Nat.lt_or_eq_of_le hij with hij | rfl
  · obtain ⟨hi, rfl⟩ := List.getElem?_eq_some_iff.mp hx
    obtain ⟨hj, rfl⟩ := List.getElem?_eq_some_iff.mp hy
    exact List.pairwise_iff_getElem.mp h i j hi hj hij
  · cases hx.symm.trans hy
    exact ⟨id, id⟩

/-! ## The search -/

/-- All that is before `left` is on the left side, and all from `right` on is on the right. -/
structure Narrowed (side : α → Ordering) (xs : List α) (left right : Nat) : Prop where
  le : left ≤ right
  inside : right ≤ xs.length
  before : ∀ j x, j < left → xs[j]? = some x → side x = .lt
  after : ∀ j x, right ≤ j → xs[j]? = some x → side x = .gt

theorem Narrowed.all (side : α → Ordering) (xs : List α) : Narrowed side xs 0 xs.length where
  le := Nat.zero_le _
  inside := Nat.le_refl _
  before _ _ hj := absurd hj (Nat.not_lt_zero _)
  after j x hj hx := by
    rw [List.getElem?_eq_none hj] at hx
    cases hx

/-- Every step narrows the places, until an element is found or no place is left. -/
theorem Narrowed.searchBetween (hline : InLine side xs) (h : Narrowed side xs left right) :
    match searchBetween side xs left right with
    | .ok i => ∃ x, xs[i]? = some x ∧ side x = .eq
    | .error i => Narrowed side xs i i := by
  fun_induction Sorting.searchBetween side xs left right with
  | case1 left right hlt middle hside ih =>
    obtain ⟨y, hy, hyside⟩ := Option.map_eq_some_iff.mp hside
    exact ih ⟨by omega, h.inside,
      fun j x hj hx => (hline.ordered hx hy (Nat.le_of_lt_succ hj)).1 hyside, h.after⟩
  | case2 left right hlt middle hside ih =>
    obtain ⟨y, hy, hyside⟩ := Option.map_eq_some_iff.mp hside
    have hinside := h.inside
    exact ih ⟨by omega, by omega, h.before,
      fun j x hj hx => (hline.ordered hy hx hj).2 hyside⟩
  | case3 left right hlt middle hside =>
    exact Option.map_eq_some_iff.mp hside
  | case4 left right hlt middle hside =>
    have hmiddle := List.getElem?_eq_none_iff.mp (Option.map_eq_none_iff.mp hside)
    have hinside := h.inside
    omega
  | case5 left right hlt =>
    obtain rfl : left = right := Nat.le_antisymm h.le (Nat.le_of_not_lt hlt)
    exact h

theorem search_found (hline : InLine side xs) (h : search side xs = .ok i) :
    ∃ before x after, xs = before ++ x :: after ∧ before.length = i ∧ side x = .eq := by
  have hspec := (Narrowed.all side xs).searchBetween hline
  rw [search] at h
  rw [h] at hspec
  obtain ⟨x, hx, hside⟩ := hspec
  obtain ⟨hi, rfl⟩ := List.getElem?_eq_some_iff.mp hx
  refine ⟨xs.take i, xs[i], xs.drop (i + 1), ?_, List.length_take_of_le (Nat.le_of_lt hi), hside⟩
  rw [← List.drop_eq_getElem_cons hi, List.take_append_drop]

theorem search_missed (hline : InLine side xs) (h : search side xs = .error i) :
    ∃ before after, xs = before ++ after ∧ before.length = i ∧ (∀ x ∈ before, side x = .lt) ∧
      ∀ x ∈ after, side x = .gt := by
  have hspec := (Narrowed.all side xs).searchBetween hline
  rw [search] at h
  rw [h] at hspec
  refine ⟨xs.take i, xs.drop i, (List.take_append_drop i xs).symm,
    List.length_take_of_le hspec.inside, fun x hx => ?_, fun x hx => ?_⟩
  · obtain ⟨j, hj⟩ := List.mem_iff_getElem?.mp hx
    rw [List.getElem?_take] at hj
    split at hj
    · exact hspec.before j x ‹_› hj
    · cases hj
  · obtain ⟨j, hj⟩ := List.mem_iff_getElem?.mp hx
    rw [List.getElem?_drop] at hj
    exact hspec.after (i + j) x (Nat.le_add_right i j) hj

/-- Where the elements of which `p` is true come first, they end at the partition point. -/
theorem partitionPoint_split {p : α → Bool}
    (h : xs.Pairwise fun x y => p y = true → p x = true) :
    ∃ before after, xs = before ++ after ∧ before.length = partitionPoint p xs ∧
      (∀ x ∈ before, p x = true) ∧ ∀ x ∈ after, p x = false := by
  have hline : InLine (fun x => if p x then .lt else .gt) xs := h.imp fun {x y} himp => by
    cases hx : p x <;> cases hy : p y <;> simp_all
  unfold partitionPoint
  split
  · rename_i i hi
    obtain ⟨-, x, -, -, -, hx⟩ := search_found hline hi
    split at hx <;> cases hx
  · rename_i i hi
    obtain ⟨before, after, hxs, hlength, hbefore, hafter⟩ := search_missed hline hi
    refine ⟨before, after, hxs, hlength, fun x hx => ?_, fun x hx => ?_⟩
    · have hside := hbefore x hx
      cases hp : p x <;> simp_all
    · have hside := hafter x hx
      cases hp : p x <;> simp_all

theorem insertIdx_length_append (x : α) (after : List α) : ∀ before : List α,
    (before ++ after).insertIdx before.length x = before ++ x :: after
  | [] => rfl
  | y :: before => by
    rw [List.cons_append, List.length_cons, List.insertIdx_succ_cons,
      insertIdx_length_append x after before, List.cons_append]

end Sorting
end Intensional
