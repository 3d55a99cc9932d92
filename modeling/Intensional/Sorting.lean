/-!
# Ascending lists and stable order

Collections that have a canonical form are kept as ascending lists without repeats under a
comparison `cmp`. `insertBy` is the one step that builds them: it places an element, and an
element that compares equal to one already present takes its place. Folding it over a list
(`distinctBy`) therefore keeps, of several equal elements, the one that comes last.

`stableOrder` lists positions instead of elements, so that equal elements show which of them
came first.
-/

namespace Intensional
namespace Sorting

variable {α : Type}

/-- Place `x` in an ascending list; an element that compares equal gives way to `x`. -/
def insertBy (cmp : α → α → Ordering) (x : α) : List α → List α
  | [] => [x]
  | y :: ys =>
    match cmp x y with
    | .lt => x :: y :: ys
    | .eq => x :: ys
    | .gt => y :: insertBy cmp x ys

/-- The elements in ascending order, of equal ones the last. -/
def distinctBy (cmp : α → α → Ordering) (xs : List α) : List α :=
  xs.foldl (fun sorted x => insertBy cmp x sorted) []

/-- The positions of `xs` in ascending order of their elements, equal elements by position. -/
def stableOrder (cmp : α → α → Ordering) (xs : List α) : List Nat :=
  (xs.zipIdx.mergeSort fun a b => (cmp a.1 b.1).isLE).map (·.2)

/-! ## What insertion keeps -/

theorem mem_insertBy {cmp : α → α → Ordering} {x z : α} :
    ∀ {ys : List α}, z ∈ insertBy cmp x ys → z = x ∨ z ∈ ys
  | [], h => by simpa [insertBy] using h
  | y :: ys, h => by
    unfold insertBy at h
    split at h
    · simpa using h
    · rcases List.mem_cons.mp h with h | h
      · exact .inl h
      · exact .inr (List.mem_cons_of_mem _ h)
    · rcases List.mem_cons.mp h with rfl | h
      · exact .inr (List.mem_cons_self ..)
      · exact (mem_insertBy h).imp id (List.mem_cons_of_mem _)

theorem pairwise_insertBy {cmp : α → α → Ordering} [Std.TransCmp cmp] {x : α} :
    ∀ {ys : List α}, ys.Pairwise (fun a b => cmp a b = .lt) →
      (insertBy cmp x ys).Pairwise (fun a b => cmp a b = .lt)
  | [], _ => by simp [insertBy]
  | y :: ys, h => by
    obtain ⟨hy, hys⟩ := List.pairwise_cons.mp h
    unfold insertBy
    split
    · rename_i hxy
      refine List.pairwise_cons.mpr ⟨fun z hz => ?_, h⟩
      rcases List.mem_cons.mp hz with rfl | hz
      · exact hxy
      · exact Std.TransCmp.lt_trans hxy (hy z hz)
    · rename_i hxy
      exact List.pairwise_cons.mpr
        ⟨fun z hz => Std.TransCmp.lt_of_eq_of_lt hxy (hy z hz), hys⟩
    · rename_i hxy
      refine List.pairwise_cons.mpr ⟨fun z hz => ?_, pairwise_insertBy hys⟩
      rcases mem_insertBy hz with rfl | hz
      · exact Std.OrientedCmp.lt_of_gt hxy
      · exact hy z hz

end Sorting
end Intensional
