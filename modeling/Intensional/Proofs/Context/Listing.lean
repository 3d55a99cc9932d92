import Intensional.Proofs.Context.Overriding
import Intensional.Proofs.Sorting.Halving

/-!
# Contexts in arrays

A context is kept as an array of bindings. A binding is looked up, replaced and inserted at the
place that a search by halving finds, and two arrays are merged by going through both at once.
None of this looks at the whole array, so it is right only as long as every array is strictly
ascending, and one binding out of place would be missed by lookups without notice.

A `Listing` is an array without that promise. The operations on listings are those on contexts as
they are carried out, and the laws say that on the bindings of contexts they give the bindings of
contexts again, the ones that the operations on contexts give. Merging is the only one that has
an induction of its own; the others rest on what the search answers.
-/

namespace Intensional

/-- Bindings in some order. -/
abbrev Listing := List (Dim × Value)

namespace Listing

/-! ## The operations -/

def search (es : Listing) (d : Dim) : Except Nat Nat :=
  Sorting.search (fun e => Ord.compare e.1 d) es

def get? (es : Listing) (d : Dim) : Option Value :=
  match es.search d with
  | .ok i => es[i]?.map (·.2)
  | .error _ => none

/-- Put a value in the place of an earlier one, or insert a binding where it belongs. -/
def put (es : Listing) (d : Dim) (v : Value) : Listing :=
  match es.search d with
  | .ok i => es.set i (d, v)
  | .error i => es.insertIdx i (d, v)

def ofPairs (pairs : List (Dim × Value)) : Listing := pairs.foldl (fun es p => es.put p.1 p.2) []

/-- Go through both listings, and take the binding of the second one where both bind. -/
def merge : Listing → Listing → Listing
  | [], fs => fs
  | es, [] => es
  | (d, v) :: es, (e, w) :: fs =>
    if d < e then (d, v) :: merge es ((e, w) :: fs)
    else if d = e then (e, w) :: merge es fs
    else (e, w) :: merge ((d, v) :: es) fs
termination_by es fs => es.length + fs.length

/-- Merge two listings, unless one of them is empty. -/
def override (es delta : Listing) : Listing :=
  if delta.isEmpty then es else if es.isEmpty then delta else merge es delta

def bind (es : Listing) (d : Dim) (v : Value) : Listing := es.override (ofPairs [(d, v)])

def restrict (es : Listing) (dims : List Dim) : Listing := es.filter fun e => dims.contains e.1

/-- One more of some changes, unless it is empty. -/
def push (changes : List Listing) (change : Listing) : List Listing :=
  if change.isEmpty then changes else changes ++ [change]

def apply (changes : List Listing) (base : Listing) : Listing := changes.foldl override base

/-- The dimensions are strictly ascending. -/
def Ascending (es : Listing) : Prop := (es.map (·.1)).Pairwise (· < ·)

/-! ## Searching -/

section

variable {es before after : Listing} {d : Dim} {v w : Value} {i : Nat}

theorem Ascending.inLine (h : es.Ascending) (d : Dim) :
    Sorting.InLine (fun e : Dim × Value => Ord.compare e.1 d) es :=
  (List.pairwise_map.mp h).imp fun {e f} (hlt : e.1 < f.1) => by
    rw [Nat.compare_eq_lt, Nat.compare_eq_lt, Nat.compare_eq_gt, Nat.compare_eq_gt]
    exact ⟨Nat.lt_trans hlt, fun hd => Nat.lt_trans hd hlt⟩

/-- Where the search finds a binding, it binds the dimension, and those before it do not. -/
theorem search_eq_ok (h : es.Ascending) (hi : es.search d = .ok i) :
    ∃ before v after, es = before ++ (d, v) :: after ∧ before.length = i ∧
      ∀ e ∈ before, e.1 < d := by
  obtain ⟨before, ⟨e, v⟩, after, rfl, hlength, hside⟩ := Sorting.search_found (h.inLine d) hi
  obtain rfl : e = d := Nat.compare_eq_eq.mp hside
  refine ⟨before, v, after, rfl, hlength, fun f hf => ?_⟩
  exact (List.pairwise_append.mp (List.pairwise_map.mp h)).2.2 f hf _ (List.mem_cons_self ..)

theorem search_eq_error (h : es.Ascending) (hi : es.search d = .error i) :
    ∃ before after, es = before ++ after ∧ before.length = i ∧ (∀ e ∈ before, e.1 < d) ∧
      ∀ e ∈ after, d < e.1 := by
  obtain ⟨before, after, hes, hlength, hbefore, hafter⟩ := Sorting.search_missed (h.inLine d) hi
  exact ⟨before, after, hes, hlength, fun e he => Nat.compare_eq_lt.mp (hbefore e he),
    fun e he => Nat.compare_eq_gt.mp (hafter e he)⟩

theorem assoc_get?_append (hbefore : ∀ e ∈ before, e.1 < d) :
    Assoc.get? (before ++ after) d = Assoc.get? after d := by
  induction before with
  | nil => rfl
  | cons e before ih =>
    obtain ⟨he, hbefore⟩ := List.forall_mem_cons.mp hbefore
    rw [List.cons_append, Assoc.get?_cons, if_neg (by simpa using Nat.ne_of_lt he), ih hbefore]

theorem place_append (hbefore : ∀ e ∈ before, e.1 < d) :
    Context.place d v (before ++ after) = before ++ Context.place d v after := by
  induction before with
  | nil => rfl
  | cons e before ih =>
    obtain ⟨he, hbefore⟩ := List.forall_mem_cons.mp hbefore
    rw [List.cons_append, Context.place, if_neg (Nat.not_lt_of_lt he), if_neg (Nat.ne_of_gt he),
      ih hbefore, List.cons_append]

theorem place_of_lt (hafter : ∀ e ∈ after, d < e.1) :
    Context.place d v after = (d, v) :: after := by
  cases after with
  | nil => rfl
  | cons e after => rw [Context.place, if_pos (hafter e (List.mem_cons_self ..))]

/-- The search finds what going through all bindings finds. -/
theorem get?_eq (h : es.Ascending) (d : Dim) : es.get? d = Assoc.get? es d := by
  unfold get?
  split
  · rename_i i hi
    obtain ⟨before, v, after, rfl, rfl, hbefore⟩ := search_eq_ok h hi
    rw [assoc_get?_append hbefore, Assoc.get?_cons]
    simp
  · rename_i i hi
    obtain ⟨before, after, rfl, -, hbefore, hafter⟩ := search_eq_error h hi
    rw [assoc_get?_append hbefore, Context.get?_eq_none]
    exact fun e he => by
      obtain ⟨f, hf, rfl⟩ := List.mem_map.mp he
      exact hafter f hf

theorem put_eq (h : es.Ascending) (d : Dim) (v : Value) : es.put d v = Context.place d v es := by
  unfold put
  split
  · rename_i i hi
    obtain ⟨before, w, after, rfl, rfl, hbefore⟩ := search_eq_ok h hi
    rw [place_append hbefore, Context.place, if_neg (Nat.lt_irrefl d), if_pos rfl]
    simp
  · rename_i i hi
    obtain ⟨before, after, rfl, rfl, hbefore, hafter⟩ := search_eq_error h hi
    rw [place_append hbefore, place_of_lt hafter, Sorting.insertIdx_length_append]

end

/-! ## Merging -/

section

variable {es fs : Listing}

theorem mem_dims_merge {x : Dim} (h : x ∈ (merge es fs).map (·.1)) :
    x ∈ es.map (·.1) ∨ x ∈ fs.map (·.1) := by
  fun_induction merge es fs with
  | case1 fs => exact .inr h
  | case2 es => exact .inl h
  | case3 d v es e w fs hlt ih => grind
  | case4 v es d w fs hlt ih => grind
  | case5 d v es e w fs hlt hne ih => grind

theorem Ascending.merge (hes : es.Ascending) (hfs : fs.Ascending) :
    (merge es fs).Ascending := by
  fun_induction Listing.merge es fs with
  | case1 fs => exact hfs
  | case2 es => exact hes
  | case3 d v es e w fs hlt ih =>
    obtain ⟨hd, hes'⟩ := List.pairwise_cons.mp hes
    refine List.pairwise_cons.mpr ⟨fun x hx => ?_, ih hes' hfs⟩
    obtain ⟨he, -⟩ := List.pairwise_cons.mp hfs
    rcases mem_dims_merge hx with hx | hx
    · exact hd x hx
    · rcases List.mem_cons.mp hx with rfl | hx
      · exact hlt
      · exact Nat.lt_trans hlt (he x hx)
  | case4 v es d w fs hlt ih =>
    obtain ⟨hd, hes'⟩ := List.pairwise_cons.mp hes
    obtain ⟨he, hfs'⟩ := List.pairwise_cons.mp hfs
    refine List.pairwise_cons.mpr ⟨fun x hx => ?_, ih hes' hfs'⟩
    exact (mem_dims_merge hx).elim (hd x) (he x)
  | case5 d v es e w fs hlt hne ih =>
    obtain ⟨he, hfs'⟩ := List.pairwise_cons.mp hfs
    refine List.pairwise_cons.mpr ⟨fun x hx => ?_, ih hes hfs'⟩
    obtain ⟨hd, -⟩ := List.pairwise_cons.mp hes
    have hed : e < d := Nat.lt_of_le_of_ne (Nat.le_of_not_lt hlt) (Ne.symm hne)
    rcases mem_dims_merge hx with hx | hx
    · rcases List.mem_cons.mp hx with rfl | hx
      · exact hed
      · exact Nat.lt_trans hed (hd x hx)
    · exact he x hx

/-- After merging, the second listing counts where it binds. -/
theorem assoc_get?_merge (hes : es.Ascending) (hfs : fs.Ascending) (x : Dim) :
    Assoc.get? (merge es fs) x = (Assoc.get? fs x).or (Assoc.get? es x) := by
  fun_induction Listing.merge es fs with
  | case1 fs => rw [Assoc.get?_nil, Option.or_none]
  | case2 es => rfl
  | case3 d v es e w fs hlt ih =>
    rw [Assoc.get?_cons, ih (List.pairwise_cons.mp hes).2 hfs, Assoc.get?_cons _ es]
    by_cases hx : d = x
    · subst hx
      obtain ⟨he, -⟩ := List.pairwise_cons.mp hfs
      have hnone : Assoc.get? ((e, w) :: fs) d = none := Context.get?_eq_none fun y hy => by
        rcases List.mem_cons.mp hy with rfl | hy
        · exact hlt
        · exact Nat.lt_trans hlt (he y hy)
      rw [hnone]
      rfl
    · rw [if_neg (by simpa using hx), if_neg (by simpa using hx)]
  | case4 v es d w fs hlt ih =>
    rw [Assoc.get?_cons, ih (List.pairwise_cons.mp hes).2 (List.pairwise_cons.mp hfs).2,
      Assoc.get?_cons _ fs, Assoc.get?_cons _ es]
    by_cases hx : d = x
    · simp [hx]
    · simp [hx]
  | case5 d v es e w fs hlt hne ih =>
    rw [Assoc.get?_cons, ih hes (List.pairwise_cons.mp hfs).2, Assoc.get?_cons _ fs]
    by_cases hx : e = x
    · simp [hx]
    · simp [hx]

end

/-! ## Listings of contexts -/

variable (k delta : Context) (d : Dim) (v : Value)

theorem get?_entries : Listing.get? k.entries d = k.get? d := get?_eq k.ascending d

theorem put_entries : Listing.put k.entries d v = (k.insert d v).entries := put_eq k.ascending d v

theorem ofPairs_eq (pairs : List (Dim × Value)) :
    ofPairs pairs = (Context.ofList pairs).entries := by
  change pairs.foldl (fun es p => put es p.1 p.2) Context.empty.entries = _
  exact List.foldl_hom Context.entries fun k p => put_entries k p.1 p.2

theorem merge_entries : merge k.entries delta.entries = (k.override delta).entries := by
  let merged : Context :=
    ⟨merge k.entries delta.entries, Ascending.merge k.ascending delta.ascending⟩
  have hmerged : merged = k.override delta := Context.eq_of_lookups fun d => by
    rw [Context.get?_override]
    exact assoc_get?_merge k.ascending delta.ascending d
  exact congrArg Context.entries hmerged

/-- The shortcuts for empty listings give what merging them would give. -/
theorem override_entries : override k.entries delta.entries = (k.override delta).entries := by
  unfold override
  split
  · rename_i hdelta
    rw [Context.override_of_isEmpty hdelta]
  · split
    · rename_i hk
      rw [← merge_entries, List.isEmpty_iff.mp hk, merge]
    · exact merge_entries k delta

theorem bind_entries : bind k.entries d v = (k.insert d v).entries := by
  rw [bind, ofPairs_eq, override_entries]
  rfl

theorem push_entries (cs : Changes) (change : Context) :
    push (cs.steps.map (·.entries)) change.entries = (cs.add change).steps.map (·.entries) := by
  unfold push Changes.add
  split
  · rw [if_pos ‹_›]
  · rw [if_neg ‹_›, List.map_append, List.map_singleton]

theorem apply_entries (cs : Changes) (base : Context) :
    apply (cs.steps.map (·.entries)) base.entries = (cs.apply base).entries := by
  rw [apply, List.foldl_map]
  exact List.foldl_hom Context.entries override_entries

theorem pushAll_entries (changes : List Context) :
    (changes.map (·.entries)).foldl push [] =
      (Changes.ofList changes).steps.map (·.entries) := by
  let listings (cs : Changes) : List Listing := cs.steps.map (·.entries)
  have hfold : changes.foldl (fun es change => push es change.entries) (listings .empty) =
      listings (changes.foldl Changes.add .empty) := List.foldl_hom listings push_entries
  rw [List.foldl_map]
  exact hfold

end Listing

/-! ## Overriding by merging -/

/-- Overriding makes contexts a monoid in which every element is idempotent, and changes act on
contexts by it; and it is what merging does, the shortcuts for empty listings included. -/
theorem Context.overriding_acts (a b c base : Context) (d : Dim) (v : Value)
    (changes : List Context) :
    let delta := Changes.ofList changes
    let pushed := (changes.map (·.entries)).foldl Listing.push []
    (∀ e, (a.override b).get? e = if b.contains e then b.get? e else a.get? e) ∧
    (a.override b).override c = a.override (b.override c) ∧ a.override a = a ∧
    empty.override a = a ∧ a.override empty = a ∧
    base.override delta.merged = delta.apply base ∧
    delta.apply base = changes.foldl override base ∧
    (∀ e, (a.insert d v).get? e = if e = d then some v else a.get? e) ∧
    Listing.override a.entries b.entries = (a.override b).entries ∧
    Listing.bind a.entries d v = (a.insert d v).entries ∧
    Listing.apply pushed base.entries = (delta.apply base).entries ∧
    Listing.apply pushed [] = delta.merged.entries := by
  intro delta pushed
  have hpushed : pushed = delta.steps.map (·.entries) := Listing.pushAll_entries changes
  exact ⟨get?_override_eq_ite a b, override_assoc a b c, override_self a, empty_override a,
    override_empty a, (delta.apply_eq base).symm, Changes.apply_ofList changes base,
    fun e => get?_insert a d e v, Listing.override_entries a b, Listing.bind_entries a d v,
    hpushed ▸ Listing.apply_entries delta base, hpushed ▸ Listing.apply_entries delta .empty⟩

end Intensional
