import Mathlib.Data.List.Nodup
import Intensional.Proofs.Context.Listing

/-!
# Contexts are canonical

A context may be made from pairs in any order, by overriding one context by another, by binding a
dimension, by restriction, and by applying or merging changes. A `Recipe` is any way of doing so.

A recipe can be followed on contexts and on listings. The listings have no promise of order to
keep, and still they are the bindings of the contexts (`Recipe.listing_eq`): each step finds the
listings in order and leaves its own in order. Hence the dimensions are strictly ascending
whatever the recipe, lookups by halving miss nothing, and two contexts are equal exactly if all
lookups in them agree, however each of them was made.
-/

namespace Intensional

/-! ## Ways of making a context -/

mutual

/-- A way of making a context. -/
inductive Recipe where
  | ofList (pairs : List (Dim × Value))
  | override (k delta : Recipe)
  | insert (k : Recipe) (d : Dim) (v : Value)
  | restrict (k : Recipe) (dims : List Dim)
  | apply (changes : Recipes) (base : Recipe)
  | merged (changes : Recipes)

/-- A way of making changes, the last one at the end. -/
inductive Recipes where
  | empty
  | add (changes : Recipes) (change : Recipe)

end

mutual

def Recipe.context : Recipe → Context
  | .ofList pairs => .ofList pairs
  | .override k delta => k.context.override delta.context
  | .insert k d v => k.context.insert d v
  | .restrict k dims => k.context.restrict dims
  | .apply changes base => changes.changes.apply base.context
  | .merged changes => changes.changes.merged

def Recipes.changes : Recipes → Changes
  | .empty => .empty
  | .add changes change => changes.changes.add change.context

end

mutual

def Recipe.listing : Recipe → Listing
  | .ofList pairs => Listing.ofPairs pairs
  | .override k delta => k.listing.override delta.listing
  | .insert k d v => k.listing.bind d v
  | .restrict k dims => k.listing.restrict dims
  | .apply changes base => Listing.apply changes.listings base.listing
  | .merged changes => Listing.apply changes.listings []

def Recipes.listings : Recipes → List Listing
  | .empty => []
  | .add changes change => Listing.push changes.listings change.listing

end

mutual

/-- The listing that a recipe makes has the bindings of the context that it makes. -/
theorem Recipe.listing_eq : ∀ r : Recipe, r.listing = r.context.entries
  | .ofList pairs => Listing.ofPairs_eq pairs
  | .override k delta => by
    rw [Recipe.listing, k.listing_eq, delta.listing_eq, Listing.override_entries, Recipe.context]
  | .insert k d v => by rw [Recipe.listing, k.listing_eq, Listing.bind_entries, Recipe.context]
  | .restrict k dims => by
    rw [Recipe.listing, k.listing_eq, Recipe.context]
    rfl
  | .apply changes base => by
    rw [Recipe.listing, changes.listings_eq, base.listing_eq, Listing.apply_entries, Recipe.context]
  | .merged changes => by
    rw [Recipe.listing, changes.listings_eq, Recipe.context]
    exact Listing.apply_entries changes.changes .empty

theorem Recipes.listings_eq : ∀ rs : Recipes, rs.listings = rs.changes.steps.map (·.entries)
  | .empty => rfl
  | .add changes change => by
    rw [Recipes.listings, changes.listings_eq, change.listing_eq, Listing.push_entries,
      Recipes.changes]

end

/-! ## Lookups -/

namespace Context

variable {k l : Context} {d : Dim} {v : Value}

/-- Of several pairs with one dimension the last one counts. -/
theorem get?_ofList (pairs : List (Dim × Value)) (d : Dim) :
    (ofList pairs).get? d = (pairs.reverse.find? fun p => p.1 == d).map (·.2) := by
  have go : ∀ (pairs : List (Dim × Value)) (k : Context), (k.insertAll pairs).get? d =
      ((pairs.reverse.find? fun p => p.1 == d).map (·.2)).or (k.get? d) := by
    intro pairs
    induction pairs with
    | nil => exact fun _ => rfl
    | cons p pairs ih =>
      intro k
      have hstep : (k.insertAll (p :: pairs)).get? d =
          ((k.insert p.1 p.2).insertAll pairs).get? d := rfl
      rw [hstep, ih, get?_insert, List.reverse_cons, List.find?_append]
      cases pairs.reverse.find? fun p => p.1 == d with
      | some q => rfl
      | none =>
        by_cases hd : p.1 = d
        · simp [hd]
        · simp [hd, Ne.symm hd]
  rw [ofList, go, get?_empty, Option.or_none]

theorem get?_ofList_of_nodup {pairs : List (Dim × Value)} (h : (pairs.map (·.1)).Nodup) :
    (ofList pairs).get? d = some v ↔ (d, v) ∈ pairs := by
  rw [get?_ofList, Option.map_eq_some_iff]
  constructor
  · rintro ⟨⟨e, w⟩, hfind, rfl⟩
    obtain rfl : e = d := by simpa using List.find?_some hfind
    exact List.mem_reverse.mp (List.mem_of_find?_eq_some hfind)
  · intro hmem
    have hsome : (pairs.reverse.find? fun p => p.1 == d).isSome = true :=
      List.find?_isSome.mpr ⟨(d, v), List.mem_reverse.mpr hmem, BEq.refl d⟩
    obtain ⟨p, hfind⟩ := Option.isSome_iff_exists.mp hsome
    have hp : p ∈ pairs := List.mem_reverse.mp (List.mem_of_find?_eq_some hfind)
    obtain rfl := List.inj_on_of_nodup_map h hp hmem (by simpa using List.find?_some hfind)
    exact ⟨(d, v), hfind, rfl⟩

/-- Pairs with different dimensions make one context in every order. -/
theorem ofList_perm {pairs pairs' : List (Dim × Value)} (hperm : pairs.Perm pairs')
    (h : (pairs.map (·.1)).Nodup) : ofList pairs = ofList pairs' :=
  eq_of_lookups fun d => Option.ext fun v => by
    rw [get?_ofList_of_nodup h, get?_ofList_of_nodup ((hperm.map (·.1)).nodup h), hperm.mem_iff]

theorem beq_iff_lookups : (k == l) = true ↔ ∀ d, (k.get? d == l.get? d) = true := by
  have hrel : ∀ o o' : Option Value, (o == o') = true ↔ Option.Rel Likeness.equality.same o o' := by
    intro o o'
    cases o <;> cases o' <;> simp [Likeness.equality]
  simp only [hrel]
  exact ⟨fun h d => Likeness.agree_of_beq h (fun _ => True) d trivial,
    fun h => Likeness.Agree.beq (L := .equality) fun d _ => h d⟩

end Context

/-! ## The laws -/

/-- Whatever the recipe, the bindings are in strict order, lookups by halving find what is bound,
and contexts are equal exactly if they answer all lookups alike. -/
theorem contexts_are_canonical (r s : Recipe) (pairs pairs' : List (Dim × Value)) :
    r.listing = r.context.entries ∧ (r.listing.map (·.1)).Pairwise (· < ·) ∧
    (∀ d, r.listing.get? d = r.context.get? d) ∧
    (∀ d, (Context.ofList pairs).get? d = (pairs.reverse.find? fun p => p.1 == d).map (·.2)) ∧
    (∀ dims d, (r.context.restrict dims).get? d = if d ∈ dims then r.context.get? d else none) ∧
    ((r.context == s.context) = true ↔ ∀ d, (r.context.get? d == s.context.get? d) = true) ∧
    (pairs.Perm pairs' → (pairs.map (·.1)).Nodup → Context.ofList pairs = .ofList pairs') := by
  refine ⟨r.listing_eq, ?_, fun d => ?_, Context.get?_ofList pairs, fun dims d => ?_,
    Context.beq_iff_lookups, Context.ofList_perm⟩
  · rw [r.listing_eq]
    exact r.context.ascending
  · rw [r.listing_eq, Listing.get?_entries]
  · simp only [Context.get?_restrict, List.contains_iff_mem]

/-- Three pairs in two orders. The context that they make is also the one that a change of two
others, restricted to what it has, makes of a base. -/
theorem contexts_are_canonical_reordered :
    let pairs : List (Dim × Value) := [(9, .int 3), (7, .int 1), (8, .bool true)]
    let pairs' : List (Dim × Value) := [(7, .int 1), (8, .bool true), (9, .int 3)]
    let changes : Recipes := .add (.add .empty (.ofList [(8, .int 4), (7, .int 1)]))
      (.ofList [(8, .bool true)])
    let r : Recipe := .restrict (.apply changes (.ofList [(9, .int 3), (2, .int 0)])) [9, 7, 8]
    pairs.Perm pairs' ∧ (pairs.map (·.1)).Nodup ∧ Context.ofList pairs = .ofList pairs' ∧
      (r.context == (Recipe.ofList pairs).context) = true := by
  intro pairs pairs' changes r
  have hperm : pairs.Perm pairs' := (List.perm_append_singleton (9, Value.int 3) _).symm
  have hnodup : (pairs.map (·.1)).Nodup := by decide
  obtain ⟨-, -, -, -, -, -, hreorder⟩ := contexts_are_canonical r (.ofList pairs) pairs pairs'
  exact ⟨hperm, hnodup, hreorder hperm hnodup, rfl⟩

end Intensional
