import Intensional.Proofs.Context.Agreement

/-!
# Overriding

Contexts are a monoid under overriding, with the empty context as the neutral element, and every
context overrides itself by itself. All of this is read off the lookups: an override answers with
the changes where they bind, and a context is known by its lookups.

So it makes no difference whether a base is overridden by one change after the other or by all of
them merged (`Changes.apply_eq`), and empty changes need not be kept.
-/

namespace Intensional

/-! ## The laws of a monoid -/

namespace Context

theorem override_assoc (k l m : Context) :
    (k.override l).override m = k.override (l.override m) :=
  eq_of_lookups fun d => by
    rw [get?_override, get?_override, get?_override, get?_override, Option.or_assoc]

instance : Std.Associative override := ⟨override_assoc⟩

theorem override_of_isEmpty {k l : Context} (h : l.isEmpty = true) : k.override l = k := by
  rw [override, List.isEmpty_iff.mp h]
  rfl

theorem override_empty (k : Context) : k.override .empty = k := override_of_isEmpty rfl

theorem empty_override (k : Context) : empty.override k = k :=
  eq_of_lookups fun d => by rw [get?_override, get?_empty, Option.or_none]

theorem override_self (k : Context) : k.override k = k :=
  eq_of_lookups fun d => by rw [get?_override, Option.or_self]

/-- An override is the changes where they bind, and elsewhere what it was. -/
theorem get?_override_eq_ite (k delta : Context) (d : Dim) :
    (k.override delta).get? d = if delta.contains d then delta.get? d else k.get? d := by
  rw [get?_override, contains]
  cases delta.get? d <;> rfl

end Context

/-! ## Changes one after the other -/

namespace Changes

theorem apply_eq (cs : Changes) (base : Context) : cs.apply base = base.override cs.merged := by
  have hsteps : cs.steps.foldl Context.override (base.override .empty) =
      base.override (cs.steps.foldl Context.override .empty) := List.foldl_assoc
  rwa [Context.override_empty] at hsteps

theorem apply_add (cs : Changes) (change base : Context) :
    (cs.add change).apply base = (cs.apply base).override change := by
  unfold add
  split
  · rename_i hempty
    rw [Context.override_of_isEmpty hempty]
  · exact List.foldl_append

/-- A list of changes is applied one by one; the empty ones, which are not kept, change nothing. -/
theorem apply_ofList (changes : List Context) (base : Context) :
    (ofList changes).apply base = changes.foldl Context.override base :=
  (List.foldl_hom (fun cs : Changes => cs.apply base) fun cs change =>
    (apply_add cs change base).symm).symm

end Changes

end Intensional
