import Intensional.Equation.Group

/-!
# Choice of an equation

Of several equations that apply, those are the most specific than whose guards no other guard is
narrower. If there is exactly one, it is chosen; time and order do not break a tie.
-/

namespace Intensional

/-- Which equation defines a name at a context. -/
inductive Choice where
  | nothing
  | only (e : Equation)
  /-- Several apply, and not exactly one of them is the most specific. -/
  | tied (ids : List Equation.Id)

namespace Choice

/-- The equations that no other one is more specific than. -/
def mostSpecific (es : List Equation) : List Equation :=
  es.filter fun e => !es.any fun f => f.guard.narrower e.guard

/-- Choose among the equations that apply, given in the order of their group. -/
def among : List Equation → Choice
  | [] => .nothing
  | [e] => .only e
  | es =>
    match mostSpecific es with
    | [e] => .only e
    | best => .tied (best.map (·.id))

theorem mem_of_only {es : List Equation} {e : Equation} (h : among es = .only e) :
    e ∈ es := by
  unfold among at h
  split at h
  · cases h
  · cases h
    exact List.mem_singleton.mpr rfl
  · split at h
    · rename_i hbest
      cases h
      have : e ∈ mostSpecific es := hbest ▸ List.mem_singleton.mpr rfl
      exact (List.mem_filter.mp this).1
    · cases h

end Choice
end Intensional
