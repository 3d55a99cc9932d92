/-!
# Ranges of integers

A range has an inclusive lower and an inclusive upper bound, either of which may be missing.
It is read as a set of integers; a lower bound above the upper one makes it empty.
-/

namespace Intensional

/-- The integers from `lower` to `upper`; a missing bound does not bound. -/
structure IntRange where
  lower : Option Int64
  upper : Option Int64
deriving DecidableEq

namespace IntRange

def contains (r : IntRange) (n : Int64) : Bool :=
  r.lower.all (fun lo => decide (lo ≤ n)) && r.upper.all (fun hi => decide (n ≤ hi))

def isEmpty (r : IntRange) : Bool :=
  match r.lower, r.upper with
  | some lo, some hi => decide (hi < lo)
  | _, _ => false

def isSubset (r s : IntRange) : Bool :=
  r.isEmpty ||
    (s.lower.all (fun lo => r.lower.any fun lo' => decide (lo ≤ lo')) &&
      s.upper.all (fun hi => r.upper.any fun hi' => decide (hi' ≤ hi)))

/-- The number of integers in the range, where there is one and it fits in 64 bits. -/
def size? (r : IntRange) : Option Nat :=
  match r.lower, r.upper with
  | some lo, some hi =>
    let n := (hi.toInt - lo.toInt + 1).toNat
    if n < UInt64.size then some n else none
  | _, _ => none

def only? (r : IntRange) : Option Int64 :=
  match r.lower, r.upper with
  | some lo, some hi => if lo = hi then some lo else none
  | _, _ => none

/-- Ranges are ordered by lower, then by upper bound; a missing bound comes first. -/
def compare (r s : IntRange) : Ordering :=
  (Ord.compare r.lower s.lower).then (Ord.compare r.upper s.upper)

def boundText : Option Int64 → String
  | none => ""
  | some n => toString n.toInt

def text (r : IntRange) : String := "[" ++ boundText r.lower ++ ".." ++ boundText r.upper ++ "]"

/-! ## Membership -/

theorem contains_iff {r : IntRange} {n : Int64} :
    r.contains n = true ↔
      (∀ lo, r.lower = some lo → lo ≤ n) ∧ (∀ hi, r.upper = some hi → n ≤ hi) := by
  obtain ⟨lower, upper⟩ := r
  cases lower <;> cases upper <;> simp [contains]

end IntRange
end Intensional
