/-!
# Special values

Undefined names, ambiguous definitions, cycles and misused operands do not abort an
evaluation: they answer a special value, which most operations pass on.
-/

namespace Intensional

/-- An error or a sentinel that travels as an ordinary value. -/
inductive Special where
  | error
  | access
  | typeError
  /-- A dimension has no value in the context. -/
  | dimension
  | arith
  /-- No equation applies. -/
  | undef
  | const
  /-- Several equations apply, and none is the most specific. -/
  | multiDef
  /-- A name depends on itself at the same context. -/
  | loop
deriving DecidableEq

namespace Special

def name : Special → String
  | .error => "error"
  | .access => "access"
  | .typeError => "typeerror"
  | .dimension => "dimension"
  | .arith => "arith"
  | .undef => "undef"
  | .const => "const"
  | .multiDef => "multidef"
  | .loop => "loop"

def rank : Special → Nat
  | .error => 0
  | .access => 1
  | .typeError => 2
  | .dimension => 3
  | .arith => 4
  | .undef => 5
  | .const => 6
  | .multiDef => 7
  | .loop => 8

theorem rank_inj {a b : Special} (h : a.rank = b.rank) : a = b := by
  cases a <;> cases b <;> first | rfl | cases h

def all : List Special :=
  [.error, .access, .typeError, .dimension, .arith, .undef, .const, .multiDef, .loop]

def ofName? (name : String) : Option Special := all.find? (·.name == name)

def text (s : Special) : String := "special<" ++ s.name ++ ">"

end Special
end Intensional
