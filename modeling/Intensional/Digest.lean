/-!
# Digests

A digest is a number computed from a key, one number for all keys that are equal. It need not
tell different keys apart, but a search that goes by the digits of the digest is short where it
does. Digests are computed by arithmetic below `2 ^ 63`, modulo a prime, so that every digit
depends on all of the key.
-/

namespace Intensional

class Digest (κ : Type) where
  digest : κ → Nat

export Digest (digest)

class LawfulDigest (κ : Type) [BEq κ] [Digest κ] : Prop where
  digest_congr {a b : κ} : (a == b) = true → digest a = digest b

export LawfulDigest (digest_congr)

namespace Digest

/-- The digest of what has the digest `h`, with one more number. -/
def mix (h x : Nat) : Nat := (h + x % 2147483647) * 48271 % 2147483647

def ofNumbers (xs : List Nat) : Nat := xs.foldl mix 1

end Digest

instance (priority := low) {κ : Type} [BEq κ] [LawfulBEq κ] [Digest κ] : LawfulDigest κ where
  digest_congr h := congrArg digest (eq_of_beq h)

instance : Digest Nat := ⟨id⟩

instance : Digest String := ⟨fun s => Digest.ofNumbers (s.toList.map Char.toNat)⟩

variable {α β : Type}

instance [Digest α] : Digest (Option α) := ⟨fun o => o.elim 0 digest⟩

instance [Digest α] [Digest β] : Digest (α × β) :=
  ⟨fun p => Digest.mix (digest p.1) (digest p.2)⟩

instance [BEq α] [Digest α] [LawfulDigest α] : LawfulDigest (Option α) where
  digest_congr {a b} h := by
    cases a <;> cases b <;> try cases h
    · rfl
    · exact digest_congr (κ := α) h

instance [BEq α] [BEq β] [Digest α] [Digest β] [LawfulDigest α] [LawfulDigest β] :
    LawfulDigest (α × β) where
  digest_congr {a b} h := by
    obtain ⟨h₁, h₂⟩ := Bool.and_eq_true_iff.mp (show (a.1 == b.1 && a.2 == b.2) = true from h)
    change Digest.mix _ _ = Digest.mix _ _
    rw [digest_congr h₁, digest_congr h₂]

end Intensional
