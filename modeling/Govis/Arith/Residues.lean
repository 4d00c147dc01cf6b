import Mathlib.NumberTheory.LegendreSymbol.JacobiSymbol

namespace Arith

/-!
# Quadratic residues modulo a Blum integer

A Blum integer is the product of two primes that are 3 modulo 4.

* `pow_half_modEq_one_iff` — Euler's criterion, for integers;
* `jacobiSym_neg` — negation flips the symbol at a number that is 3 modulo 4;
* `jacobiSym_mul_eq_one_iff` — so at a product of two of them the symbol is 1 if it is 1 at both,
  or if it is so for the negative.
-/

/-- **Euler's criterion.** -/
theorem pow_half_modEq_one_iff {p : ℕ} (hp : p.Prime) (hodd : p % 2 = 1) (a : ℤ) :
    a ^ ((p - 1) / 2) ≡ 1 [ZMOD p] ↔ jacobiSym a p = 1 := by
  have : Fact p.Prime := ⟨hp⟩
  have : Fact (2 < p) := ⟨by have := hp.two_le; omega⟩
  have hhalf : (p - 1) / 2 = p / 2 := by omega
  rw [← jacobiSym.legendreSym.to_jacobiSym]
  have hpow : a ^ ((p - 1) / 2) ≡ 1 [ZMOD p] ↔ ((legendreSym p a : ℤ) : ZMod p) = 1 := by
    rw [legendreSym.eq_pow, hhalf, ← ZMod.intCast_eq_intCast_iff]
    push_cast
    rfl
  rw [hpow]
  constructor
  · intro h
    -- 0 and -1 are not 1 modulo an odd prime
    by_cases ha : (a : ZMod p) = 0
    · rw [(legendreSym.eq_zero_iff p a).mpr ha, Int.cast_zero] at h
      exact absurd h zero_ne_one
    · rcases legendreSym.eq_one_or_neg_one p ha with h1 | h1
      · exact h1
      · rw [h1, Int.cast_neg, Int.cast_one] at h
        exact absurd h ZMod.neg_one_ne_one
  · intro h
    rw [h, Int.cast_one]

/-- Negation flips the symbol at a number that is 3 modulo 4. -/
theorem jacobiSym_neg {m : ℕ} (hm : m % 4 = 3) (a : ℤ) : jacobiSym (-a) m = -jacobiSym a m := by
  have hodd : Odd m := Nat.odd_iff.mpr (by omega)
  rw [jacobiSym.neg a hodd, ZMod.χ₄_nat_three_mod_four hm, neg_one_mul]

/-- **The symbol at a product.** -/
theorem jacobiSym_mul_eq_one_iff {p q : ℕ} (hp : p % 4 = 3) (hq : q % 4 = 3) (a : ℤ) :
    jacobiSym a (p * q) = 1 ↔ (jacobiSym a p = 1 ∧ jacobiSym a q = 1) ∨
      (jacobiSym (-a) p = 1 ∧ jacobiSym (-a) q = 1) := by
  have hp0 : p ≠ 0 := by omega
  have hq0 : q ≠ 0 := by omega
  rw [jacobiSym.mul_right' a hp0 hq0, jacobiSym_neg hp, jacobiSym_neg hq,
    Int.mul_eq_one_iff_eq_one_or_neg_one, neg_eq_iff_eq_neg, neg_eq_iff_eq_neg]

end Arith
