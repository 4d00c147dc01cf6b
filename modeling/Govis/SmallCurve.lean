import Govis.Core
import Govis.Paillier
import Mathlib.Tactic.NormNum.Prime

namespace Govis

/-!
# A small curve and a small keypair

The additive group of order `65537`, with made-up affine coordinates that satisfy what
`Curve` asks for: negation keeps the first coordinate and reflects the second one.  With
`lastBytes` in the place of the hash it makes the definitions of the development computable on
concrete inputs.  `smallKeypair` has a modulus above the square of this order.
-/

/-- The group of order `65537` as a curve. -/
def smallCurve : Curve where
  q := 65537
  q_prime := by norm_num
  two_pow_16_lt := by norm_num
  lt_two_pow_256 := by norm_num
  Point := ZMod 65537
  generator := 1
  generator_ne_zero := by decide
  dlog_exists P := ⟨P, by rw [smul_eq_mul, mul_one]⟩
  p := 65537
  p_odd := by decide
  p_le := by norm_num
  coords P := if P = 0 then none else some (min P.val (65537 - P.val), P.val)
  coords_eq_none P := by simp
  coords_lt P x y h := by
    have hP := ZMod.val_lt P
    split at h
    · cases h
    · cases h
      omega
  coords_injective P Q h := by
    simp only at h
    by_cases hP : P = 0
    · by_cases hQ : Q = 0
      · rw [hP, hQ]
      · rw [if_pos hP, if_neg hQ] at h
        cases h
    · by_cases hQ : Q = 0
      · rw [if_neg hP, if_pos hQ] at h
        cases h
      · rw [if_neg hP, if_neg hQ, Option.some.injEq, Prod.mk.injEq] at h
        exact ZMod.val_injective _ h.2
  coords_neg P x y h := by
    have hP := ZMod.val_lt P
    split at h
    · cases h
    · rename_i h0
      cases h
      have hne : P.val ≠ 0 := fun hv => h0 ((ZMod.val_eq_zero P).mp hv)
      rw [if_neg (neg_ne_zero.mpr h0), ZMod.neg_val, if_neg h0]
      congr 2
      omega
  same_x P Q x y y' hP hQ := by
    split at hP <;> split at hQ
    · cases hP
    · cases hP
    · cases hQ
    · rename_i hP0 hQ0
      simp only [Option.some.injEq, Prod.mk.injEq] at hP hQ
      have hPlt := ZMod.val_lt P
      have hQlt := ZMod.val_lt Q
      have hcase : Q.val = P.val ∨ Q.val = 65537 - P.val := by omega
      rcases hcase with h | h
      · exact .inl (ZMod.val_injective _ h)
      · refine .inr (ZMod.val_injective _ ?_)
        rw [h, ZMod.neg_val, if_neg hP0]

/-- The last 32 bytes of the input, in reverse. -/
def lastBytes : Hash := fun l => Vector.ofFn fun k => l.reverse.getD k 0

/-- A constant hash, whose challenge is 1. -/
def oneHash : Hash := fun _ => Vector.ofFn fun k => if k = 31 then 1 else 0

/-- A Paillier keypair for the primes `65539` and `65543`. -/
def smallKeypair : PaillierKeypair where
  pk := ⟨65539 * 65543, 65539 * 65543 * (65539 * 65543), 65539 * 65543 + 1⟩
  sk := ⟨Nat.lcm (65539 - 1) (65543 - 1), 3722855509⟩

/-- Three parties fit the index type. -/
theorem three_lt_indices : 3 < 2 ^ 16 := by decide

/-- Key generation returns the small keypair when it draws its two primes. -/
theorem generateKeypairExt_smallKeypair :
    generateKeypairExt [65539, 65543] = some (65539, 65543, smallKeypair) := by
  have hp : Nat.Prime 65539 := by norm_num
  have hq : Nat.Prime 65543 := by norm_num
  have hlcm : Nat.lcm (65539 - 1) (65543 - 1) = 2147745798 := by norm_num
  have hmu : modinv (((2147745798 : ℕ) % (65539 * 65543 : ℕ) : ℤ)) (65539 * 65543 : ℕ) =
      3722855509 := by decide +kernel
  have hpair : keypairOf 65539 65543 = some smallKeypair := by
    rw [keypairOf_eq hp hq, smallKeypair]
    simp only [hlcm, hmu]
    rfl
  rw [generateKeypairExt, if_neg (by norm_num), if_neg (by norm_num), if_neg (by norm_num), hpair]

theorem generated_smallKeypair : Generated 65539 65543 smallKeypair :=
  ⟨[65539, 65543], by norm_num, generateKeypairExt_smallKeypair⟩

/-- The first draw of a number coprime to the modulus. -/
theorem coprime_of_genBigintRange_zero {n rho : ℤ} (h : genBigintRange 1 n 0 = some rho) :
    IsCoprime rho n := by
  unfold genBigintRange at h
  split at h
  · cases h
    rw [Nat.cast_zero, Int.zero_emod, add_zero]
    exact isCoprime_one_left
  · cases h

end Govis
