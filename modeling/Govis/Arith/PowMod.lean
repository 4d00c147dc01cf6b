import Mathlib.Data.Int.ModEq
import Mathlib.Tactic.Ring

namespace Arith

/-!
# Modular exponentiation

* `powMod` — square-and-multiply, so that large exponents can be evaluated;
* `modpow` — exponentiation as arbitrary-precision integer libraries offer it: it panics on a
  negative exponent or a zero modulus, and its result has the sign of the modulus.
-/

/-- `a ^ e` modulo `m`, over the `k` low bits of `e`. -/
def powMod (m a : ℤ) : ℕ → ℕ → ℤ
  | 0, _ => 1 % m
  | k + 1, e =>
    let half := powMod m a k (e / 2)
    let square := half * half % m
    if e % 2 = 1 then square * a % m else square

/-- **Square-and-multiply** computes the power. -/
theorem powMod_eq (m a : ℤ) {k e : ℕ} (he : e < 2 ^ k) : powMod m a k e = a ^ e % m := by
  induction k generalizing e with
  | zero =>
    obtain rfl : e = 0 := by simpa using he
    rw [powMod, pow_zero]
  | succ k ih =>
    have hhalf := ih (show e / 2 < 2 ^ k by rw [pow_succ] at he; omega)
    have hsquare : a ^ (e / 2) % m * (a ^ (e / 2) % m) % m = a ^ (2 * (e / 2)) % m := by
      rw [← Int.mul_emod, two_mul, pow_add]
    simp only [powMod, hhalf, hsquare]
    split
    · rw [Int.mul_emod, Int.emod_emod_of_dvd _ (dvd_refl m), ← Int.mul_emod, ← pow_succ]
      congr 2
      omega
    · congr 2
      omega

/-- The power of `b` by `e` modulo `m`; none for a panic. -/
def modpow (b e m : ℤ) : Option ℤ :=
  if e < 0 ∨ m = 0 then none else some ((powMod m b (Nat.log2 e.toNat + 1) e.toNat).fmod m)

theorem modpow_natCast (b : ℤ) (e : ℕ) {m : ℤ} (hm : 0 < m) : modpow b e m = some (b ^ e % m) := by
  have hsize : e < 2 ^ (Nat.log2 e + 1) := Nat.lt_log2_self
  rw [modpow, if_neg (by omega), Int.toNat_natCast, powMod_eq m b hsize,
    Int.fmod_eq_emod_of_nonneg _ (le_of_lt hm), Int.emod_emod_of_dvd _ (dvd_refl m)]

/-- With a non-negative exponent and a positive modulus the power is reduced. -/
theorem modpow_of_nonneg (b : ℤ) {e m : ℤ} (he : 0 ≤ e) (hm : 0 < m) :
    modpow b e m = some (b ^ e.toNat % m) := by
  obtain ⟨k, rfl⟩ := Int.eq_ofNat_of_zero_le he
  exact modpow_natCast b k hm

end Arith
