import Govis.PaillierZkComplete
import Mathlib.Data.Nat.Size
import Mathlib.NumberTheory.LucasLehmer

namespace Govis

open Arith Bytes

/-!
# What the bounds of the range and multiplication proofs exclude

The verifiers compare the response with a bound that counts the bits of the modulus, besides those
of the claimed bound.

* `verifyRange_rejects`, `verifyMul_rejects` — from that bound on, plaintexts and scalars are
  rejected; it lies above the modulus;
* `largeKey` — a key of 1128 bits;
* `proofBounds_exclude_iff` — **below the modulus nothing is excluded**: the honest proof is
  accepted whatever the plaintext or the scalar.
-/

variable {H : Hash} {pk : PaillierPublicKey} {sid : List UInt8}

/-! ### Above the modulus -/

/-- A response to a non-zero challenge is no smaller than the witness. -/
theorem le_response {alpha e : ℤ} (halpha : 0 ≤ alpha) (he : 0 ≤ e) (hne : e ≠ 0) (m : ℕ) :
    (m : ℤ) ≤ alpha + e * m := by
  have hm : 1 * (m : ℤ) ≤ e * m :=
    mul_le_mul_of_nonneg_right (by omega) (Int.natCast_nonneg m)
  omega

theorem challenge_nonneg (H : Hash) (input : List UInt8) : 0 ≤ challenge H input :=
  Int.natCast_nonneg _

/-- The draw of a mask. -/
theorem genBigintRange_nonneg {hi x : ℤ} {u : ℕ} (h : genBigintRange 0 hi u = some x) : 0 ≤ x := by
  unfold genBigintRange at h
  split at h
  · cases h
    rw [zero_add]
    exact Int.emod_nonneg _ (by omega)
  · cases h

/-- What a range proof responds. -/
theorem proveRange_z {c m rho : ℤ} {ell : ℕ} {draws : ProofDraws ℕ} {proof : RangeProof}
    (h : proveRange H pk c m rho ell sid draws = some proof) :
    ∃ alpha : ℤ, 0 ≤ alpha ∧
      proof.z = alpha + rangeChallenge H sid pk.n pk.g ell c proof.cAlpha * m := by
  simp only [proveRange, Option.bind_eq_bind, Option.bind_eq_some_iff, Option.pure_def] at h
  obtain ⟨alpha, halpha, gamma, -, cAlpha, -, s, -, hproof⟩ := h
  cases hproof
  exact ⟨alpha, genBigintRange_nonneg halpha, rfl⟩

/-- What a multiplication proof responds. -/
theorem proveMul_z {cIn cOut scalar rhoOut : ℤ} {bits : ℕ} {draws : ProofDraws ℕ}
    {proof : MulProof} (h : proveMul H pk cIn cOut scalar rhoOut bits sid draws = some proof) :
    ∃ t : ℤ, 0 ≤ t ∧
      proof.z = t + mulChallenge H sid pk.n pk.g cIn cOut proof.cT * scalar := by
  simp only [proveMul, Option.bind_eq_bind, Option.bind_eq_some_iff, Option.pure_def] at h
  obtain ⟨t, ht, rhoT, -, cInT, -, cT, -, s, -, hproof⟩ := h
  cases hproof
  exact ⟨t, genBigintRange_nonneg ht, rfl⟩

/-- **Range proofs exclude** plaintexts from the bound on, under a non-zero challenge. -/
theorem verifyRange_rejects {c rho : ℤ} {m ell : ℕ} {draws : ProofDraws ℕ} {proof : RangeProof}
    (h : proveRange H pk c m rho ell sid draws = some proof)
    (he : rangeChallenge H sid pk.n pk.g ell c proof.cAlpha ≠ 0)
    (hm : 2 ^ (ell + 256 + pk.n.size + 1) ≤ m) :
    verifyRange H pk c ell sid proof = some false := by
  obtain ⟨alpha, halpha, hz⟩ := proveRange_z h
  have hle := le_response halpha (challenge_nonneg H _) he m
  have hbound : (2 : ℤ) ^ (ell + 256 + pk.n.size + 1) ≤ m := by exact_mod_cast hm
  exact if_pos (.inl (hz ▸ le_trans hbound hle))

/-- **Multiplication proofs exclude** scalars from the bound on, under a non-zero challenge. -/
theorem verifyMul_rejects {cIn cOut rhoOut : ℤ} {scalar bits : ℕ} {draws : ProofDraws ℕ}
    {proof : MulProof} (h : proveMul H pk cIn cOut scalar rhoOut bits sid draws = some proof)
    (he : mulChallenge H sid pk.n pk.g cIn cOut proof.cT ≠ 0)
    (hscalar : 2 ^ (bits + 256 + pk.n.size + 1) ≤ scalar) :
    verifyMul H pk cIn cOut bits sid proof = some false := by
  obtain ⟨t, ht, hz⟩ := proveMul_z h
  have hle := le_response ht (challenge_nonneg H _) he scalar
  have hbound : (2 : ℤ) ^ (bits + 256 + pk.n.size + 1) ≤ scalar := by exact_mod_cast hscalar
  exact if_pos (.inl (hz ▸ le_trans hbound hle))

/-! ### A large key -/

/-- Two Mersenne primes. -/
def largeP : ℕ := mersenne 521

def largeQ : ℕ := mersenne 607

/-- The public key that key generation makes of them. -/
def largeKey : PaillierPublicKey :=
  ⟨largeP * largeQ, largeP * largeQ * (largeP * largeQ), largeP * largeQ + 1⟩

theorem largeP_prime : largeP.Prime := lucas_lehmer_sufficiency 521 (by norm_num) (by norm_num)

theorem largeQ_prime : largeQ.Prime := lucas_lehmer_sufficiency 607 (by norm_num) (by norm_num)

/-- The least number that a claim of 256 bits is to exclude. -/
def oversized : ℕ := 2 ^ (256 + 2 * 256 + 1)

theorem oversized_lt : oversized < largeKey.n := by decide +kernel

theorem largeKey_wellFormed : largeKey.WellFormed where
  one_lt := by decide +kernel
  nSq_eq := by simp only [largeKey]
  g_eq := by simp only [largeKey]

/-- Key generation returns this key when it draws the two primes. -/
theorem exists_generated_largeKey : ∃ kp, Generated largeP largeQ kp ∧ kp.pk = largeKey := by
  refine exists_generated largeP_prime largeQ_prime ?_ ?_ ?_ ?_ <;> decide +kernel

/-! ### Below the modulus -/

/-- **Every plaintext below the modulus** has a range proof that is accepted. -/
theorem verifyRange_accepts (H : Hash) (sid : List UInt8) (h : pk.WellFormed) {m : ℕ} {rho c : ℤ}
    (ell : ℕ) (draws : ProofDraws ℕ) (hm : m < pk.n) (hc : encryptWithRho pk m rho = some c) :
    ∃ proof, proveRange H pk c m rho ell sid draws = some proof ∧
      verifyRange H pk c ell sid proof = some true := by
  have hsize : m < 2 ^ (ell + pk.n.size) := by
    rw [add_comm]
    exact lt_two_pow_add (lt_trans hm (Nat.lt_size_self _)) _
  rw [encryptWithRho_eq h m rho] at hc
  refine verifyRange_complete H sid h hsize ?_ draws
  rw [← Option.some.inj hc]
  exact Int.mod_modEq _ _

/-- **Every scalar below the modulus** has a multiplication proof that is accepted. -/
theorem verifyMul_accepts (H : Hash) (sid : List UInt8) (h : pk.WellFormed) {scalar : ℕ}
    {cIn cOut rhoOut : ℤ} (bits : ℕ) (draws : ProofDraws ℕ) (hscalar : scalar < pk.n)
    (hc : cOut ≡ cIn ^ scalar * rhoOut ^ pk.n [ZMOD pk.n ^ 2]) :
    ∃ proof, proveMul H pk cIn cOut scalar rhoOut bits sid draws = some proof ∧
      verifyMul H pk cIn cOut bits sid proof = some true := by
  have hsize : scalar < 2 ^ (bits + pk.n.size) := by
    rw [add_comm]
    exact lt_two_pow_add (lt_trans hscalar (Nat.lt_size_self _)) _
  exact verifyMul_complete H sid h hsize hc draws

/-- **The bounds exclude nothing below the modulus.**  That an honest proof is accepted implies
    a bound on the plaintext or the scalar exactly when the bound holds anyway. -/
theorem proofBounds_exclude_iff (h : pk.WellFormed) (H : Hash) (sid : List UInt8) :
    (∀ (m ell : ℕ) (rho c : ℤ) (draws : ProofDraws ℕ), m < pk.n →
      encryptWithRho pk m rho = some c →
      ∃ proof, proveRange H pk c m rho ell sid draws = some proof ∧
        ((verifyRange H pk c ell sid proof = some true → m < 2 ^ (ell + 2 * 256 + 1)) ↔
          m < 2 ^ (ell + 2 * 256 + 1))) ∧
    ∀ (scalar bits : ℕ) (cIn cOut rhoOut : ℤ) (draws : ProofDraws ℕ), scalar < pk.n →
      cOut ≡ cIn ^ scalar * rhoOut ^ pk.n [ZMOD pk.n ^ 2] →
      ∃ proof, proveMul H pk cIn cOut scalar rhoOut bits sid draws = some proof ∧
        ((verifyMul H pk cIn cOut bits sid proof = some true →
            scalar < 2 ^ (bits + 2 * 256 + 1)) ↔
          scalar < 2 ^ (bits + 2 * 256 + 1)) := by
  refine ⟨?_, ?_⟩
  · intro m ell rho c draws hm hc
    obtain ⟨proof, hproof, haccept⟩ := verifyRange_accepts H sid h ell draws hm hc
    exact ⟨proof, hproof, fun hbite => hbite haccept, fun hlt _ => hlt⟩
  · intro scalar bits cIn cOut rhoOut draws hscalar hc
    obtain ⟨proof, hproof, haccept⟩ := verifyMul_accepts H sid h bits draws hscalar hc
    exact ⟨proof, hproof, fun hbite => hbite haccept, fun hlt _ => hlt⟩

/-- The bounds of a key of 1128 bits do not exclude it: a plaintext and a scalar of that size are
    accepted under the challenge 1. -/
theorem proofBounds_accept_large :
    2 ^ (256 + 2 * 256 + 1) < largeKey.n ∧ oversized < largeKey.n ∧
    (∃ kp, Generated largeP largeQ kp ∧ kp.pk = largeKey) ∧
    (∃ c proof, encryptWithRho largeKey oversized 1 = some c ∧
      proveRange oneHash largeKey c oversized 1 256 [] ⟨0, 0⟩ = some proof ∧
      rangeChallenge oneHash [] largeKey.n largeKey.g 256 c proof.cAlpha ≠ 0 ∧
      verifyRange oneHash largeKey c 256 [] proof = some true ∧
      ¬ oversized < 2 ^ (256 + 2 * 256 + 1)) ∧
    ∃ cOut proof, cOut ≡ 1 ^ oversized * 1 ^ largeKey.n [ZMOD largeKey.n ^ 2] ∧
      proveMul oneHash largeKey 1 cOut oversized 1 256 [] ⟨0, 0⟩ = some proof ∧
      mulChallenge oneHash [] largeKey.n largeKey.g 1 cOut proof.cT ≠ 0 ∧
      verifyMul oneHash largeKey 1 cOut 256 [] proof = some true ∧
      ¬ oversized < 2 ^ (256 + 2 * 256 + 1) := by
  have hchallenge : ∀ input, challenge oneHash input ≠ 0 := fun input => by
    rw [show challenge oneHash input = 1 by rfl]
    exact one_ne_zero
  refine ⟨oversized_lt, oversized_lt, exists_generated_largeKey, ?_, ?_⟩
  · obtain ⟨proof, hproof, haccept⟩ := verifyRange_accepts oneHash []
      largeKey_wellFormed 256 ⟨0, 0⟩ oversized_lt (encryptWithRho_eq largeKey_wellFormed _ 1)
    exact ⟨_, proof, encryptWithRho_eq largeKey_wellFormed _ 1, hproof, hchallenge _, haccept,
      lt_irrefl _⟩
  · obtain ⟨proof, hproof, haccept⟩ := verifyMul_accepts oneHash []
      largeKey_wellFormed 256 ⟨0, 0⟩ oversized_lt (Int.ModEq.refl _)
    exact ⟨_, proof, Int.ModEq.refl _, hproof, hchallenge _, haccept, lt_irrefl _⟩

/-- The plaintext of that size, under the same key. -/
theorem proofBounds_exclude_iff_large :
    ∃ c proof, encryptWithRho largeKey oversized 1 = some c ∧
      proveRange oneHash largeKey c oversized 1 256 [] ⟨3, 4⟩ = some proof ∧
      ((verifyRange oneHash largeKey c 256 [] proof = some true →
        oversized < 2 ^ (256 + 2 * 256 + 1)) ↔ oversized < 2 ^ (256 + 2 * 256 + 1)) := by
  have hc := encryptWithRho_eq largeKey_wellFormed oversized 1
  obtain ⟨proof, hproof⟩ := (proofBounds_exclude_iff largeKey_wellFormed oneHash []).1 oversized 256
    1 _ ⟨3, 4⟩ oversized_lt hc
  exact ⟨_, proof, hc, hproof⟩

end Govis
