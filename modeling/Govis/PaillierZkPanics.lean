import Govis.PaillierZkSound
import Govis.Transcripts

namespace Govis

open Arith Bytes Curve

/-!
# Which inputs make a verifier panic

The four verifiers of proofs about ciphertexts, on any public key, ciphertext, point and proof; and
the provers that are run under the key of a peer.

* `verifyRange_eq_none_iff`, `verifyMul_eq_none_iff` — the modulus zero, after the bounds of the
  response;
* `verifyConsistency_eq_none_iff`, `verifyLog_eq_none_iff` — the modulus zero or a negative response,
  after the equation on the curve;
* `exists_proveRange`, `exists_proveMul` — provers do not panic for a modulus above 1, whatever the
  generator.
-/

variable {C : Curve} {pk : PaillierPublicKey}

/-! ### The verifiers -/

/-- The equation of the ciphertexts panics exactly for the modulus zero. -/
theorem checkEquation_eq_none_iff (cα c base s : ℤ) (e : ℕ) :
    checkEquation pk cα c e base s = none ↔ pk.nSq = 0 := by
  by_cases hzero : pk.nSq = 0
  · have hc : modpow c e pk.nSq = none := if_pos (.inr (by exact_mod_cast hzero))
    rw [checkEquation, hc]
    simp [hzero]
  · have hpos : (0 : ℤ) < pk.nSq := by exact_mod_cast Nat.pos_of_ne_zero hzero
    rw [checkEquation, modpow_natCast _ _ hpos, modpow_natCast _ _ hpos]
    simp [hzero]

/-- Every equation of ciphertexts holds modulo 1. -/
theorem checkEquation_one (hone : pk.nSq = 1) (cα c base s : ℤ) (e : ℕ) :
    checkEquation pk cα c e base s = some true := by
  have hpos : (0 : ℤ) < pk.nSq := by rw [hone]; exact one_pos
  rw [checkEquation, modpow_natCast _ _ hpos, modpow_natCast _ _ hpos]
  simp [hone]

/-- The verifiers that share `verify_point` panic exactly if the equation on the curve holds and the
    response is negative or the modulus zero. -/
theorem verifyPoint_eq_none_iff {c : ℤ} {base point : C.Point} {chal : C.Point → ℤ → ℤ}
    {proof : PointProof C} {e : ℕ} (he : chal proof.a proof.cAlpha = e) :
    verifyPoint pk c base point chal proof = none ↔
      OnCurve base point e proof.a proof.z ∧ (proof.z < 0 ∨ pk.nSq = 0) := by
  by_cases hcurve : OnCurve base point e proof.a proof.z
  · rw [verifyPoint_of_onCurve he hcurve, and_iff_right hcurve]
    by_cases hpanic : proof.z < 0 ∨ (pk.nSq : ℤ) = 0
    · rw [modpow, if_pos hpanic]
      simpa using hpanic
    · rw [modpow, if_neg hpanic]
      rw [not_or] at hpanic
      simp only [Option.bind_some, checkEquation_eq_none_iff, hpanic.1, false_or]
  · rw [verifyPoint_of_not_onCurve he hcurve]
    simp [hcurve]

/-- For the modulus 1 they check the curve alone, and panic on a negative response. -/
theorem verifyPoint_one (hone : pk.nSq = 1) {c : ℤ} {base point : C.Point}
    {chal : C.Point → ℤ → ℤ} {proof : PointProof C} {e : ℕ}
    (he : chal proof.a proof.cAlpha = e) :
    verifyPoint pk c base point chal proof = some true ↔
      OnCurve base point e proof.a proof.z ∧ 0 ≤ proof.z := by
  by_cases hcurve : OnCurve base point e proof.a proof.z
  · rw [verifyPoint_of_onCurve he hcurve, and_iff_right hcurve]
    by_cases hz : proof.z < 0
    · rw [modpow, if_pos (.inl hz)]
      simpa using hz
    · rw [modpow, if_neg (by simpa [hone] using hz)]
      simpa [checkEquation_one hone] using hz
  · rw [verifyPoint_of_not_onCurve he hcurve]
    simp [hcurve]

/-- **`verify_range` panics** exactly for the modulus zero, after the bounds of the response. -/
theorem verifyRange_eq_none_iff (H : Hash) (pk : PaillierPublicKey) (c : ℤ) (ell : ℕ)
    (sid : List UInt8) (proof : RangeProof) :
    verifyRange H pk c ell sid proof = none ↔
      pk.nSq = 0 ∧ 0 ≤ proof.z ∧ proof.z < 2 ^ (ell + 256 + pk.n.size + 1) := by
  obtain ⟨e, he, -⟩ := challenge_eq H (rangeFields sid pk.n pk.g ell c proof.cAlpha).flatten
  rw [← rangeChallenge_eq] at he
  unfold verifyRange
  simp only [he]
  split
  · rename_i hout
    simp only [reduceCtorEq, false_iff]
    omega
  · rename_i hin
    rw [checkEquation_eq_none_iff, iff_self_and]
    exact fun _ => ⟨by omega, by omega⟩

/-- A range proof that verifies does so for a modulus other than zero. -/
theorem nSq_ne_zero_of_verifyRange {H : Hash} {c : ℤ} {ell : ℕ} {sid : List UInt8}
    {proof : RangeProof} (h : verifyRange H pk c ell sid proof = some true) : pk.nSq ≠ 0 := by
  intro hzero
  by_cases hin : 0 ≤ proof.z ∧ proof.z < 2 ^ (ell + 256 + pk.n.size + 1)
  · rw [(verifyRange_eq_none_iff H pk c ell sid proof).mpr ⟨hzero, hin⟩] at h
    cases h
  · rw [verifyRange, if_pos (by omega)] at h
    cases h

/-- **`verify_mul` panics** on the same kind of inputs. -/
theorem verifyMul_eq_none_iff (H : Hash) (pk : PaillierPublicKey) (cIn cOut : ℤ) (bits : ℕ)
    (sid : List UInt8) (proof : MulProof) :
    verifyMul H pk cIn cOut bits sid proof = none ↔
      pk.nSq = 0 ∧ 0 ≤ proof.z ∧ proof.z < 2 ^ (bits + 256 + pk.n.size + 1) := by
  obtain ⟨e, he, -⟩ := challenge_eq H (mulFields sid pk.n pk.g cIn cOut proof.cT).flatten
  rw [← mulChallenge_eq] at he
  unfold verifyMul
  simp only [he]
  split
  · rename_i hout
    simp only [reduceCtorEq, false_iff]
    omega
  · rename_i hin
    have hbounds : 0 ≤ proof.z ∧ proof.z < 2 ^ (bits + 256 + pk.n.size + 1) :=
      ⟨by omega, by omega⟩
    rw [and_iff_left hbounds]
    by_cases hzero : pk.nSq = 0
    · rw [show modpow cIn proof.z pk.nSq = none from if_pos (.inr (by exact_mod_cast hzero))]
      simp [hzero]
    · have hpow : ∃ x, modpow cIn proof.z pk.nSq = some x := by
        rw [modpow, if_neg]
        · exact ⟨_, rfl⟩
        · rintro (hneg | hnSq)
          · omega
          · exact hzero (by exact_mod_cast hnSq)
      obtain ⟨x, hx⟩ := hpow
      simp only [hx, Option.bind_eq_bind, Option.bind_some, checkEquation_eq_none_iff]

/-- **`verify_consistency` panics** on a proof that is right on the curve, if the modulus is zero or
    the response negative. -/
theorem verifyConsistency_eq_none_iff (H : Hash) (pk : PaillierPublicKey) (c : ℤ)
    (rPoint : C.Point) (sid : List UInt8) (proof : ConsistencyProof C) :
    verifyConsistency H pk c rPoint sid proof = none ↔
      fromBeBytesModOrder C (magnitude proof.z) • rPoint = proof.a +
        fromBeBytesModOrder C (magnitude (consistencyChallenge H sid pk.n pk.g c rPoint proof.a
          proof.cAlpha)) • C.generator ∧ (proof.z < 0 ∨ pk.nSq = 0) := by
  obtain ⟨e, he, -⟩ :=
    challenge_eq H (consistencyFields sid pk.n pk.g c rPoint proof.a proof.cAlpha).flatten
  rw [← consistencyChallenge_eq] at he
  rw [he, fromBeBytesModOrder_magnitude]
  exact verifyPoint_eq_none_iff he

/-- `verify_consistency` for the modulus 1. -/
theorem verifyConsistency_one (H : Hash) (hone : pk.nSq = 1) (c : ℤ) (rPoint : C.Point)
    (sid : List UInt8) (proof : ConsistencyProof C) :
    verifyConsistency H pk c rPoint sid proof = some true ↔
      fromBeBytesModOrder C (magnitude proof.z) • rPoint = proof.a +
        fromBeBytesModOrder C (magnitude (consistencyChallenge H sid pk.n pk.g c rPoint proof.a
          proof.cAlpha)) • C.generator ∧ 0 ≤ proof.z := by
  obtain ⟨e, he, -⟩ :=
    challenge_eq H (consistencyFields sid pk.n pk.g c rPoint proof.a proof.cAlpha).flatten
  rw [← consistencyChallenge_eq] at he
  rw [he, fromBeBytesModOrder_magnitude]
  exact verifyPoint_one hone he

/-- **`verify_log` panics** on the same kind of inputs. -/
theorem verifyLog_eq_none_iff (H : Hash) (pk : PaillierPublicKey) (c : ℤ) (pub : C.Point)
    (sid : List UInt8) (proof : LogProof C) :
    verifyLog H pk c pub sid proof = none ↔
      fromBeBytesModOrder C (magnitude proof.z) • C.generator = proof.a +
        fromBeBytesModOrder C (magnitude (logChallenge H sid pk.n pk.g c pub proof.a
          proof.cAlpha)) • pub ∧ (proof.z < 0 ∨ pk.nSq = 0) := by
  obtain ⟨e, he, -⟩ := challenge_eq H (logFields sid pk.n pk.g c pub proof.a proof.cAlpha).flatten
  rw [← logChallenge_eq] at he
  rw [he, fromBeBytesModOrder_magnitude]
  exact verifyPoint_eq_none_iff he

/-! ### The provers -/

section Provers

variable (hn : 1 < pk.n) (hsq : 0 < pk.nSq)

include hsq in
theorem exists_modpow (b : ℤ) (e : ℕ) : ∃ x, modpow b e pk.nSq = some x ∧ 0 ≤ x := by
  have hpos : (0 : ℤ) < pk.nSq := by exact_mod_cast hsq
  exact ⟨_, modpow_natCast _ _ hpos, Int.emod_nonneg _ (ne_of_gt hpos)⟩

include hsq in
theorem exists_commitWith (base gamma : ℤ) : ∃ cAlpha, commitWith pk base gamma = some cAlpha := by
  obtain ⟨x, hx, -⟩ := exists_modpow hsq gamma pk.n
  rw [commitWith, hx]
  exact ⟨_, rfl⟩

include hn in
theorem exists_respondWith (gamma rho : ℤ) (e : ℕ) : ∃ s, respondWith pk gamma rho e = some s := by
  rw [respondWith, modpow_natCast _ _ (by omega)]
  exact ⟨_, rfl⟩

include hsq in
theorem exists_encryptWithRho (m : ℕ) (rho : ℤ) : ∃ c, encryptWithRho pk m rho = some c := by
  obtain ⟨gm, hgm, -⟩ := exists_modpow hsq pk.g m
  obtain ⟨rn, hrn, -⟩ := exists_modpow hsq rho pk.n
  rw [encryptWithRho, hgm, hrn]
  exact ⟨_, rfl⟩

include hn hsq in
theorem exists_proveRange (H : Hash) (c m rho : ℤ) (ell : ℕ) (sid : List UInt8)
    (draws : ProofDraws ℕ) : ∃ proof, proveRange H pk c m rho ell sid draws = some proof := by
  obtain ⟨alpha, halpha, -, -⟩ :=
    genBigintRange_eq (show (0 : ℤ) < 2 ^ (ell + 256 + pk.n.size) by positivity) draws.alpha
  obtain ⟨gamma, hgamma, -, -⟩ :=
    genBigintRange_eq (show (1 : ℤ) < pk.n by exact_mod_cast hn) draws.gamma
  obtain ⟨cAlpha, hcommit⟩ := exists_commitWith hsq (gPow alpha pk.n pk.nSq) gamma
  obtain ⟨e, he, -⟩ := challenge_eq H (rangeFields sid pk.n pk.g ell c cAlpha).flatten
  rw [← rangeChallenge_eq] at he
  obtain ⟨s, hs⟩ := exists_respondWith hn gamma rho e
  simp only [proveRange, halpha, hgamma, hcommit, he, hs, Option.bind_eq_bind, Option.bind_some,
    Option.pure_def]
  exact ⟨_, rfl⟩

include hn hsq in
theorem exists_proveMul (H : Hash) (cIn cOut scalar rhoOut : ℤ) (bits : ℕ) (sid : List UInt8)
    (draws : ProofDraws ℕ) :
    ∃ proof, proveMul H pk cIn cOut scalar rhoOut bits sid draws = some proof := by
  obtain ⟨t, ht, h0, -⟩ :=
    genBigintRange_eq (show (0 : ℤ) < 2 ^ (bits + 256) by positivity) draws.alpha
  obtain ⟨k, rfl⟩ := Int.eq_ofNat_of_zero_le h0
  obtain ⟨rhoT, hrhoT, -, -⟩ :=
    genBigintRange_eq (show (1 : ℤ) < pk.n by exact_mod_cast hn) draws.gamma
  obtain ⟨cInT, hpow, -⟩ := exists_modpow hsq cIn k
  obtain ⟨cT, hcommit⟩ := exists_commitWith hsq cInT rhoT
  obtain ⟨e, he, -⟩ := challenge_eq H (mulFields sid pk.n pk.g cIn cOut cT).flatten
  rw [← mulChallenge_eq] at he
  obtain ⟨s, hs⟩ := exists_respondWith hn rhoT rhoOut e
  simp only [proveMul, ht, hrhoT, hpow, hcommit, he, hs, Option.bind_eq_bind, Option.bind_some,
    Option.pure_def]
  exact ⟨_, rfl⟩

end Provers

end Govis
