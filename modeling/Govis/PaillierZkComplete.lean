import Govis.PaillierZk
import Govis.SmallCurve

namespace Govis

open Arith Bytes Curve

/-!
# Honest proofs verify

Completeness of the proofs of `paillier_zk.rs`: what a prover outputs for a true statement is
accepted, whatever it draws, and neither side panics.

* `sigma_complete` — the shared steps, from the verification equation of the sigma protocol;
* `verifyRange_complete`, `verifyMul_complete`, `verifyConsistency_complete`,
  `verifyLog_complete` — its uses;
* `verifySchnorr_complete`;
* `zkProofs_complete` — **the five together**;
* `blumEntry_valid` — what the prover of a Blum modulus pushes passes the test of the verifier.
-/

variable {C : Curve} {H : Hash} {pk : PaillierPublicKey} {sid : List UInt8}

/-! ### Draws, challenges, powers -/

theorem genBigintRange_eq {lo hi : ℤ} (h : lo < hi) (u : ℕ) :
    ∃ x, genBigintRange lo hi u = some x ∧ lo ≤ x ∧ x < hi := by
  have hpos : 0 < hi - lo := sub_pos.mpr h
  have h0 := Int.emod_nonneg (u : ℤ) (ne_of_gt hpos)
  have h1 := Int.emod_lt_of_pos (u : ℤ) hpos
  exact ⟨lo + u % (hi - lo), if_pos h, by omega, by omega⟩

/-- A challenge has 256 bits. -/
theorem challenge_eq (H : Hash) (input : List UInt8) :
    ∃ e : ℕ, challenge H input = e ∧ e < 2 ^ 256 := by
  refine ⟨ofBE (H input).toList, rfl, ?_⟩
  have h := ofBE_lt (H input).toList
  rwa [Vector.length_toList, show (256 : ℕ) ^ 32 = 2 ^ 256 by norm_num] at h

theorem gPow_modEq (h : pk.WellFormed) (m : ℕ) :
    0 ≤ gPow m pk.n pk.nSq ∧ gPow m pk.n pk.nSq ≡ (1 + pk.n) ^ m [ZMOD pk.n ^ 2] := by
  refine ⟨Int.tmod_nonneg _ (by positivity), ?_⟩
  rw [gPow, h.nSq_cast]
  exact (tmod_modEq _ _).trans (one_add_pow_modEq pk.n m).symm

theorem commitWith_eq (h : pk.WellFormed) {base : ℤ} (hbase : 0 ≤ base) (gamma : ℤ) :
    ∃ cAlpha, commitWith pk base gamma = some cAlpha ∧ 0 ≤ cAlpha ∧
      cAlpha ≡ base * gamma ^ pk.n [ZMOD pk.n ^ 2] := by
  refine ⟨_, by rw [commitWith, h.modpow_eq]; rfl, Int.tmod_nonneg _ (mul_nonneg hbase
    (Int.emod_nonneg _ (ne_of_gt h.nSq_pos))), ?_⟩
  rw [← h.nSq_cast]
  exact (tmod_modEq _ _).trans ((Int.mod_modEq _ _).mul_left _)

theorem respondWith_eq (h : pk.WellFormed) (gamma rho : ℤ) (e : ℕ) :
    ∃ s, respondWith pk gamma rho e = some s ∧ s ≡ gamma * rho ^ e [ZMOD pk.n] :=
  ⟨_, by rw [respondWith, modpow_natCast _ _ h.n_pos]; rfl,
    (tmod_modEq _ _).trans ((Int.mod_modEq _ _).mul_left _)⟩

theorem checkEquation_of_modEq (h : pk.WellFormed) {cAlpha c base s : ℤ} (hα : 0 ≤ cAlpha)
    (hbase : 0 ≤ base) {e : ℕ} (heq : cAlpha * c ^ e ≡ base * s ^ pk.n [ZMOD pk.n ^ 2]) :
    checkEquation pk cAlpha c e base s = some true := by
  have hred : ∀ {x : ℤ}, 0 ≤ x → ∀ y : ℤ, (x * (y % pk.nSq)).tmod pk.nSq = x * y % pk.nSq := by
    intro x hx y
    rw [Int.tmod_eq_emod_of_nonneg (mul_nonneg hx (Int.emod_nonneg _ (ne_of_gt h.nSq_pos)))]
    exact (Int.mod_modEq y _).mul_left x
  rw [checkEquation, h.modpow_eq, h.modpow_eq]
  simp only [Option.bind_eq_bind, Option.bind_some, Option.pure_def, Option.some.injEq, hred hα,
    hred hbase, beq_iff_eq]
  rw [h.nSq_cast]
  exact heq

/-- **Completeness of the shared steps.**  The mask `α` is committed to as a power of `b`, and
    `c` is the power `m` of `b`, both hidden by `n`-th powers. -/
theorem sigma_complete (h : pk.WellFormed) {b base c rho : ℤ} {α m : ℕ} (hbase : 0 ≤ base)
    (hα : base ≡ b ^ α [ZMOD pk.n ^ 2]) (hc : c ≡ b ^ m * rho ^ pk.n [ZMOD pk.n ^ 2]) (gamma : ℤ)
    (chal : ℤ → ℤ) (hchal : ∀ x, ∃ e : ℕ, chal x = e ∧ e < 2 ^ 256) :
    ∃ cAlpha s, ∃ e : ℕ, commitWith pk base gamma = some cAlpha ∧ chal cAlpha = e ∧ e < 2 ^ 256 ∧
      respondWith pk gamma rho e = some s ∧
      ∀ final : ℤ, 0 ≤ final → final ≡ b ^ (α + e * m) [ZMOD pk.n ^ 2] →
        checkEquation pk cAlpha c e final s = some true := by
  obtain ⟨cAlpha, hcommit, hpos, hcα⟩ := commitWith_eq h hbase gamma
  obtain ⟨e, he, hlt⟩ := hchal cAlpha
  obtain ⟨s, hrespond, hs⟩ := respondWith_eq h gamma rho e
  refine ⟨cAlpha, s, e, hcommit, he, hlt, hrespond, fun final hfinal hz => ?_⟩
  exact checkEquation_of_modEq h hpos hfinal
    ((sigma_modEq (hcα.trans (hα.mul_right _)) hc hs).trans (hz.symm.mul_right _))

/-- The response to a challenge stays within the bound that the verifiers check. -/
theorem response_lt {α e m a b k : ℕ} (hα : α < 2 ^ k) (he : e < 2 ^ a) (hm : m < 2 ^ b)
    (hk : a + b ≤ k) : α + e * m < 2 ^ (k + 1) := by
  have hem : e * m ≤ 2 ^ k :=
    calc e * m ≤ 2 ^ a * 2 ^ b := Nat.mul_le_mul (le_of_lt he) (le_of_lt hm)
      _ = 2 ^ (a + b) := (pow_add 2 a b).symm
      _ ≤ 2 ^ k := Nat.pow_le_pow_right Nat.two_pos hk
  rw [pow_succ]
  omega

theorem lt_two_pow_add {m a : ℕ} (h : m < 2 ^ a) (b : ℕ) : m < 2 ^ (a + b) :=
  lt_of_lt_of_le h (Nat.pow_le_pow_right Nat.two_pos (Nat.le_add_right a b))

/-- **An honest encryption** of a number: the randomness that is drawn and the ciphertext. -/
theorem exists_encryption (h : pk.WellFormed) (m u : ℕ) :
    ∃ rho c, genBigintRange 1 pk.n u = some rho ∧ encryptWithRho pk m rho = some c ∧
      c ≡ (1 + pk.n) ^ m * rho ^ pk.n [ZMOD pk.n ^ 2] := by
  obtain ⟨rho, hrho, -, -⟩ :=
    genBigintRange_eq (show (1 : ℤ) < pk.n by exact_mod_cast h.one_lt) u
  exact ⟨rho, _, hrho, encryptWithRho_eq h m rho, Int.mod_modEq _ _⟩

/-! ### Range proof -/

/-- **Range proofs verify**, as far as the length of the modulus above the bound. -/
theorem verifyRange_complete (H : Hash) (sid : List UInt8) (h : pk.WellFormed) {c rho : ℤ}
    {m ell : ℕ} (hm : m < 2 ^ (ell + pk.n.size))
    (hc : c ≡ (1 + pk.n) ^ m * rho ^ pk.n [ZMOD pk.n ^ 2]) (draws : ProofDraws ℕ) :
    ∃ proof, proveRange H pk c m rho ell sid draws = some proof ∧
      verifyRange H pk c ell sid proof = some true := by
  obtain ⟨alpha, halpha, h0, hlt⟩ :=
    genBigintRange_eq (show (0 : ℤ) < 2 ^ (ell + 256 + pk.n.size) by positivity) draws.alpha
  obtain ⟨α, rfl⟩ := Int.eq_ofNat_of_zero_le h0
  obtain ⟨gamma, hgamma, -, -⟩ :=
    genBigintRange_eq (show (1 : ℤ) < pk.n by exact_mod_cast h.one_lt) draws.gamma
  obtain ⟨hbase, hα⟩ := gPow_modEq h α
  obtain ⟨cAlpha, s, e, hcommit, he, helt, hrespond, hcheck⟩ := sigma_complete h hbase hα hc gamma
    (rangeChallenge H sid pk.n pk.g ell c) fun x => challenge_eq H _
  refine ⟨⟨cAlpha, (α + e * m : ℕ), s⟩, ?_, ?_⟩
  · simp only [proveRange, halpha, hgamma, hcommit, he, hrespond, Option.bind_eq_bind,
      Option.bind_some, Option.pure_def, Nat.cast_add, Nat.cast_mul]
  · have hbound := response_lt (k := ell + 256 + pk.n.size) (by exact_mod_cast hlt) helt hm (by omega)
    obtain ⟨hfinal, hz⟩ := gPow_modEq h (α + e * m)
    have hin : ¬ (((α + e * m : ℕ) : ℤ) ≥ 2 ^ (ell + 256 + pk.n.size + 1) ∨
        ((α + e * m : ℕ) : ℤ) < 0) := by
      have : ((α + e * m : ℕ) : ℤ) < 2 ^ (ell + 256 + pk.n.size + 1) := by exact_mod_cast hbound
      omega
    simp only [verifyRange, he, if_neg hin, hcheck _ hfinal hz]

/-! ### Multiplication proof -/

/-- **Multiplication proofs verify**, as far as the length of the modulus above the bound. -/
theorem verifyMul_complete (H : Hash) (sid : List UInt8) (h : pk.WellFormed)
    {cIn cOut rhoOut : ℤ} {scalar bits : ℕ} (hscalar : scalar < 2 ^ (bits + pk.n.size))
    (hc : cOut ≡ cIn ^ scalar * rhoOut ^ pk.n [ZMOD pk.n ^ 2]) (draws : ProofDraws ℕ) :
    ∃ proof, proveMul H pk cIn cOut scalar rhoOut bits sid draws = some proof ∧
      verifyMul H pk cIn cOut bits sid proof = some true := by
  have hpow : ∀ k : ℕ, 0 ≤ cIn ^ k % (pk.nSq : ℤ) ∧
      cIn ^ k % (pk.nSq : ℤ) ≡ cIn ^ k [ZMOD pk.n ^ 2] := fun k =>
    ⟨Int.emod_nonneg _ (ne_of_gt h.nSq_pos), by rw [← h.nSq_cast]; exact Int.mod_modEq _ _⟩
  obtain ⟨t, ht, h0, hlt⟩ :=
    genBigintRange_eq (show (0 : ℤ) < 2 ^ (bits + 256) by positivity) draws.alpha
  obtain ⟨α, rfl⟩ := Int.eq_ofNat_of_zero_le h0
  obtain ⟨rhoT, hrhoT, -, -⟩ :=
    genBigintRange_eq (show (1 : ℤ) < pk.n by exact_mod_cast h.one_lt) draws.gamma
  obtain ⟨cT, s, e, hcommit, he, helt, hrespond, hcheck⟩ := sigma_complete h (hpow α).1 (hpow α).2
    hc rhoT (mulChallenge H sid pk.n pk.g cIn cOut) fun x => challenge_eq H _
  refine ⟨⟨cT, (α + e * scalar : ℕ), s⟩, ?_, ?_⟩
  · simp only [proveMul, ht, hrhoT, h.modpow_eq, hcommit, he, hrespond, Option.bind_eq_bind,
      Option.bind_some, Option.pure_def, Nat.cast_add, Nat.cast_mul]
  · have hmask : α < 2 ^ (bits + 256 + pk.n.size) :=
      lt_of_lt_of_le (by exact_mod_cast hlt) (Nat.pow_le_pow_right Nat.two_pos (by omega))
    have hbound := response_lt hmask helt hscalar (by omega)
    have hin : ¬ (((α + e * scalar : ℕ) : ℤ) ≥ 2 ^ (bits + 256 + pk.n.size + 1) ∨
        ((α + e * scalar : ℕ) : ℤ) < 0) := by
      have : ((α + e * scalar : ℕ) : ℤ) < 2 ^ (bits + 256 + pk.n.size + 1) := by
        exact_mod_cast hbound
      omega
    simp only [verifyMul, he, if_neg hin, h.modpow_eq, Option.bind_eq_bind, Option.bind_some,
      hcheck _ (hpow _).1 (hpow _).2]

/-! ### Proofs that tie a ciphertext to a point -/

/-- **The shared body of the consistency and the discrete-log proof.** The plaintext times the
    base is the point. -/
theorem verifyPoint_complete (h : pk.WellFormed) {c rho : ℤ} {m : ℕ} {base point : C.Point}
    (hpoint : (m : C.Scalar) • base = point)
    (hc : c ≡ (1 + pk.n) ^ m * rho ^ pk.n [ZMOD pk.n ^ 2]) (chal : C.Point → ℤ → ℤ)
    (hchal : ∀ a x, ∃ e : ℕ, chal a x = e ∧ e < 2 ^ 256) (draws : ProofDraws C.Scalar) :
    ∃ proof, provePoint pk m rho base chal draws = some proof ∧
      verifyPoint pk c base point chal proof = some true := by
  obtain ⟨gamma, hgamma, -, -⟩ :=
    genBigintRange_eq (show (1 : ℤ) < pk.n by exact_mod_cast h.one_lt) draws.gamma
  obtain ⟨hbase, hα⟩ := gPow_modEq h draws.alpha.val
  obtain ⟨cAlpha, s, e, hcommit, he, helt, hrespond, hcheck⟩ := sigma_complete h hbase hα hc gamma
    (chal (draws.alpha • base)) (hchal _)
  refine ⟨⟨cAlpha, draws.alpha • base, (draws.alpha.val + e * m : ℕ), s⟩, ?_, ?_⟩
  · simp only [provePoint, scalarToBigint_eq, hgamma, hcommit, he, hrespond, Option.bind_eq_bind,
      Option.bind_some, Option.pure_def, Nat.cast_add, Nat.cast_mul]
  · -- on the curve: `(α + e m) * base = α * base + e * point`
    have hlhs : ((draws.alpha.val + e * m : ℕ) : C.Scalar) • base =
        draws.alpha • base + (e : C.Scalar) • point := by
      rw [Nat.cast_add, Nat.cast_mul, ZMod.natCast_zmod_val, add_smul, mul_smul, hpoint]
    have hfinal : (0 : ℤ) ≤ (1 + pk.n) ^ (draws.alpha.val + e * m) % pk.nSq :=
      Int.emod_nonneg _ (ne_of_gt h.nSq_pos)
    have hz : ((1 + pk.n) ^ (draws.alpha.val + e * m) % pk.nSq : ℤ) ≡
        (1 + pk.n) ^ (draws.alpha.val + e * m) [ZMOD pk.n ^ 2] := by
      rw [← h.nSq_cast]
      exact Int.mod_modEq _ _
    simp only [verifyPoint, he, fromBeBytesModOrder_magnitude, hlhs, ne_eq, not_true_eq_false,
      if_false, h.modpow_eq, h.g_cast, Option.bind_eq_bind, Option.bind_some, hcheck _ hfinal hz]

/-- **Consistency proofs verify.** -/
theorem verifyConsistency_complete (H : Hash) (sid : List UInt8) (h : pk.WellFormed) {c rho : ℤ}
    {m : ℕ} {rPoint : C.Point} (hm : (m : C.Scalar) • rPoint = C.generator)
    (hc : c ≡ (1 + pk.n) ^ m * rho ^ pk.n [ZMOD pk.n ^ 2]) (draws : ProofDraws C.Scalar) :
    ∃ proof, proveConsistency H pk m rho c rPoint sid draws = some proof ∧
      verifyConsistency H pk c rPoint sid proof = some true :=
  verifyPoint_complete h hm hc _ (fun _ _ => challenge_eq H _) draws

/-- **Discrete-log proofs verify.** -/
theorem verifyLog_complete (H : Hash) (sid : List UInt8) (h : pk.WellFormed) {c rho : ℤ}
    {x : ℕ} {pub : C.Point} (hx : (x : C.Scalar) • C.generator = pub)
    (hc : c ≡ (1 + pk.n) ^ x * rho ^ pk.n [ZMOD pk.n ^ 2]) (draws : ProofDraws C.Scalar) :
    ∃ proof, proveLog H pk c x rho pub sid draws = some proof ∧
      verifyLog H pk c pub sid proof = some true :=
  verifyPoint_complete h hx hc _ (fun _ _ => challenge_eq H _) draws

/-! ### Schnorr proof -/

/-- **Schnorr proofs verify.** -/
theorem verifySchnorr_complete (secret alpha : C.Scalar) :
    verifySchnorr H (secret • C.generator) sid
      (proveSchnorr H secret (secret • C.generator) sid alpha) = true := by
  simp only [verifySchnorr, proveSchnorr, beq_iff_eq]
  rw [add_smul, mul_smul]

/-! ### The five together -/

/-- **Honest proofs verify**, for every modulus above 1, session id and hash, whatever the provers
    draw. -/
theorem zkProofs_complete (C : Curve) (H : Hash) (sid : List UInt8) (h : pk.WellFormed) :
    (∀ (m ell : ℕ) (rho c : ℤ) (draws : ProofDraws ℕ), m < 2 ^ ell →
      encryptWithRho pk m rho = some c →
      ∃ proof, proveRange H pk c m rho ell sid draws = some proof ∧
        verifyRange H pk c ell sid proof = some true) ∧
    (∀ (scalar bits : ℕ) (cIn cOut rhoOut : ℤ) (draws : ProofDraws ℕ), scalar < 2 ^ bits →
      cOut ≡ cIn ^ scalar * rhoOut ^ pk.n [ZMOD pk.n ^ 2] →
      ∃ proof, proveMul H pk cIn cOut scalar rhoOut bits sid draws = some proof ∧
        verifyMul H pk cIn cOut bits sid proof = some true) ∧
    (∀ (m : ℕ) (rho c : ℤ) (rPoint : C.Point) (draws : ProofDraws C.Scalar),
      encryptWithRho pk m rho = some c → (m : C.Scalar) • rPoint = C.generator →
      ∃ proof, proveConsistency H pk m rho c rPoint sid draws = some proof ∧
        verifyConsistency H pk c rPoint sid proof = some true) ∧
    (∀ (x : ℕ) (rho c : ℤ) (pub : C.Point) (draws : ProofDraws C.Scalar),
      encryptWithRho pk x rho = some c → (x : C.Scalar) • C.generator = pub →
      ∃ proof, proveLog H pk c x rho pub sid draws = some proof ∧
        verifyLog H pk c pub sid proof = some true) ∧
    ∀ (secret alpha : C.Scalar) (pub : C.Point), pub = secret • C.generator →
      verifySchnorr H pub sid (proveSchnorr H secret pub sid alpha) = true := by
  have hencrypts : ∀ {m : ℕ} {rho c : ℤ}, encryptWithRho pk m rho = some c →
      c ≡ (1 + pk.n) ^ m * rho ^ pk.n [ZMOD pk.n ^ 2] := by
    intro m rho c hc
    rw [encryptWithRho_eq h m rho] at hc
    rw [← Option.some.inj hc]
    exact Int.mod_modEq _ _
  refine ⟨?_, ?_, ?_, ?_, ?_⟩
  · intro m ell rho c draws hm hc
    exact verifyRange_complete H sid h (lt_two_pow_add hm _) (hencrypts hc) draws
  · intro scalar bits cIn cOut rhoOut draws hscalar hc
    exact verifyMul_complete H sid h (lt_two_pow_add hscalar _) hc draws
  · intro m rho c rPoint draws hc hm
    exact verifyConsistency_complete H sid h hm (hencrypts hc) draws
  · intro x rho c pub draws hc hx
    exact verifyLog_complete H sid h hx (hencrypts hc) draws
  · rintro secret alpha pub rfl
    exact verifySchnorr_complete secret alpha

/-- The five proofs about the number 5 under the key of 7 and 11, which encrypts it as 4792: it is below
    256, multiplying 4792 by it gives 5414, it belongs to the point 26215, whose multiple by 5 is the
    generator, it is the discrete logarithm of the point 5, and its owner knows it. -/
theorem zkProofs_complete_five :
    (∃ proof, proveRange oneHash ⟨77, 5929, 78⟩ 4792 5 2 8 [] ⟨3, 4⟩ = some proof ∧
      verifyRange oneHash ⟨77, 5929, 78⟩ 4792 8 [] proof = some true) ∧
    (∃ proof, proveMul oneHash ⟨77, 5929, 78⟩ 4792 5414 5 3 8 [] ⟨3, 4⟩ = some proof ∧
      verifyMul oneHash ⟨77, 5929, 78⟩ 4792 5414 8 [] proof = some true) ∧
    (∃ proof, proveConsistency (C := smallCurve) oneHash ⟨77, 5929, 78⟩ 5 2 4792 (26215 : ZMod 65537) []
        ⟨(3 : ZMod 65537), 4⟩ = some proof ∧
      verifyConsistency (C := smallCurve) oneHash ⟨77, 5929, 78⟩ 4792 (26215 : ZMod 65537) [] proof =
        some true) ∧
    (∃ proof, proveLog (C := smallCurve) oneHash ⟨77, 5929, 78⟩ 4792 5 2 (5 : ZMod 65537) []
        ⟨(3 : ZMod 65537), 4⟩ = some proof ∧
      verifyLog (C := smallCurve) oneHash ⟨77, 5929, 78⟩ 4792 (5 : ZMod 65537) [] proof = some true) ∧
    verifySchnorr (C := smallCurve) oneHash (5 : ZMod 65537) []
      (proveSchnorr oneHash (5 : ZMod 65537) (5 : ZMod 65537) [] (3 : ZMod 65537)) = true := by
  have hpk : (⟨77, 5929, 78⟩ : PaillierPublicKey).WellFormed := ⟨by decide, rfl, rfl⟩
  have hc : encryptWithRho ⟨77, 5929, 78⟩ 5 2 = some 4792 := by decide +kernel
  have hcOut : (5414 : ℤ) ≡ 4792 ^ 5 * 3 ^ 77 [ZMOD 77 ^ 2] := by decide
  obtain ⟨hrange, hmul, hconsistency, hlog, hschnorr⟩ :=
    zkProofs_complete smallCurve oneHash [] hpk
  exact ⟨hrange 5 8 2 4792 ⟨3, 4⟩ (by decide) hc, hmul 5 8 4792 5414 3 ⟨3, 4⟩ (by decide) hcOut,
    hconsistency 5 2 4792 (26215 : ZMod 65537) ⟨(3 : ZMod 65537), 4⟩ hc (by decide),
    hlog 5 2 4792 (5 : ZMod 65537) ⟨(3 : ZMod 65537), 4⟩ hc (mul_one (5 : ZMod 65537)),
    hschnorr (5 : ZMod 65537) (3 : ZMod 65537) (5 : ZMod 65537)
      (mul_one (5 : ZMod 65537)).symm⟩

/-! ### Blum proof -/

section Blum

variable {p q : ℕ}

/-- For `p = 3` modulo 4, Euler's criterion makes `a ^ ((p + 1) / 4)` a square root. -/
theorem sqrtModPrime_of_residue (hp : p.Prime) (hp3 : p % 4 = 3) {a : ℤ}
    (h : isQuadraticResidueModPrime a p = some true) :
    ∃ r, sqrtModPrime a p = some r ∧ r ^ 2 ≡ a [ZMOD p] := by
  have hpos : (0 : ℤ) < p := by exact_mod_cast hp.pos
  have hhalf : ((p : ℤ) - 1) / 2 = ((p - 1) / 2 : ℕ) := by omega
  have hquarter : ((p : ℤ) + 1) / 4 = ((p + 1) / 4 : ℕ) := by omega
  rw [isQuadraticResidueModPrime, hhalf, modpow_natCast _ _ hpos] at h
  simp only [Option.bind_eq_bind, Option.bind_some, Option.pure_def, Option.some.injEq,
    beq_iff_eq] at h
  have hone : a ^ ((p - 1) / 2) ≡ 1 [ZMOD p] := by
    rw [Int.ModEq, h, Int.emod_eq_of_lt zero_le_one (by exact_mod_cast hp.one_lt)]
  refine ⟨_, by rw [sqrtModPrime, hquarter, modpow_natCast _ _ hpos], ?_⟩
  calc (a ^ ((p + 1) / 4) % p) ^ 2 ≡ (a ^ ((p + 1) / 4)) ^ 2 [ZMOD p] := (Int.mod_modEq _ _).pow 2
    _ = a ^ ((p - 1) / 2) * a := by
      rw [← pow_mul, ← pow_succ]
      congr 1
      omega
    _ ≡ 1 * a [ZMOD p] := hone.mul_right a
    _ = a := one_mul a

/-- The result of `modinv_internal` is the inverse if there is one. -/
theorem isInverse_modinvInternal {a m : ℤ} (hm : 1 < m) (hcop : Int.gcd a m = 1) :
    IsInverse a m (modinvInternal a m) :=
  euclidLoop_isInverse hm hcop

/-- The inverse that `crt` uses. -/
theorem modinvInternal_modEq (hp : p.Prime) (hq : q.Prime) (hpq : p ≠ q) :
    p * modinvInternal p q ≡ 1 [ZMOD q] := by
  have hcop : Int.gcd (p : ℤ) q = 1 := by
    rw [Int.gcd_natCast_natCast]
    exact (Nat.coprime_primes hp hq).mpr hpq
  exact (isInverse_modinvInternal (by exact_mod_cast hq.one_lt) hcop).mul_modEq

/-- **Chinese remainders.** -/
theorem crt_modEq (hp : p.Prime) (hq : q.Prime) (hpq : p ≠ q) (a b : ℤ) :
    crt a p b q (p * q : ℕ) ≡ a [ZMOD p] ∧ crt a p b q (p * q : ℕ) ≡ b [ZMOD q] := by
  have hfmod : ∀ (x : ℤ) (m : ℕ), x.fmod m ≡ x [ZMOD m] := fun x m => by
    rw [Int.fmod_eq_emod_of_nonneg _ (Int.natCast_nonneg m)]
    exact Int.mod_modEq x m
  set t := ((b - a).fmod (p * q : ℕ) * modinvInternal p q).fmod q with ht
  have hcrt : crt a p b q (p * q : ℕ) ≡ a + p * t [ZMOD (p * q : ℕ)] := hfmod _ _
  have hdvdp : (p : ℤ) ∣ (p * q : ℕ) := ⟨q, by push_cast; rfl⟩
  have hdvdq : (q : ℤ) ∣ (p * q : ℕ) := ⟨p, by push_cast; ring⟩
  refine ⟨(hcrt.of_dvd hdvdp).trans (Int.modEq_iff_dvd.mpr ⟨-t, by ring⟩), ?_⟩
  have hdiff : (b - a).fmod (p * q : ℕ) ≡ b - a [ZMOD q] := (hfmod _ _).of_dvd hdvdq
  -- the correction makes up for the difference modulo `q`
  have hpt : p * t ≡ b - a [ZMOD q] :=
    calc p * t ≡ p * ((b - a).fmod (p * q : ℕ) * modinvInternal p q) [ZMOD q] :=
          (hfmod _ _).mul_left _
      _ = p * modinvInternal p q * (b - a).fmod (p * q : ℕ) := by ring
      _ ≡ 1 * (b - a) [ZMOD q] := (modinvInternal_modEq hp hq hpq).mul hdiff
      _ = b - a := one_mul _
  calc crt a p b q (p * q : ℕ) ≡ a + p * t [ZMOD q] := hcrt.of_dvd hdvdq
    _ ≡ a + (b - a) [ZMOD q] := hpt.add_left a
    _ = b := by ring

/-- **Square roots modulo `n`.** -/
theorem blumRoot_of_residue (hp : p.Prime) (hq : q.Prime) (hpq : p ≠ q) (hp3 : p % 4 = 3)
    (hq3 : q % 4 = 3) {a : ℤ} (hap : isQuadraticResidueModPrime a p = some true)
    (haq : isQuadraticResidueModPrime a q = some true) :
    ∃ root, blumRoot p q (p * q : ℕ) a = some root ∧ root ^ 2 ≡ a [ZMOD (p * q : ℕ)] := by
  obtain ⟨rp, hrp, hsqp⟩ := sqrtModPrime_of_residue hp hp3 hap
  obtain ⟨rq, hrq, hsqq⟩ := sqrtModPrime_of_residue hq hq3 haq
  obtain ⟨hcp, hcq⟩ := crt_modEq hp hq hpq rp rq
  refine ⟨crt rp p rq q (p * q : ℕ), ?_, ?_⟩
  · rw [blumRoot, hrp, hrq]
    rfl
  -- a square root modulo both primes
  · rw [Nat.cast_mul]
    refine (Int.modEq_and_modEq_iff_modEq_mul ?_).mp
      ⟨(hcp.pow 2).trans hsqp, (hcq.pow 2).trans hsqq⟩
    exact (Nat.coprime_primes hp hq).mpr hpq

theorem isQuadraticResidueModPrime_eq_beq (hp : p.Prime) (a : ℤ) :
    isQuadraticResidueModPrime a p = some (a ^ (((p : ℤ) - 1) / 2).toNat % p == 1) := by
  have hpos : (0 : ℤ) < p := by exact_mod_cast hp.pos
  have hhalf : 0 ≤ ((p : ℤ) - 1) / 2 := by
    have := hp.one_lt
    omega
  rw [isQuadraticResidueModPrime, modpow_of_nonneg _ hhalf hpos]
  rfl

/-- The residue tests do not panic. -/
theorem isQuadraticResidueModPrime_eq (hp : p.Prime) (a : ℤ) :
    ∃ b, isQuadraticResidueModPrime a p = some b :=
  ⟨_, isQuadraticResidueModPrime_eq_beq hp a⟩

/-- **One iteration.** It never panics, and what it pushes passes the test of the verifier. -/
theorem blumEntry_valid (hp : p.Prime) (hq : q.Prime) (hpq : p ≠ q) (hp3 : p % 4 = 3)
    (hq3 : q % 4 = 3) (H : Hash) (sid : List UInt8) (i : ℕ) :
    ∃ pushed, blumEntry H p q (p * q) sid i = some pushed ∧
      ∀ entry ∈ pushed, blumEntryValid H (p * q) sid ((entry.1, entry.2.1), entry.2.2) = true := by
  have hn : (0 : ℤ) < (p * q : ℕ) := by exact_mod_cast Nat.mul_pos hp.pos hq.pos
  set cMod := (blumChallenge H sid (p * q) i).fmod (p * q : ℕ) with hcMod
  -- a root of the residue that the verifier expects passes its test
  have hvalid : ∀ (bit : Bool) (root : ℤ),
      root ^ 2 ≡ (if bit then cMod else (p * q : ℕ) - cMod) [ZMOD (p * q : ℕ)] →
      blumEntryValid H (p * q) sid ((i, bit), root) = true := by
    intro bit root hroot
    rw [blumEntryValid, modpow_of_nonneg _ (by norm_num) hn]
    simp only [beq_iff_eq, Option.some.injEq, ← hcMod]
    rw [Int.fmod_eq_emod_of_nonneg _ (le_of_lt hn)]
    exact hroot
  obtain ⟨bp, hbp⟩ := isQuadraticResidueModPrime_eq hp cMod
  obtain ⟨bq, hbq⟩ := isQuadraticResidueModPrime_eq hq cMod
  obtain ⟨np, hnp⟩ := isQuadraticResidueModPrime_eq hp ((p * q : ℕ) - cMod)
  obtain ⟨nq, hnq⟩ := isQuadraticResidueModPrime_eq hq ((p * q : ℕ) - cMod)
  simp only [blumEntry, ← hcMod, hbp, hbq, hnp, hnq, Option.bind_eq_bind, Option.bind_some]
  by_cases hqr : (bp && bq) = true
  · rw [Bool.and_eq_true] at hqr
    obtain ⟨root, hroot, hsq⟩ := blumRoot_of_residue hp hq hpq hp3 hq3 (hqr.1 ▸ hbp) (hqr.2 ▸ hbq)
    refine ⟨some (i, true, root), ?_, fun entry hentry => ?_⟩
    · rw [hqr.1, hqr.2, Bool.and_self, if_pos rfl, hroot]
      rfl
    · cases hentry
      exact hvalid true root hsq
  · by_cases hneg : (np && nq) = true
    · rw [Bool.and_eq_true] at hneg
      obtain ⟨root, hroot, hsq⟩ :=
        blumRoot_of_residue hp hq hpq hp3 hq3 (hneg.1 ▸ hnp) (hneg.2 ▸ hnq)
      refine ⟨some (i, false, root), ?_, fun entry hentry => ?_⟩
      · rw [if_neg hqr, hneg.1, hneg.2, Bool.and_self, if_pos rfl, hroot]
        rfl
      · cases hentry
        exact hvalid false root hsq
    · refine ⟨none, ?_, fun entry hentry => ?_⟩
      · rw [if_neg hqr, if_neg hneg]
        rfl
      · cases hentry

end Blum

end Govis
