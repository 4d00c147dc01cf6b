import Govis.Arith.Sigma
import Govis.PaillierZkComplete
import Govis.SmallCurve
import Mathlib.Data.Nat.Size

namespace Govis

open Arith Bytes Curve

/-!
# What the proofs about ciphertexts are worth

Special soundness of the range, multiplication, consistency and discrete-log proofs of
`paillier_zk.rs`: from two accepted responses to one first message, the relation that the proof
stands for.  The verifiers divide one equation by another only on paper: none of them checks that
a first message is invertible.

* `verifyRangeAt`, `verifyMulAt`, `verifyConsistencyAt`, `verifyLogAt` — the verifiers with the
  challenge as a parameter;
* `checkEquation_eq_true_iff` — what the equation they share comes to;
* `Void` — the first messages that bind to nothing;
* `specialSound_iff` — **the proofs are special sound exactly at the other first messages**;
* `checkEquation_zero` — the equation holds when first message and response are zero, so that
  `forgedMul` and `forgedLog` are accepted for every ciphertext.
-/

variable {C : Curve}

/-! ### The verifiers with the challenge as a parameter -/

/-- `verify_range` on the challenge `e`. -/
def verifyRangeAt (e : ℤ) (pk : PaillierPublicKey) (c : ℤ) (ell : ℕ) (proof : RangeProof) :
    Option Bool :=
  let sec := 256
  let nBit := pk.n.size
  let bound : ℤ := 2 ^ (ell + sec + nBit + 1)
  if proof.z ≥ bound ∨ proof.z < 0 then some false
  else checkEquation pk proof.cAlpha c e (gPow proof.z pk.n pk.nSq) proof.s

/-- `verify_mul` on the challenge `e`. -/
def verifyMulAt (e : ℤ) (pk : PaillierPublicKey) (cIn cOut : ℤ) (scalarBoundBits : ℕ)
    (proof : MulProof) : Option Bool :=
  let sec := 256
  let nBit := pk.n.size
  let bound : ℤ := 2 ^ (scalarBoundBits + sec + nBit + 1)
  if proof.z ≥ bound ∨ proof.z < 0 then some false
  else do
    let cInZ ← modpow cIn proof.z pk.nSq
    checkEquation pk proof.cT cOut e cInZ proof.sResponse

/-- `verify_consistency` on the challenge `e`. -/
def verifyConsistencyAt (e : ℤ) (pk : PaillierPublicKey) (c : ℤ) (rPoint : C.Point)
    (proof : ConsistencyProof C) : Option Bool :=
  verifyPoint pk c rPoint C.generator (fun _ _ => e) proof

/-- `verify_log` on the challenge `e`. -/
def verifyLogAt (e : ℤ) (pk : PaillierPublicKey) (c : ℤ) (pub : C.Point) (proof : LogProof C) :
    Option Bool :=
  verifyPoint pk c C.generator pub (fun _ _ => e) proof

section Challenges

variable (H : Hash) (sid : List UInt8) (pk : PaillierPublicKey) (c : ℤ)

theorem verifyRange_eq (ell : ℕ) (proof : RangeProof) : verifyRange H pk c ell sid proof =
    verifyRangeAt (rangeChallenge H sid pk.n pk.g ell c proof.cAlpha) pk c ell proof := rfl

theorem verifyMul_eq (cOut : ℤ) (bits : ℕ) (proof : MulProof) :
    verifyMul H pk c cOut bits sid proof =
      verifyMulAt (mulChallenge H sid pk.n pk.g c cOut proof.cT) pk c cOut bits proof := rfl

theorem verifyConsistency_eq (rPoint : C.Point) (proof : ConsistencyProof C) :
    verifyConsistency H pk c rPoint sid proof = verifyConsistencyAt
      (consistencyChallenge H sid pk.n pk.g c rPoint proof.a proof.cAlpha) pk c rPoint proof := rfl

theorem verifyLog_eq (pub : C.Point) (proof : LogProof C) : verifyLog H pk c pub sid proof =
    verifyLogAt (logChallenge H sid pk.n pk.g c pub proof.a proof.cAlpha) pk c pub proof := rfl

end Challenges

/-! ### The equation -/

section Equation

variable {pk : PaillierPublicKey}

/-- **The shared equation.**  It holds modulo `n ^ 2`; the truncated remainders differ in sign when
    the first message is negative, unless both vanish. -/
theorem checkEquation_eq_true_iff (h : pk.WellFormed) {cα c base b s : ℤ} {e z : ℕ}
    (hbase : 0 ≤ base) (hb : base ≡ b ^ z [ZMOD pk.n ^ 2]) :
    checkEquation pk cα c e base s = some true ↔
      SigmaAccepts pk.n b cα c e z s ∧ (cα < 0 → (pk.n : ℤ) ^ 2 ∣ cα * c ^ e) := by
  have hpos := h.nSq_pos
  set M : ℤ := (pk.nSq : ℤ) with hM
  have hsq : (pk.n : ℤ) ^ 2 = M := h.nSq_cast.symm
  have hcheck : checkEquation pk cα c e base s = some true ↔
      (cα * (c ^ e % M)).tmod M = (base * (s ^ pk.n % M)).tmod M := by
    rw [checkEquation, h.modpow_eq, h.modpow_eq]
    simp [hM]
  have hX : cα * (c ^ e % M) ≡ cα * c ^ e [ZMOD M] := (Int.mod_modEq _ _).mul_left _
  have hY : base * (s ^ pk.n % M) ≡ b ^ z * s ^ pk.n [ZMOD M] := by
    rw [hsq] at hb
    exact hb.mul (Int.mod_modEq _ _)
  have hc0 : 0 ≤ c ^ e % M := Int.emod_nonneg _ (ne_of_gt hpos)
  have hY0 : 0 ≤ base * (s ^ pk.n % M) := mul_nonneg hbase (Int.emod_nonneg _ (ne_of_gt hpos))
  rw [hcheck, SigmaAccepts, hsq]
  constructor
  · intro heq
    have hmod : cα * (c ^ e % M) ≡ base * (s ^ pk.n % M) [ZMOD M] := by
      refine (tmod_modEq _ _).symm.trans ?_
      rw [heq]
      exact tmod_modEq _ _
    refine ⟨(hX.symm.trans hmod).trans hY, fun hneg => ?_⟩
    -- the left side is not positive, the right one not negative
    have hle : (cα * (c ^ e % M)).tmod M ≤ 0 := by
      rw [show cα * (c ^ e % M) = -(-cα * (c ^ e % M)) by ring, Int.neg_tmod]
      exact neg_nonpos.mpr (Int.tmod_nonneg _ (mul_nonneg (by omega) hc0))
    have hge : 0 ≤ (base * (s ^ pk.n % M)).tmod M := Int.tmod_nonneg _ hY0
    have hzero : (cα * (c ^ e % M)).tmod M = 0 := by omega
    exact Int.modEq_zero_iff_dvd.mp
      (hX.symm.trans (Int.modEq_zero_iff_dvd.mpr (Int.dvd_of_tmod_eq_zero hzero)))
  · rintro ⟨hacc, hneg⟩
    have hmod : cα * (c ^ e % M) ≡ base * (s ^ pk.n % M) [ZMOD M] := (hX.trans hacc).trans hY.symm
    by_cases hsign : cα < 0
    · have hdvd : M ∣ cα * (c ^ e % M) :=
        Int.modEq_zero_iff_dvd.mp (hX.trans (Int.modEq_zero_iff_dvd.mpr (hneg hsign)))
      have hdvd' : M ∣ base * (s ^ pk.n % M) :=
        Int.modEq_zero_iff_dvd.mp (hmod.symm.trans (Int.modEq_zero_iff_dvd.mpr hdvd))
      rw [Int.tmod_eq_zero_of_dvd hdvd, Int.tmod_eq_zero_of_dvd hdvd']
    · rw [Int.tmod_eq_emod_of_nonneg (mul_nonneg (by omega) hc0), Int.tmod_eq_emod_of_nonneg hY0]
      exact hmod

/-- The same with the power that `modpow` returns. -/
theorem checkEquation_pow_iff (h : pk.WellFormed) {cα c b s : ℤ} {e k : ℕ} :
    checkEquation pk cα c e (b ^ k % pk.nSq) s = some true ↔
      SigmaAccepts pk.n b cα c e k s ∧ (cα < 0 → (pk.n : ℤ) ^ 2 ∣ cα * c ^ e) := by
  have hmod : b ^ k % pk.nSq ≡ b ^ k [ZMOD pk.n ^ 2] := by
    rw [← h.nSq_cast]
    exact Int.mod_modEq _ _
  exact checkEquation_eq_true_iff h (Int.emod_nonneg _ (ne_of_gt h.nSq_pos)) hmod

/-- **The void proof**: first message and response zero satisfy the equation of every statement. -/
theorem checkEquation_zero (h : pk.WellFormed) (c base : ℤ) (e : ℕ) :
    checkEquation pk 0 c e base 0 = some true := by
  rw [checkEquation, h.modpow_eq, h.modpow_eq, zero_pow h.n_ne_zero]
  simp

/-- The response `z` to `e` satisfies the equation. -/
def Answers (pk : PaillierPublicKey) (b cα c : ℤ) (e : ℕ) (z s : ℤ) : Prop :=
  0 ≤ z ∧ SigmaAccepts pk.n b cα c e z.toNat s ∧ (cα < 0 → (pk.n : ℤ) ^ 2 ∣ cα * c ^ e)

theorem verifyRangeAt_eq_true_iff (h : pk.WellFormed) {c : ℤ} {ell e : ℕ} {proof : RangeProof} :
    verifyRangeAt e pk c ell proof = some true ↔ proof.z < 2 ^ (ell + 256 + pk.n.size + 1) ∧
      Answers pk pk.g proof.cAlpha c e proof.z proof.s := by
  unfold verifyRangeAt Answers
  by_cases hrange : proof.z ≥ 2 ^ (ell + 256 + pk.n.size + 1) ∨ proof.z < 0
  · simp only [if_pos hrange, Option.some.injEq, Bool.false_eq_true, false_iff]
    rintro ⟨hlt, h0, -⟩
    omega
  · obtain ⟨k, hk⟩ := Int.eq_ofNat_of_zero_le (show 0 ≤ proof.z by omega)
    obtain ⟨h0, hmod⟩ := gPow_modEq h k
    rw [← h.g_cast] at hmod
    rw [hk] at hrange
    simp only [hk, if_neg hrange, Int.toNat_natCast]
    rw [checkEquation_eq_true_iff h h0 hmod]
    constructor
    · exact fun hacc => ⟨by omega, by omega, hacc⟩
    · exact fun hacc => hacc.2.2

theorem verifyMulAt_eq_true_iff (h : pk.WellFormed) {cIn cOut : ℤ} {bits e : ℕ}
    {proof : MulProof} :
    verifyMulAt e pk cIn cOut bits proof = some true ↔
      proof.z < 2 ^ (bits + 256 + pk.n.size + 1) ∧
        Answers pk cIn proof.cT cOut e proof.z proof.sResponse := by
  unfold verifyMulAt Answers
  by_cases hrange : proof.z ≥ 2 ^ (bits + 256 + pk.n.size + 1) ∨ proof.z < 0
  · simp only [if_pos hrange, Option.some.injEq, Bool.false_eq_true, false_iff]
    rintro ⟨hlt, h0, -⟩
    omega
  · obtain ⟨k, hk⟩ := Int.eq_ofNat_of_zero_le (show 0 ≤ proof.z by omega)
    rw [hk] at hrange
    simp only [hk, if_neg hrange, Int.toNat_natCast, h.modpow_eq, Option.bind_eq_bind,
      Option.bind_some]
    rw [checkEquation_pow_iff h]
    constructor
    · exact fun hacc => ⟨by omega, by omega, hacc⟩
    · exact fun hacc => hacc.2.2

/-- The equation on the curve that the consistency and discrete-log proofs check. -/
def OnCurve (base point : C.Point) (e : ℕ) (a : C.Point) (z : ℤ) : Prop :=
  fromBeBytesModOrder C (magnitude z) • base = a + (e : C.Scalar) • point

section VerifyPoint

variable {c : ℤ} {base point : C.Point} {chal : C.Point → ℤ → ℤ} {proof : PointProof C} {e : ℕ}

/-- After the equation on the curve comes that of the ciphertexts. -/
theorem verifyPoint_of_onCurve (he : chal proof.a proof.cAlpha = e)
    (hcurve : OnCurve base point e proof.a proof.z) :
    verifyPoint pk c base point chal proof = (modpow pk.g proof.z pk.nSq).bind fun gZ =>
      checkEquation pk proof.cAlpha c e gZ proof.sResponse := by
  rw [OnCurve] at hcurve
  simp only [verifyPoint, he, fromBeBytesModOrder_magnitude e, hcurve, ne_eq, not_true_eq_false,
    if_false, Option.bind_eq_bind]

theorem verifyPoint_of_not_onCurve (he : chal proof.a proof.cAlpha = e)
    (hcurve : ¬ OnCurve base point e proof.a proof.z) :
    verifyPoint pk c base point chal proof = some false := by
  rw [OnCurve] at hcurve
  simp only [verifyPoint, he, fromBeBytesModOrder_magnitude e, hcurve, ne_eq, not_false_eq_true,
    if_true]

/-- What the two verifiers that share `verify_point` check; a negative response panics. -/
theorem verifyPoint_eq_true_iff (h : pk.WellFormed) (he : chal proof.a proof.cAlpha = e) :
    verifyPoint pk c base point chal proof = some true ↔
      OnCurve base point e proof.a proof.z ∧
        Answers pk pk.g proof.cAlpha c e proof.z proof.sResponse := by
  by_cases hcurve : OnCurve base point e proof.a proof.z
  · rw [verifyPoint_of_onCurve he hcurve, and_iff_right hcurve]
    by_cases hz : proof.z < 0
    · rw [show modpow pk.g proof.z pk.nSq = none from if_pos (.inl hz)]
      constructor
      · intro hnone
        cases hnone
      · rintro ⟨h0, -⟩
        omega
    · obtain ⟨k, hk⟩ := Int.eq_ofNat_of_zero_le (show 0 ≤ proof.z by omega)
      simp only [Answers, hk, Int.toNat_natCast, h.modpow_eq, Option.bind_some]
      rw [checkEquation_pow_iff h]
      constructor
      · exact fun hacc => ⟨by omega, hacc⟩
      · exact fun hacc => hacc.2
  · rw [verifyPoint_of_not_onCurve he hcurve]
    simp [hcurve]

end VerifyPoint

/-! ### Proofs for every ciphertext -/

/-- First message and response zero answer every challenge. -/
theorem answers_zero (h : pk.WellFormed) (b c : ℤ) (e : ℕ) {z : ℤ} (hz : 0 ≤ z) :
    Answers pk b 0 c e z 0 := by
  refine ⟨hz, ?_, fun hneg => absurd hneg (lt_irrefl 0)⟩
  unfold SigmaAccepts
  rw [zero_mul, zero_pow h.n_ne_zero, mul_zero]

/-- A multiplication proof for every two ciphertexts. -/
def forgedMul : MulProof := ⟨0, 0, 0⟩

theorem verifyMul_forgedMul (H : Hash) (sid : List UInt8) (h : pk.WellFormed) (cIn cOut : ℤ)
    (bits : ℕ) : verifyMul H pk cIn cOut bits sid forgedMul = some true := by
  obtain ⟨e, he, -⟩ := challenge_eq H (ascii "govis-paillier-mul" ++ sid ++ minBE pk.n ++
    minBE pk.g ++ magnitude cIn ++ magnitude cOut ++ magnitude 0)
  rw [verifyMul_eq, mulChallenge, show forgedMul.cT = 0 from rfl, he]
  exact (verifyMulAt_eq_true_iff h).mpr ⟨by positivity, answers_zero h cIn cOut e (le_refl 0)⟩

/-- A discrete-log proof for every ciphertext `c`, by a prover that knows the discrete logarithm `x`
    of the point. -/
def forgedLog (H : Hash) (sid : List UInt8) (pk : PaillierPublicKey) (c : ℤ) (x : C.Scalar) :
    LogProof C :=
  let e := logChallenge H sid pk.n pk.g c (x • C.generator) 0 0
  { cAlpha := 0, a := 0, z := e * scalarToBigint x, sResponse := 0 }

theorem verifyLog_forgedLog (H : Hash) (sid : List UInt8) (h : pk.WellFormed) (c : ℤ)
    (x : C.Scalar) :
    verifyLog H pk c (x • C.generator) sid (forgedLog H sid pk c x) = some true := by
  obtain ⟨e, he, -⟩ := challenge_eq H (ascii "govis-paillier-log" ++ sid ++ minBE pk.n ++
    minBE pk.g ++ magnitude c ++ toBytes true (x • C.generator) ++ toBytes true (0 : C.Point) ++
    magnitude 0)
  refine (verifyPoint_eq_true_iff h he).mpr ⟨?_, answers_zero h _ c e ?_⟩
  -- the response is the challenge times the logarithm
  · show fromBeBytesModOrder C (magnitude (logChallenge H sid pk.n pk.g c (x • C.generator) 0 0 *
      scalarToBigint x)) • C.generator = 0 + (e : C.Scalar) • x • C.generator
    rw [logChallenge, he, scalarToBigint_eq, ← Nat.cast_mul, fromBeBytesModOrder_magnitude,
      Nat.cast_mul, ZMod.natCast_zmod_val, mul_smul, zero_add]
  · show 0 ≤ logChallenge H sid pk.n pk.g c (x • C.generator) 0 0 * scalarToBigint x
    rw [logChallenge, he, scalarToBigint_eq]
    positivity

end Equation

/-! ### Void first messages -/

section Void

variable {p q : ℕ}

/-- The public key of two primes. -/
def keyOf (p q : ℕ) : PaillierPublicKey where
  n := p * q
  nSq := p * q * (p * q)
  g := p * q + 1

theorem keyOf_wellFormed (hp : p.Prime) (hq : q.Prime) : (keyOf p q).WellFormed where
  one_lt := by
    show 1 < p * q
    nlinarith [hp.two_le, hq.two_le]
  nSq_eq := rfl
  g_eq := rfl

theorem keyOf_g_cast (p q : ℕ) : ((keyOf p q).g : ℤ) = 1 + (p * q : ℕ) := by
  show ((p * q + 1 : ℕ) : ℤ) = 1 + (p * q : ℕ)
  push_cast
  ring

/-- The generator is invertible. -/
theorem isCoprime_keyOf_g (p q : ℕ) : IsCoprime ((keyOf p q).g : ℤ) (p * q : ℕ) := by
  rw [keyOf_g_cast]
  exact ⟨1, -1, by ring⟩

/-- A **void** first message: it vanishes modulo `n ^ 2`, or it is positive, vanishes modulo the
    square of one prime factor and is invertible modulo the other. -/
def Void (p q : ℕ) (cα : ℤ) : Prop :=
  ((p * q : ℕ) : ℤ) ^ 2 ∣ cα ∨
    0 < cα ∧ ((p : ℤ) ^ 2 ∣ cα ∧ ¬ (q : ℤ) ∣ cα ∨ (q : ℤ) ^ 2 ∣ cα ∧ ¬ (p : ℤ) ∣ cα)

instance (p q : ℕ) (cα : ℤ) : Decidable (Void p q cα) :=
  inferInstanceAs (Decidable (_ ∨ 0 < cα ∧ _))

/-- **Extraction** from two answers to a first message that is not void. -/
theorem Answers.extracts (hp : p.Prime) (hq : q.Prime) (hpq : p ≠ q) {b cα c z z' s s' : ℤ}
    {e e' : ℕ} (hvoid : ¬ Void p q cα) (hb : IsCoprime b (p * q : ℕ))
    (hc : IsCoprime c (p * q : ℕ)) (hlt : e' < e) (h : Answers (keyOf p q) b cα c e z s)
    (h' : Answers (keyOf p q) b cα c e' z' s') :
    Extracts (p * q) b c e e' z.toNat z'.toNat := by
  obtain ⟨-, hacc, hneg⟩ := h
  obtain ⟨-, hacc', -⟩ := h'
  have hN : 2 ≤ p * q := (keyOf_wellFormed hp hq).one_lt
  have hpp := Nat.prime_iff_prime_int.mp hp
  have hqq := Nat.prime_iff_prime_int.mp hq
  -- a factor that divides the message divides it twice
  have htwice : ∀ {r : ℕ}, r.Prime → r ∣ p * q → (r : ℤ) ∣ cα → (r : ℤ) ^ 2 ∣ cα := by
    intro r hr hrN hdvd
    by_contra honce
    exact not_sigmaAccepts_of_dvd_once hr hrN hN hb hc hdvd honce hacc
  have htwicep := htwice hp (dvd_mul_right p q)
  have htwiceq := htwice hq (dvd_mul_left q p)
  have hcopsq : IsCoprime ((p : ℤ) ^ 2) ((q : ℤ) ^ 2) :=
    (Nat.isCoprime_iff_coprime.mpr ((Nat.coprime_primes hp hq).mpr hpq)).pow
  -- a message that is not positive and shares a factor vanishes
  have hsign : 0 < cα ∨ (((p * q : ℕ) : ℤ) ^ 2 ∣ cα) := by
    rcases lt_trichotomy cα 0 with hlt0 | rfl | hpos
    · have hunit : IsCoprime (((p * q : ℕ) : ℤ) ^ 2) (c ^ e) := hc.symm.pow_left.pow_right
      exact .inr (hunit.dvd_of_dvd_mul_right (hneg hlt0))
    · exact .inr (dvd_zero _)
    · exact .inl hpos
  have hpos : 0 < cα := hsign.resolve_right fun h => hvoid (.inl h)
  by_cases hpα : (p : ℤ) ∣ cα
  · by_cases hqα : (q : ℤ) ∣ cα
    · refine absurd (Or.inl ?_) hvoid
      rw [Nat.cast_mul, mul_pow]
      exact hcopsq.mul_dvd (htwicep hpα) (htwiceq hqα)
    · exact absurd (Or.inr ⟨hpos, .inl ⟨htwicep hpα, hqα⟩⟩) hvoid
  · by_cases hqα : (q : ℤ) ∣ cα
    · exact absurd (Or.inr ⟨hpos, .inr ⟨htwiceq hqα, hpα⟩⟩) hvoid
    · refine SigmaAccepts.extract (by omega) ?_ hc hlt hacc hacc'
      rw [Nat.cast_mul]
      exact ((hpp.coprime_iff_not_dvd.mpr hpα).symm).mul_right
        ((hqq.coprime_iff_not_dvd.mpr hqα).symm)

/-- **Forgeries** for a void first message: a ciphertext and two challenges, answered by every two
    numbers with certain remainders modulo `n`, from which nothing can be extracted. -/
theorem Void.exists_forgery (hp : p.Prime) (hq : q.Prime) (hpq : p ≠ q) {cα : ℤ}
    (hvoid : Void p q cα) :
    ∃ (c s : ℤ) (e e' d : ℕ), IsCoprime c (p * q : ℕ) ∧ e' < e ∧ d < p * q ∧
      ∀ z z' : ℕ, z % (p * q) = d → z' % (p * q) = 0 →
        Answers (keyOf p q) (keyOf p q).g cα c e z s ∧
          Answers (keyOf p q) (keyOf p q).g cα c e' z' s ∧
          ¬ Extracts (p * q) (keyOf p q).g c e e' z z' := by
  have hsign : cα < 0 → ((p * q : ℕ) : ℤ) ^ 2 ∣ cα := by
    intro hneg
    rcases hvoid with hdvd | ⟨hpos, -⟩
    · exact hdvd
    · omega
  rw [keyOf_g_cast]
  -- the argument for one of the two primes
  have hcase : ∀ r t : ℕ, r.Prime → t.Prime → r ≠ t → r * t = p * q → (r : ℤ) ^ 2 ∣ cα →
      (¬ (t : ℤ) ∣ cα ∨ (t : ℤ) ^ 2 ∣ cα) → ∃ (c s : ℤ) (e e' d : ℕ),
        IsCoprime c (p * q : ℕ) ∧ e' < e ∧ d < p * q ∧
        ∀ z z' : ℕ, z % (p * q) = d → z' % (p * q) = 0 →
          Answers (keyOf p q) (1 + (p * q : ℕ)) cα c e z s ∧
            Answers (keyOf p q) (1 + (p * q : ℕ)) cα c e' z' s ∧
            ¬ Extracts (p * q) (1 + (p * q : ℕ)) c e e' z z' := by
    intro r t hr ht hrt hmul hrα htα
    obtain ⟨c, s, e, e', hc, hlt, hacc, hext⟩ := Arith.exists_forgery hr ht hrt hrα htα
    rw [hmul] at hc hacc hext
    refine ⟨c, s, e, e', t, hc, hlt, ?_, fun z z' hz hz' => ?_⟩
    · nlinarith [hr.two_le, ht.two_le]
    · have hN : t ∣ p * q := ⟨r, by rw [← hmul, mul_comm]⟩
      have htz : t ∣ z := by
        rw [← Nat.div_add_mod z (p * q), hz]
        exact dvd_add (hN.mul_right _) (dvd_refl t)
      have htz' : t ∣ z' := hN.trans (Nat.dvd_of_mod_eq_zero hz')
      refine ⟨⟨by omega, (hacc z htz).1, fun h => (hsign h).mul_right _⟩,
        ⟨by omega, (hacc z' htz').2, fun h => (hsign h).mul_right _⟩, hext z z' fun hdvd => ?_⟩
      -- the difference of the answers is `t` modulo `r`
      have hrt' : (r : ℤ) ∣ t := by
        have hrN : (r : ℤ) ∣ (p * q : ℕ) := ⟨t, by rw [← hmul, Nat.cast_mul]⟩
        have hz1 : (r : ℤ) ∣ (z : ℤ) - t := by
          rw [← Nat.div_add_mod z (p * q), hz, Nat.cast_add, Nat.cast_mul, add_sub_cancel_right]
          exact hrN.mul_right _
        have hz2 : (r : ℤ) ∣ z' :=
          hrN.trans (Int.natCast_dvd_natCast.mpr (Nat.dvd_of_mod_eq_zero hz'))
        have := dvd_sub (dvd_add hdvd hz2) hz1
        rwa [sub_add_cancel, sub_sub_cancel] at this
      exact hrt ((Nat.prime_dvd_prime_iff_eq hr ht).mp (Int.natCast_dvd_natCast.mp hrt'))
  rcases hvoid with hdvd | ⟨hpos, ⟨hpα, hqα⟩ | ⟨hqα, hpα⟩⟩
  · rw [Nat.cast_mul, mul_pow] at hdvd
    exact hcase p q hp hq hpq rfl ((dvd_mul_right _ _).trans hdvd)
      (.inr ((dvd_mul_left _ _).trans hdvd))
  · exact hcase p q hp hq hpq rfl hpα (.inl hqα)
  · exact hcase q p hq hp hpq.symm (mul_comm q p) hqα (.inl hpα)

/-- `1 + n` is not an `n`-th power. -/
theorem not_extracts_generator (hp : p.Prime) (hq : q.Prime) (hpq : p ≠ q) {b : ℤ}
    (hb : IsCoprime b (p * q : ℕ)) (z : ℕ) : ¬ Extracts (p * q) b (keyOf p q).g 1 0 z z := by
  rintro ⟨u, hu, heq⟩
  rw [keyOf_g_cast, Nat.sub_zero, pow_one, mul_comm _ (b ^ z)] at heq
  have hcancel : (1 + (p * q : ℕ) : ℤ) ≡ u ^ (p * q) [ZMOD (p * q : ℕ) ^ 2] := by
    have hcop : IsCoprime (((p * q : ℕ) : ℤ) ^ 2) (b ^ z) := hb.symm.pow_left.pow_right
    rw [Int.modEq_iff_dvd, ← mul_sub] at heq
    exact Int.modEq_iff_dvd.mpr (hcop.dvd_of_dvd_mul_left heq)
  have hdvd : (p : ℤ) ∣ ((0 : ℕ) : ℤ) - (1 : ℕ) := by
    refine dvd_sub_of_pow_modEq (u := u) hp hq hpq ?_ ?_
    · rw [Nat.cast_mul] at hu
      exact hu.of_mul_right_left
    · rw [pow_one, pow_zero, one_mul]
      refine hcancel.of_dvd ?_
      push_cast
      exact pow_dvd_pow_of_dvd (dvd_mul_right _ _) 2
  have hone : (p : ℤ) ∣ 1 := by
    rw [Nat.cast_zero, Nat.cast_one, zero_sub, dvd_neg] at hdvd
    exact hdvd
  exact (Nat.prime_iff_prime_int.mp hp).not_dvd_one hone

end Void

/-! ### Special soundness -/

/-- A verifier of ciphertexts over `b` is **special sound**: two accepted responses extract the
    relation, and no response is accepted for every ciphertext and challenge. -/
structure SpecialSound (n : ℕ) (b : ℤ) (accepts : ℤ → ℤ → ℤ → ℤ → Option Bool) : Prop where
  extracts : ∀ (c : ℤ) (e e' : ℕ) (z z' s s' : ℤ), IsCoprime c n → e' < e →
    accepts c e z s = some true → accepts c e' z' s' = some true →
      Extracts n b c e e' z.toNat z'.toNat
  not_universal : ∀ z s : ℤ, ∃ (c : ℤ) (e : ℕ), IsCoprime c n ∧ accepts c e z s ≠ some true

/-- Range proofs with the first message `cα`. -/
def RangeSound (pk : PaillierPublicKey) (ell : ℕ) (cα : ℤ) : Prop :=
  SpecialSound pk.n pk.g fun c e z s => verifyRangeAt e pk c ell ⟨cα, z, s⟩

/-- Multiplication proofs with the first message `cT`. -/
def MulSound (pk : PaillierPublicKey) (scalarBoundBits : ℕ) (cT : ℤ) : Prop :=
  ∀ cIn : ℤ, IsCoprime cIn pk.n →
    SpecialSound pk.n cIn fun c e z s => verifyMulAt e pk cIn c scalarBoundBits ⟨cT, z, s⟩

/-- Consistency proofs with the first message `cα`, `a`. -/
def ConsistencySound (pk : PaillierPublicKey) (cα : ℤ) (a : C.Point) : Prop :=
  ∀ rPoint : C.Point,
    SpecialSound pk.n pk.g fun c e z s => verifyConsistencyAt e pk c rPoint ⟨cα, a, z, s⟩

/-- Discrete-log proofs with the first message `cα`, `a`. -/
def LogSound (pk : PaillierPublicKey) (cα : ℤ) (a : C.Point) : Prop :=
  ∀ pub : C.Point, SpecialSound pk.n pk.g fun c e z s => verifyLogAt e pk c pub ⟨cα, a, z, s⟩

section Soundness

variable {p q : ℕ} {cα : ℤ} {accepts : ℤ → ℤ → ℤ → ℤ → Option Bool}

/-- A verifier that accepts answers only is special sound at every other first message. -/
theorem specialSound_of_answers (hp : p.Prime) (hq : q.Prime) (hpq : p ≠ q)
    (hvoid : ¬ Void p q cα) {b : ℤ} (hb : IsCoprime b (p * q : ℕ))
    (h : ∀ (c : ℤ) (e : ℕ) (z s : ℤ), accepts c e z s = some true →
      Answers (keyOf p q) b cα c e z s) :
    SpecialSound (p * q) b accepts where
  extracts c e e' z z' s s' hc hlt hacc hacc' :=
    (h c e z s hacc).extracts hp hq hpq hvoid hb hc hlt (h c e' z' s' hacc')
  not_universal z s := by
    by_contra hall
    push Not at hall
    have hg := isCoprime_keyOf_g p q
    exact not_extracts_generator hp hq hpq hb z.toNat ((h _ 1 z s (hall _ 1 hg)).extracts hp hq hpq
      hvoid hb hg one_pos (h _ 0 z s (hall _ 0 hg)))

/-- A verifier that accepts enough answers is not special sound at a void first message. -/
theorem Void.not_specialSound (hp : p.Prime) (hq : q.Prime) (hpq : p ≠ q) (hvoid : Void p q cα)
    (h : ∀ d e e' : ℕ, d < p * q → ∃ z z' : ℕ, z % (p * q) = d ∧ z' % (p * q) = 0 ∧
      ∀ c s : ℤ, (Answers (keyOf p q) (keyOf p q).g cα c e z s → accepts c e z s = some true) ∧
        (Answers (keyOf p q) (keyOf p q).g cα c e' z' s → accepts c e' z' s = some true)) :
    ¬ SpecialSound (p * q) (keyOf p q).g accepts := by
  intro hsound
  obtain ⟨c, s, e, e', d, hc, hlt, hd, hforge⟩ := hvoid.exists_forgery hp hq hpq
  obtain ⟨z, z', hz, hz', hacc⟩ := h d e e' hd
  obtain ⟨hans, hans', hext⟩ := hforge z z' hz hz'
  apply hext
  exact hsound.extracts c e e' z z' s s hc hlt ((hacc c s).1 hans) ((hacc c s).2 hans')

/-- A remainder is below the bounds of the verifiers. -/
theorem lt_bound (k : ℕ) {d n : ℕ} (hd : d < n) : (d : ℤ) < 2 ^ (k + 256 + n.size + 1) := by
  have hn : n < 2 ^ n.size := Nat.lt_size_self n
  have hle : 2 ^ n.size ≤ 2 ^ (k + 256 + n.size + 1) :=
    Nat.pow_le_pow_right Nat.two_pos (by omega)
  exact_mod_cast lt_of_lt_of_le (hd.trans hn) hle

theorem rangeSound_iff (hp : p.Prime) (hq : q.Prime) (hpq : p ≠ q) (ell : ℕ) (cα : ℤ) :
    RangeSound (keyOf p q) ell cα ↔ ¬ Void p q cα := by
  have hwf := keyOf_wellFormed hp hq
  constructor
  · intro hsound hvoid
    refine hvoid.not_specialSound hp hq hpq (fun d e e' hd => ?_) hsound
    refine ⟨d, 0, Nat.mod_eq_of_lt hd, Nat.zero_mod _, fun c s => ⟨fun hans => ?_, fun hans => ?_⟩⟩
    · exact (verifyRangeAt_eq_true_iff hwf).mpr ⟨lt_bound ell hd, hans⟩
    · exact (verifyRangeAt_eq_true_iff hwf).mpr ⟨lt_bound ell (Nat.zero_lt_of_lt hd), hans⟩
  · intro hvoid
    apply specialSound_of_answers hp hq hpq hvoid (isCoprime_keyOf_g p q)
    intro c e z s hacc
    exact ((verifyRangeAt_eq_true_iff hwf).mp hacc).2

theorem mulSound_iff (hp : p.Prime) (hq : q.Prime) (hpq : p ≠ q) (bits : ℕ) (cα : ℤ) :
    MulSound (keyOf p q) bits cα ↔ ¬ Void p q cα := by
  have hwf := keyOf_wellFormed hp hq
  constructor
  · intro hsound hvoid
    -- the generator is a ciphertext
    refine hvoid.not_specialSound hp hq hpq (fun d e e' hd => ?_)
      (hsound _ (isCoprime_keyOf_g p q))
    refine ⟨d, 0, Nat.mod_eq_of_lt hd, Nat.zero_mod _, fun c s => ⟨fun hans => ?_, fun hans => ?_⟩⟩
    · exact (verifyMulAt_eq_true_iff hwf).mpr ⟨lt_bound bits hd, hans⟩
    · exact (verifyMulAt_eq_true_iff hwf).mpr ⟨lt_bound bits (Nat.zero_lt_of_lt hd), hans⟩
  · intro hvoid cIn hcIn
    apply specialSound_of_answers hp hq hpq hvoid hcIn
    intro c e z s hacc
    exact ((verifyMulAt_eq_true_iff hwf).mp hacc).2

/-- The two proofs about points, from the verifier they share. -/
theorem specialSound_point (hp : p.Prime) (hq : q.Prime) (hpq : p ≠ q) (hvoid : ¬ Void p q cα)
    (a base point : C.Point) :
    SpecialSound (p * q) (keyOf p q).g fun c e z s =>
      verifyPoint (keyOf p q) c base point (fun _ _ => e) ⟨cα, a, z, s⟩ := by
  apply specialSound_of_answers hp hq hpq hvoid (isCoprime_keyOf_g p q)
  intro c e z s hacc
  exact ((verifyPoint_eq_true_iff (keyOf_wellFormed hp hq) rfl).mp hacc).2

/-- The equation on the curve leaves the remainder of the response modulo `n` open. -/
theorem exists_onCurve {n : ℕ} (hn : n.Coprime C.q) (a : C.Point) (d e : ℕ) :
    ∃ z : ℕ, z ≡ d [MOD n] ∧ OnCurve C.generator C.generator e a z := by
  obtain ⟨z, hzn, hzq⟩ := Nat.chineseRemainder hn d (dlog a + (e : C.Scalar)).val
  refine ⟨z, hzn, ?_⟩
  have hz : (z : C.Scalar) = dlog a + e := by
    rw [(ZMod.natCast_eq_natCast_iff _ _ _).mpr hzq, ZMod.natCast_zmod_val]
  rw [OnCurve, fromBeBytesModOrder_magnitude, hz, add_smul, dlog_smul_generator]

theorem not_specialSound_point (hp : p.Prime) (hq : q.Prime) (hpq : p ≠ q) (hpC : p ≠ C.q)
    (hqC : q ≠ C.q) (hvoid : Void p q cα) (a : C.Point) :
    ¬ SpecialSound (p * q) (keyOf p q).g fun c e z s =>
      verifyPoint (keyOf p q) c C.generator C.generator (fun _ _ => e) ⟨cα, a, z, s⟩ := by
  have hcop : (p * q).Coprime C.q := Nat.Coprime.mul_left
    ((Nat.coprime_primes hp C.q_prime).mpr hpC) ((Nat.coprime_primes hq C.q_prime).mpr hqC)
  apply hvoid.not_specialSound hp hq hpq
  intro d e e' hd
  obtain ⟨z, hz, hcurve⟩ := exists_onCurve hcop a d e
  obtain ⟨z', hz', hcurve'⟩ := exists_onCurve hcop a 0 e'
  have hwf := keyOf_wellFormed hp hq
  refine ⟨z, z', ?_, ?_, fun c s => ⟨fun hans => ?_, fun hans => ?_⟩⟩
  · exact Eq.trans hz (Nat.mod_eq_of_lt hd)
  · exact Eq.trans hz' (Nat.zero_mod _)
  · exact (verifyPoint_eq_true_iff hwf rfl).mpr ⟨hcurve, hans⟩
  · exact (verifyPoint_eq_true_iff hwf rfl).mpr ⟨hcurve', hans⟩

/-- **Special soundness** of the four proofs holds exactly at the first messages that are not void.
    For the proofs about points, the other half `a` of the first message does not matter; that they
    fail at void ones is shown for keys whose factors are not the order of the curve. -/
theorem specialSound_iff (C : Curve) (hp : p.Prime) (hq : q.Prime) (hpq : p ≠ q) (ell bits : ℕ)
    (cα : ℤ) :
    (RangeSound (keyOf p q) ell cα ↔ ¬ Void p q cα) ∧
      (MulSound (keyOf p q) bits cα ↔ ¬ Void p q cα) ∧
      (¬ Void p q cα → ∀ a : C.Point,
        ConsistencySound (keyOf p q) cα a ∧ LogSound (keyOf p q) cα a) ∧
      (p ≠ C.q → q ≠ C.q → ∀ a : C.Point,
        (ConsistencySound (keyOf p q) cα a ↔ ¬ Void p q cα) ∧
          (LogSound (keyOf p q) cα a ↔ ¬ Void p q cα)) := by
  have hpoint : ¬ Void p q cα → ∀ a : C.Point,
      ConsistencySound (keyOf p q) cα a ∧ LogSound (keyOf p q) cα a := fun hvoid a =>
    ⟨fun rPoint => specialSound_point hp hq hpq hvoid a rPoint C.generator,
      fun pub => specialSound_point hp hq hpq hvoid a C.generator pub⟩
  refine ⟨rangeSound_iff hp hq hpq ell cα, mulSound_iff hp hq hpq bits cα, hpoint,
    fun hpC hqC a => ⟨⟨fun hsound hvoid => ?_, fun hvoid => (hpoint hvoid a).1⟩,
      ⟨fun hsound hvoid => ?_, fun hvoid => (hpoint hvoid a).2⟩⟩⟩
  · exact not_specialSound_point hp hq hpq hpC hqC hvoid a (hsound C.generator)
  · exact not_specialSound_point hp hq hpq hpC hqC hvoid a (hsound C.generator)

/-- The first message `1` under the key of 7 and 11. -/
theorem specialSound_one : RangeSound (keyOf 7 11) 256 1 ∧ MulSound (keyOf 7 11) 256 1 ∧
    ∀ a : smallCurve.Point, ConsistencySound (keyOf 7 11) 1 a ∧ LogSound (keyOf 7 11) 1 a := by
  have hvoid : ¬ Void 7 11 1 := by decide
  obtain ⟨hrange, hmul, hpoint, hiff⟩ := specialSound_iff smallCurve (show Nat.Prime 7 by norm_num)
    (show Nat.Prime 11 by norm_num) (by decide) 256 256 1
  have hother := hiff (show 7 ≠ 65537 by decide) (show 11 ≠ 65537 by decide)
  exact ⟨hrange.mpr hvoid, hmul.mpr hvoid, fun a =>
    ⟨(hother a).1.mpr hvoid, (hpoint hvoid a).2⟩⟩

/-- **A proof of everything.**  Under the key of 7 and 11 the range proof `0, 1, 0` is accepted for
    every ciphertext, whatever the hash; together with `0, 0, 0` on another challenge it extracts
    nothing, and multiplication proofs fail in the same way. -/
theorem not_specialSound_zero :
    (∀ (H : Hash) (sid : List UInt8) (c : ℤ),
      verifyRange H (keyOf 7 11) c 256 sid ⟨0, 1, 0⟩ = some true) ∧
      (IsCoprime (1 : ℤ) (keyOf 7 11).n ∧
        verifyRangeAt 1 (keyOf 7 11) 1 256 ⟨0, 1, 0⟩ = some true ∧
        verifyRangeAt 0 (keyOf 7 11) 1 256 ⟨0, 0, 0⟩ = some true ∧
        ¬ Extracts (keyOf 7 11).n (keyOf 7 11).g 1 1 0 1 0) ∧
      ¬ MulSound (keyOf 7 11) 256 0 := by
  have hp : Nat.Prime 7 := by norm_num
  have hq : Nat.Prime 11 := by norm_num
  have hwf := keyOf_wellFormed hp hq
  have haccept : ∀ (e : ℕ) (c : ℤ) {z : ℤ}, 0 ≤ z → z < 2 →
      verifyRangeAt e (keyOf 7 11) c 256 ⟨0, z, 0⟩ = some true := by
    intro e c z h0 h2
    have hbound : (2 : ℤ) ≤ 2 ^ (256 + 256 + (keyOf 7 11).n.size + 1) := by
      rw [pow_succ]
      have : (1 : ℤ) ≤ 2 ^ (256 + 256 + (keyOf 7 11).n.size) := one_le_pow₀ (by norm_num)
      omega
    rw [verifyRangeAt, if_neg (by simp only [ge_iff_le]; omega)]
    exact checkEquation_zero hwf c _ e
  refine ⟨fun H sid c => ?_, ⟨isCoprime_one_left, haccept 1 1 (by decide) (by decide),
    haccept 0 1 (by decide) (by decide), ?_⟩, ?_⟩
  · obtain ⟨e, he, -⟩ := challenge_eq H (ascii "govis-paillier-range" ++ sid ++ minBE (keyOf 7 11).n ++
      minBE (keyOf 7 11).g ++ toBE 8 256 ++ magnitude c ++ magnitude 0)
    rw [verifyRange_eq, rangeChallenge, he]
    exact haccept e c (by decide) (by decide)
  · rintro ⟨u, hu, heq⟩
    rw [keyOf_g_cast, one_pow, one_mul, show (keyOf 7 11).n = 7 * 11 from rfl] at heq
    rw [show (keyOf 7 11).n = 7 * 11 from rfl, Nat.cast_mul] at hu
    have hdvd := dvd_sub_of_pow_modEq (u := u) (z := 1) hp hq (by decide) hu.of_mul_right_left
      ((show _ ≡ (1 : ℤ) [ZMOD _] by rw [pow_zero]).trans (heq.of_dvd (by norm_num)))
    norm_num at hdvd
  · rw [mulSound_iff hp hq (by decide)]
    decide

end Soundness

end Govis
