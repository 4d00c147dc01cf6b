import Govis.PaillierZkBounds

namespace Govis

open Arith Bytes Curve

/-!
# Multiplication to addition

`mta.rs`: party `j` holds a Paillier keypair and the factor `b`, party `i` holds the factor `a`, and
the two are to end up with a `beta` and an `alpha` that add up to `a * b`.

* `mtaRound1`, `mtaRound2`, `mtaFinalize` — the three steps, and `mta`, one after the other;
* `verifyRange_dummy` — the proof of the second message is accepted for every ciphertext;
* `mtaRound2_panics` — `-alpha` is an exponent, and a negative one panics;
* `mta_correct_iff` — **the protocol is correct** when the drawn `alpha` is zero, and panics
  otherwise.
-/

structure MtaRound1Msg where
  cB : ℤ
  rangeProof : RangeProof

structure MtaRound2Msg where
  cBeta : ℤ
  nosmallProof : RangeProof

structure MtaResult (C : Curve) where
  beta : C.Scalar

/-- What `mta_round1` and `mta_round2` draw. -/
structure MtaCoins where
  rhoB : ℕ
  rangeDraws : ProofDraws ℕ
  alpha : ℕ
  rhoBeta : ℕ

/-- `mta_round1`, which returns its randomness besides the message. -/
def mtaRound1 (H : Hash) (pkJ : PaillierPublicKey) (b : ℤ) (bBits : ℕ) (sid : List UInt8)
    (coins : MtaCoins) : Option (MtaRound1Msg × ℤ) := do
  let rhoB ← genBigintRange 1 pkJ.n coins.rhoB
  let cB ← encryptWithRho pkJ b rhoB
  let rangeProof ← proveRange H pkJ cB b rhoB bBits sid coins.rangeDraws
  return (⟨cB, rangeProof⟩, rhoB)

/-- The ciphertext of `mta_round2` and the mask in it. -/
def maskedProduct (pkJ : PaillierPublicKey) (cB a : ℤ) (aBits bBits : ℕ) (coins : MtaCoins) :
    Option (ℤ × ℤ) := do
  let sec := 256
  let alphaBits := aBits + bBits + sec
  let alpha ← genBigintRange 0 (2 ^ alphaBits) coins.alpha
  let cBA ← modpow cB a pkJ.nSq
  let negAlpha := 0 - alpha
  let rhoBeta ← genBigintRange 1 pkJ.n coins.rhoBeta
  let cNegAlpha ← encryptWithRho pkJ negAlpha rhoBeta
  return (add pkJ cBA cNegAlpha, alpha)

/-- `mta_round2`, which returns `alpha` besides the message. -/
def mtaRound2 (H : Hash) (pkJ : PaillierPublicKey) (msg1 : MtaRound1Msg) (a : ℤ) (aBits bBits : ℕ)
    (sid : List UInt8) (coins : MtaCoins) : Res String (MtaRound2Msg × ℤ) := do
  let rangeOk ← orPanic (verifyRange H pkJ msg1.cB bBits sid msg1.rangeProof)
  if ¬ rangeOk then .error (.err "MtA: Party j's range proof failed")
  else
    let (cBeta, alpha) ← orPanic (maskedProduct pkJ msg1.cB a aBits bBits coins)
    let dummyProof : RangeProof := ⟨0, 0, 0⟩
    return (⟨cBeta, dummyProof⟩, alpha)

/-- `mta_finalize`. -/
def mtaFinalize (C : Curve) (H : Hash) (skJ : PaillierPrivateKey) (pkJ : PaillierPublicKey)
    (msg2 : MtaRound2Msg) (aBits bBits : ℕ) (sid : List UInt8) : Res String (MtaResult C) := do
  let sec := 256
  let nosmallBound := aBits + bBits + sec
  let nosmallOk ← orPanic (verifyRange H pkJ msg2.cBeta nosmallBound sid msg2.nosmallProof)
  if ¬ nosmallOk then .error (.err "MtA: Party i's no-small-factor proof failed")
  else
    let betaRaw ← orPanic (decrypt skJ pkJ msg2.cBeta)
    let betaBytes := magnitude betaRaw
    return ⟨fromBeBytesModOrder C betaBytes⟩

/-- The three steps: what party `i` and party `j` end up with. -/
def mta (C : Curve) (H : Hash) (kp : PaillierKeypair) (a b : ℤ) (aBits bBits : ℕ)
    (sid : List UInt8) (coins : MtaCoins) : Res String (ℤ × C.Scalar) := do
  let (msg1, _) ← orPanic (mtaRound1 H kp.pk b bBits sid coins)
  let (msg2, alpha) ← mtaRound2 H kp.pk msg1 a aBits bBits sid coins
  let result ← mtaFinalize C H kp.sk kp.pk msg2 aBits bBits sid
  return (alpha, result.beta)

variable {C : Curve} {H : Hash} {sid : List UInt8} {pk : PaillierPublicKey} {a b aBits bBits : ℕ}
  {coins : MtaCoins}

/-! ### The steps -/

/-- A negative exponent panics. -/
theorem modpow_of_neg (b : ℤ) {e : ℤ} (he : e < 0) (m : ℤ) : modpow b e m = none :=
  if_pos (.inl he)

/-- **Round 1** completes with a ciphertext of `b` whose proof verifies. -/
theorem mtaRound1_spec (H : Hash) (sid : List UInt8) (h : pk.WellFormed) (hb : b < 2 ^ bBits)
    (hrho : ∀ rho, genBigintRange 1 pk.n coins.rhoB = some rho → IsCoprime rho pk.n) :
    ∃ msg1 rhoB, mtaRound1 H pk b bBits sid coins = some (msg1, rhoB) ∧
      Encrypts pk.n msg1.cB b ∧
      verifyRange H pk msg1.cB bBits sid msg1.rangeProof = some true := by
  obtain ⟨rho, c, hgen, henc, hmod⟩ := exists_encryption h b coins.rhoB
  obtain ⟨proof, hproof, haccept⟩ :=
    verifyRange_complete H sid h (lt_two_pow_add hb _) hmod coins.rangeDraws
  refine ⟨⟨c, proof⟩, rho, ?_, ⟨rho, hrho rho hgen, hmod⟩, haccept⟩
  simp only [mtaRound1, hgen, henc, hproof, Option.bind_eq_bind, Option.bind_some, Option.pure_def]

/-- A mask is drawn. -/
theorem exists_mask (bits u : ℕ) : ∃ alpha, genBigintRange 0 (2 ^ bits) u = some alpha ∧ 0 ≤ alpha := by
  obtain ⟨alpha, halpha, hnonneg, -⟩ :=
    genBigintRange_eq (show (0 : ℤ) < 2 ^ bits by positivity) u
  exact ⟨alpha, halpha, hnonneg⟩

/-- The product cannot be masked by a mask other than zero. -/
theorem maskedProduct_eq_none {cB a : ℤ}
    (halpha : genBigintRange 0 (2 ^ (aBits + bBits + 256)) coins.alpha ≠ some 0) :
    maskedProduct pk cB a aBits bBits coins = none := by
  obtain ⟨alpha, hdraw, hnonneg⟩ := exists_mask (aBits + bBits + 256) coins.alpha
  have hneg : 0 - alpha < 0 := by
    have hne : alpha ≠ 0 := by
      rintro rfl
      exact halpha hdraw
    omega
  have henc : ∀ rho, encryptWithRho pk (0 - alpha) rho = none := by
    intro rho
    rw [encryptWithRho, modpow_of_neg _ hneg]
    rfl
  simp only [maskedProduct, hdraw, Option.bind_eq_bind, Option.bind_some, henc, Option.bind_none,
    Option.bind_fun_none]

/-- With the mask zero, the product is encrypted as it is. -/
theorem maskedProduct_zero (h : pk.WellFormed) {cB : ℤ} (hcB : Encrypts pk.n cB b) (a : ℕ)
    (hrho : ∀ rho, genBigintRange 1 pk.n coins.rhoBeta = some rho → IsCoprime rho pk.n)
    (halpha : genBigintRange 0 (2 ^ (aBits + bBits + 256)) coins.alpha = some 0) :
    ∃ cBeta, maskedProduct pk cB a aBits bBits coins = some (cBeta, 0) ∧
      Encrypts pk.n cBeta (a * b) := by
  obtain ⟨rho, c0, hgen, henc, hmod⟩ := exists_encryption h 0 coins.rhoBeta
  obtain ⟨cBA, hpow, hcBA⟩ := encrypts_scalarMul h hcB a
  refine ⟨add pk cBA c0, ?_, encrypts_add h hcBA ⟨rho, hrho rho hgen, hmod⟩⟩
  rw [scalarMul] at hpow
  rw [Nat.cast_zero] at henc
  simp only [maskedProduct, halpha, hpow, hgen, sub_zero, henc, Option.bind_eq_bind,
    Option.bind_some, Option.pure_def]

/-- **The proof of the second message** proves nothing: it is accepted for every ciphertext. -/
theorem verifyRange_dummy (H : Hash) (sid : List UInt8) (h : pk.WellFormed) (c : ℤ) (ell : ℕ) :
    verifyRange H pk c ell sid ⟨0, 0, 0⟩ = some true := by
  obtain ⟨e, he, -⟩ := challenge_eq H (ascii "govis-paillier-range" ++ sid ++ minBE pk.n ++
    minBE pk.g ++ toBE 8 ell ++ magnitude c ++ magnitude 0)
  obtain ⟨hbase, -⟩ := gPow_modEq h 0
  have hzero : (0 : ℤ) * c ^ e ≡ gPow (0 : ℕ) pk.n pk.nSq * 0 ^ pk.n [ZMOD pk.n ^ 2] := by
    rw [zero_mul, zero_pow (Nat.ne_of_gt (lt_trans one_pos h.one_lt)), mul_zero]
  have hin : ¬ ((0 : ℤ) ≥ 2 ^ (ell + 256 + pk.n.size + 1) ∨ (0 : ℤ) < 0) := by
    have hpos : (0 : ℤ) < 2 ^ (ell + 256 + pk.n.size + 1) := by positivity
    omega
  have hcheck := checkEquation_of_modEq h le_rfl hbase hzero
  rw [Nat.cast_zero] at hcheck
  simp only [verifyRange, if_neg hin, rangeChallenge, he, hcheck]

/-- **Round 2** panics after it has accepted a proof and drawn a mask other than zero. -/
theorem mtaRound2_panics {msg1 : MtaRound1Msg} {a : ℤ}
    (hproof : verifyRange H pk msg1.cB bBits sid msg1.rangeProof = some true)
    (halpha : genBigintRange 0 (2 ^ (aBits + bBits + 256)) coins.alpha ≠ some 0) :
    mtaRound2 H pk msg1 a aBits bBits sid coins = .error .panic := by
  rw [mtaRound2, hproof, orPanic_some, ok_bind, if_neg (not_not.mpr rfl),
    maskedProduct_eq_none halpha]
  rfl

/-- **The last step** returns the plaintext. -/
theorem mtaFinalize_spec (C : Curve) (H : Hash) (sid : List UInt8) {p q : ℕ} {kp : PaillierKeypair}
    (h : ValidKeypair p q kp) {cBeta : ℤ} {m : ℕ} (hc : Encrypts kp.pk.n cBeta m)
    (hm : m < kp.pk.n) (aBits bBits : ℕ) :
    mtaFinalize C H kp.sk kp.pk ⟨cBeta, ⟨0, 0, 0⟩⟩ aBits bBits sid = .ok ⟨(m : C.Scalar)⟩ := by
  have hdecrypt := decrypt_of_encrypts h hc
  rw [Nat.mod_eq_of_lt hm] at hdecrypt
  rw [mtaFinalize, verifyRange_dummy H sid h.wellFormed, orPanic_some, ok_bind,
    if_neg (not_not.mpr rfl), hdecrypt, orPanic_some, ok_bind]
  simp only [fromBeBytesModOrder_magnitude]
  rfl

/-! ### The protocol -/

/-- Two factors in their bounds have a product below the modulus. -/
theorem product_lt {n : ℕ} (hn : 2 ^ (aBits + bBits + 257) < n) (ha : a < 2 ^ aBits)
    (hb : b < 2 ^ bBits) : a * b < n :=
  calc a * b < 2 ^ aBits * 2 ^ bBits := Nat.mul_lt_mul'' ha hb
    _ = 2 ^ (aBits + bBits) := (pow_add 2 aBits bBits).symm
    _ ≤ 2 ^ (aBits + bBits + 257) := Nat.pow_le_pow_right Nat.two_pos (Nat.le_add_right _ _)
    _ < n := hn

section Run

variable {p q : ℕ} {kp : PaillierKeypair}

/-- A mask other than zero ends the protocol in round 2. -/
theorem mta_panics (C : Curve) (H : Hash) (sid : List UInt8) (h : kp.pk.WellFormed) (a : ℤ)
    (hb : b < 2 ^ bBits)
    (hrhoB : ∀ rho, genBigintRange 1 kp.pk.n coins.rhoB = some rho → IsCoprime rho kp.pk.n)
    (halpha : genBigintRange 0 (2 ^ (aBits + bBits + 256)) coins.alpha ≠ some 0) :
    mta C H kp a b aBits bBits sid coins = .error .panic := by
  obtain ⟨msg1, rhoB, hround1, -, hproof⟩ := mtaRound1_spec H sid h hb hrhoB
  rw [mta, hround1, orPanic_some, ok_bind]
  simp only [mtaRound2_panics hproof halpha]
  rfl

/-- **When MtA is correct.**  For a keypair with a modulus above the bound, factors in their
    bounds and encryption randomness coprime to the modulus, the protocol completes with
    `alpha + beta = a * b` modulo the order exactly if the drawn `alpha` is zero. -/
theorem mta_correct_iff (C : Curve) (H : Hash) (sid : List UInt8) (h : Generated p q kp)
    (hn : 2 ^ (aBits + bBits + 257) < kp.pk.n) (ha : a < 2 ^ aBits) (hb : b < 2 ^ bBits)
    (hrhoB : ∀ rho, genBigintRange 1 kp.pk.n coins.rhoB = some rho → IsCoprime rho kp.pk.n)
    (hrhoBeta : ∀ rho, genBigintRange 1 kp.pk.n coins.rhoBeta = some rho →
      IsCoprime rho kp.pk.n) :
    (∃ (alpha : ℤ) (beta : C.Scalar), mta C H kp a b aBits bBits sid coins = .ok (alpha, beta) ∧
      (alpha : C.Scalar) + beta = a * b) ↔
      genBigintRange 0 (2 ^ (aBits + bBits + 256)) coins.alpha = some 0 := by
  constructor
  · rintro ⟨alpha, beta, hrun, -⟩
    by_contra halpha
    rw [mta_panics C H sid h.valid.wellFormed a hb hrhoB halpha] at hrun
    cases hrun
  · intro halpha
    obtain ⟨msg1, rhoB, hround1, hcB, hproof⟩ := mtaRound1_spec H sid h.valid.wellFormed hb hrhoB
    obtain ⟨cBeta, hmasked, hcBeta⟩ := maskedProduct_zero h.valid.wellFormed hcB a hrhoBeta halpha
    have hround2 : mtaRound2 H kp.pk msg1 a aBits bBits sid coins =
        .ok (⟨cBeta, ⟨0, 0, 0⟩⟩, 0) := by
      rw [mtaRound2, hproof, orPanic_some, ok_bind, if_neg (not_not.mpr rfl), hmasked]
      rfl
    have hlast := mtaFinalize_spec C H sid h.valid hcBeta (product_lt hn ha hb) aBits bBits
    refine ⟨0, ((a * b : ℕ) : C.Scalar), ?_, by push_cast; rw [zero_add]⟩
    rw [mta, hround1, orPanic_some, ok_bind]
    simp only [hround2, ok_bind, hlast]
    rfl

end Run

/-- The coins of a run on the factors 3 and 5: no randomness but the mask. -/
def maskCoins (alpha : ℕ) : MtaCoins := ⟨0, ⟨0, 0⟩, alpha, 0⟩

/-- **The mask 1 panics**, under a key of 1128 bits. -/
theorem mta_mask_one :
    ∃ kp, Generated largeP largeQ kp ∧ kp.pk = largeKey ∧ 2 ^ (8 + 8 + 257) < kp.pk.n ∧
      genBigintRange 0 (2 ^ (8 + 8 + 256)) (maskCoins 1).alpha = some 1 ∧
      mta smallCurve oneHash kp 3 5 8 8 [] (maskCoins 1) = .error .panic := by
  obtain ⟨kp, hkp, hpk⟩ := exists_generated_largeKey
  have hn : 2 ^ (8 + 8 + 257) < largeKey.n := by decide +kernel
  have hmask : genBigintRange 0 (2 ^ (8 + 8 + 256)) (maskCoins 1).alpha = some 1 := by
    decide +kernel
  refine ⟨kp, hkp, hpk, hpk ▸ hn, hmask, ?_⟩
  refine mta_panics smallCurve oneHash [] hkp.valid.wellFormed 3 (by decide)
    (fun rho => coprime_of_genBigintRange_zero) ?_
  rw [hmask]
  decide

/-- **The mask 0 completes.** -/
theorem mta_correct_iff_zero :
    ∃ kp, Generated largeP largeQ kp ∧ ∃ (alpha : ℤ) (beta : smallCurve.Scalar),
      mta smallCurve oneHash kp (3 : ℕ) (5 : ℕ) 8 8 [] (maskCoins 0) = .ok (alpha, beta) ∧
        (alpha : smallCurve.Scalar) + beta = (3 : ℕ) * (5 : ℕ) := by
  obtain ⟨kp, hkp, hpk⟩ := exists_generated_largeKey
  have hn : 2 ^ (8 + 8 + 257) < kp.pk.n := by
    rw [hpk]
    decide +kernel
  refine ⟨kp, hkp, (mta_correct_iff smallCurve oneHash [] hkp hn (by decide) (by decide)
    (fun rho => coprime_of_genBigintRange_zero) (fun rho => coprime_of_genBigintRange_zero)).mpr ?_⟩
  decide +kernel

end Govis
