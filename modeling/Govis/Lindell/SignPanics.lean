import Govis.Lindell.SignRelease
import Govis.Panics

namespace Govis

open Arith Bytes Curve Rounds Lindell

/-!
# Which messages make a signer panic

`run_sign` at its two signers, on whatever the other parties send.

* `runSign_p1_panics_iff` — `P1` panics at its own nonce zero only;
* `p2Answer_eq_panic_iff`, `runSign_p2_panics_iff` — `P2` panics on three kinds of offers;
* `signing_panics_iff` — **the two, with the four verifiers**.
-/

variable {C : Curve} {H : Hash}

namespace Lindell

section Steps

variable {publicKey : C.Point} {msgDigest : Vector UInt8 32}

theorem checkSignature_ne_panic (sig : Round3Msg) :
    checkSignature publicKey msgDigest sig ≠ .error .panic := by
  unfold checkSignature
  split
  · exact fun h => by cases h
  · exact fun h => by cases h

theorem acceptSignature_ne_panic (p1 : ℕ) (msgs3 : List (ℕ × Round3Msg)) :
    acceptSignature p1 publicKey msgDigest msgs3 ≠ .error .panic := by
  intro h
  rcases bind_eq_error.mp h with h | ⟨sig, -, h⟩
  · cases (okOr_eq_error.mp h).2
  · exact checkSignature_ne_panic sig h

/-- A decrypted number is not negative. -/
theorem decrypt_nonneg {pk : PaillierPublicKey} (hpk : pk.WellFormed) (sk : PaillierPrivateKey)
    {c m : ℤ} (h : decrypt sk pk c = some m) : 0 ≤ m := by
  rw [decrypt, hpk.modpow_eq] at h
  simp only [Option.bind_eq_bind, Option.bind_some, Option.pure_def, Option.some.injEq] at h
  have hpow : 0 ≤ c ^ sk.lambda % (pk.nSq : ℤ) := Int.emod_nonneg _ (ne_of_gt hpk.nSq_pos)
  have hn : (1 : ℤ) < pk.n := by exact_mod_cast hpk.one_lt
  have hl : 0 ≤ lFunction (c ^ sk.lambda % pk.nSq) pk.n := by
    rw [lFunction]
    rcases hpow.eq_or_lt with hzero | hpos
    -- minus one divided by the modulus truncates to zero
    · rw [← hzero, zero_sub, Int.neg_tdiv, Int.tdiv_eq_ediv_of_nonneg zero_le_one,
        Int.ediv_eq_zero_of_lt zero_le_one hn, neg_zero]
    · exact Int.tdiv_nonneg (by omega) (by omega)
  rw [← h]
  exact Int.tmod_nonneg _ (mul_nonneg hl (Int.natCast_nonneg _))

/-- **Combining never panics** under an own key. -/
theorem p1Combine_ne_panic {i : ℕ} {signers : ℕ × ℕ} {msg share lambda : C.Scalar}
    {state : P1State C} (hpk : state.pk.WellFormed)
    (hlambda : lagrangeCoeff C i [signers.1, signers.2] = some lambda)
    (msgs2 : List (ℕ × Round2Msg)) :
    p1Combine H i signers msg share (some state) msgs2 ≠ .error .panic := by
  intro h
  unfold p1Combine at h
  rw [okOr_some, ok_bind] at h
  rcases bind_eq_error.mp h with h | ⟨p2Data, -, h⟩
  · cases (okOr_eq_error.mp h).2
  · cases p2Data with
    | ack => cases h
    | p2Data cS2 mulProof =>
      rcases bind_eq_error.mp h with h | ⟨mulOk, -, h⟩
      · exact hpk.nSq_ne_zero ((verifyMul_eq_none_iff _ _ _ _ _ _ _).mp (orPanic_eq_panic.mp h)).1
      · split at h
        · cases h
        · obtain ⟨plain, hplain⟩ := @exists_decrypt ⟨state.pk, state.sk⟩ hpk cS2
          have hnonneg := decrypt_nonneg hpk state.sk hplain
          rw [hplain, orPanic_some, ok_bind, if_neg (not_lt.mpr hnonneg), orPanic_some, ok_bind,
            hlambda, orPanic_some, ok_bind] at h
          cases h

/-- **Encrypting panics** exactly for a modulus below 2, whatever the generator. -/
theorem p2Encrypt_eq_none_iff (H : Hash) (lambda msg share : C.Scalar) (n g : ℕ) (cKInv : ℤ)
    (rPoint : C.Point) (coins : P2Coins) :
    p2Encrypt H lambda msg share ⟨n, n ^ 2, g⟩ cKInv rPoint coins = none ↔
      n ≤ 1 := by
  by_cases hn : 1 < n
  · have hsq : 0 < (⟨n, n ^ 2, g⟩ : PaillierPublicKey).nSq := by
      show 0 < n ^ 2
      positivity
    obtain ⟨x, hx, -, -⟩ := genBigintRange_eq (show (1 : ℤ) < n by omega) coins.rhoS2
    obtain ⟨c, hc, -⟩ := exists_modpow hsq cKInv
      (lambda * (msg + pointXCoord rPoint * share)).val
    obtain ⟨z, hz⟩ := exists_encryptWithRho hsq 0 x
    have hc' : modpow cKInv (lambda * (msg + pointXCoord rPoint * share)).val (n * n : ℕ) =
        some c := by
      rw [← sq]
      exact hc
    obtain ⟨proof, hproof⟩ := exists_proveMul hn hsq H cKInv
      ((c * z).tmod (n * n : ℕ)) (lambda * (msg + pointXCoord rPoint * share)).val x curveBits
      (ascii "sign") coins.mulDraws
    rw [Nat.cast_zero] at hz
    simp only [p2Encrypt, scalarToBigint_eq, hc', hx, hz, hproof, Option.bind_eq_bind,
      Option.bind_some, Option.pure_def, reduceCtorEq, false_iff, not_le]
    exact hn
  · have hgen : genBigintRange 1 (n : ℤ) coins.rhoS2 = none := by
      rw [genBigintRange, if_neg (by omega)]
    simp only [p2Encrypt, hgen, Option.bind_eq_bind, Option.bind_none, Option.bind_fun_none,
      true_iff]
    omega

end Steps

/-- The public key that `P2` rebuilds from an offer. -/
def P1Data.key (data : P1Data C) : PaillierPublicKey := ⟨data.pkN, data.pkN ^ 2, data.pkG⟩

/-- The consistency proof of an offer is right on the curve. -/
def P1Data.OnCurve (H : Hash) (data : P1Data C) : Prop :=
  fromBeBytesModOrder C (magnitude data.consistencyProof.z) • data.point =
    data.consistencyProof.a + fromBeBytesModOrder C (magnitude (consistencyChallenge H
      (ascii "sign") data.pkN data.pkG data.cKInv data.point data.consistencyProof.a
      data.consistencyProof.cAlpha)) • C.generator

/-- What makes `P2` panic: the modulus zero with a range response in its bounds; or, behind a range
    proof that verifies, a consistency proof right on the curve that has a negative response or
    stands under the modulus one. -/
def OfferHarmful (H : Hash) (data : P1Data C) : Prop :=
  (data.pkN = 0 ∧ 0 ≤ data.rangeProof.z ∧ data.rangeProof.z < 2 ^ (curveBits + 256 + 1)) ∨
  (verifyRange H data.key data.cKInv curveBits (ascii "sign") data.rangeProof = some true ∧
    data.OnCurve H ∧ (data.consistencyProof.z < 0 ∨ data.pkN = 1))

/-- The range check panics for the modulus zero. -/
theorem verifyRange_key_eq_none_iff (H : Hash) (data : P1Data C) :
    verifyRange H data.key data.cKInv curveBits (ascii "sign") data.rangeProof = none ↔
      data.pkN = 0 ∧ 0 ≤ data.rangeProof.z ∧
        data.rangeProof.z < 2 ^ (curveBits + 256 + 1) := by
  rw [verifyRange_eq_none_iff, show data.key.nSq = data.pkN ^ 2 from rfl,
    show data.key.n = data.pkN from rfl, pow_eq_zero_iff two_ne_zero]
  refine and_congr_right fun hzero => ?_
  rw [hzero, Nat.size_zero, add_zero]

/-- What comes after the range check panics at a consistency proof right on the curve, with a negative
    response or under the modulus one, where nothing can be encrypted. -/
theorem consistencyStep_eq_panic_iff (H : Hash) (data : P1Data C) (hn : data.pkN ≠ 0)
    (e : SignError) {answer : Option Round2Msg} (hanswer : answer = none ↔ data.pkN ≤ 1) :
    (do
      let consistencyOk ← orPanic (verifyConsistency H data.key data.cKInv data.point
        (ascii "sign") data.consistencyProof)
      if ¬ consistencyOk then .error (.err e) else orPanic answer : Res SignError Round2Msg) =
        .error .panic ↔
      data.OnCurve H ∧ (data.consistencyProof.z < 0 ∨ data.pkN = 1) := by
  have hnSq : data.key.nSq ≠ 0 := pow_ne_zero 2 hn
  have hnone := verifyConsistency_eq_none_iff H data.key data.cKInv data.point (ascii "sign")
    data.consistencyProof
  rw [or_iff_left hnSq] at hnone
  have hone : data.pkN = 1 → (verifyConsistency H data.key data.cKInv data.point
      (ascii "sign") data.consistencyProof = some true ↔
        data.OnCurve H ∧ 0 ≤ data.consistencyProof.z) := fun h =>
    verifyConsistency_one H (by rw [P1Data.key, h, one_pow]) _ _ _ _
  rw [bind_eq_error]
  constructor
  · rintro (h | ⟨consistencyOk, hok, h⟩)
    · obtain ⟨hcurve, hneg⟩ := hnone.mp (orPanic_eq_panic.mp h)
      exact ⟨hcurve, .inl hneg⟩
    · cases consistencyOk with
      | false => cases h
      | true =>
        have hle := hanswer.mp (orPanic_eq_panic.mp h)
        have hn1 : data.pkN = 1 := by omega
        exact ⟨((hone hn1).mp (orPanic_eq_ok.mp hok)).1, .inr hn1⟩
  · rintro ⟨hcurve, hcase⟩
    by_cases hneg : data.consistencyProof.z < 0
    · exact .inl (orPanic_eq_panic.mpr (hnone.mpr ⟨hcurve, hneg⟩))
    · have hn1 := hcase.resolve_left hneg
      refine .inr ⟨true, orPanic_eq_ok.mpr ((hone hn1).mpr ⟨hcurve, not_lt.mp hneg⟩), ?_⟩
      exact orPanic_eq_panic.mpr (hanswer.mpr hn1.le)

/-- **The answer** panics exactly on a harmful offer. -/
theorem p2Answer_eq_panic_iff (H : Hash) (p1 : ℕ) (lambda msg share : C.Scalar) (coins : P2Coins)
    (msgs1 : List (ℕ × Round1Msg C)) :
    p2Answer H p1 lambda msg share coins msgs1 = .error .panic ↔
      ∃ data, messageFrom p1 msgs1 = some (.p1Data data) ∧ OfferHarmful H data := by
  unfold p2Answer
  cases hfrom : messageFrom p1 msgs1 with
  | none => simp [okOr, bind, Except.bind]
  | some p1Msg =>
    cases p1Msg with
    | ack => simp
    | p1Data data =>
      simp only [okOr_some, ok_bind, Option.some.injEq, Round1Msg.p1Data.injEq, exists_eq_left']
      rw [OfferHarmful, ← verifyRange_key_eq_none_iff, ← P1Data.key]
      cases hrange : verifyRange H data.key data.cKInv curveBits (ascii "sign")
          data.rangeProof with
      | none => simp [bind, Except.bind]
      | some rangeOk =>
        cases rangeOk with
        | false => simp
        | true =>
          have hn : data.pkN ≠ 0 := fun h =>
            nSq_ne_zero_of_verifyRange hrange (by rw [P1Data.key, h, zero_pow two_ne_zero])
          simp only [orPanic_some, ok_bind, not_true_eq_false, if_false, reduceCtorEq, true_and,
            false_or]
          exact consistencyStep_eq_panic_iff H data hn _ (p2Encrypt_eq_none_iff ..)

section Run

variable {n : ℕ} {signers : ℕ × ℕ} {share : C.Scalar} {publicKey : C.Point}
  {msgDigest : Vector UInt8 32} {c1 : P1Coins C} {c2 : P2Coins}

theorem exists_lagrangeCoeff (hn : n < 2 ^ 16) (h1 : signers.1 < n) (h2 : signers.2 < n)
    (hne : signers.1 ≠ signers.2) {i : ℕ} (hi : i < n) :
    ∃ lambda, lagrangeCoeff C i [signers.1, signers.2] = some lambda := by
  refine ⟨_, lagrangeCoeff_eq_weight (by omega) (fun j hj => ?_) (by simpa using hne)⟩
  rcases List.mem_pair.mp hj with rfl | rfl <;> omega

/-- **`run_sign` at `P1` panics** exactly if its own nonce is zero. -/
theorem runSign_p1_panics_iff {p q : ℕ} (hgen : Generated p q c1.keypair) (hn : n < 2 ^ 16)
    (h1 : signers.1 < n) (h2 : signers.2 < n) (hne : signers.1 ≠ signers.2)
    (inb : Inbox (SignMsg C)) :
    (runSign H signers.1 n signers share publicKey msgDigest c1 c2).exec inb = .error .panic ↔
      c1.k = 0 := by
  obtain ⟨lambda, hlambda⟩ := exists_lagrangeCoeff (C := C) hn h1 h2 hne h1
  have hcheck : 2 ≤ n ∧ signers.1 < n := ⟨by omega, h1⟩
  by_cases hk : c1.k = 0
  · have hoffer : p1Offer H c1 = none := by
      rw [p1Offer, if_pos hk]
      rfl
    refine iff_of_true ?_ hk
    simp only [runSign, if_pos hcheck, hlambda, hoffer, orPanic_some, Proc.attempt_ok,
      Option.map_none, orPanic_none, if_true, Proc.attempt_error, Proc.exec_done]
  · obtain ⟨c, rangeProof, consistencyProof, hoffer, -⟩ :=
      p1Offer_spec H hgen.valid.wellFormed hk
    refine iff_of_false ?_ hk
    rw [exec_runSign_p1 hcheck hne hlambda hoffer]
    intro h
    rcases bind_eq_error.mp h with h | ⟨sig, -, h⟩
    · exact p1Combine_ne_panic hgen.valid.wellFormed hlambda (inb 1) h
    · exact checkSignature_ne_panic sig h

/-- **`run_sign` at `P2` panics** exactly on a harmful offer. -/
theorem runSign_p2_panics_iff (hn : n < 2 ^ 16) (h1 : signers.1 < n) (h2 : signers.2 < n)
    (hne : signers.1 ≠ signers.2) (inb : Inbox (SignMsg C)) :
    (runSign H signers.2 n signers share publicKey msgDigest c1 c2).exec inb = .error .panic ↔
      ∃ data, messageFrom signers.1 (inb 0) = some (.p1Data data) ∧ OfferHarmful H data := by
  obtain ⟨lambda, hlambda⟩ := exists_lagrangeCoeff (C := C) hn h1 h2 hne h2
  have hcheck : 2 ≤ n ∧ signers.2 < n := ⟨by omega, h2⟩
  rw [← p2Answer_eq_panic_iff H signers.1 lambda (digestScalar C msgDigest) share c2]
  simp only [runSign, if_pos hcheck, hlambda, orPanic_some, Proc.attempt_ok, if_neg hne.symm,
    if_true, Proc.exec_send, Proc.exec_recv, Proc.exec_attempt_eq_error, Proc.exec_done]
  -- what comes after the answer does not panic
  refine or_iff_left ?_
  rintro ⟨answer, -, h⟩
  exact acceptSignature_ne_panic _ _ h

end Run

end Lindell

/-- **Panics on a peer's message.** The verifiers return a boolean and `run_sign` returns exactly
    outside the kinds of inputs above: nothing guards `verify_range` and `verify_mul` against the
    modulus zero, and `verify_consistency` and `verify_log` against it and against negative
    responses. -/
theorem signing_panics_iff {p q n : ℕ} {signers : ℕ × ℕ} {c1 : P1Coins C}
    (hgen : Generated p q c1.keypair) (hn : n < 2 ^ 16) (h1 : signers.1 < n) (h2 : signers.2 < n)
    (hne : signers.1 ≠ signers.2) (H : Hash) (share : C.Scalar) (publicKey : C.Point)
    (msgDigest : Vector UInt8 32) (c2 : P2Coins) :
    (∀ pk c ell sid proof, (verifyRange H pk c ell sid proof).isSome ↔
      (0 ≤ proof.z → proof.z < 2 ^ (ell + 256 + pk.n.size + 1) → pk.nSq ≠ 0)) ∧
    (∀ pk cIn cOut bits sid proof, (verifyMul H pk cIn cOut bits sid proof).isSome ↔
      (0 ≤ proof.z → proof.z < 2 ^ (bits + 256 + pk.n.size + 1) → pk.nSq ≠ 0)) ∧
    (∀ pk c (rPoint : C.Point) sid proof, (verifyConsistency H pk c rPoint sid proof).isSome ↔
      (fromBeBytesModOrder C (magnitude proof.z) • rPoint = proof.a +
          fromBeBytesModOrder C (magnitude (consistencyChallenge H sid pk.n pk.g c rPoint proof.a
            proof.cAlpha)) • C.generator →
        0 ≤ proof.z ∧ pk.nSq ≠ 0)) ∧
    (∀ pk c (pub : C.Point) sid proof, (verifyLog H pk c pub sid proof).isSome ↔
      (fromBeBytesModOrder C (magnitude proof.z) • C.generator = proof.a +
          fromBeBytesModOrder C (magnitude (logChallenge H sid pk.n pk.g c pub proof.a
            proof.cAlpha)) • pub →
        0 ≤ proof.z ∧ pk.nSq ≠ 0)) ∧
    (∀ inb, (runSign H signers.1 n signers share publicKey msgDigest c1 c2).exec inb ≠
      .error .panic ↔ c1.k ≠ 0) ∧
    (∀ inb, (runSign H signers.2 n signers share publicKey msgDigest c1 c2).exec inb ≠
        .error .panic ↔
      ∀ data, messageFrom signers.1 (inb 0) = some (.p1Data data) → ¬ OfferHarmful H data) := by
  refine ⟨?_, ?_, ?_, ?_, fun inb => not_congr (runSign_p1_panics_iff hgen hn h1 h2 hne inb),
    fun inb => ?_⟩
  · intro pk c ell sid proof
    rw [Option.isSome_iff_ne_none, ne_eq, verifyRange_eq_none_iff]
    tauto
  · intro pk cIn cOut bits sid proof
    rw [Option.isSome_iff_ne_none, ne_eq, verifyMul_eq_none_iff]
    tauto
  · intro pk c rPoint sid proof
    rw [Option.isSome_iff_ne_none, ne_eq, verifyConsistency_eq_none_iff, not_and, not_or, not_lt]
  · intro pk c pub sid proof
    rw [Option.isSome_iff_ne_none, ne_eq, verifyLog_eq_none_iff, not_and, not_or, not_lt]
  · rw [ne_eq, runSign_p2_panics_iff hn h1 h2 hne inb]
    simp only [not_exists, not_and]

/-- An offer under the modulus zero. -/
def zeroOffer : P1Data smallCurve := ⟨0, 0, 0, 0, ⟨0, 0, 0⟩, ⟨0, 0, 0, 0⟩⟩

/-- A response of zero under the modulus zero, a response of minus one under the small key with a
    matching first message, and `P2` on an offer of the first kind. -/
theorem signing_panics_small :
    verifyRange oneHash ⟨0, 0, 0⟩ 0 256 [] ⟨0, 0, 0⟩ = none ∧
    verifyMul oneHash ⟨0, 0, 0⟩ 0 0 256 [] ⟨0, 0, 0⟩ = none ∧
    verifyConsistency oneHash smallKeypair.pk 0 0 []
      (⟨0, -smallCurve.generator, -1, 0⟩ : ConsistencyProof smallCurve) = none ∧
    verifyLog oneHash smallKeypair.pk 0 0 []
      (⟨0, smallCurve.generator, -1, 0⟩ : LogProof smallCurve) = none ∧
    (runSign oneHash 1 2 (0, 1) 0 0 (Vector.replicate 32 0)
        (⟨smallKeypair, 1, 0, ⟨0, 0⟩, ⟨1, 0⟩⟩ : P1Coins smallCurve) ⟨0, ⟨0, 0⟩⟩).exec
      (fun r => match r with
        | 0 => [(0, .p1Data zeroOffer)]
          | _ => []) = .error .panic := by
  have hone : fromBeBytesModOrder smallCurve (magnitude 1) = 1 := by
    rw [show (1 : ℤ) = ((1 : ℕ) : ℤ) from rfl, fromBeBytesModOrder_magnitude, Nat.cast_one]
  have hminus : fromBeBytesModOrder smallCurve (magnitude (-1)) = 1 := hone
  refine ⟨?_, ?_, ?_, ?_, ?_⟩
  · exact (verifyRange_eq_none_iff _ _ _ _ _ _).mpr ⟨rfl, le_rfl, by positivity⟩
  · exact (verifyMul_eq_none_iff _ _ _ _ _ _ _).mpr ⟨rfl, le_rfl, by positivity⟩
  · refine (verifyConsistency_eq_none_iff _ _ _ _ _ _).mpr ⟨?_, .inl (by decide)⟩
    show fromBeBytesModOrder smallCurve (magnitude (-1)) • (0 : smallCurve.Point) =
      -smallCurve.generator + fromBeBytesModOrder smallCurve (magnitude 1) • smallCurve.generator
    rw [hone, hminus, smul_zero, one_smul, neg_add_cancel]
  · refine (verifyLog_eq_none_iff _ _ _ _ _ _).mpr ⟨?_, .inl (by decide)⟩
    show fromBeBytesModOrder smallCurve (magnitude (-1)) • smallCurve.generator =
      smallCurve.generator + fromBeBytesModOrder smallCurve (magnitude 1) • (0 : smallCurve.Point)
    rw [hone, hminus, smul_zero, one_smul, add_zero]
  · refine (@runSign_p2_panics_iff smallCurve oneHash 2 (0, 1) 0 0 (Vector.replicate 32 0) _ _
      (by decide) (by decide) (by decide) (by decide) _).mpr
        ⟨zeroOffer, rfl, .inl ⟨rfl, le_rfl, ?_⟩⟩
    show (0 : ℤ) < 2 ^ (curveBits + 256 + 1)
    positivity

/-- An offer under the small key, with responses of zero. -/
def plainOffer : P1Data smallCurve :=
  ⟨smallCurve.generator, 1, smallKeypair.pk.n, smallKeypair.pk.g, ⟨0, 0, 0⟩, ⟨0, 0, 0, 0⟩⟩

/-- The messages of round 0 with one offer of party 0. -/
def offerInbox (data : P1Data smallCurve) : Inbox (SignMsg smallCurve)
  | 0 => [(0, .p1Data data)]
  | _ => []

/-- `P1` with the nonce 1 on anything, and `P2` on a harmless and on a harmful offer. -/
theorem signing_panics_iff_offers :
    (∀ inb, (runSign oneHash 0 2 (0, 1) 0 0 (Vector.replicate 32 0)
        (⟨smallKeypair, 1, 0, ⟨0, 0⟩, ⟨1, 0⟩⟩ : P1Coins smallCurve) ⟨0, ⟨0, 0⟩⟩).exec inb ≠
      .error .panic) ∧
    (runSign oneHash 1 2 (0, 1) 0 0 (Vector.replicate 32 0)
        (⟨smallKeypair, 1, 0, ⟨0, 0⟩, ⟨1, 0⟩⟩ : P1Coins smallCurve) ⟨0, ⟨0, 0⟩⟩).exec
      (offerInbox plainOffer) ≠ .error .panic ∧
    ¬ (runSign oneHash 1 2 (0, 1) 0 0 (Vector.replicate 32 0)
        (⟨smallKeypair, 1, 0, ⟨0, 0⟩, ⟨1, 0⟩⟩ : P1Coins smallCurve) ⟨0, ⟨0, 0⟩⟩).exec
      (offerInbox zeroOffer) ≠ .error .panic := by
  obtain ⟨-, -, -, -, hp1, hp2⟩ := @signing_panics_iff smallCurve _ _ 2 (0, 1)
    ⟨smallKeypair, 1, 0, ⟨0, 0⟩, ⟨1, 0⟩⟩ generated_smallKeypair (by decide) (by decide)
    (by decide) (by decide) oneHash 0 0 (Vector.replicate 32 0) ⟨0, ⟨0, 0⟩⟩
  refine ⟨fun inb => (hp1 inb).mpr one_ne_zero, (hp2 _).mpr fun data h => ?_, fun h => ?_⟩
  · obtain rfl : plainOffer = data := Round1Msg.p1Data.inj (Option.some.inj h)
    rintro (⟨hzero, -⟩ | ⟨-, -, hneg | hone⟩)
    · exact absurd hzero (by decide)
    · exact absurd hneg (by decide)
    · exact absurd hone (by decide)
  · refine (hp2 _).mp h zeroOffer rfl (.inl ⟨rfl, le_rfl, ?_⟩)
    show (0 : ℤ) < 2 ^ (curveBits + 256 + 1)
    positivity

end Govis
