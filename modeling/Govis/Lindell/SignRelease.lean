import Govis.Lindell.SignRuns
import Govis.PaillierZkSound
import Govis.Rounds.Solo

namespace Govis.Lindell

open Arith Bytes Curve Rounds

/-!
# Lindell: which signatures `P1` releases

`P1` broadcasts the combined signature and verifies it afterwards.

* `signNet` — `run_sign` with corrupt parties, which may tell every party something else;
* `Signs` — what makes a number the second half of a signature with a given nonce;
* `runSign_releases_iff` — **what `P1` has broadcast verifies exactly if what `P2` encrypted
  completes its part**, and an `InvalidSignature` comes after the broadcast;
* `runSign_releases_invalid` — a run in which it does not verify.
-/

variable {C : Curve} {H : Hash} {n : ℕ} {signers : ℕ × ℕ} {share : ℕ → C.Scalar}
  {publicKey : C.Point} {msgDigest : Vector UInt8 32} {p1Coins : ℕ → P1Coins C}
  {p2Coins : ℕ → P2Coins} {corrupt : ℕ → Prop}

/-- The parties run `run_sign`. -/
def signNet (H : Hash) (n : ℕ) (signers : ℕ × ℕ) (share : ℕ → C.Scalar) (publicKey : C.Point)
    (msgDigest : Vector UInt8 32) (p1Coins : ℕ → P1Coins C) (p2Coins : ℕ → P2Coins)
    (corrupt : ℕ → Prop) : Setup (SignMsg C) (Res SignError SignOutput) where
  n := n
  prog i := runSign H i n signers (share i) publicKey msgDigest (p1Coins i) (p2Coins i)
  corrupt := corrupt
  reliable _ := False

/-! ### The signing equation -/

/-- The number `s` completes the nonce `k` to a signature of `z`: some nonce `k'` with the same
    first half satisfies the signing equation. -/
def Signs (publicKey : C.Point) (z k s : C.Scalar) : Prop :=
  if s = 0 then pointXCoord (k • C.generator) = 0
  else ∃ k' : C.Scalar, pointXCoord (k' • C.generator) = pointXCoord (k • C.generator) ∧
    k' * s = z + pointXCoord (k • C.generator) * dlog publicKey

/-- The point of the verifier, by its logarithm. -/
theorem ecdsaPoint_eq (Q : C.Point) (z r s : C.Scalar) :
    ecdsaPoint Q z r s = ((z + r * dlog Q) / s) • C.generator := by
  conv_lhs => rw [ecdsaPoint, ← dlog_smul_generator Q]
  rw [smul_smul, ← add_smul]
  congr 1
  ring

/-- The encoding of a scalar encodes it. -/
theorem ofBE_toBeBytes_cast (a : C.Scalar) : ((ofBE (toBeBytes a) : ℕ) : C.Scalar) = a := by
  rw [ofBE_toBeBytes, ZMod.natCast_zmod_val]

/-- **Acceptance** of a pair with the first half of `k`. -/
theorem verifySignature_iff_signs (Q : C.Point) (msgDigest : Vector UInt8 32) (k s : C.Scalar) :
    verifySignature Q msgDigest (toBeBytes (pointXCoord (k • C.generator))) (toBeBytes s) = true ↔
      Signs Q (digestScalar C msgDigest) k s := by
  rw [verifySignature_eq_true_iff, ofBE_toBeBytes_cast, ofBE_toBeBytes_cast, Signs]
  by_cases hs : s = 0
  · rw [if_pos hs, if_pos hs]
  · rw [if_neg hs, if_neg hs, ecdsaPoint_eq, ← pointXCoord_eq]
    constructor
    · intro h
      exact ⟨_, h.symm, div_mul_cancel₀ _ hs⟩
    · rintro ⟨k', hx, hk'⟩
      rw [← hk', mul_div_cancel_right₀ _ hs, hx]

/-! ### What `P1` combines -/

/-- The part of the signature that `P1` computes itself. -/
def p1Part (signers : ℕ × ℕ) (share z k : C.Scalar) : C.Scalar :=
  (lagrangeCoeff C signers.1 [signers.1, signers.2]).getD 0 * k⁻¹ *
    (z + pointXCoord (k • C.generator) * share)

/-- What `P2` has encrypted for `P1`. -/
def p2Plaintext (C : Curve) (kp : PaillierKeypair) : Option Round2Msg → C.Scalar
  | some (.p2Data cS2 _) => (((decrypt kp.sk kp.pk cS2).getD 0 : ℤ) : C.Scalar)
  | _ => 0

/-- **Inversion.** What `P1` keeps from its offer. -/
theorem p1Offer_eq_some {coins : P1Coins C} {state : P1State C} {data : P1Data C}
    (h : p1Offer H coins = some (state, data)) :
    state.sk = coins.keypair.sk ∧ state.pk = coins.keypair.pk ∧ state.k = coins.k ∧
      state.kInv = coins.k⁻¹ := by
  by_cases hk : coins.k = 0
  · simp [p1Offer, hk] at h
  · simp only [p1Offer, if_neg hk, Option.bind_eq_bind, Option.pure_def, Option.bind_eq_some_iff,
      Option.some.injEq, exists_eq_left'] at h
    obtain ⟨rho, -, cKInv, -, rangeProof, -, consistencyProof, -, h⟩ := h
    rw [Prod.mk.injEq] at h
    rw [← h.1]
    exact ⟨rfl, rfl, rfl, rfl⟩

/-- The signature that `P1` makes of the messages of round 1. -/
def Combined (H : Hash) (signers : ℕ × ℕ) (z share : C.Scalar) (coins : P1Coins C)
    (msgs2 : List (ℕ × Round2Msg)) (sig : Round3Msg) : Prop :=
  ∃ state data, p1Offer H coins = some (state, data) ∧
    p1Combine H signers.1 signers z share (some state) msgs2 = .ok sig

/-- The signature consists of the first half of the nonce, and of the own part plus the plaintext
    of `P2`. -/
theorem Combined.sig_eq {z share : C.Scalar} {coins : P1Coins C} {msgs2 : List (ℕ × Round2Msg)}
    {sig : Round3Msg} (h : Combined H signers z share coins msgs2 sig) :
    sig = ⟨toBeBytes (pointXCoord (coins.k • C.generator)),
      toBeBytes (p1Part signers share z coins.k +
        p2Plaintext C coins.keypair (messageFrom signers.2 msgs2)),
      recoveryId (coins.k • C.generator)⟩ := by
  obtain ⟨state, data, hoffer, hcombine⟩ := h
  obtain ⟨hsk, hpk, hk, hkInv⟩ := p1Offer_eq_some hoffer
  obtain ⟨state', cS2, mulProof, plain, lambda1, hstate, hfrom, hdec, -, hlambda, rfl⟩ :=
    p1Combine_eq_ok hcombine
  obtain rfl := Option.some.inj hstate
  rw [hsk, hpk] at hdec
  simp only [p1Part, p2Plaintext, hfrom, hdec, hlambda, hk, hkInv, Option.getD_some]

/-- What `P1` sends in round 2. -/
theorem combined_of_sends {z : C.Scalar} {x : C.Scalar} {c1 : P1Coins C} {c2 : P2Coins}
    (hz : digestScalar C msgDigest = z) {inb : Inbox (SignMsg C)} {j : ℕ} {sig : Round3Msg}
    (h : (runSign H signers.1 n signers x publicKey msgDigest c1 c2).Sends inb 2 j sig) :
    Combined H signers z x c1 (inb 1) sig := by
  subst hz
  obtain ⟨-, -, h⟩ := Proc.sends_attempt_iff.mp h
  obtain ⟨lambda, -, h⟩ := Proc.sends_attempt_iff.mp h
  obtain ⟨offer, hoffer, h⟩ := Proc.sends_attempt_iff.mp h
  rw [Proc.sends_send_iff_of_lt _ Nat.zero_lt_two, Proc.sends_recv_iff] at h
  obtain ⟨answer, -, h⟩ := Proc.sends_attempt_iff.mp h
  rw [Proc.sends_send_iff_of_lt _ Nat.one_lt_two, Proc.sends_recv_iff] at h
  rw [if_pos rfl] at hoffer h
  obtain ⟨⟨state, data⟩, hoffer', rfl⟩ := Option.map_eq_some_iff.mp (orPanic_eq_ok.mp hoffer)
  obtain ⟨sig', hsig', h⟩ := Proc.sends_attempt_iff.mp h
  refine ⟨state, data, hoffer', ?_⟩
  cases h with
  | here h =>
    rw [← Option.some.inj h]
    exact hsig'
  | later h =>
    -- after the broadcast nothing more is sent
    obtain ⟨out, -, h⟩ := Proc.sends_attempt_iff.mp h
    rw [Proc.sends_recv_iff] at h
    exact absurd h (Proc.not_sends_done _ _ _)

/-- The result of `P1` is what it combines, verified. -/
theorem exec_runSign_p1 {x lambda : C.Scalar} {c1 : P1Coins C} {c2 : P2Coins} {state : P1State C}
    {data : P1Data C} (hn : 2 ≤ n ∧ signers.1 < n) (hne : signers.1 ≠ signers.2)
    (hlambda : lagrangeCoeff C signers.1 [signers.1, signers.2] = some lambda)
    (hoffer : p1Offer H c1 = some (state, data)) (inb : Inbox (SignMsg C)) :
    (runSign H signers.1 n signers x publicKey msgDigest c1 c2).exec inb =
      p1Combine H signers.1 signers (digestScalar C msgDigest) x (some state) (inb 1) >>=
        checkSignature publicKey msgDigest := by
  simp only [runSign, if_pos hn, if_neg hne, hlambda, hoffer, orPanic_some, Proc.attempt_ok,
    Option.map_some, if_true, Proc.exec_send, Proc.exec_recv]
  cases p1Combine H signers.1 signers (digestScalar C msgDigest) x (some state) (inb 1) with
  | error e => rfl
  | ok sig =>
    rw [Proc.attempt_ok, Proc.exec_send, ok_bind]
    cases checkSignature publicKey msgDigest sig with
    | error e => rfl
    | ok out => rfl

/-- The steps before the last check never return `InvalidSignature`. -/
theorem p2Answer_ne_invalid {p1 : ℕ} {lambda z x : C.Scalar} {coins : P2Coins}
    {msgs1 : List (ℕ × Round1Msg C)} :
    p2Answer H p1 lambda z x coins msgs1 ≠ .error (.err .invalidSignature) := by
  intro h
  unfold p2Answer at h
  rcases bind_eq_error.mp h with h | ⟨p1Msg, -, h⟩
  · cases (okOr_eq_error.mp h).2
  · cases p1Msg with
    | ack => cases h
    | p1Data data =>
      rcases bind_eq_error.mp h with h | ⟨rangeOk, -, h⟩
      · cases (orPanic_eq_error.mp h).2
      · split at h
        · cases h
        · rcases bind_eq_error.mp h with h | ⟨consistencyOk, -, h⟩
          · cases (orPanic_eq_error.mp h).2
          · split at h
            · cases h
            · cases (orPanic_eq_error.mp h).2

theorem p1Combine_ne_invalid {i : ℕ} {z x : C.Scalar} {p1State : Option (P1State C)}
    {msgs2 : List (ℕ × Round2Msg)} :
    p1Combine H i signers z x p1State msgs2 ≠ .error (.err .invalidSignature) := by
  intro h
  unfold p1Combine at h
  rcases bind_eq_error.mp h with h | ⟨state, -, h⟩
  · cases (okOr_eq_error.mp h).2
  rcases bind_eq_error.mp h with h | ⟨p2Data, -, h⟩
  · cases (okOr_eq_error.mp h).2
  cases p2Data with
  | ack => cases h
  | p2Data cS2 mulProof =>
    rcases bind_eq_error.mp h with h | ⟨mulOk, -, h⟩
    · cases (orPanic_eq_error.mp h).2
    split at h
    · cases h
    rcases bind_eq_error.mp h with h | ⟨plain, -, h⟩
    · cases (orPanic_eq_error.mp h).2
    rcases bind_eq_error.mp h with h | ⟨s2, -, h⟩
    · cases (orPanic_eq_error.mp h).2
    rcases bind_eq_error.mp h with h | ⟨lambda1, -, h⟩
    · cases (orPanic_eq_error.mp h).2
    · cases h

/-- `P1` fails with `InvalidSignature` only after it has broadcast what it combined. -/
theorem runSign_invalid {x : C.Scalar} {c1 : P1Coins C} {c2 : P2Coins} {inb : Inbox (SignMsg C)}
    (h : (runSign H signers.1 n signers x publicKey msgDigest c1 c2).exec inb =
      .error (.err .invalidSignature)) :
    ∃ sig, verifySignature publicKey msgDigest sig.rBytes sig.sBytes = false ∧
      ∀ j, (runSign H signers.1 n signers x publicKey msgDigest c1 c2).Sends inb 2 j sig := by
  unfold runSign at h
  rcases Proc.exec_attempt_eq_error.mp h with h | ⟨u, hu, h⟩
  · cases (orPanic_eq_error.mp h).2
  rcases Proc.exec_attempt_eq_error.mp h with h | ⟨lambda, hlambda, h⟩
  · cases (orPanic_eq_error.mp h).2
  rcases Proc.exec_attempt_eq_error.mp h with h | ⟨offer, hoffer, h⟩
  · rw [if_pos rfl] at h
    cases (orPanic_eq_error.mp h).2
  rw [Proc.exec_send, Proc.exec_recv] at h
  rcases Proc.exec_attempt_eq_error.mp h with h | ⟨answer, hanswer, h⟩
  · split at h
    · exact absurd h p2Answer_ne_invalid
    · cases h
  rw [Proc.exec_send, Proc.exec_recv, if_pos rfl] at h
  rcases Proc.exec_attempt_eq_error.mp h with h | ⟨sig, hsig, h⟩
  · exact absurd h p1Combine_ne_invalid
  rw [Proc.exec_send] at h
  -- only the last check is left
  rcases Proc.exec_attempt_eq_error.mp h with h | ⟨out, -, h⟩
  · refine ⟨sig, ?_, fun j => Proc.sends_attempt_iff.mpr ⟨u, hu, Proc.sends_attempt_iff.mpr ⟨lambda,
      hlambda, Proc.sends_attempt_iff.mpr ⟨offer, hoffer, ?_⟩⟩⟩⟩
    · unfold checkSignature at h
      split at h
      · cases h
      · rename_i hverify
        exact Bool.eq_false_iff.mpr hverify
    · refine .later (.round (Proc.sends_attempt_iff.mpr ⟨answer, hanswer, .later (.round ?_)⟩))
      rw [if_pos rfl]
      exact Proc.sends_attempt_iff.mpr ⟨sig, hsig, .here rfl⟩
  · cases h

/-! ### Releases -/

/-- A `P1` that ends with `InvalidSignature` has broadcast a signature that does not verify. -/
theorem sent_of_invalid {s : Net (SignMsg C) (Res SignError SignOutput)}
    (hs : Reachable (signNet H n signers share publicKey msgDigest p1Coins p2Coins corrupt) s)
    (hi : signers.1 < n) (hh : ¬ corrupt signers.1)
    (hret : s.Returned signers.1 (.error (.err .invalidSignature))) (j : ℕ) :
    ∃ sig, (s signers.1).sent 2 j = some sig ∧
      verifySignature publicKey msgDigest sig.rBytes sig.sBytes = false := by
  obtain ⟨sig, hinvalid, hsends⟩ := runSign_invalid (hs.sound.result hi hh hret)
  obtain ⟨sig', hsent, hsends'⟩ := hs.sent_of_returned hi hh hret (hsends j)
  -- the program sends one signature only
  have heq : sig' = sig := (combined_of_sends rfl hsends').sig_eq.trans
    (combined_of_sends rfl (hsends j)).sig_eq.symm
  exact ⟨sig, heq ▸ hsent, hinvalid⟩

/-- **What `P1` releases.**  Against any behaviour of the other parties, a signature that an honest
    `P1` has broadcast verifies exactly if the plaintext of `P2` completes its part; and a `P1` that
    ends with `InvalidSignature` has broadcast one that does not verify to everybody. -/
theorem runSign_releases_iff {s : Net (SignMsg C) (Res SignError SignOutput)}
    (hs : Reachable (signNet H n signers share publicKey msgDigest p1Coins p2Coins corrupt) s)
    (hi : signers.1 < n) (hh : ¬ corrupt signers.1) :
    (∀ j sig, (s signers.1).sent 2 j = some sig →
      (verifySignature publicKey msgDigest sig.rBytes sig.sBytes = true ↔
        Signs publicKey (digestScalar C msgDigest) (p1Coins signers.1).k
          (p1Part signers (share signers.1) (digestScalar C msgDigest) (p1Coins signers.1).k +
            p2Plaintext C (p1Coins signers.1).keypair ((s signers.1).got 1 signers.2)))) ∧
    (s.Returned signers.1 (.error (.err .invalidSignature)) → ∀ j, ∃ sig,
      (s signers.1).sent 2 j = some sig ∧
        verifySignature publicKey msgDigest sig.rBytes sig.sBytes = false) := by
  constructor
  · intro j sig hsent
    have hcomb := combined_of_sends rfl
      ((hs.sound.honest signers.1 hi hh).sent _ (fun _ _ => rfl) 2 j sig hsent)
    have hsig := hcomb.sig_eq
    obtain ⟨state, data, -, hcombine⟩ := hcomb
    obtain ⟨state', cS2, mulProof, plain, lambda1, -, hfrom, -⟩ := p1Combine_eq_ok hcombine
    have hgot := arrived_of_messageFrom hfrom
    rw [hsig, verifySignature_iff_signs, hgot, hfrom]
  · exact sent_of_invalid hs hi hh

/-- Against the ciphertext 1, which encrypts zero, with a forged proof, `P1` is left with its own
    part. -/
theorem exec_forged {c1 : P1Coins C} {c2 : P2Coins} {x lambda : C.Scalar} {p q : ℕ}
    (hn : 2 ≤ n ∧ signers.1 < n) (hne : signers.1 ≠ signers.2)
    (hkp : ValidKeypair p q c1.keypair) (hk : c1.k ≠ 0)
    (hlambda : lagrangeCoeff C signers.1 [signers.1, signers.2] = some lambda)
    {inb : Inbox (SignMsg C)} (hfrom : messageFrom signers.2 (inb 1) = some (.p2Data 1 forgedMul))
    (hnot : ¬ Signs publicKey (digestScalar C msgDigest) c1.k
      (p1Part signers x (digestScalar C msgDigest) c1.k)) :
    (runSign H signers.1 n signers x publicKey msgDigest c1 c2).exec inb =
      .error (.err .invalidSignature) := by
  obtain ⟨c, rangeProof, consistencyProof, hoffer, -⟩ := p1Offer_spec H hkp.wellFormed hk
  have hone : Encrypts c1.keypair.pk.n 1 0 :=
    ⟨1, isCoprime_one_left, by rw [pow_zero, one_pow, one_mul]⟩
  have hpart : p1Part signers x (digestScalar C msgDigest) c1.k =
      lambda * c1.k⁻¹ * (digestScalar C msgDigest + pointXCoord (c1.k • C.generator) * x) +
        ((0 : ℕ) : C.Scalar) := by
    rw [p1Part, hlambda, Option.getD_some, Nat.cast_zero, add_zero]
  rw [exec_runSign_p1 hn hne hlambda hoffer, p1Combine_spec hkp hfrom
    (verifyMul_forgedMul H (ascii "sign") hkp.wellFormed c 1 curveBits) hone
    (lt_trans Nat.zero_lt_one hkp.wellFormed.one_lt) hlambda, ok_bind, ← hpart, checkSignature, if_neg]
  rw [verifySignature_iff_signs]
  exact hnot

/-- `P1` draws the small keypair and the nonce 1. -/
def releaseCoins : P1Coins smallCurve := ⟨smallKeypair, 1, 0, ⟨0, 0⟩, ⟨1, 0⟩⟩

/-- A digest of zeros. -/
def zeroDigest : Vector UInt8 32 := Vector.replicate 32 0

/-- `P1` is honest and has the share zero; the public key is the generator. -/
abbrev releaseNet : Setup (SignMsg smallCurve) (Res SignError SignOutput) :=
  signNet oneHash 2 (0, 1) (fun _ => 0) smallCurve.generator zeroDigest
    (fun _ => releaseCoins) (fun _ => ⟨0, ⟨0, 0⟩⟩) (· = 1)

/-- What the corrupt `P2` sends: in round 1 the ciphertext 1 with a forged proof. -/
def forgedAnswer (C : Curve) : (r : ℕ) → ℕ → SignMsg C r
  | 0, _ => Round1Msg.ack
  | 1, _ => Round2Msg.p2Data 1 forgedMul
  | _ + 2, _ => ⟨[], [], 0⟩

theorem exists_invalid_run :
    ∃ s, Reachable releaseNet s ∧ s.Returned 0 (.error (.err .invalidSignature)) := by
  obtain ⟨s, hs, -, hret⟩ := exists_solo_run (S := releaseNet) (i := 0) Nat.one_lt_two
    Nat.zero_lt_two Nat.zero_ne_one (fun j hj hj0 => by change j < 2 at hj; show j = 1; omega)
    (forgedAnswer smallCurve)
  refine ⟨s, hs, ?_⟩
  have hz : digestScalar smallCurve zeroDigest = 0 := by decide +kernel
  have hr : pointXCoord ((1 : smallCurve.Scalar) • smallCurve.generator) = 1 := by decide +kernel
  -- the part of `P1` is zero, and the first half of its nonce is not
  have hnot : ¬ Signs smallCurve.generator (digestScalar smallCurve zeroDigest)
      releaseCoins.k (p1Part (0, 1) 0 (digestScalar smallCurve zeroDigest)
        releaseCoins.k) := by
    rw [hz, p1Part, mul_zero, add_zero, mul_zero, Signs, if_pos rfl]
    show ¬ pointXCoord ((1 : smallCurve.Scalar) • smallCurve.generator) = 0
    rw [hr]
    exact one_ne_zero
  have hprog : releaseNet.prog 0 = runSign oneHash (0, 1).1 2 (0, 1) 0 smallCurve.generator
      zeroDigest releaseCoins ⟨0, ⟨0, 0⟩⟩ := by
    simp only [signNet]
  have hexec : (runSign oneHash (0, 1).1 2 (0, 1) 0 smallCurve.generator zeroDigest
      releaseCoins ⟨0, ⟨0, 0⟩⟩).exec
        (fun r => collect 2 0 fun j => some (forgedAnswer smallCurve r j)) =
          .error (.err .invalidSignature) :=
    exec_forged (by decide) (by decide) generated_smallKeypair.valid one_ne_zero
      (show lagrangeCoeff smallCurve 0 [0, 1] = some 2 by decide +kernel) rfl hnot
  rw [hprog] at hret
  exact hexec ▸ hret

/-- **A signature that does not verify, released.** -/
theorem runSign_releases_invalid :
    ∃ s sig, Reachable releaseNet s ∧ (s 0).sent 2 1 = some sig ∧
      verifySignature smallCurve.generator zeroDigest sig.rBytes sig.sBytes = false := by
  obtain ⟨s, hs, hret⟩ := exists_invalid_run
  obtain ⟨sig, hsent, hinvalid⟩ := sent_of_invalid hs Nat.zero_lt_two Nat.zero_ne_one hret 1
  exact ⟨s, sig, hs, hsent, hinvalid⟩

/-- The criterion in the run with the ciphertext 1. -/
theorem runSign_releases_iff_forged :
    ∃ s, Reachable releaseNet s ∧ ∀ j, ∃ sig, (s 0).sent 2 j = some sig ∧
      verifySignature smallCurve.generator zeroDigest sig.rBytes sig.sBytes = false := by
  obtain ⟨s, hs, hret⟩ := exists_invalid_run
  exact ⟨s, hs, (runSign_releases_iff hs Nat.zero_lt_two Nat.zero_ne_one).2 hret⟩

end Govis.Lindell
