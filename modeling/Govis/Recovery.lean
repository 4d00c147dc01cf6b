import Govis.Cggmp21.EndToEnd
import Govis.Lindell.SignRelease
import Govis.Rounds.Lockstep

namespace Govis

open Bytes Curve Rounds Lindell Cggmp21

/-!
# Which signatures are complete

A signature that can be used consists of two encodings of 32 bytes of numbers between 1 and the
order, and of a recovery id from which ECDSA recovery finds the public key.

* `RecoversKey`, `CompleteSignature` — what this asks;
* `recovers_iff` — the point of the verifier decides it;
* `runSign_accept_complete_iff` — what a party accepts from `P1`;
* `runSign_p1_complete_iff` — what `P1` returns;
* `runOnlineSign_complete_iff` — what `run_online_sign` returns;
* `signature_complete_iff` — **the three together**;
* `runSign_incomplete` — a signature that is returned and is not complete.
-/

variable {C : Curve} {H : Hash}

/-! ### Recovery -/

/-- **Public-key recovery.**  The point `R` with first coordinate `r` and the parity `recId` of the
    second one gives the key `r⁻¹ * (s * R - z * G)`. -/
def RecoversKey (z : C.Scalar) (r s recId : ℕ) (Q : C.Point) : Prop :=
  ∃ R y, C.coords R = some (r, y) ∧ y % 2 = recId ∧
    Q = (r : C.Scalar)⁻¹ • ((s : C.Scalar) • R - z • C.generator)

/-- The encodings have 32 bytes and are in range, and recovery finds the key. -/
structure CompleteSignature (Q : C.Point) (msgDigest : Vector UInt8 32) (out : SignOutput) :
    Prop where
  length_r : out.1.length = 32
  length_s : out.2.1.length = 32
  inRange_r : InRange C out.1
  inRange_s : InRange C out.2.1
  recId_le : out.2.2.toNat ≤ 1
  recovers : RecoversKey (digestScalar C msgDigest) (ofBE out.1) (ofBE out.2.1) out.2.2.toNat Q

/-- The two points with one first coordinate have second coordinates of different parity. -/
theorem parity_neg_ne {P : C.Point} {x y : ℕ} (hP : C.coords P = some (x, y)) :
    (C.p - y) % 2 ≠ y % 2 := by
  have hy := (C.coords_lt P x y hP).2
  have hodd := Nat.odd_iff.mp C.p_odd
  omega

/-- A point is determined by its first coordinate and the parity of the second one. -/
theorem eq_of_same_parity {P R : C.Point} {x y y' : ℕ} (hP : C.coords P = some (x, y))
    (hR : C.coords R = some (x, y')) (hpar : y' % 2 = y % 2) : R = P := by
  rcases C.same_x P R x y y' hP hR with heq | heq
  · exact heq
  · -- the other point has the other parity
    have hneg := C.coords_neg P x y hP
    rw [← heq, hR, Option.some.injEq, Prod.mk.injEq] at hneg
    exact absurd (hneg.2 ▸ hpar) (parity_neg_ne hP)

/-- **The point with a given parity** is one of two. -/
theorem exists_parity_iff {P : C.Point} {x y b : ℕ} (hP : C.coords P = some (x, y)) (hb : b < 2)
    (p : C.Point → Prop) :
    (∃ R y', C.coords R = some (x, y') ∧ y' % 2 = b ∧ p R) ↔ p (if y % 2 = b then P else -P) := by
  have hpoint : ∃ y', C.coords (if y % 2 = b then P else -P) = some (x, y') ∧ y' % 2 = b := by
    split
    · rename_i hy
      exact ⟨y, hP, hy⟩
    · have hpar := parity_neg_ne hP
      exact ⟨C.p - y, C.coords_neg P x y hP, by omega⟩
  obtain ⟨y₀, hcoords, hy₀⟩ := hpoint
  constructor
  · rintro ⟨R, y', hR, hy', hp⟩
    rwa [← eq_of_same_parity hcoords hR (hy'.trans hy₀.symm)]
  · intro hp
    exact ⟨_, y₀, hcoords, hy₀, hp⟩

/-- Recovery finds one key at most. -/
theorem RecoversKey.unique {z : C.Scalar} {r s recId : ℕ} {Q Q' : C.Point}
    (h : RecoversKey z r s recId Q) (h' : RecoversKey z r s recId Q') : Q = Q' := by
  obtain ⟨R, y, hR, hy, rfl⟩ := h
  obtain ⟨R', y', hR', hy', rfl⟩ := h'
  rw [eq_of_same_parity hR hR' (hy'.trans hy.symm)]

/-- The key belongs to `R` exactly if `R` is the point of the verifier. -/
theorem eq_recovered_iff {Q R : C.Point} {z r s : C.Scalar} (hr : r ≠ 0) (hs : s ≠ 0) :
    Q = r⁻¹ • (s • R - z • C.generator) ↔ ecdsaPoint Q z r s = R := by
  have hpoint : s • ecdsaPoint Q z r s = z • C.generator + r • Q := by
    rw [ecdsaPoint, smul_add, smul_smul, smul_smul, mul_div_cancel₀ _ hs, mul_div_cancel₀ _ hs]
  constructor
  · intro h
    have hsR : s • R = s • ecdsaPoint Q z r s := by
      rw [hpoint, h, smul_inv_smul₀ hr]
      abel
    rw [← inv_smul_smul₀ hs R, hsR, inv_smul_smul₀ hs]
  · intro h
    rw [← h, hpoint, add_sub_cancel_left, inv_smul_smul₀ hr]

/-- **The point of the verifier** decides recovery. -/
theorem recovers_iff {Q : C.Point} {z : C.Scalar} {r s recId : ℕ} (hr : (r : C.Scalar) ≠ 0)
    (hs : (s : C.Scalar) ≠ 0) :
    RecoversKey z r s recId Q ↔ ∃ y, C.coords (ecdsaPoint Q z r s) = some (r, y) ∧ y % 2 = recId := by
  constructor
  · rintro ⟨R, y, hR, hy, hQ⟩
    rw [eq_recovered_iff hr hs] at hQ
    exact ⟨y, by rw [hQ]; exact hR, hy⟩
  · rintro ⟨y, hR, hy⟩
    exact ⟨_, y, hR, hy, (eq_recovered_iff hr hs).mpr rfl⟩

/-- The encoding of a scalar is in range unless it is zero. -/
theorem inRange_toBeBytes (a : C.Scalar) : InRange C (toBeBytes a) ↔ a ≠ 0 := by
  rw [InRange, ofBE_toBeBytes]
  constructor
  · rintro ⟨h, -⟩ rfl
    simp at h
  · intro h
    exact ⟨Nat.one_le_iff_ne_zero.mpr ((ZMod.val_eq_zero a).not.mpr h), a.val_lt⟩

/-- A verified pair with `s` zero has `r` zero. -/
theorem r_eq_zero_of_verifies {Q : C.Point} {msgDigest : Vector UInt8 32} {r s : C.Scalar}
    (h : verifySignature Q msgDigest (toBeBytes r) (toBeBytes s) = true) (hs : s = 0) : r = 0 := by
  rw [verifySignature_eq_true_iff, ofBE_toBeBytes_cast, ofBE_toBeBytes_cast, if_pos hs] at h
  exact h

/-- **Encoded scalars.**  For a verified pair of encoded scalars with a recovery id that is a parity,
    only the signing equation is left to look at. -/
theorem completeSignature_toBeBytes {Q : C.Point} {msgDigest : Vector UInt8 32} {r s : C.Scalar}
    {recId : UInt8} {b : ℕ} (hrecId : recId.toNat = b % 2)
    (hverify : verifySignature Q msgDigest (toBeBytes r) (toBeBytes s) = true) :
    CompleteSignature Q msgDigest (toBeBytes r, toBeBytes s, recId) ↔ r ≠ 0 ∧ ∃ R y,
      C.coords R = some (r.val, y) ∧ y % 2 = b % 2 ∧
        dlog R * s = digestScalar C msgDigest + r * dlog Q := by
  have hcast : ∀ a : C.Scalar, ((ofBE (toBeBytes a) : ℕ) : C.Scalar) = a := ofBE_toBeBytes_cast
  -- the verifier's point is `R` exactly if `R` satisfies the signing equation
  have hpoint : s ≠ 0 → ∀ R : C.Point, ecdsaPoint Q (digestScalar C msgDigest) r s = R ↔
      dlog R * s = digestScalar C msgDigest + r * dlog Q := by
    intro hs0 R
    rw [ecdsaPoint_eq]
    constructor
    · rintro rfl
      rw [dlog_generator_smul, div_mul_cancel₀ _ hs0]
    · intro h
      rw [← h, mul_div_cancel_right₀ _ hs0, dlog_smul_generator]
  constructor
  · intro h
    have hr0 : r ≠ 0 := (inRange_toBeBytes r).mp h.inRange_r
    have hs0 : s ≠ 0 := (inRange_toBeBytes s).mp h.inRange_s
    refine ⟨hr0, ?_⟩
    obtain ⟨y, hR, hy⟩ := (recovers_iff (by rw [hcast]; exact hr0) (by rw [hcast]; exact hs0)).mp
      h.recovers
    simp only [ofBE_toBeBytes, ZMod.natCast_zmod_val] at hR
    exact ⟨_, y, hR, hy.trans hrecId, (hpoint hs0 _).mp rfl⟩
  · rintro ⟨hr0, R, y, hR, hy, heq⟩
    have hs0 : s ≠ 0 := fun h => hr0 (r_eq_zero_of_verifies hverify h)
    refine ⟨length_toBeBytes r, length_toBeBytes s, (inRange_toBeBytes r).mpr hr0,
      (inRange_toBeBytes s).mpr hs0, ?_, ?_⟩
    · show recId.toNat ≤ 1
      omega
    · refine (recovers_iff (by rw [hcast]; exact hr0) (by rw [hcast]; exact hs0)).mpr ⟨y, ?_, ?_⟩
      · simp only [ofBE_toBeBytes, ZMod.natCast_zmod_val]
        rw [(hpoint hs0 R).mpr heq]
        exact hR
      · exact hy.trans hrecId.symm

/-! ### `run_sign` -/

/-- The recovery id of `run_sign` is the parity of the first coordinate. -/
theorem toNat_recoveryId {P : C.Point} {x y : ℕ} (hP : C.coords P = some (x, y)) :
    (Lindell.recoveryId P).toNat = x % 2 := by
  have hbyte : (toBytes false P).getD 32 0 = UInt8.ofNat (x % 256) := by
    have hlen : (toBE 31 (x / 256)).length = 31 := length_toBE 31 _
    simp only [toBytes, hP, List.getD_eq_getElem?_getD]
    rw [show toBE 32 x = toBE 31 (x / 256) ++ [UInt8.ofNat (x % 256)] from rfl, List.append_assoc,
      List.getElem?_cons_succ, List.getElem?_append_right (by omega), hlen]
    rfl
  rw [Lindell.recoveryId, hbyte, UInt8.toNat_mod, toNat_ofNat_mod]
  show x % 256 % 2 = x % 2
  omega

namespace Lindell

section RunSign

variable {n : ℕ} {signers : ℕ × ℕ} {share : C.Scalar} {publicKey : C.Point}
  {msgDigest : Vector UInt8 32} {c1 : P1Coins C} {c2 : P2Coins} {inb : Inbox (SignMsg C)}
  {out : SignOutput}

/-- What everybody but `P1` returns is the message of `P1`, which verifies. -/
theorem runSign_accepts {i : ℕ} (hi : i ≠ signers.1)
    (h : (runSign H i n signers share publicKey msgDigest c1 c2).exec inb = .ok out) :
    ∃ sig : Round3Msg, messageFrom signers.1 (inb 2) = some sig ∧
      out = (sig.rBytes, sig.sBytes, sig.recId) ∧
      verifySignature publicKey msgDigest sig.rBytes sig.sBytes = true := by
  obtain ⟨-, -, h⟩ := Proc.exec_attempt_eq_ok.mp h
  obtain ⟨lambda, -, h⟩ := Proc.exec_attempt_eq_ok.mp h
  obtain ⟨offer, -, h⟩ := Proc.exec_attempt_eq_ok.mp h
  rw [Proc.exec_send, Proc.exec_recv] at h
  obtain ⟨answer, -, h⟩ := Proc.exec_attempt_eq_ok.mp h
  rw [Proc.exec_send, Proc.exec_recv, if_neg hi] at h
  obtain ⟨sig, hfrom, h⟩ := bind_eq_ok.mp h
  refine ⟨sig, okOr_eq_ok.mp hfrom, ?_⟩
  unfold checkSignature at h
  split at h
  · rename_i hverify
    exact ⟨(Except.ok.inj h).symm, hverify⟩
  · cases h

/-- **At everybody but `P1`.**  The message of `P1` is complete exactly if its strings have 32 bytes
    and are in range, and the point of the verifier has the first coordinate `r`, unreduced, and the
    parity that `P1` claims. -/
theorem runSign_accept_complete_iff {i : ℕ} (hi : i ≠ signers.1)
    (h : (runSign H i n signers share publicKey msgDigest c1 c2).exec inb = .ok out) :
    ∃ sig : Round3Msg, messageFrom signers.1 (inb 2) = some sig ∧
      (CompleteSignature publicKey msgDigest out ↔
        sig.rBytes.length = 32 ∧ sig.sBytes.length = 32 ∧ InRange C sig.rBytes ∧
          InRange C sig.sBytes ∧ ∃ y, C.coords (ecdsaPoint publicKey (digestScalar C msgDigest)
            (ofBE sig.rBytes : ℕ) (ofBE sig.sBytes : ℕ)) = some (ofBE sig.rBytes, y) ∧
              y % 2 = sig.recId.toNat) := by
  obtain ⟨sig, hfrom, rfl, -⟩ := runSign_accepts hi h
  refine ⟨sig, hfrom, fun h => ?_, fun ⟨hlr, hls, hr, hs, hpoint⟩ => ?_⟩
  · exact ⟨h.length_r, h.length_s, h.inRange_r, h.inRange_s,
      (recovers_iff h.inRange_r.ne_zero h.inRange_s.ne_zero).mp h.recovers⟩
  · refine ⟨hlr, hls, hr, hs, ?_, (recovers_iff hr.ne_zero hs.ne_zero).mpr hpoint⟩
    obtain ⟨y, -, hy⟩ := hpoint
    show sig.recId.toNat ≤ 1
    omega

/-- A nonce that `P1` has offered is not zero. -/
theorem p1Offer_k_ne_zero {offer : P1State C × P1Data C} (h : p1Offer H c1 = some offer) :
    c1.k ≠ 0 := by
  intro hk
  simp [p1Offer, hk] at h

/-- What `P1` returns is what it has combined, verified. -/
theorem runSign_p1_ok
    (h : (runSign H signers.1 n signers share publicKey msgDigest c1 c2).exec inb = .ok out) :
    ∃ sig, Combined H signers (digestScalar C msgDigest) share c1 (inb 1) sig ∧
      out = (sig.rBytes, sig.sBytes, sig.recId) ∧
      verifySignature publicKey msgDigest sig.rBytes sig.sBytes = true := by
  obtain ⟨-, -, h⟩ := Proc.exec_attempt_eq_ok.mp h
  obtain ⟨lambda, -, h⟩ := Proc.exec_attempt_eq_ok.mp h
  obtain ⟨offer, hoffer, h⟩ := Proc.exec_attempt_eq_ok.mp h
  rw [Proc.exec_send, Proc.exec_recv] at h
  obtain ⟨answer, -, h⟩ := Proc.exec_attempt_eq_ok.mp h
  rw [Proc.exec_send, Proc.exec_recv, if_pos rfl] at h
  rw [if_pos rfl] at hoffer
  obtain ⟨⟨state, data⟩, hoffer', rfl⟩ := Option.map_eq_some_iff.mp (orPanic_eq_ok.mp hoffer)
  obtain ⟨sig, hsig, h⟩ := Proc.exec_attempt_eq_ok.mp h
  rw [Proc.exec_send] at h
  obtain ⟨out', hout, h⟩ := Proc.exec_attempt_eq_ok.mp h
  refine ⟨sig, ⟨state, data, hoffer', hsig⟩, ?_⟩
  obtain rfl : out' = out := Except.ok.inj h
  unfold checkSignature at hout
  split at hout
  · rename_i hverify
    exact ⟨(Except.ok.inj hout).symm, hverify⟩
  · cases hout

/-- The second half that `P1` has combined. -/
def p1Combined (signers : ℕ × ℕ) (share z : C.Scalar) (c1 : P1Coins C)
    (msgs2 : List (ℕ × Round2Msg)) : C.Scalar :=
  p1Part signers share z c1.k + p2Plaintext C c1.keypair (messageFrom signers.2 msgs2)

/-- **At `P1`.**  With `kG = (x, y)`, the pair is complete exactly if `r` is not zero and the plaintext
    of `P2` completes the part of `P1` for the nonce point that has the first coordinate `r`,
    unreduced, and a second one with the parity of `x`.  If `x` is below the order, that point is
    `kG` or `-kG`, according to whether `x` and `y` have the same parity. -/
theorem runSign_p1_complete_iff
    (h : (runSign H signers.1 n signers share publicKey msgDigest c1 c2).exec inb = .ok out)
    {x y : ℕ} (hk : C.coords (c1.k • C.generator) = some (x, y)) :
    (CompleteSignature publicKey msgDigest out ↔ (x : C.Scalar) ≠ 0 ∧ ∃ R y',
      C.coords R = some ((x : C.Scalar).val, y') ∧ y' % 2 = x % 2 ∧
        dlog R * p1Combined signers share (digestScalar C msgDigest) c1 (inb 1) =
          digestScalar C msgDigest + x * dlog publicKey) ∧
    (x < C.q → (CompleteSignature publicKey msgDigest out ↔ (x : C.Scalar) ≠ 0 ∧
      (if y % 2 = x % 2 then c1.k else -c1.k) *
          p1Combined signers share (digestScalar C msgDigest) c1 (inb 1) =
        digestScalar C msgDigest + x * dlog publicKey)) := by
  obtain ⟨sig, hcomb, rfl, hverify⟩ := runSign_p1_ok h
  have hsig := hcomb.sig_eq
  have hr : pointXCoord (c1.k • C.generator) = (x : C.Scalar) := pointXCoord_of_coords hk
  rw [hr] at hsig
  subst hsig
  have hmain := completeSignature_toBeBytes (toNat_recoveryId hk) hverify
  refine ⟨hmain, fun hx => hmain.trans (and_congr_right fun _ => ?_)⟩
  rw [ZMod.val_cast_of_lt hx, exists_parity_iff hk (Nat.mod_lt x two_pos), p1Combined]
  split
  · rw [dlog_generator_smul]
  · rw [← neg_smul, dlog_generator_smul]

end RunSign

end Lindell

/-! ### `run_online_sign` -/

namespace Cggmp21

section RunOnlineSign

variable {i : ℕ} {signers : List ℕ} {ecShare : C.Scalar} {publicKey : C.Point}
  {msgDigest : Vector UInt8 32} {presig : Presignature C} {inb : Inbox OnlineSignMsg} {sig : Signature}

/-- The recovery id of `run_online_sign` is the parity of the second coordinate. -/
theorem toNat_recoveryId {P : C.Point} {x y : ℕ} (hP : C.coords P = some (x, y)) {recId : UInt8}
    (h : recoveryId P = some recId) : recId.toNat = y % 2 := by
  simp only [recoveryId, hP, Option.some.injEq] at h
  rw [← h]
  split
  · rename_i hodd
    exact hodd.symm
  · show 0 = y % 2
    omega

/-- The shares in the messages of the other signers. -/
def receivedShares (C : Curve) (localI : ℕ) (msgs : List (ℕ × SignatureShareMsg)) : C.Scalar :=
  (msgs.map fun e => if e.1 = localI then 0 else fromBeBytesModOrder C e.2.sI).sum

theorem addSignatureShares_eq (localI : ℕ) (total : C.Scalar) (msgs : List (ℕ × SignatureShareMsg)) :
    addSignatureShares localI total msgs = total + receivedShares C localI msgs := by
  unfold addSignatureShares
  induction msgs generalizing total with
  | nil => simp [receivedShares]
  | cons e msgs ih =>
    rw [List.foldl_cons, ih, receivedShares, receivedShares, List.map_cons, List.sum_cons]
    split
    · rw [zero_add]
    · rw [add_assoc]

/-- The share of the signature that a signer computes itself. -/
def ownShareOf (i : ℕ) (signers : List ℕ) (ecShare z : C.Scalar) (presig : Presignature C) : C.Scalar :=
  presig.kInv * (lagrangeCoeff C i signers).getD 0 * (z + presig.r * ecShare)

/-- What `run_online_sign` returns is the sum of the shares, verified, and a recovery id. -/
theorem runOnlineSign_ok
    (h : (runOnlineSign i signers ecShare publicKey msgDigest presig).exec inb = .ok sig) :
    ∃ localI, position signers i = some localI ∧ recoveryId presig.rPoint = some sig.recId ∧
      sig.rBytes = toBeBytes presig.r ∧
      sig.sBytes = toBeBytes (ownShareOf i signers ecShare (digestScalar C msgDigest) presig +
        receivedShares C localI (inb 0)) ∧
      verifySignature publicKey msgDigest sig.rBytes sig.sBytes = true := by
  obtain ⟨localI, hpos, h⟩ := Proc.exec_attempt_eq_ok.mp h
  obtain ⟨lambda, hlambda, h⟩ := Proc.exec_attempt_eq_ok.mp h
  rw [Proc.exec_send, Proc.exec_recv, Proc.exec_done, finishSignature, addSignatureShares_eq] at h
  refine ⟨localI, okOr_eq_ok.mp hpos, ?_⟩
  split at h
  · cases h
  · rename_i hverify
    obtain ⟨recId, hrecId, h⟩ := bind_eq_ok.mp h
    obtain rfl := Except.ok.inj h
    rw [ownShareOf, orPanic_eq_ok.mp hlambda, Option.getD_some]
    exact ⟨orPanic_eq_ok.mp hrecId, rfl, rfl, not_not.mp hverify⟩

/-- **At a signer.**  With a presignature for the nonce `k`, whose point has a first coordinate below
    the order, the signature is complete exactly if `r` is not zero and the shares add up to the
    second half for `k` and not for `-k`. -/
theorem runOnlineSign_complete_iff
    (h : (runOnlineSign i signers ecShare publicKey msgDigest presig).exec inb = .ok sig)
    {k : C.Scalar} (hk : presig.rPoint = k • C.generator)
    (hr : presig.r = pointXCoord presig.rPoint) {x y : ℕ}
    (hx : C.coords presig.rPoint = some (x, y)) (hlt : x < C.q) :
    ∃ localI, position signers i = some localI ∧
      (CompleteSignature publicKey msgDigest (sig.rBytes, sig.sBytes, sig.recId) ↔ presig.r ≠ 0 ∧
        k * (ownShareOf i signers ecShare (digestScalar C msgDigest) presig +
            receivedShares C localI (inb 0)) =
          digestScalar C msgDigest + presig.r * dlog publicKey) := by
  obtain ⟨localI, hpos, hrecId, hrBytes, hsBytes, hverify⟩ := runOnlineSign_ok h
  refine ⟨localI, hpos, ?_⟩
  rw [hrBytes, hsBytes] at hverify ⊢
  have hval : presig.r.val = x := by
    rw [hr, pointXCoord_of_coords hx, ZMod.val_cast_of_lt hlt]
  refine (completeSignature_toBeBytes (toNat_recoveryId hx hrecId) hverify).trans
    (and_congr_right fun _ => ?_)
  rw [hval, exists_parity_iff hx (Nat.mod_lt y two_pos), if_pos rfl, hk, dlog_generator_smul]

end RunOnlineSign

end Cggmp21

/-! ### The three together -/

/-- **Which signatures are complete.**  Whatever the other parties send, what `run_sign` returns at
    everybody but `P1`, what it returns at `P1`, and what `run_online_sign` returns is complete
    exactly under the conditions on the received messages that the three parts give. -/
theorem signature_complete_iff (H : Hash) (publicKey : C.Point) (msgDigest : Vector UInt8 32) :
    (∀ (i n : ℕ) (signers : ℕ × ℕ) (share : C.Scalar) (c1 : P1Coins C) (c2 : P2Coins)
      (inb : Inbox (SignMsg C)) (out : SignOutput),
      (runSign H i n signers share publicKey msgDigest c1 c2).exec inb = .ok out →
      (i ≠ signers.1 → ∃ sig : Round3Msg, messageFrom signers.1 (inb 2) = some sig ∧
        (CompleteSignature publicKey msgDigest out ↔
          sig.rBytes.length = 32 ∧ sig.sBytes.length = 32 ∧ InRange C sig.rBytes ∧
            InRange C sig.sBytes ∧ ∃ y, C.coords (ecdsaPoint publicKey (digestScalar C msgDigest)
              (ofBE sig.rBytes : ℕ) (ofBE sig.sBytes : ℕ)) = some (ofBE sig.rBytes, y) ∧
                y % 2 = sig.recId.toNat)) ∧
      (i = signers.1 → ∃ x y, C.coords (c1.k • C.generator) = some (x, y) ∧
        (CompleteSignature publicKey msgDigest out ↔ (x : C.Scalar) ≠ 0 ∧ ∃ R y',
          C.coords R = some ((x : C.Scalar).val, y') ∧ y' % 2 = x % 2 ∧
            dlog R * p1Combined signers share (digestScalar C msgDigest) c1 (inb 1) =
              digestScalar C msgDigest + x * dlog publicKey) ∧
        (x < C.q → (CompleteSignature publicKey msgDigest out ↔ (x : C.Scalar) ≠ 0 ∧
          (if y % 2 = x % 2 then c1.k else -c1.k) *
              p1Combined signers share (digestScalar C msgDigest) c1 (inb 1) =
            digestScalar C msgDigest + x * dlog publicKey)))) ∧
    (∀ (i : ℕ) (signers : List ℕ) (ecShare : C.Scalar) (presig : Presignature C)
      (inb : Inbox OnlineSignMsg) (sig : Signature),
      (runOnlineSign i signers ecShare publicKey msgDigest presig).exec inb = .ok sig →
      ∀ k : C.Scalar, presig.rPoint = k • C.generator → presig.r = pointXCoord presig.rPoint →
      ∀ x y, C.coords presig.rPoint = some (x, y) → x < C.q →
      ∃ localI, position signers i = some localI ∧
        (CompleteSignature publicKey msgDigest (sig.rBytes, sig.sBytes, sig.recId) ↔ presig.r ≠ 0 ∧
          k * (ownShareOf i signers ecShare (digestScalar C msgDigest) presig +
              receivedShares C localI (inb 0)) =
            digestScalar C msgDigest + presig.r * dlog publicKey)) := by
  constructor
  · intro i n signers share c1 c2 inb out h
    constructor
    · intro hi
      exact runSign_accept_complete_iff hi h
    · rintro rfl
      obtain ⟨x, y, hk⟩ : ∃ x y, C.coords (c1.k • C.generator) = some (x, y) := by
        obtain ⟨sig, ⟨state, data, hoffer, -⟩, -⟩ := runSign_p1_ok h
        cases hc : C.coords (c1.k • C.generator) with
        | some e => exact ⟨e.1, e.2, rfl⟩
        | none =>
          -- an offered nonce has a point
          rw [C.coords_eq_none, ← zero_smul C.Scalar C.generator, generator_smul_eq_iff] at hc
          exact absurd hc (p1Offer_k_ne_zero hoffer)
      exact ⟨x, y, hk, runSign_p1_complete_iff h hk⟩
  · intro i signers ecShare presig inb sig h k hk hr x y hx hlt
    exact runOnlineSign_complete_iff h hk hr hx hlt

/-- The result of a party that is not a signer is what it accepts from `P1`. -/
theorem exec_runSign_accept {i n : ℕ} {signers : ℕ × ℕ} {share lambda : C.Scalar} {publicKey : C.Point}
    {msgDigest : Vector UInt8 32} {c1 : P1Coins C} {c2 : P2Coins} (hn : 2 ≤ n ∧ i < n)
    (hlambda : lagrangeCoeff C i [signers.1, signers.2] = some lambda) (h1 : i ≠ signers.1)
    (h2 : i ≠ signers.2) (inb : Inbox (SignMsg C)) :
    (runSign H i n signers share publicKey msgDigest c1 c2).exec inb =
      acceptSignature signers.1 publicKey msgDigest (inb 2) := by
  simp only [runSign, if_pos hn, hlambda, if_neg h1, if_neg h2, orPanic_some, Proc.attempt_ok,
    Proc.exec_send, Proc.exec_recv, Proc.exec_done]

/-- What a corrupt `P1` sends: in round 2 two empty strings with the recovery id 7. -/
def emptySignature : Inbox (SignMsg smallCurve)
  | 0 => (others 3 2).map fun d => (d, Round1Msg.ack)
  | 1 => (others 3 2).map fun d => (d, Round2Msg.ack)
  | _ + 2 => (others 3 2).map fun d => (d, ⟨[], [], 7⟩)

/-- The third of three parties, which does not sign, accepts it. -/
theorem exec_emptySignature :
    (runSign oneHash 2 3 (0, 1) 0 smallCurve.generator zeroDigest releaseCoins ⟨0, ⟨0, 0⟩⟩).exec
      emptySignature = .ok ([], [], 7) := by
  rw [exec_runSign_accept (by decide) (show lagrangeCoeff smallCurve 2 [0, 1] = some 1 by
    decide +kernel) (by decide) (by decide)]
  show checkSignature smallCurve.generator zeroDigest ⟨[], [], 7⟩ = _
  exact if_pos (verifySignature_nil _ _)

/-- **A signature that is returned and is not complete.** -/
theorem runSign_incomplete :
    (runSign oneHash 2 3 (0, 1) 0 smallCurve.generator zeroDigest releaseCoins ⟨0, ⟨0, 0⟩⟩).exec
      emptySignature = .ok ([], [], 7) ∧
      ¬ CompleteSignature smallCurve.generator zeroDigest ([], [], 7) := by
  refine ⟨exec_emptySignature, fun h => ?_⟩
  exact absurd h.length_r (by decide)

/-- What the honest `P1` of a session ends with. -/
theorem exists_exec_p1 (H : Hash) (x : SignSession C) (hs : x.s ≠ 0) : ∃ inb,
    (runSign H x.signers.1 x.n x.signers (x.share x.signers.1) x.publicKey x.msgDigest
      (x.p1Coins x.signers.1) (x.p2Coins x.signers.1)).exec inb = .ok x.output :=
  ⟨_, (runSign_correct H x hs).exec_lockstepInbox (fun _ _ => not_false) x.p1_lt⟩

/-- The criterion on the two empty strings, at the honest `P1` of the small session, and at a signer of
    the small CGGMP21 session. -/
theorem signature_complete_iff_small :
    (∃ sig : Round3Msg, messageFrom 0 (emptySignature 2) = some sig ∧
      (CompleteSignature smallCurve.generator zeroDigest ([], [], 7) ↔
        sig.rBytes.length = 32 ∧ sig.sBytes.length = 32 ∧ InRange smallCurve sig.rBytes ∧
          InRange smallCurve sig.sBytes ∧ ∃ y,
            smallCurve.coords (ecdsaPoint smallCurve.generator (digestScalar smallCurve zeroDigest)
              (ofBE sig.rBytes : ℕ) (ofBE sig.sBytes : ℕ)) = some (ofBE sig.rBytes, y) ∧
              y % 2 = sig.recId.toNat)) ∧
    (∃ inb : Inbox (SignMsg smallCurve), ∃ x y : ℕ,
      (CompleteSignature Lindell.smallSession.publicKey Lindell.smallSession.msgDigest
          Lindell.smallSession.output ↔ (x : smallCurve.Scalar) ≠ 0 ∧
        (if y % 2 = x % 2 then Lindell.smallSession.k else -Lindell.smallSession.k) *
            p1Combined Lindell.smallSession.signers
              (Lindell.smallSession.share Lindell.smallSession.signers.1)
              (digestScalar smallCurve Lindell.smallSession.msgDigest)
              (Lindell.smallSession.p1Coins Lindell.smallSession.signers.1) (inb 1) =
          digestScalar smallCurve Lindell.smallSession.msgDigest +
            (x : smallCurve.Scalar) * dlog Lindell.smallSession.publicKey)) ∧
    ∃ inb : Inbox OnlineSignMsg, ∃ sig : Signature,
      ((Cggmp21.smallSession.onlineSetup fun _ => smallPresign.presignature).prog 0).exec inb =
        .ok sig ∧
      ∃ localI, position [2, 0] 2 = some localI ∧
        (CompleteSignature (smallKeygen.sk • smallCurve.generator) Cggmp21.smallSession.msgDigest
          (sig.rBytes, sig.sBytes, sig.recId) ↔ smallPresign.presignature.r ≠ 0 ∧
          smallPresign.k * (ownShareOf 2 [2, 0] (smallKeygen.output 2).ecShare
              (digestScalar smallCurve Cggmp21.smallSession.msgDigest) smallPresign.presignature +
                receivedShares smallCurve localI (inb 0)) =
            digestScalar smallCurve Cggmp21.smallSession.msgDigest +
              smallPresign.presignature.r * dlog (smallKeygen.sk • smallCurve.generator)) := by
  have hall := fun publicKey msgDigest => signature_complete_iff oneHash publicKey msgDigest
    (C := smallCurve)
  refine ⟨((hall smallCurve.generator zeroDigest).1 2 3 (0, 1) 0 releaseCoins ⟨0, ⟨0, 0⟩⟩
    emptySignature _ exec_emptySignature).1 (by decide), ?_, ?_⟩
  · have hs : Lindell.smallSession.s ≠ 0 := by
      rw [Lindell.smallSession_values.2]
      exact one_ne_zero
    obtain ⟨inb, hexec⟩ := exists_exec_p1 oneHash Lindell.smallSession hs
    obtain ⟨x, y, hcoords, -, hlt⟩ := ((hall _ _).1 _ _ _ _ _ _ _ _ hexec).2 rfl
    -- the nonce is 1
    have hpoint : smallCurve.coords (Lindell.smallSession.k • smallCurve.generator) = some (1, 1) := by
      decide +kernel
    obtain ⟨rfl, rfl⟩ := Prod.mk.inj (Option.some.inj (hpoint.symm.trans hcoords))
    exact ⟨inb, 1, 1, hlt (by decide)⟩
  · obtain ⟨recId, hrec⟩ := exists_recoveryId (P := smallPresign.rPoint) (by decide +kernel)
    have hs : Cggmp21.smallSession.s ≠ 0 := by
      rw [Cggmp21.smallSession_values.2]
      decide
    have hruns := Cggmp21.smallSession.runOnlineSign_finishes fun _ _ => rfl
    have hexec := hruns.exec_lockstepInbox (fun _ _ => not_false) (show 0 < 2 by decide)
    rw [Session.finishSignature_eq hs hrec] at hexec
    have hpoint : smallCurve.coords smallPresign.rPoint = some (2, 2) := by
      decide +kernel
    exact ⟨_, _, hexec, (hall _ _).2 2 [2, 0] _ smallPresign.presignature _ _ hexec smallPresign.k rfl
      rfl 2 2 hpoint (by decide)⟩

end Govis
