import Govis.Cggmp21.EndToEnd
import Govis.Cggmp21.KeygenModuli
import Govis.Cggmp21.PresignConsistency
import Govis.Lindell.SignPanics
import Govis.Lindell.SignSecrecy
import Govis.Rounds.Solo

namespace Govis

open Arith Bytes Curve Rounds Shamir Polynomial
open Cggmp21 (KeygenCoins HasKeys UnitDraws BlumSilent KeygenFits Interpolates PresignCoins PresignMsg
  PresignError Presignature EncryptedKMsg PresignDraws presignSetup presignNet encryptNonce keygenSetup
  keygenFits_iff interpolates_iff exists_honest_run exists_keygen_row isAnswerable_oneHash
  receivedOutput dealtShare
  Cggmp21KeygenOutput KeygenMsg KeygenError presignScript sent_nonce position_getD)
open Lindell

/-!
# Plaintexts and moduli

`set_paillier_bits` stores any number as the size of the moduli, and `main` passes on what the
command line has.  What is encrypted is smaller than the modulus it is encrypted under for three
different lower bounds of the modulus.

* `PresignFits`, `SignFits` — what the two protocols encrypt in a state fits its modulus, as
  `KeygenFits` says of shares;
* `plaintexts_fit_iff` — **all runs fit exactly above these bounds**; below them `run_keygen` can
  return at every party with shares of no key.
-/

variable {C : Curve} {H : Hash}

/-! ### Presigning -/

section Presign

variable {parties : List ℕ} {keys : ℕ → PaillierKeypair} {coins : ℕ → PresignCoins C}

/-- Every nonce that a signer has sent is encrypted under the key of the signer it is for, and below
    the modulus of that key. -/
def PresignFits (H : Hash) (parties : List ℕ) (coins : ℕ → PresignCoins C)
    (s : Net (PresignMsg C) (Res PresignError (Presignature C))) : Prop :=
  ∀ d < parties.length, ∀ i < parties.length, i ≠ d → ∀ m : EncryptedKMsg, (s d).sent 3 i = some m →
    encryptNonce H (coins d).k (coins i).keypair.pk ((coins d).rho i) ((coins d).rangeDraws i) =
      some m ∧
    (coins d).k.val < (coins i).keypair.pk.n

/-- Signers with given keypairs and nonces. -/
def nonceCoins (keys : ℕ → PaillierKeypair) (k : ℕ → C.Scalar) (i : ℕ) : PresignCoins C :=
  ⟨keys i, k i, fun _ => 0, fun _ => ⟨0, 0⟩⟩

/-- In some run every signer sends its nonce to every other one. -/
theorem exists_nonce_run (H : Hash) (hnd : parties.Nodup)
    (hgen : ∀ i < parties.length, ∃ p q, Generated p q (keys i)) (k : ℕ → C.Scalar) :
    ∃ s, Reachable (presignSetup H parties (nonceCoins keys k)) s ∧
      ∀ d < parties.length, ∀ i < parties.length, i ≠ d → ∃ m, (s d).sent 3 i = some m := by
  have hdraws : PresignDraws parties (nonceCoins keys k) :=
    ⟨hnd, hgen, fun _ _ _ _ _ _ => coprime_of_genBigintRange_zero⟩
  obtain ⟨c, proof, henc⟩ := hdraws.exists_encrypted H
  set msg3 : ℕ → ℕ → EncryptedKMsg := fun d j => ⟨some (c d j), some (proof d j)⟩
  obtain ⟨s, hs, hon, hret⟩ := Rounds.exists_run (S := presignSetup H parties (nonceCoins keys k))
    (M := presignScript H (nonceCoins keys k) msg3) (k := 4) (fun _ hc => absurd hc not_false)
    fun i hi _ => hdraws.follows_received H hi fun j hj hij => (henc i hi j hj hij).1
  exact ⟨s, hs, fun d hd i hi hid =>
    ⟨_, hon.sent_of_returned hd not_false (hret d hd not_false) (Nat.lt_succ_self 3) hi hid⟩⟩

/-- **When nonces fit.** -/
theorem presignFits_iff (H : Hash) (hnd : parties.Nodup) (hlen : 2 ≤ parties.length)
    (hgen : ∀ i < parties.length, ∃ p q, Generated p q (keys i)) :
    (∀ coins : ℕ → PresignCoins C, (∀ i < parties.length, (coins i).keypair = keys i) → ∀ s,
        Reachable (presignSetup H parties coins) s → PresignFits H parties coins s) ↔
      ∀ i < parties.length, C.q ≤ (keys i).pk.n := by
  constructor
  · intro h i hi
    by_contra hlt
    have hval : (((keys i).pk.n : ℕ) : C.Scalar).val = (keys i).pk.n :=
      ZMod.val_cast_of_lt (not_le.mp hlt)
    -- everybody draws the modulus of `i`
    obtain ⟨s, hs, hsent⟩ := exists_nonce_run H hnd hgen fun _ => (((keys i).pk.n : ℕ) : C.Scalar)
    obtain ⟨d, hd, hdi⟩ := exists_other hlen i
    obtain ⟨m, hm⟩ := hsent d hd i hi (Ne.symm hdi)
    obtain ⟨-, hfit⟩ := h _ (fun _ _ => rfl) s hs d hd i hi (Ne.symm hdi) m hm
    change (((keys i).pk.n : ℕ) : C.Scalar).val < (keys i).pk.n at hfit
    exact absurd hval (ne_of_lt hfit)
  · intro hle coins hkeys s hs d hd i hi hid m hm
    obtain ⟨p, q, hkp⟩ := hgen i hi
    rw [← hkeys i hi] at hkp
    have hmodulus := hle i hi
    rw [← hkeys i hi] at hmodulus
    have hnet : Reachable (presignNet H parties coins fun _ => False) s := hs
    exact ⟨sent_nonce hnet hi not_false hkp.valid.wellFormed hd not_false (position_getD hnd hd)
      (Ne.symm hid) hm, lt_of_lt_of_le (ZMod.val_lt _) hmodulus⟩

end Presign

/-! ### Signing -/

section Sign

variable {n : ℕ} {signers : ℕ × ℕ} {share : ℕ → C.Scalar} {publicKey : C.Point}
  {msgDigest : Vector UInt8 32} {p1Coins : ℕ → P1Coins C} {p2Coins : ℕ → P2Coins}
  {s : Net (SignMsg C) (Res SignError SignOutput)}

/-- What `P2` has sent it has computed from the encrypted inverse `k⁻¹` of the offer of `P1`, and the
    product of the two numbers is below the modulus. -/
def SignFits (H : Hash) (signers : ℕ × ℕ) (share : ℕ → C.Scalar) (msgDigest : Vector UInt8 32)
    (p1Coins : ℕ → P1Coins C) (p2Coins : ℕ → P2Coins)
    (s : Net (SignMsg C) (Res SignError SignOutput)) : Prop :=
  ∀ k m, (s signers.2).sent 1 k = some m → ∃ state data lambda,
    p1Offer H (p1Coins signers.1) = some (state, data) ∧
    lagrangeCoeff C signers.2 [signers.1, signers.2] = some lambda ∧
    p2Encrypt H lambda (digestScalar C msgDigest) (share signers.2)
      ⟨data.pkN, data.pkN ^ 2, data.pkG⟩ data.cKInv data.point (p2Coins signers.2) = some m ∧
    (lambda * (digestScalar C msgDigest + pointXCoord data.point * share signers.2)).val *
      (p1Coins signers.1).k⁻¹.val < (p1Coins signers.1).keypair.pk.n

/-- What `P1` sends in round 0 is its offer. -/
theorem runSign_sends_offer {x : C.Scalar} {c1 : P1Coins C} {c2 : P2Coins}
    {inb : Inbox (SignMsg C)} {j : ℕ} {m : Round1Msg C}
    (h : (runSign H signers.1 n signers x publicKey msgDigest c1 c2).Sends inb 0 j m) :
    ∃ state data, p1Offer H c1 = some (state, data) ∧ m = .p1Data data := by
  obtain ⟨-, -, h⟩ := Proc.sends_attempt_iff.mp h
  obtain ⟨lambda, -, h⟩ := Proc.sends_attempt_iff.mp h
  obtain ⟨offer, hoffer, h⟩ := Proc.sends_attempt_iff.mp h
  rw [Proc.sends_send_recv_iff, Option.some.injEq] at h
  rw [if_pos rfl] at hoffer
  obtain ⟨⟨state, data⟩, hoffer', rfl⟩ := Option.map_eq_some_iff.mp (orPanic_eq_ok.mp hoffer)
  exact ⟨state, data, hoffer', h.symm⟩

/-- What `P2` sends in round 1 is its answer. -/
theorem runSign_sends_answer {x : C.Scalar} {c1 : P1Coins C} {c2 : P2Coins}
    {inb : Inbox (SignMsg C)} {j : ℕ} {m : Round2Msg}
    (h : (runSign H signers.2 n signers x publicKey msgDigest c1 c2).Sends inb 1 j m) :
    ∃ lambda, lagrangeCoeff C signers.2 [signers.1, signers.2] = some lambda ∧
      p2Answer H signers.1 lambda (digestScalar C msgDigest) x c2 (inb 0) = .ok m := by
  obtain ⟨-, -, h⟩ := Proc.sends_attempt_iff.mp h
  obtain ⟨lambda, hlambda, h⟩ := Proc.sends_attempt_iff.mp h
  obtain ⟨offer, -, h⟩ := Proc.sends_attempt_iff.mp h
  rw [Proc.sends_send_iff_of_lt _ Nat.zero_lt_one, Proc.sends_recv_iff] at h
  obtain ⟨answer, hanswer, h⟩ := Proc.sends_attempt_iff.mp h
  rw [Proc.sends_send_recv_iff, Option.some.injEq] at h
  rw [if_pos rfl] at hanswer
  exact ⟨lambda, orPanic_eq_ok.mp hlambda, h ▸ hanswer⟩

/-- **Above the square** every product fits. -/
theorem signFits_of_lt
    (hs : Reachable (signNet H n signers share publicKey msgDigest p1Coins p2Coins fun _ => False) s)
    (h1 : signers.1 < n) (h2 : signers.2 < n)
    (hlt : (C.q - 1) ^ 2 < (p1Coins signers.1).keypair.pk.n) :
    SignFits H signers share msgDigest p1Coins p2Coins s := by
  intro k m hm
  obtain ⟨lambda, hlambda, hanswer⟩ :=
    runSign_sends_answer (hs.sound.sends_of_sent h2 not_false hm)
  obtain ⟨data, hfrom, hencrypt⟩ := p2Answer_eq_ok hanswer
  -- the only offer on the wire is that of `P1`
  have hgot := arrived_of_messageFrom hfrom
  obtain ⟨state, data', hoffer, hdata⟩ := runSign_sends_offer (hs.sound.sends h1 not_false hgot)
  obtain rfl := Round1Msg.p1Data.inj hdata
  have hval : ∀ a : C.Scalar, a.val ≤ C.q - 1 := fun a => Nat.le_sub_one_of_lt a.val_lt
  refine ⟨state, data, lambda, hoffer, hlambda, hencrypt, lt_of_le_of_lt ?_ hlt⟩
  rw [sq]
  exact Nat.mul_le_mul (hval _) (hval _)

/-- The digest that is read as a given scalar. -/
def digestOf (a : C.Scalar) : Vector UInt8 32 :=
  ⟨(toBeBytes a).toArray, by rw [List.size_toArray, length_toBeBytes]⟩

theorem digestScalar_digestOf (a : C.Scalar) : digestScalar C (digestOf a) = a := by
  show fromBeBytesModOrder C (toBeBytes a) = a
  exact fromBeBytesModOrder_toBeBytes a

theorem exists_lagrangeCoeff_ne_zero (hn : n < 2 ^ 16) (h1 : signers.1 < n) (h2 : signers.2 < n)
    (hne : signers.1 ≠ signers.2) :
    ∃ lambda, lagrangeCoeff C signers.2 [signers.1, signers.2] = some lambda ∧ lambda ≠ 0 := by
  have hnodes : ∀ j ∈ [signers.1, signers.2], j + 1 < 2 ^ 16 := by
    intro j hj
    rcases List.mem_pair.mp hj with rfl | rfl <;> omega
  exact ⟨_, lagrangeCoeff_eq_weight (by omega) hnodes (by simpa using hne),
    weight_node_ne_zero hnodes (by simp)⟩

/-- What a party begins with, given the offer of `P1`. -/
theorem runSign_begins (hn : n < 2 ^ 16) (h1 : signers.1 < n) (h2 : signers.2 < n)
    (hne : signers.1 ≠ signers.2) {i : ℕ} (hi : i < n) {x : C.Scalar} {c1 : P1Coins C}
    {c2 : P2Coins} {state : P1State C} {data : P1Data C}
    (hoffer : i = signers.1 → p1Offer H c1 = some (state, data)) :
    ∃ rest, runSign H i n signers x publicKey msgDigest c1 c2 =
      .send (fun _ => some (if i = signers.1 then .p1Data data else .ack)) rest := by
  obtain ⟨lambda, hlambda⟩ := exists_lagrangeCoeff (C := C) hn h1 h2 hne hi
  have hcheck : 2 ≤ n ∧ i < n := ⟨by omega, hi⟩
  simp only [runSign, if_pos hcheck, orPanic_some, Proc.attempt_ok, hlambda]
  by_cases hi1 : i = signers.1
  · rw [if_pos hi1, if_pos hi1, hoffer hi1]
    exact ⟨_, rfl⟩
  · rw [if_neg hi1, if_neg hi1]
    exact ⟨_, rfl⟩

/-- `P2` begins with an acknowledgement, and goes on with its answer. -/
theorem runSign_p2_begins (H : Hash) (publicKey : C.Point) (msgDigest : Vector UInt8 32)
    (c1 : P1Coins C) (c2 : P2Coins) (x : C.Scalar) (h1 : signers.1 < n) (h2 : signers.2 < n)
    (hne : signers.1 ≠ signers.2) {lambda : C.Scalar}
    (hlambda : lagrangeCoeff C signers.2 [signers.1, signers.2] = some lambda) :
    ∃ next : List (ℕ × Round1Msg C) → Proc (SignMsg C) (Res SignError SignOutput) 1,
      runSign H signers.2 n signers x publicKey msgDigest c1 c2 =
        .send (fun _ => some .ack) (.recv next) ∧
      ∀ msgs1 answer, p2Answer H signers.1 lambda (digestScalar C msgDigest) x c2 msgs1 = .ok answer →
        ∃ rest, next msgs1 = .send (fun _ => some answer) rest := by
  have hcheck : 2 ≤ n ∧ signers.2 < n := ⟨by omega, h2⟩
  simp only [runSign, if_pos hcheck, orPanic_some, Proc.attempt_ok, hlambda, if_neg hne.symm,
    if_true]
  refine ⟨_, rfl, fun msgs1 answer hanswer => ?_⟩
  rw [hanswer, Proc.attempt_ok]
  exact ⟨_, rfl⟩

/-- In some run `P2` answers the offer of `P1`, if its randomness has an inverse. -/
theorem exists_answer_run (H : Hash) (p1Coins : ℕ → P1Coins C) (p2Coins : ℕ → P2Coins)
    (hn : n < 2 ^ 16) (h1 : signers.1 < n) (h2 : signers.2 < n) (hne : signers.1 ≠ signers.2)
    (share : ℕ → C.Scalar) (publicKey : C.Point) (msgDigest : Vector UInt8 32)
    (hpk : (p1Coins signers.1).keypair.pk.WellFormed) (hk : (p1Coins signers.1).k ≠ 0)
    (hrho : ∀ rho, genBigintRange 1 (p1Coins signers.1).keypair.pk.n (p1Coins signers.1).rho =
      some rho → IsCoprime rho (p1Coins signers.1).keypair.pk.n)
    (hrhoS2 : ∀ rho, genBigintRange 1 (p1Coins signers.1).keypair.pk.n
      (p2Coins signers.2).rhoS2 = some rho → IsCoprime rho (p1Coins signers.1).keypair.pk.n) :
    ∃ (s : Net (SignMsg C) (Res SignError SignOutput)) (m : Round2Msg),
      Reachable (signNet H n signers share publicKey msgDigest p1Coins p2Coins fun _ => False) s ∧
      (s signers.2).sent 1 signers.1 = some m := by
  obtain ⟨lambda, hlambda⟩ := exists_lagrangeCoeff (C := C) hn h1 h2 hne h2
  obtain ⟨c, rangeProof, consistencyProof, hoffer, hrange, hcons, hencrypts⟩ :=
    p1Offer_spec H hpk hk
  set data : P1Data C := ⟨(p1Coins signers.1).k • C.generator, c,
    (p1Coins signers.1).keypair.pk.n, (p1Coins signers.1).keypair.pk.g, rangeProof,
    consistencyProof⟩ with hdata
  set msg : ℕ → Round1Msg C := fun j => if j = signers.1 then .p1Data data else .ack with hmsg
  have hfrom : messageFrom signers.1 (collect n signers.2 fun j => some (msg j)) =
      some (.p1Data data) := by
    rw [messageFrom_collect h1 hne]
    exact congrArg some (if_pos rfl)
  obtain ⟨cS2, mulProof, hanswer, -, -⟩ := p2Answer_spec hpk lambda (digestScalar C msgDigest)
    (share signers.2) hfrom hrange hcons (hencrypts hrho) hrhoS2
  obtain ⟨next, hown, hnext⟩ := runSign_p2_begins H publicKey msgDigest (p1Coins signers.2)
    (p2Coins signers.2) (share signers.2) h1 h2 hne hlambda
  obtain ⟨rest, hrest⟩ := hnext _ _ hanswer
  have hprog : ∀ j < n, ∃ rest, runSign H j n signers (share j) publicKey msgDigest (p1Coins j)
      (p2Coins j) = .send (fun _ => some (msg j)) rest := fun j hj =>
    runSign_begins hn h1 h2 hne hj fun hj1 => hj1 ▸ hoffer
  have hack : msg signers.2 = .ack := if_neg hne.symm
  rw [← hack] at hown
  obtain ⟨s, hs, hsent⟩ := exists_second_round
    (S := signNet H n signers share publicKey msgDigest p1Coins p2Coins fun _ => False)
    (fun _ => not_false) hprog (show 1 < n by omega) h2 hown
    (fun _ _ _ => rfl) hrest
  exact ⟨s, _, hs, hsent signers.1⟩

/-- **When products fit.**  With the nonce `-1` and a digest that makes the number of `P2` `-1`, the
    product is the square of the order minus one. -/
theorem signFits_iff (H : Hash) {p q : ℕ} {kp : PaillierKeypair} (hgen : Generated p q kp)
    (hn : n < 2 ^ 16) (h1 : signers.1 < n) (h2 : signers.2 < n) (hne : signers.1 ≠ signers.2)
    (share : ℕ → C.Scalar) (publicKey : C.Point) :
    (∀ msgDigest (p1Coins : ℕ → P1Coins C) p2Coins, (p1Coins signers.1).keypair = kp → ∀ s,
        Reachable (signNet H n signers share publicKey msgDigest p1Coins p2Coins fun _ => False) s →
        SignFits H signers share msgDigest p1Coins p2Coins s) ↔
      (C.q - 1) ^ 2 < kp.pk.n := by
  constructor
  · intro h
    have hk : (-1 : C.Scalar) ≠ 0 := neg_ne_zero.mpr one_ne_zero
    obtain ⟨lambda, hlambda, hlne⟩ := exists_lagrangeCoeff_ne_zero (C := C) hn h1 h2 hne
    set coins : P1Coins C := ⟨kp, -1, 0, ⟨0, 0⟩, ⟨1, 0⟩⟩ with hcoins
    set part := pointXCoord ((-1 : C.Scalar) • C.generator) * share signers.2 with hpart
    obtain ⟨s, m, hs, hm⟩ := exists_answer_run H (fun _ => coins) (fun _ => ⟨0, ⟨0, 0⟩⟩) hn h1 h2 hne
      share publicKey (digestOf (-lambda⁻¹ - part)) hgen.valid.wellFormed hk
      (fun _ => coprime_of_genBigintRange_zero) (fun _ => coprime_of_genBigintRange_zero)
    obtain ⟨state, data, lambda', hoffer, hlambda', -, hfit⟩ := h _ _ _ rfl s hs _ _ hm
    obtain rfl := Option.some.inj (hlambda.symm.trans hlambda')
    -- the point of the offer is that of the nonce
    obtain ⟨c, rangeProof, consistencyProof, hoffer', -⟩ :=
      p1Offer_spec H (show coins.keypair.pk.WellFormed from hgen.valid.wellFormed) hk
    obtain ⟨rfl, rfl⟩ := Prod.mk.inj (Option.some.inj (hoffer.symm.trans hoffer'))
    have hproduct : lambda * (digestScalar C (digestOf (-lambda⁻¹ - part)) + part) = -1 := by
      rw [digestScalar_digestOf, sub_add_cancel, mul_neg, mul_inv_cancel₀ hlne]
    have hval : (-1 : C.Scalar).val = C.q - 1 := by
      rw [ZMod.neg_val, if_neg one_ne_zero, ZMod.val_one]
    change (lambda * (digestScalar C (digestOf (-lambda⁻¹ - part)) + part)).val *
      (-1 : C.Scalar)⁻¹.val < kp.pk.n at hfit
    rw [hproduct, inv_neg, inv_one, hval] at hfit
    rwa [sq]
  · intro hlt msgDigest p1Coins p2Coins hkp s hs
    subst hkp
    exact signFits_of_lt hs h1 h2 hlt

end Sign

/-! ### All three protocols -/

/-- **Plaintexts and moduli.**  What honest runs encrypt is below the modulus it is encrypted under
    exactly if no modulus of `run_keygen` and of `run_presign` is below the order, and the modulus of
    `P1` in `run_sign` is above the square of the order minus one.  The first decides too whether the
    shares of `run_keygen` interpolate to the discrete logarithm of the public key. -/
theorem plaintexts_fit_iff (C : Curve) (H : Hash) (sid : List UInt8)
    (keys : ℕ → ℕ × ℕ × PaillierKeypair) (parties : List ℕ) (nonceKeys : ℕ → PaillierKeypair)
    (signers : ℕ × ℕ) (share : ℕ → C.Scalar) (publicKey : C.Point) {n t p q : ℕ}
    {kp : PaillierKeypair} (hn2 : 2 ≤ n) (hn : n < 2 ^ 16) (ht : 1 ≤ t) (htn : t ≤ n)
    (hkeys : ∀ i < n, Generated (keys i).1 (keys i).2.1 (keys i).2.2)
    (hnd : parties.Nodup) (hlen : 2 ≤ parties.length)
    (hnonce : ∀ i < parties.length, ∃ p q, Generated p q (nonceKeys i))
    (h1 : signers.1 < n) (h2 : signers.2 < n) (hne : signers.1 ≠ signers.2)
    (hkp : Generated p q kp) :
    ((∀ coins : ℕ → KeygenCoins C, HasKeys n keys coins → ∀ s,
        Reachable (keygenSetup H n t sid coins fun _ => False) s → KeygenFits H n t sid coins s) ↔
      (∃ i < n, BlumSilent H sid (keys i).2.2.pk.n) ∨ ∀ i < n, C.q ≤ (keys i).2.2.pk.n) ∧
    ((∀ coins : ℕ → KeygenCoins C, HasKeys n keys coins → UnitDraws n coins → ∀ s,
        Reachable (keygenSetup H n t sid coins fun _ => False) s → Interpolates n t s) ↔
      (∃ i < n, BlumSilent H sid (keys i).2.2.pk.n) ∨ ∀ i < n, C.q ≤ (keys i).2.2.pk.n) ∧
    ((∀ coins : ℕ → PresignCoins C, (∀ i < parties.length, (coins i).keypair = nonceKeys i) → ∀ s,
        Reachable (presignSetup H parties coins) s → PresignFits H parties coins s) ↔
      ∀ i < parties.length, C.q ≤ (nonceKeys i).pk.n) ∧
    ((∀ msgDigest (p1Coins : ℕ → P1Coins C) p2Coins, (p1Coins signers.1).keypair = kp → ∀ s,
        Reachable (signNet H n signers share publicKey msgDigest p1Coins p2Coins fun _ => False) s →
        SignFits H signers share msgDigest p1Coins p2Coins s) ↔
      (C.q - 1) ^ 2 < kp.pk.n) :=
  ⟨keygenFits_iff hn2 hn ht htn hkeys, interpolates_iff hn2 hn ht htn hkeys,
    presignFits_iff H hnd hlen hnonce, signFits_iff H hkp hn h1 h2 hne share publicKey⟩

/-- With the small keypair all plaintexts of three parties over the small curve fit. -/
theorem plaintexts_fit_iff_small :
    (∀ coins : ℕ → KeygenCoins smallCurve,
      HasKeys 3 (fun _ => (65539, 65543, smallKeypair)) coins → ∀ s,
        Reachable (keygenSetup oneHash 3 2 [] coins fun _ => False) s →
        KeygenFits oneHash 3 2 [] coins s ∧ (UnitDraws 3 coins → Interpolates 3 2 s)) ∧
    (∀ coins : ℕ → PresignCoins smallCurve, (∀ i < 2, (coins i).keypair = smallKeypair) → ∀ s,
      Reachable (presignSetup oneHash [2, 0] coins) s → PresignFits oneHash [2, 0] coins s) ∧
    ∀ msgDigest (p1Coins : ℕ → P1Coins smallCurve) p2Coins, (p1Coins 2).keypair = smallKeypair →
      ∀ s, Reachable (signNet oneHash 3 (2, 0) (fun _ => 1) smallCurve.generator msgDigest p1Coins
        p2Coins fun _ => False) s → SignFits oneHash (2, 0) (fun _ => 1) msgDigest p1Coins p2Coins s := by
  have hkp := generated_smallKeypair
  have hle : smallCurve.q ≤ smallKeypair.pk.n := by decide
  obtain ⟨hfits, hinter, hnonce, hsign⟩ := plaintexts_fit_iff smallCurve oneHash []
    (fun _ => (65539, 65543, smallKeypair)) [2, 0] (fun _ => smallKeypair) (2, 0) (fun _ => 1)
    smallCurve.generator (t := 2) (Nat.le_succ 2) three_lt_indices one_le_two (Nat.le_succ 2)
    (fun _ _ => hkp) (by decide) (le_refl 2) (fun _ _ => ⟨_, _, hkp⟩) (by decide) (by decide)
    (by decide) hkp
  exact ⟨fun coins hkeys s hs => ⟨hfits.mpr (.inr fun _ _ => hle) coins hkeys s hs,
      fun hunit => hinter.mpr (.inr fun _ _ => hle) coins hkeys hunit s hs⟩,
    hnonce.mpr fun _ _ => hle, hsign.mpr (by decide)⟩

/-- A Paillier keypair for the primes `239` and `251`, whose modulus is below the order of the small
    curve. -/
def shortKeypair : PaillierKeypair where
  pk := ⟨59989, 3598680121, 59990⟩
  sk := ⟨29750, 44041⟩

theorem generated_shortKeypair : Generated 239 251 shortKeypair := by
  have hp : Nat.Prime 239 := by norm_num
  have hq : Nat.Prime 251 := by norm_num
  have hpair : keypairOf 239 251 = some shortKeypair := by
    rw [keypairOf_eq hp hq]
    decide +kernel
  refine ⟨[239, 251], by simpa using ⟨hp, hq⟩, ?_⟩
  rw [generateKeypairExt, if_neg (by norm_num), if_neg (by norm_num), if_neg (by norm_num), hpair]

/-- Party 0 deals the polynomial `1 + 29994 x`, whose share for party 1 is the modulus, and party 1
    deals `1 + x`. -/
def wrapCoins (i : ℕ) : KeygenCoins smallCurve :=
  ⟨239, 251, shortKeypair, 1, fun _ => if i = 0 then 29994 else 1, 1, 1, fun _ => 0,
    fun _ => ⟨1, 0⟩⟩

/-- What the two parties return: the share of party 1 has lost what party 0 dealt to it. -/
theorem receivedOutput_wrapCoins :
    (receivedOutput 2 2 wrapCoins 0 fun d => (dealtShare wrapCoins 2 d 0).val).ecShare = 29997 ∧
    (receivedOutput 2 2 wrapCoins 1 fun d => (dealtShare wrapCoins 2 d 1).val).ecShare = 3 := by
  decide +kernel

/-- A line, by two of its values. -/
theorem eval_zero_of_degree_lt_two {f : smallCurve.Scalar[X]} (hf : f.degree < 2) :
    f.eval 0 = 2 * f.eval (node smallCurve 0) - f.eval (node smallCurve 1) := by
  have hle : f.degree ≤ 1 := Order.le_of_lt_succ hf
  rw [eq_X_add_C_of_degree_le_one hle]
  simp only [node, eval_add, eval_mul, eval_C, eval_X]
  push_cast
  ring

/-- **Shares of no key.**  With these two moduli, 59989 each, two parties over the small curve can run
    `run_keygen` honestly, both return a key, a share has wrapped around, and the returned shares do
    not interpolate to the discrete logarithm of the public key. -/
theorem shares_wrap_shortKeypair :
    Generated 239 251 shortKeypair ∧
    ∃ (coins : ℕ → KeygenCoins smallCurve)
      (s : Net (KeygenMsg smallCurve) (Res KeygenError (Cggmp21KeygenOutput smallCurve))),
      HasKeys 2 (fun _ => (239, 251, shortKeypair)) coins ∧ UnitDraws 2 coins ∧
      (∀ i < 2, (coins i).ecSecret ≠ 0 ∧ (coins i).draw 0 ≠ 0) ∧
      Reachable (keygenSetup oneHash 2 2 [] coins fun _ => False) s ∧
      (∃ out : ℕ → Cggmp21KeygenOutput smallCurve, ∀ i < 2, s.Returned i (.ok (out i))) ∧
      ¬ KeygenFits oneHash 2 2 [] coins s ∧ ¬ Interpolates 2 2 s := by
  have hunit : UnitDraws 2 wrapCoins := fun _ _ _ _ _ _ => coprime_of_genBigintRange_zero
  have hblum : ∀ i < 2, ¬ BlumSilent oneHash [] (wrapCoins i).keypair.pk.n := fun _ _ hsilent =>
    hsilent 0 (by decide) (isAnswerable_oneHash _ _ _)
  obtain ⟨s, hs, hret⟩ := exists_honest_run (t := 2) (fun _ _ => generated_shortKeypair) hunit hblum
  refine ⟨generated_shortKeypair, wrapCoins, s, fun _ _ => rfl, hunit, by decide, hs, ⟨_, hret⟩,
    fun hfits => ?_, fun hinter => ?_⟩
  · -- what party 0 has sent to party 1 does not fit
    obtain ⟨-, msg, hmsg⟩ := exists_keygen_row hs (show 1 < 2 by decide) not_false
      (hret 1 (by decide))
    have hsent := (hs.sound.wire 1 2 0 _ (hmsg 0 (by decide) (by decide))).2
    obtain ⟨-, hfit⟩ := hfits 0 (by decide) 1 _ hsent 1 (by decide) (by decide)
    revert hfit
    decide +kernel
  · obtain ⟨f, hdeg, hvalues⟩ := hinter _ hret
    obtain ⟨h0, hpk⟩ := hvalues 0 (by decide)
    obtain ⟨h1, -⟩ := hvalues 1 (by decide)
    rw [receivedOutput_wrapCoins.1] at h0
    rw [receivedOutput_wrapCoins.2] at h1
    -- the public key is that of the secret 2
    have hsecret : (∑ d ∈ Finset.range 2, (wrapCoins d).ecSecret) = f.eval 0 :=
      generator_smul_eq_iff.mp hpk
    rw [eval_zero_of_degree_lt_two hdeg, ← h0, ← h1] at hsecret
    revert hsecret
    decide +kernel

end Govis
