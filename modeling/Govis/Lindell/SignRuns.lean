import Govis.Lindell.Sign
import Govis.PaillierZkComplete

namespace Govis.Lindell

open Arith Bytes Curve Rounds Shamir Polynomial

/-!
# Lindell: honest signing

What `run_sign` does when every party follows it.

* `SignSession` — two signers with a sharing of degree at most one, a digest, and what the
  parties draw;
* `p1Offer_spec`, `p2Answer_spec`, `p1Combine_spec` — the three steps succeed, and what their
  messages encrypt;
* `runSign_correct` — every party returns the signature.
-/

variable {C : Curve} {H : Hash}

/-! ### The steps -/

section Steps

variable {kp : PaillierKeypair} {m : ℕ}

/-- **The offer** of a non-zero nonce has two proofs that verify, and encrypts the inverse. -/
theorem p1Offer_spec (H : Hash) {coins : P1Coins C} (hpk : coins.keypair.pk.WellFormed)
    (hk : coins.k ≠ 0) :
    ∃ c rangeProof consistencyProof, p1Offer H coins =
        some (⟨coins.keypair.sk, coins.keypair.pk, coins.k, coins.k⁻¹, c⟩,
          ⟨coins.k • C.generator, c, coins.keypair.pk.n, coins.keypair.pk.g, rangeProof,
            consistencyProof⟩) ∧
      verifyRange H coins.keypair.pk c curveBits (ascii "sign") rangeProof = some true ∧
      verifyConsistency H coins.keypair.pk c (coins.k • C.generator) (ascii "sign")
        consistencyProof = some true ∧
      ((∀ rho, genBigintRange 1 coins.keypair.pk.n coins.rho = some rho →
        IsCoprime rho coins.keypair.pk.n) → Encrypts coins.keypair.pk.n c coins.k⁻¹.val) := by
  obtain ⟨rho, c, hgen, henc, hmod⟩ := exists_encryption hpk coins.k⁻¹.val coins.rho
  obtain ⟨rangeProof, hrange, hrangeOk⟩ := verifyRange_complete H (ascii "sign") hpk
    (lt_two_pow_add (val_lt_two_pow_256 coins.k⁻¹) _) hmod coins.rangeDraws
  -- `k⁻¹ * R = G`
  have hpoint : ((coins.k⁻¹.val : ℕ) : C.Scalar) • coins.k • C.generator = C.generator := by
    rw [ZMod.natCast_zmod_val, inv_smul_smul₀ hk]
  obtain ⟨consistencyProof, hcons, hconsOk⟩ :=
    verifyConsistency_complete H (ascii "sign") hpk hpoint hmod
      coins.consistencyDraws
  refine ⟨c, rangeProof, consistencyProof, ?_, hrangeOk, hconsOk,
    fun hrho => ⟨rho, hrho rho hgen, hmod⟩⟩
  simp only [p1Offer, if_neg hk, scalarToBigint_eq, hgen, henc, curveBits, hrange, hcons,
    Option.bind_eq_bind, Option.bind_some, Option.pure_def]

/-- **The answer** to a good offer encrypts the message of the offer times the part of `P2`, and
    its proof verifies. -/
theorem p2Answer_spec {pk : PaillierPublicKey} (hpk : pk.WellFormed) {p1 : ℕ}
    (lambda msg share : C.Scalar) {coins : P2Coins} {msgs1 : List (ℕ × Round1Msg C)}
    {rPoint : C.Point} {c : ℤ} {rangeProof : RangeProof} {consistencyProof : ConsistencyProof C}
    (hfrom : messageFrom p1 msgs1 =
      some (.p1Data ⟨rPoint, c, pk.n, pk.g, rangeProof, consistencyProof⟩))
    (hrange : verifyRange H pk c curveBits (ascii "sign") rangeProof = some true)
    (hcons : verifyConsistency H pk c rPoint (ascii "sign") consistencyProof = some true)
    (henc : Encrypts pk.n c m)
    (hrho : ∀ rho, genBigintRange 1 pk.n coins.rhoS2 = some rho → IsCoprime rho pk.n) :
    ∃ cS2 mulProof, p2Answer H p1 lambda msg share coins msgs1 = .ok (.p2Data cS2 mulProof) ∧
      Encrypts pk.n cS2 ((lambda * (msg + pointXCoord rPoint * share)).val * m) ∧
      verifyMul H pk c cS2 curveBits (ascii "sign") mulProof = some true := by
  -- the public key that `P2` rebuilds
  have hrebuilt : (⟨pk.n, pk.n ^ 2, pk.g⟩ : PaillierPublicKey) = pk := by
    rw [sq, ← hpk.nSq_eq]
  set scalar := lambda * (msg + pointXCoord rPoint * share) with hscalar
  obtain ⟨rho, hgen, -, -⟩ :=
    genBigintRange_eq (show (1 : ℤ) < pk.n by exact_mod_cast hpk.one_lt) coins.rhoS2
  have hpow : modpow c (scalar.val : ℕ) (pk.n * pk.n : ℕ) = some (c ^ scalar.val % pk.nSq) := by
    rw [← hpk.nSq_eq]
    exact hpk.modpow_eq c scalar.val
  have hzero : encryptWithRho pk 0 rho = some (rho ^ pk.n % pk.n ^ 2) := by
    have := encryptWithRho_eq hpk 0 rho
    simpa using this
  set cS2 := (c ^ scalar.val % pk.nSq * (rho ^ pk.n % pk.n ^ 2)).tmod (pk.n * pk.n : ℕ) with hcS2
  have hmod : cS2 ≡ c ^ scalar.val * rho ^ pk.n [ZMOD pk.n ^ 2] := by
    rw [hcS2, Nat.cast_mul, ← sq, ← hpk.nSq_cast]
    exact (tmod_modEq _ _).trans ((Int.mod_modEq _ _).mul (Int.mod_modEq _ _))
  have hbits : scalar.val < 2 ^ curveBits := val_lt_two_pow_256 scalar
  obtain ⟨mulProof, hmul, hmulOk⟩ :=
    verifyMul_complete H (ascii "sign") hpk (lt_two_pow_add hbits _) hmod coins.mulDraws
  have hzeroEnc : Encrypts pk.n (rho ^ pk.n) 0 :=
    ⟨rho, hrho rho hgen, by rw [pow_zero, one_mul]⟩
  refine ⟨cS2, mulProof, ?_, ((henc.pow scalar.val).mul hzeroEnc).congr hmod, hmulOk⟩
  have hencrypt : p2Encrypt H lambda msg share pk c rPoint coins = some (.p2Data cS2 mulProof) := by
    simp only [p2Encrypt, ← hscalar, scalarToBigint_eq, hpow, hgen, hzero, ← hcS2,
      hmul, Option.bind_eq_bind, Option.bind_some, Option.pure_def]
  simp only [p2Answer, hfrom, okOr_some, ok_bind, hrebuilt, hrange, hcons, hencrypt, orPanic_some,
    not_true_eq_false, if_false]

/-- **Combining** adds the decrypted part to the own one. -/
theorem p1Combine_spec {p q : ℕ} (hkp : ValidKeypair p q kp) {i : ℕ} {signers : ℕ × ℕ}
    {lambda msg share k kInv : C.Scalar} {c cS2 : ℤ} {mulProof : MulProof}
    {msgs2 : List (ℕ × Round2Msg)}
    (hfrom : messageFrom signers.2 msgs2 = some (.p2Data cS2 mulProof))
    (hmul : verifyMul H kp.pk c cS2 curveBits (ascii "sign") mulProof = some true)
    (henc : Encrypts kp.pk.n cS2 m) (hm : m < kp.pk.n)
    (hlambda : lagrangeCoeff C i [signers.1, signers.2] = some lambda) :
    p1Combine H i signers msg share (some ⟨kp.sk, kp.pk, k, kInv, c⟩) msgs2 =
      .ok ⟨toBeBytes (pointXCoord (k • C.generator)),
        toBeBytes (lambda * kInv * (msg + pointXCoord (k • C.generator) * share) + (m : C.Scalar)),
        recoveryId (k • C.generator)⟩ := by
  have hdec : decrypt kp.sk kp.pk cS2 = some (m : ℤ) := by
    rw [decrypt_of_encrypts hkp henc, Nat.mod_eq_of_lt hm]
  have hnonneg : ¬ (m : ℤ) < 0 := not_lt.mpr (Int.natCast_nonneg m)
  simp only [p1Combine, okOr_some, hfrom, hmul, hdec, orPanic_some, if_neg hnonneg, hlambda,
    Int.toNat_natCast, biguintToScalar_eq, ok_bind, not_true_eq_false, if_false]
  rfl

/-- **Inversion.** `P1` combines only with an answer that passes its checks. -/
theorem p1Combine_eq_ok {i : ℕ} {signers : ℕ × ℕ} {msg share : C.Scalar}
    {p1State : Option (P1State C)} {msgs2 : List (ℕ × Round2Msg)} {sig : Round3Msg}
    (h : p1Combine H i signers msg share p1State msgs2 = .ok sig) :
    ∃ state cS2 mulProof plain lambda1, p1State = some state ∧
      messageFrom signers.2 msgs2 = some (.p2Data cS2 mulProof) ∧
      decrypt state.sk state.pk cS2 = some plain ∧ 0 ≤ plain ∧
      lagrangeCoeff C i [signers.1, signers.2] = some lambda1 ∧
      sig = ⟨toBeBytes (pointXCoord (state.k • C.generator)),
        toBeBytes (lambda1 * state.kInv * (msg + pointXCoord (state.k • C.generator) * share) +
          (plain : C.Scalar)), recoveryId (state.k • C.generator)⟩ := by
  unfold p1Combine at h
  obtain ⟨state, hstate, h⟩ := bind_eq_ok.mp h
  obtain ⟨p2Data, hfrom, h⟩ := bind_eq_ok.mp h
  cases p2Data with
  | ack => cases h
  | p2Data cS2 mulProof =>
    obtain ⟨mulOk, -, h⟩ := bind_eq_ok.mp h
    split at h
    · cases h
    · obtain ⟨plain, hplain, h⟩ := bind_eq_ok.mp h
      obtain ⟨s2, hs2, h⟩ := bind_eq_ok.mp h
      obtain ⟨lambda1, hlambda, h⟩ := bind_eq_ok.mp h
      have hs2 := orPanic_eq_ok.mp hs2
      -- a negative plaintext would have panicked
      split at hs2
      · cases hs2
      · rename_i hnonneg
        have hcast : biguintToScalar C s2 = (plain : C.Scalar) := by
          rw [← Option.some.inj hs2, biguintToScalar_eq, ← Int.cast_natCast,
            Int.toNat_of_nonneg (not_lt.mp hnonneg)]
        refine ⟨state, cS2, mulProof, plain, lambda1, okOr_eq_ok.mp hstate, okOr_eq_ok.mp hfrom,
          orPanic_eq_ok.mp hplain, not_lt.mp hnonneg, orPanic_eq_ok.mp hlambda, ?_⟩
        rw [← hcast]
        exact (Except.ok.inj h).symm

end Steps

/-! ### Sessions -/

/-- What an honest signing session starts from: two distinct signers among `n` parties, whose
    shares lie on one polynomial of degree at most one, a digest, and what the parties draw. -/
structure SignSession (C : Curve) where
  n : ℕ
  n_lt : n < 2 ^ 16
  signers : ℕ × ℕ
  p1_lt : signers.1 < n
  p2_lt : signers.2 < n
  ne : signers.1 ≠ signers.2
  poly : C.Scalar[X]
  degree_lt : poly.degree < 2
  share : ℕ → C.Scalar
  share_p1 : share signers.1 = poly.eval (node C signers.1)
  share_p2 : share signers.2 = poly.eval (node C signers.2)
  msgDigest : Vector UInt8 32
  p1Coins : ℕ → P1Coins C
  p2Coins : ℕ → P2Coins
  /-- The nonce of `P1`. -/
  k_ne_zero : (p1Coins signers.1).k ≠ 0
  /-- The keypair of `P1`. -/
  generated : ∃ p q, Generated p q (p1Coins signers.1).keypair
  /-- The product of two scalars does not wrap around. -/
  lt_modulus : (C.q - 1) ^ 2 < (p1Coins signers.1).keypair.pk.n
  rho_coprime : ∀ rho, genBigintRange 1 (p1Coins signers.1).keypair.pk.n (p1Coins signers.1).rho =
    some rho → IsCoprime rho (p1Coins signers.1).keypair.pk.n
  rhoS2_coprime : ∀ rho, genBigintRange 1 (p1Coins signers.1).keypair.pk.n
    (p2Coins signers.2).rhoS2 = some rho → IsCoprime rho (p1Coins signers.1).keypair.pk.n

namespace SignSession

variable (x : SignSession C)

/-- The secret that the signers share. -/
noncomputable def sk : C.Scalar := x.poly.eval 0

noncomputable def publicKey : C.Point := x.sk • C.generator

/-- The keypair of `P1`. -/
def keypair : PaillierKeypair := (x.p1Coins x.signers.1).keypair

/-- The nonce. -/
def k : C.Scalar := (x.p1Coins x.signers.1).k

def rPoint : C.Point := x.k • C.generator

def z : C.Scalar := digestScalar C x.msgDigest

/-- The first half of the signature. -/
def r : C.Scalar := pointXCoord x.rPoint

/-- The second half of the signature. -/
noncomputable def s : C.Scalar := x.k⁻¹ * (x.z + x.r * x.sk)

/-- What the session returns. -/
noncomputable def output : SignOutput := (toBeBytes x.r, toBeBytes x.s, recoveryId x.rPoint)

/-- All parties run `run_sign`. -/
noncomputable def setup (H : Hash) : Setup (SignMsg C) (Res SignError SignOutput) where
  n := x.n
  prog i := runSign H i x.n x.signers (x.share i) x.publicKey x.msgDigest (x.p1Coins i) (x.p2Coins i)
  corrupt _ := False
  reliable _ := False

/-- The Lagrange weight of a party. -/
def lambda (i : ℕ) : C.Scalar := weight [x.signers.1, x.signers.2].toFinset (node C) i

/-- The number that `P2` encrypts: its part of the signature, not reduced. -/
def plain : ℕ := (x.lambda x.signers.2 * (x.z + x.r * x.share x.signers.2)).val * x.k⁻¹.val

/-- What every party sends, given the proofs and ciphertexts of the signers. -/
noncomputable def script (data : P1Data C) (answer : Round2Msg) : (r : ℕ) → ℕ → ℕ → SignMsg C r
  | 0, i, _ => if i = x.signers.1 then .p1Data data else .ack
  | 1, i, _ => if i = x.signers.2 then answer else .ack
  | _ + 2, i, _ => if i = x.signers.1 then ⟨toBeBytes x.r, toBeBytes x.s, recoveryId x.rPoint⟩
      else ⟨[], [], 0⟩

variable {x}

theorem signers_lt {j : ℕ} (hj : j ∈ [x.signers.1, x.signers.2]) : j + 1 < 2 ^ 16 := by
  have h1 := x.p1_lt
  have h2 := x.p2_lt
  have hn := x.n_lt
  rcases List.mem_pair.mp hj with rfl | rfl <;> omega

theorem nodup_signers : [x.signers.1, x.signers.2].Nodup := by
  simpa using x.ne

theorem lagrangeCoeff_eq {i : ℕ} (hi : i < x.n) :
    lagrangeCoeff C i [x.signers.1, x.signers.2] = some (x.lambda i) :=
  lagrangeCoeff_eq_weight (by have := x.n_lt; omega) (fun _ => signers_lt) nodup_signers

/-- The keypair is valid. -/
theorem valid : ∃ p q, ValidKeypair p q x.keypair := by
  obtain ⟨p, q, h⟩ := x.generated
  exact ⟨p, q, h.valid⟩

/-- **No wrap-around.** -/
theorem plain_lt : x.plain < x.keypair.pk.n := by
  have hval : ∀ a : C.Scalar, a.val ≤ C.q - 1 := fun a => Nat.le_sub_one_of_lt a.val_lt
  calc x.plain ≤ (C.q - 1) * (C.q - 1) := Nat.mul_le_mul (hval _) (hval _)
    _ = (C.q - 1) ^ 2 := (sq _).symm
    _ < x.keypair.pk.n := x.lt_modulus

theorem plain_cast : ((x.plain : ℕ) : C.Scalar) =
    x.lambda x.signers.2 * (x.k⁻¹ * (x.z + x.r * x.share x.signers.2)) := by
  rw [plain, Nat.cast_mul, ZMod.natCast_zmod_val, ZMod.natCast_zmod_val]
  ring

/-- **The two parts** add up to the signature. -/
theorem parts_eq : x.lambda x.signers.1 * x.k⁻¹ * (x.z + x.r * x.share x.signers.1) +
    (x.plain : ℕ) = x.s := by
  have hsum := sum_weight_affine (fun _ => signers_lt) (nodup_signers (x := x))
    (List.cons_ne_nil _ _) (f := x.poly) (by exact_mod_cast x.degree_lt) x.k⁻¹ x.z x.r
  rw [List.sum_toFinset _ nodup_signers] at hsum
  simp only [List.map_cons, List.map_nil, List.sum_cons, List.sum_nil, add_zero] at hsum
  rw [plain_cast, x.share_p1, x.share_p2, s, sk, ← hsum]
  simp only [lambda]
  ring

/-- **The last check** accepts. -/
theorem checkSignature_eq (hs : x.s ≠ 0) :
    checkSignature x.publicKey x.msgDigest ⟨toBeBytes x.r, toBeBytes x.s, recoveryId x.rPoint⟩ =
      .ok x.output :=
  if_pos (verifySignature_sign x.msgDigest hs)

/-- The checks at the start pass at every party. -/
theorem two_le {i : ℕ} (hi : i < x.n) : 2 ≤ x.n ∧ i < x.n := by
  have h1 := x.p1_lt
  have h2 := x.p2_lt
  have hne := x.ne
  omega

variable (x) in
/-- What the two signers send each other in a session. -/
structure Transcript (H : Hash) where
  state : P1State C
  data : P1Data C
  cS2 : ℤ
  mulProof : MulProof
  /-- The offer of `P1`. -/
  offer_eq : p1Offer H (x.p1Coins x.signers.1) = some (state, data)
  /-- What `P2` answers to it, whatever the others send. -/
  answer_eq : ∀ msgs1, messageFrom x.signers.1 msgs1 = some (.p1Data data) →
    p2Answer H x.signers.1 (x.lambda x.signers.2) x.z (x.share x.signers.2)
      (x.p2Coins x.signers.2) msgs1 = .ok (.p2Data cS2 mulProof)
  answer_encrypts : Encrypts x.keypair.pk.n cS2 x.plain
  /-- What `P1` makes of the answer. -/
  combine_eq : ∀ msgs2, messageFrom x.signers.2 msgs2 = some (.p2Data cS2 mulProof) →
    p1Combine H x.signers.1 x.signers x.z (x.share x.signers.1) (some state) msgs2 =
      .ok ⟨toBeBytes x.r, toBeBytes x.s, recoveryId x.rPoint⟩

/-- **Every session has a transcript.** -/
theorem exists_transcript (x : SignSession C) (H : Hash) : Nonempty (x.Transcript H) := by
  obtain ⟨p, q, hkp⟩ := x.valid
  obtain ⟨c, rangeProof, consistencyProof, hoffer, hrange, hcons, hencrypts⟩ :=
    p1Offer_spec H hkp.wellFormed x.k_ne_zero
  have henc := hencrypts x.rho_coprime
  set data : P1Data C :=
    ⟨x.rPoint, c, x.keypair.pk.n, x.keypair.pk.g, rangeProof, consistencyProof⟩ with hdata
  -- `P2` looks at nothing but the offer, so its answer to one list is its answer to all
  have hfrom : messageFrom x.signers.1 [(x.signers.1, Round1Msg.p1Data data)] =
      some (.p1Data data) := by
    simp [messageFrom]
  obtain ⟨cS2, mulProof, hanswer, henc2, hmul⟩ := p2Answer_spec (H := H) hkp.wellFormed
    (x.lambda x.signers.2) x.z (x.share x.signers.2) hfrom hrange hcons henc x.rhoS2_coprime
  refine ⟨⟨_, data, cS2, mulProof, hoffer, ?_, henc2, ?_⟩⟩
  · intro msgs1 hmsgs1
    rw [← hanswer]
    unfold p2Answer
    rw [hmsgs1, hfrom]
  · intro msgs2 hmsgs2
    have hcombine : p1Combine H x.signers.1 x.signers x.z (x.share x.signers.1) (some ⟨x.keypair.sk,
        x.keypair.pk, x.k, x.k⁻¹, c⟩) msgs2 = .ok ⟨toBeBytes x.r,
          toBeBytes (x.lambda x.signers.1 * x.k⁻¹ * (x.z + x.r * x.share x.signers.1) +
            ((x.plain : ℕ) : C.Scalar)), recoveryId x.rPoint⟩ :=
      p1Combine_spec hkp hmsgs2 hmul henc2 x.plain_lt (lagrangeCoeff_eq x.p1_lt)
    rw [← parts_eq]
    exact hcombine

section Follows

variable (T : x.Transcript H)

/-- What every party sends. -/
noncomputable def Transcript.msgs : (r : ℕ) → ℕ → ℕ → SignMsg C r :=
  x.script T.data (.p2Data T.cS2 T.mulProof)

/-- The offer is in round 0 of everybody else. -/
theorem Transcript.offer_from {i : ℕ} (h1 : i ≠ x.signers.1) :
    messageFrom x.signers.1 (scriptInbox x.n i T.msgs 0) = some (.p1Data T.data) := by
  rw [messageFrom_scriptInbox _ _ x.p1_lt (Ne.symm h1)]
  exact congrArg some (if_pos rfl)

/-- **`P1`** offers, combines and returns the signature. -/
theorem Transcript.follows_p1 (hs : x.s ≠ 0) :
    Follows x.n x.signers.1 T.msgs 3 (.ok x.output) ((x.setup H).prog x.signers.1) := by
  have hcombine := T.combine_eq (scriptInbox x.n x.signers.1 T.msgs 1) (by
    rw [messageFrom_scriptInbox _ _ x.p2_lt (Ne.symm x.ne)]
    exact congrArg some (if_pos rfl))
  show Follows x.n x.signers.1 T.msgs 3 _ (runSign H x.signers.1 x.n x.signers _ _ _ _ _)
  simp only [runSign, if_pos (two_le x.p1_lt), orPanic_some, Proc.attempt_ok,
    lagrangeCoeff_eq x.p1_lt, if_true, T.offer_eq, Option.map_some, if_neg x.ne]
  refine .round (fun j _ _ => congrArg some (if_pos rfl).symm) ?_
  refine .round (fun j _ _ => congrArg some (if_neg x.ne).symm) ?_
  show Follows _ _ _ _ _ (Proc.attempt (p1Combine H x.signers.1 x.signers x.z
    (x.share x.signers.1) (some T.state) (scriptInbox x.n x.signers.1 T.msgs 1)) _)
  -- its own check of the signature comes before the last round
  rw [hcombine, Proc.attempt_ok, checkSignature_eq hs, Proc.attempt_ok]
  exact .round (fun j _ _ => congrArg some (if_pos rfl).symm) .done

/-- **The last round** at everybody but `P1`. -/
theorem Transcript.follows_accept (hs : x.s ≠ 0) {i : ℕ} (h1 : i ≠ x.signers.1) :
    Follows x.n i T.msgs 3 (.ok x.output)
      (.send (fun _ => some ⟨[], [], 0⟩) <| .recv fun (msgs3 : List (ℕ × Round3Msg)) =>
        .done (acceptSignature x.signers.1 x.publicKey x.msgDigest msgs3) :
        Proc (SignMsg C) (Res SignError SignOutput) 2) := by
  have hend : acceptSignature x.signers.1 x.publicKey x.msgDigest
      (scriptInbox x.n i T.msgs 2) = .ok x.output := by
    unfold acceptSignature
    rw [messageFrom_scriptInbox _ _ x.p1_lt (Ne.symm h1)]
    show checkSignature _ _ (if x.signers.1 = x.signers.1 then _ else _) = _
    rw [if_pos rfl, checkSignature_eq hs]
  refine .round (fun j _ _ => congrArg some (if_neg h1).symm) ?_
  rw [← hend]
  exact .done

/-- **Everybody but `P1`**: `P2` answers the offer, and the others acknowledge. -/
theorem Transcript.follows_of_ne (hs : x.s ≠ 0) {i : ℕ} (hi : i < x.n) (h1 : i ≠ x.signers.1) :
    Follows x.n i T.msgs 3 (.ok x.output) ((x.setup H).prog i) := by
  show Follows x.n i T.msgs 3 _ (runSign H i x.n x.signers _ _ _ _ _)
  simp only [runSign, if_pos (two_le hi), orPanic_some, Proc.attempt_ok, lagrangeCoeff_eq hi,
    if_neg h1]
  refine .round (fun j _ _ => congrArg some (if_neg h1).symm) ?_
  by_cases h2 : i = x.signers.2
  · subst h2
    rw [if_pos rfl]
    show Follows _ _ _ _ _ (Proc.attempt (p2Answer H x.signers.1 (x.lambda x.signers.2) x.z
      (x.share x.signers.2) (x.p2Coins x.signers.2) (scriptInbox x.n x.signers.2 T.msgs 0)) _)
    rw [T.answer_eq _ (T.offer_from h1), Proc.attempt_ok]
    exact .round (fun j _ _ => congrArg some (if_pos rfl).symm) (T.follows_accept hs h1)
  · rw [if_neg h2, Proc.attempt_ok]
    exact .round (fun j _ _ => congrArg some (if_neg h2).symm) (T.follows_accept hs h1)

/-- **Every party follows its transcript.** -/
theorem Transcript.follows (hs : x.s ≠ 0) : ∀ i < x.n,
    Follows x.n i T.msgs 3 (.ok x.output) ((x.setup H).prog i) := by
  intro i hi
  by_cases h1 : i = x.signers.1
  · subst h1
    exact T.follows_p1 hs
  · exact T.follows_of_ne hs hi h1

end Follows

/-- **Every party follows a script.** -/
theorem follows (H : Hash) (hs : x.s ≠ 0) : ∃ data answer, ∀ i < x.n,
    Follows x.n i (x.script data answer) 3 (.ok x.output) ((x.setup H).prog i) := by
  obtain ⟨T⟩ := x.exists_transcript H
  exact ⟨T.data, .p2Data T.cS2 T.mulProof, T.follows hs⟩

end SignSession

/-- **Honest signing.**  If `s` is not zero, every party returns the signature `(r, s)`, whatever
    the order of delivery. -/
theorem runSign_correct (H : Hash) (x : SignSession C) (hs : x.s ≠ 0) :
    Completes (x.setup H) fun _ =>
      .ok (toBeBytes x.r, toBeBytes x.s, recoveryId x.rPoint) := by
  obtain ⟨data, answer, hfollows⟩ := x.follows H hs
  exact completes_of_follows (fun _ _ => not_false) hfollows

/-- Parties 2 and 0 of three sign under the key `G`, with the nonce 1. -/
noncomputable def smallSession : SignSession smallCurve where
  n := 3
  n_lt := three_lt_indices
  signers := (2, 0)
  p1_lt := by decide
  p2_lt := by decide
  ne := by decide
  poly := X + 1
  degree_lt := by
    rw [← C_1, degree_X_add_C]
    exact_mod_cast Nat.one_lt_two
  share i := (X + 1 : smallCurve.Scalar[X]).eval (node smallCurve i)
  share_p1 := rfl
  share_p2 := rfl
  msgDigest := Vector.replicate 32 0
  p1Coins _ := ⟨smallKeypair, 1, 0, ⟨0, 0⟩, ⟨1, 0⟩⟩
  p2Coins _ := ⟨0, ⟨0, 0⟩⟩
  k_ne_zero := one_ne_zero
  generated := ⟨_, _, generated_smallKeypair⟩
  lt_modulus := by decide
  rho_coprime _ h := coprime_of_genBigintRange_zero h
  rhoS2_coprime _ h := coprime_of_genBigintRange_zero h

theorem smallSession_values : smallSession.r = 1 ∧ smallSession.s = 1 := by
  have hr : smallSession.r = 1 := by
    have hcoords : smallCurve.coords smallSession.rPoint = some (1, 1) := by decide +kernel
    rw [SignSession.r, pointXCoord_of_coords hcoords, Nat.cast_one]
  have hz : smallSession.z = 0 := by decide +kernel
  refine ⟨hr, ?_⟩
  rw [SignSession.s, hr, hz]
  simp [SignSession.k, SignSession.sk, smallSession]

/-- The small session returns the signature `(1, 1)`. -/
theorem runSign_correct_smallSession :
    smallSession.s ≠ 0 ∧ Completes (smallSession.setup lastBytes) fun _ =>
      .ok (toBeBytes smallSession.r, toBeBytes smallSession.s, recoveryId smallSession.rPoint) := by
  have hs : smallSession.s ≠ 0 := by
    rw [smallSession_values.2]
    exact one_ne_zero
  exact ⟨hs, runSign_correct lastBytes smallSession hs⟩

end Govis.Lindell
