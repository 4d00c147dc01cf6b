import Govis.Lindell.SignRuns

namespace Govis.Lindell

open Arith Bytes Curve Rounds Shamir

/-!
# Lindell: what `P1` learns

`P1` chooses the nonce, so what it decrypts from `P2` is an affine function of the share of
`P2` whose coefficients it knows.

* `P1View` — what `P1` holds at the end of a run, without the public key;
* `SignSession.answer_encrypts` — what arrives from `P2` encrypts `P2`'s part of the signature;
* `P1Holds.share_eq` — the share of `P2`, computed from the view;
* `runSign_reveals_share` — no other honest run gives `P1` the same view.
-/

variable {C : Curve} {H : Hash}

/-- What `P1` holds at the end of a run: its share, its nonce, the plaintext it decrypted, the
    digest and the signature. -/
structure P1View (C : Curve) where
  share : C.Scalar
  k : C.Scalar
  plaintext : ℤ
  msgDigest : Vector UInt8 32
  rBytes : List UInt8
  sBytes : List UInt8

/-- In the state `net` of the session, `P1` has finished and holds `view`. -/
structure P1Holds (x : SignSession C) (net : Net (SignMsg C) (Res SignError SignOutput))
    (view : P1View C) : Prop where
  share_eq : view.share = x.share x.signers.1
  k_eq : view.k = x.k
  msgDigest_eq : view.msgDigest = x.msgDigest
  plaintext_eq : ∃ cS2 mulProof, (net x.signers.1).got 1 x.signers.2 = some (.p2Data cS2 mulProof) ∧
    decrypt x.keypair.sk x.keypair.pk cS2 = some view.plaintext
  returned : ∃ recId, net.Returned x.signers.1 (.ok (view.rBytes, view.sBytes, recId))

/-! ### What arrives from `P2` -/

/-- **Inversion.** `P2` answers only to an offer, by what it computes under the offered key. -/
theorem p2Answer_eq_ok {p1 : ℕ} {lambda msg share : C.Scalar} {coins : P2Coins}
    {msgs1 : List (ℕ × Round1Msg C)} {answer : Round2Msg}
    (h : p2Answer H p1 lambda msg share coins msgs1 = .ok answer) :
    ∃ data, messageFrom p1 msgs1 = some (.p1Data data) ∧
      p2Encrypt H lambda msg share ⟨data.pkN, data.pkN ^ 2, data.pkG⟩ data.cKInv data.point coins =
        some answer := by
  unfold p2Answer at h
  obtain ⟨p1Msg, hfrom, h⟩ := bind_eq_ok.mp h
  cases p1Msg with
  | ack => cases h
  | p1Data data =>
    obtain ⟨rangeOk, -, h⟩ := bind_eq_ok.mp h
    split at h
    · cases h
    · obtain ⟨consistencyOk, -, h⟩ := bind_eq_ok.mp h
      split at h
      · cases h
      · exact ⟨data, okOr_eq_ok.mp hfrom, orPanic_eq_ok.mp h⟩

namespace SignSession

variable {x : SignSession C} {net : Net (SignMsg C) (Res SignError SignOutput)}

/-- What the program of `P1` sends in round 0 is its offer. -/
theorem sends_offer (T : x.Transcript H) {inb : Inbox (SignMsg C)} {j : ℕ} {m : Round1Msg C}
    (h : ((x.setup H).prog x.signers.1).Sends inb 0 j m) : m = .p1Data T.data := by
  change (runSign H x.signers.1 x.n x.signers _ _ _ _ _).Sends inb 0 j m at h
  simp only [runSign, if_pos (two_le x.p1_lt), orPanic_some, Proc.attempt_ok,
    lagrangeCoeff_eq x.p1_lt, if_true, T.offer_eq, Option.map_some] at h
  rw [Proc.sends_send_recv_iff, Option.some.injEq] at h
  exact h.symm

/-- What the program of `P2` sends in round 1 is its answer to what it was given. -/
theorem sends_answer {inb : Inbox (SignMsg C)} {j : ℕ} {m : Round2Msg}
    (h : ((x.setup H).prog x.signers.2).Sends inb 1 j m) :
    p2Answer H x.signers.1 (x.lambda x.signers.2) x.z (x.share x.signers.2)
      (x.p2Coins x.signers.2) (inb 0) = .ok m := by
  change (runSign H x.signers.2 x.n x.signers _ _ _ _ _).Sends inb 1 j m at h
  simp only [runSign, if_pos (two_le x.p2_lt), orPanic_some, Proc.attempt_ok,
    lagrangeCoeff_eq x.p2_lt, if_neg (Ne.symm x.ne), if_true] at h
  rw [Proc.sends_send_iff_of_lt _ Nat.zero_lt_one, Proc.sends_recv_iff,
    Proc.sends_attempt_iff] at h
  obtain ⟨answer, hanswer, h⟩ := h
  rw [Proc.sends_send_recv_iff, Option.some.injEq] at h
  rw [← h]
  exact hanswer

/-- **What arrives from `P2`** encrypts its part of the signature. -/
theorem answer_encrypts (hnet : Reachable (x.setup H) net) {cS2 : ℤ} {mulProof : MulProof}
    (hgot : (net x.signers.1).got 1 x.signers.2 = some (.p2Data cS2 mulProof)) :
    Encrypts x.keypair.pk.n cS2 x.plain := by
  obtain ⟨T⟩ := x.exists_transcript H
  -- `P2` sent it as its answer to an offer
  have hanswer := sends_answer (hnet.sound.sends x.p2_lt not_false hgot)
  obtain ⟨data, hfrom, -⟩ := p2Answer_eq_ok hanswer
  -- and the only offer on the wire is that of `P1`
  have hgot0 := arrived_of_messageFrom hfrom
  have hoffer := sends_offer T (hnet.sound.sends x.p1_lt not_false hgot0)
  rw [hoffer] at hfrom
  have heq := Except.ok.inj ((T.answer_eq _ hfrom).symm.trans hanswer)
  rw [Round2Msg.p2Data.injEq] at heq
  rw [← heq.1]
  exact T.answer_encrypts

/-- A `P1` that succeeds has combined with an answer of `P2`. -/
theorem answer_of_exec_ok {inb : Inbox (SignMsg C)} {out : SignOutput}
    (h : ((x.setup H).prog x.signers.1).exec inb = .ok out) :
    ∃ cS2 mulProof, messageFrom x.signers.2 (inb 1) = some (.p2Data cS2 mulProof) := by
  obtain ⟨T⟩ := x.exists_transcript H
  change (runSign H x.signers.1 x.n x.signers _ _ _ _ _).exec inb = _ at h
  simp only [runSign, if_pos (two_le x.p1_lt), orPanic_some, Proc.attempt_ok,
    lagrangeCoeff_eq x.p1_lt, if_true, T.offer_eq, Option.map_some, if_neg x.ne, Proc.exec_send,
    Proc.exec_recv] at h
  obtain ⟨sig, hsig, -⟩ := Proc.exec_attempt_eq_ok.mp h
  obtain ⟨state, cS2, mulProof, plain, lambda1, -, hfrom, -⟩ := p1Combine_eq_ok hsig
  exact ⟨cS2, mulProof, hfrom⟩

/-- A finished `P1` holds a view. -/
theorem exists_p1Holds (hnet : Reachable (x.setup H) net) {rBytes sBytes : List UInt8}
    {recId : UInt8} (hret : net.Returned x.signers.1 (.ok (rBytes, sBytes, recId))) :
    ∃ view, P1Holds x net view := by
  obtain ⟨p, q, hkp⟩ := x.valid
  obtain ⟨cS2, mulProof, hfrom⟩ :=
    answer_of_exec_ok (hnet.sound.result x.p1_lt not_false hret)
  have hgot := arrived_of_messageFrom hfrom
  exact ⟨⟨x.share x.signers.1, x.k, _, x.msgDigest, rBytes, sBytes⟩, rfl, rfl, rfl,
    ⟨cS2, mulProof, hgot, decrypt_of_encrypts hkp (answer_encrypts hnet hgot)⟩, ⟨recId, hret⟩⟩

theorem lambda_ne_zero {i : ℕ} (hi : i ∈ [x.signers.1, x.signers.2]) : x.lambda i ≠ 0 :=
  weight_node_ne_zero (fun _ => signers_lt) hi

end SignSession

/-! ### The share of `P2` -/

/-- The weight of the second signer. -/
def secondWeight (C : Curve) (signers : ℕ × ℕ) : C.Scalar :=
  weight [signers.1, signers.2].toFinset (node C) signers.2

/-- What `P1` computes: `((k * plaintext) / lambda - z) / r`. -/
def recoverShare (signers : ℕ × ℕ) (view : P1View C) : C.Scalar :=
  ((view.k * (view.plaintext : C.Scalar)) / secondWeight C signers - digestScalar C view.msgDigest) /
    pointXCoord (view.k • C.generator)

/-- **`P1` knows the share of `P2`.** -/
theorem P1Holds.share_eq_recoverShare {x : SignSession C}
    {net : Net (SignMsg C) (Res SignError SignOutput)} (hnet : Reachable (x.setup H) net)
    {view : P1View C} (h : P1Holds x net view) (hr : x.r ≠ 0) :
    x.share x.signers.2 = recoverShare x.signers view := by
  obtain ⟨p, q, hkp⟩ := x.valid
  obtain ⟨cS2, mulProof, hgot, hdec⟩ := h.plaintext_eq
  -- the plaintext did not wrap around
  rw [decrypt_of_encrypts hkp (SignSession.answer_encrypts hnet hgot),
    Nat.mod_eq_of_lt SignSession.plain_lt, Option.some.injEq] at hdec
  have hw : secondWeight C x.signers ≠ 0 := SignSession.lambda_ne_zero (by simp)
  have hplain : (view.plaintext : C.Scalar) =
      secondWeight C x.signers * (x.k⁻¹ * (x.z + x.r * x.share x.signers.2)) := by
    rw [← hdec, Int.cast_natCast]
    exact SignSession.plain_cast
  have hk : x.k ≠ 0 := x.k_ne_zero
  -- solve the plaintext for the share
  have hview : recoverShare x.signers view =
      ((x.k * (view.plaintext : C.Scalar)) / secondWeight C x.signers - x.z) / x.r := by
    rw [recoverShare, h.k_eq, h.msgDigest_eq]
    rfl
  rw [hview, hplain]
  field_simp
  ring

/-- The view leaves the share of `P2` open: some honest run with the same signers gives `P1` the
    same view and `P2` another share. -/
def HidesShare (H : Hash) (x : SignSession C) (view : P1View C) : Prop :=
  ∃ (y : SignSession C) (net : Net (SignMsg C) (Res SignError SignOutput)),
    Reachable (y.setup H) net ∧ y.signers = x.signers ∧ P1Holds y net view ∧
      y.share y.signers.2 ≠ x.share x.signers.2

theorem P1Holds.not_hidesShare {x : SignSession C}
    {net : Net (SignMsg C) (Res SignError SignOutput)} (hnet : Reachable (x.setup H) net)
    {view : P1View C} (h : P1Holds x net view) (hr : x.r ≠ 0) : ¬ HidesShare H x view := by
  rintro ⟨y, net', hnet', hsigners, h', hne⟩
  -- the same nonce gives the same `r`
  have hry : y.r ≠ 0 := by
    have hk : y.k = x.k := h'.k_eq.symm.trans h.k_eq
    rwa [SignSession.r, SignSession.rPoint, hk]
  refine hne ?_
  rw [h'.share_eq_recoverShare hnet' hry, h.share_eq_recoverShare hnet hr, hsigners]

/-- **No run hides the share of `P2`.**  Whatever honest run `P1` has finished, if `r` is not
    zero, `P1` can compute the share from what it holds, and all honest runs with its signers in
    which it holds the same have the same share of `P2`. -/
theorem runSign_reveals_share (H : Hash) (x : SignSession C)
    {net : Net (SignMsg C) (Res SignError SignOutput)} (hnet : Reachable (x.setup H) net)
    {view : P1View C} (h : P1Holds x net view) (hr : x.r ≠ 0) :
    x.share x.signers.2 = recoverShare x.signers view ∧ ¬ HidesShare H x view :=
  ⟨h.share_eq_recoverShare hnet hr, h.not_hidesShare hnet hr⟩

/-- The small session ends with `P1` holding a view. -/
theorem exists_p1Holds_smallSession : ∃ net view,
    Reachable (smallSession.setup lastBytes) net ∧ P1Holds smallSession net view := by
  have hs : smallSession.s ≠ 0 := by
    rw [smallSession_values.2]
    exact one_ne_zero
  obtain ⟨data, answer, hfollows⟩ := smallSession.follows lastBytes hs
  obtain ⟨net, hnet, hret⟩ :=
    (completes_of_follows (S := smallSession.setup lastBytes) (fun _ _ => not_false) hfollows).reaches
      _ .refl
  obtain ⟨view, hview⟩ := SignSession.exists_p1Holds hnet (hret _ smallSession.p1_lt)
  exact ⟨net, view, hnet, hview⟩

/-- **A share revealed.** -/
theorem smallSession_reveals_share : ∃ net view,
    Reachable (smallSession.setup lastBytes) net ∧ P1Holds smallSession net view ∧
      smallSession.r ≠ 0 ∧ ¬ HidesShare lastBytes smallSession view := by
  obtain ⟨net, view, hnet, hview⟩ := exists_p1Holds_smallSession
  have hr : smallSession.r ≠ 0 := by
    rw [smallSession_values.1]
    exact one_ne_zero
  exact ⟨net, view, hnet, hview, hr, hview.not_hidesShare hnet hr⟩

/-- No run of the small session hides the share. -/
theorem runSign_reveals_share_smallSession : ∃ view : P1View smallCurve,
    smallSession.share 0 = recoverShare (2, 0) view ∧
      ¬ HidesShare lastBytes smallSession view := by
  obtain ⟨net, view, hnet, hview⟩ := exists_p1Holds_smallSession
  exact ⟨view, runSign_reveals_share lastBytes smallSession hnet hview (by
    rw [smallSession_values.1]
    exact one_ne_zero)⟩

end Govis.Lindell
