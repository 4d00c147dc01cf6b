import Govis.Cggmp21.EndToEnd

namespace Govis.Cggmp21

open Bytes Curve Rounds Lindell

/-!
# CGGMP21: what a signer learns

Every signer ends the presigning with the joint nonce, so that one signature gives it the joint
secret key.

* `HonestRun` — a run of the presigning and a run of the signing with what it returned;
* `SignerView`, `Obtains` — what a signer obtains in it, without the public key;
* `Obtains.sk_eq` — the secret key, computed from the view;
* `runOnlineSign_reveals_key` — no honest run with another key gives the signer the same view.
-/

variable {C : Curve} {H : Hash}

/-- A run of `run_presign` in which every signer has returned, and a run of `run_online_sign` with
    the presignatures. -/
structure HonestRun (x : Session C H) where
  presignNet : Net (PresignMsg C) (Res PresignError (Presignature C))
  presign_reachable : Reachable (x.presign.setup H) presignNet
  presig : ℕ → Presignature C
  presig_returned : ∀ pos < x.signers.length, presignNet.Returned pos (.ok (presig pos))
  signNet : Net OnlineSignMsg (Res OnlineSignError Signature)
  sign_reachable : Reachable (x.onlineSetup presig) signNet

/-- What a signer obtains: its presignature, the digest and the signature. -/
structure SignerView (C : Curve) where
  presig : Presignature C
  msgDigest : Vector UInt8 32
  rBytes : List UInt8
  sBytes : List UInt8

/-- In the run the signer at position `pos` has finished and has obtained `view`. -/
structure Obtains {x : Session C H} (run : HonestRun x) (pos : ℕ) (view : SignerView C) : Prop where
  pos_lt : pos < x.signers.length
  presig_eq : view.presig = run.presig pos
  msgDigest_eq : view.msgDigest = x.msgDigest
  returned : ∃ recId, run.signNet.Returned pos (.ok ⟨view.rBytes, view.sBytes, recId⟩)

/-! ### The secret key -/

/-- What the signer computes: `(s k - z) / r`. -/
def recoverKey (view : SignerView C) : C.Scalar :=
  (fromBeBytesModOrder C view.sBytes * view.presig.k - digestScalar C view.msgDigest) /
    view.presig.r

/-- A signature that is returned encodes `s`. -/
theorem sBytes_of_finishSignature {publicKey : C.Point} {msgDigest : Vector UInt8 32}
    {presig : Presignature C} {sTotal : C.Scalar} {sig : Signature}
    (h : finishSignature publicKey msgDigest presig sTotal = .ok sig) :
    sig.sBytes = toBeBytes sTotal := by
  simp only [finishSignature] at h
  split at h
  · cases h
  · obtain ⟨recId, -, h⟩ := bind_eq_ok.mp h
    rw [← Except.ok.inj h]

section Recover

variable {x : Session C H}

/-- Every signer returns the joint presignature. -/
theorem HonestRun.presig_eq (run : HonestRun x) {pos : ℕ} (hpos : pos < x.signers.length) :
    run.presig pos = x.presign.presignature :=
  Except.ok.inj ((x.presign.runPresign_completes H).returns _ run.presign_reachable pos hpos _
    (run.presig_returned pos hpos))

/-- **A signer knows the secret key.** -/
theorem Obtains.sk_eq {run : HonestRun x} {pos : ℕ} {view : SignerView C}
    (h : Obtains run pos view) (hr : view.presig.r ≠ 0) : x.keygen.sk = recoverKey view := by
  have hpresig : view.presig = x.presign.presignature := h.presig_eq.trans (run.presig_eq h.pos_lt)
  obtain ⟨recId, hret⟩ := h.returned
  have hfinish := (x.runOnlineSign_finishes fun _ hpos => run.presig_eq hpos).returns _
    run.sign_reachable pos h.pos_lt _ hret
  have hs : view.sBytes = toBeBytes x.s := sBytes_of_finishSignature hfinish.symm
  have hk : x.presign.k ≠ 0 := x.presign.sum_ne_zero
  rw [hpresig] at hr
  change x.presign.r ≠ 0 at hr
  -- solve `s = k⁻¹ (z + r sk)` for the key
  have hview : recoverKey view = (x.s * x.presign.k - x.z) / x.presign.r := by
    rw [recoverKey, hpresig, hs, fromBeBytesModOrder_toBeBytes, h.msgDigest_eq]
    rfl
  rw [hview, Session.s]
  field_simp
  ring

/-- The view leaves the secret key open: some honest run with another key gives the signer the
    same view. -/
def HidesKey (C : Curve) (H : Hash) (sk : C.Scalar) (pos : ℕ) (view : SignerView C) : Prop :=
  ∃ (y : Session C H) (run : HonestRun y), Obtains run pos view ∧ y.keygen.sk ≠ sk

theorem Obtains.not_hidesKey {run : HonestRun x} {pos : ℕ} {view : SignerView C}
    (h : Obtains run pos view) (hr : view.presig.r ≠ 0) : ¬ HidesKey C H x.keygen.sk pos view := by
  rintro ⟨y, run', h', hne⟩
  exact hne ((h'.sk_eq hr).trans (h.sk_eq hr).symm)

/-- **No run hides the secret key.**  Whatever honest run a signer has finished, if `r` is not
    zero, the signer can compute the joint secret key from what it has obtained, and all honest
    runs in which it obtains the same have the same key. -/
theorem runOnlineSign_reveals_key (run : HonestRun x) {pos : ℕ} {view : SignerView C}
    (h : Obtains run pos view) (hr : view.presig.r ≠ 0) :
    x.keygen.sk = recoverKey view ∧ ¬ HidesKey C H x.keygen.sk pos view :=
  ⟨h.sk_eq hr, h.not_hidesKey hr⟩

end Recover

/-- The small session ends with its first signer holding a view. -/
theorem exists_obtains_smallSession : ∃ (run : HonestRun smallSession) (view : SignerView smallCurve),
    Obtains run 0 view ∧ view.presig.r ≠ 0 := by
  have hs : smallSession.s ≠ 0 := by
    rw [smallSession_values.2]
    decide
  have hr : smallSession.presign.r ≠ 0 := by
    rw [smallSession_values.1]
    decide
  obtain ⟨recId, hrec⟩ := exists_recoveryId (P := smallSession.presign.rPoint) (by decide +kernel)
  have hsign : Completes (smallSession.onlineSetup fun _ => smallSession.presign.presignature) _ :=
    smallSession.runOnlineSign_finishes fun _ _ => rfl
  rw [Session.finishSignature_eq hs hrec] at hsign
  obtain ⟨net₁, hnet₁, hret₁⟩ :=
    (smallSession.presign.runPresign_completes oneHash).reaches _ .refl
  obtain ⟨net₂, hnet₂, hret₂⟩ := hsign.reaches _ .refl
  exact ⟨⟨net₁, hnet₁, fun _ => smallSession.presign.presignature, hret₁, net₂, hnet₂⟩,
    ⟨smallSession.presign.presignature, smallSession.msgDigest, _, _⟩,
    ⟨by decide, rfl, rfl, ⟨recId, hret₂ 0 (by decide)⟩⟩, hr⟩

/-- **A key revealed.** -/
theorem smallSession_reveals_key :
    ∃ (run : HonestRun smallSession) (view : SignerView smallCurve),
      2 ≤ smallSession.keygen.t ∧ Obtains run 0 view ∧ view.presig.r ≠ 0 ∧
      ¬ HidesKey smallCurve oneHash smallSession.keygen.sk 0 view := by
  obtain ⟨run, view, h, hr⟩ := exists_obtains_smallSession
  exact ⟨run, view, by decide, h, hr, h.not_hidesKey hr⟩

/-- No run of the small session hides the key. -/
theorem runOnlineSign_reveals_key_smallSession : ∃ view : SignerView smallCurve,
    smallSession.keygen.sk = recoverKey view ∧
      ¬ HidesKey smallCurve oneHash smallSession.keygen.sk 0 view := by
  obtain ⟨run, view, h, hr⟩ := exists_obtains_smallSession
  exact ⟨view, runOnlineSign_reveals_key run h hr⟩

end Govis.Cggmp21
