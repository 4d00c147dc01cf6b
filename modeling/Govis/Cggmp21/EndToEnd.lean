import Govis.Cggmp21.KeygenRuns
import Govis.Cggmp21.PresignRuns
import Govis.Cggmp21.Sign

namespace Govis.Cggmp21

open Bytes Curve Rounds Shamir Lindell

/-!
# CGGMP21: key generation, presigning and signing

One honest key generation, an honest presigning by enough of its parties, and the honest signing
of a digest with the presignature.

* `onlineSign_follows_parts`, `sum_signaturePart` — signing with any shares: the parts of the signers
  add up to the signature for the secret that the shares combine to;
* `Session` — the three protocols;
* `runOnlineSign_finishes` — every signer ends with the last check of one signature;
* `cggmp21_correct` — all three succeed, and the signature verifies.
-/

variable {C : Curve} {H : Hash}

/-- An element of a list, by its position. -/
theorem getD_mem {l : List ℕ} {pos : ℕ} (hpos : pos < l.length) : l.getD pos 0 ∈ l := by
  rw [List.getD_eq_getElem?_getD, List.getElem?_eq_getElem hpos, Option.getD_some]
  exact List.getElem_mem hpos

/-- A sum over the positions of a list. -/
theorem sum_range_getD {A : Type} [AddCommMonoid A] (l : List ℕ) (g : ℕ → A) :
    ∑ pos ∈ Finset.range l.length, g (l.getD pos 0) = (l.map g).sum := by
  rw [Finset.sum_range, ← Fin.sum_univ_fun_getElem]
  apply Finset.sum_congr rfl
  intro pos _
  rw [List.getD_eq_getElem?_getD, List.getElem?_eq_getElem pos.isLt, Option.getD_some]

/-- **Adding signature shares.** -/
theorem addSignatureShares_spec {localI : ℕ} (part : ℕ → C.Scalar) {senders : List ℕ}
    (hne : ∀ d ∈ senders, d ≠ localI) (total : C.Scalar) :
    addSignatureShares localI total (senders.map fun d => (d, ⟨toBeBytes (part d)⟩)) =
      total + (senders.map part).sum := by
  unfold addSignatureShares
  induction senders generalizing total with
  | nil => simp
  | cons d senders ih =>
    rw [List.map_cons, List.foldl_cons, if_neg (hne d List.mem_cons_self),
      fromBeBytesModOrder_toBeBytes, ih fun e he => hne e (List.mem_cons_of_mem _ he), List.map_cons,
      List.sum_cons, add_assoc]

/-- A point with a recovery id. -/
theorem exists_recoveryId {P : C.Point} (hP : P ≠ 0) : ∃ recId, recoveryId P = some recId := by
  unfold recoveryId
  cases h : C.coords P with
  | none => exact absurd ((C.coords_eq_none P).mp h) hP
  | some e => exact ⟨_, rfl⟩

/-- The last check accepts a signature that verifies. -/
theorem finishSignature_ok {x : PresignSession C} {publicKey : C.Point} {msgDigest : Vector UInt8 32}
    {s : C.Scalar} {recId : UInt8}
    (hverify : verifySignature publicKey msgDigest (toBeBytes x.r) (toBeBytes s) = true)
    (hrec : recoveryId x.rPoint = some recId) :
    finishSignature publicKey msgDigest x.presignature s =
      .ok ⟨toBeBytes x.r, toBeBytes s, recId⟩ := by
  simp only [finishSignature, PresignSession.presignature, hverify, hrec, not_true_eq_false,
    if_false, orPanic_some, ok_bind]
  rfl

/-! ### Signing with any shares -/

section Online

variable {signers : List ℕ} {share : ℕ → C.Scalar} {presig : Presignature C} {msgDigest : Vector UInt8 32}

/-- What the signer at a position sends: its part of the signature, from its share. -/
noncomputable def signaturePart (signers : List ℕ) (share : ℕ → C.Scalar) (msgDigest : Vector UInt8 32)
    (presig : Presignature C) (pos : ℕ) : C.Scalar :=
  presig.kInv * weight signers.toFinset (node C) (signers.getD pos 0) *
    (digestScalar C msgDigest + presig.r * share (signers.getD pos 0))

/-- The parts add up to the second half of a signature with the secret that the shares combine to. -/
theorem sum_signaturePart (hs : ∀ i ∈ signers, i + 1 < 2 ^ 16) (hnd : signers.Nodup)
    (hne : signers ≠ []) {sk : C.Scalar} (hsk : combine signers share = some sk) :
    ∑ pos ∈ Finset.range signers.length, signaturePart signers share msgDigest presig pos =
      presig.kInv * (digestScalar C msgDigest + presig.r * sk) := by
  have hdeg : (0 : Polynomial C.Scalar).degree < signers.length := by
    rw [Polynomial.degree_zero]
    exact WithBot.bot_lt_coe _
  have hone : ∑ i ∈ signers.toFinset, weight signers.toFinset (node C) i = 1 := by
    have h := sum_weight_affine hs hnd hne hdeg 1 1 0
    simpa using h
  rw [combine_eq_sum hs hnd, Option.some.injEq] at hsk
  have hparts : ∑ pos ∈ Finset.range signers.length, signaturePart signers share msgDigest presig pos =
      ∑ i ∈ signers.toFinset, presig.kInv * weight signers.toFinset (node C) i *
        (digestScalar C msgDigest + presig.r * share i) := by
    rw [List.sum_toFinset _ hnd]
    exact sum_range_getD signers fun i => presig.kInv * weight signers.toFinset (node C) i *
      (digestScalar C msgDigest + presig.r * share i)
  calc ∑ pos ∈ Finset.range signers.length, signaturePart signers share msgDigest presig pos
      = ∑ i ∈ signers.toFinset, (presig.kInv * digestScalar C msgDigest *
          weight signers.toFinset (node C) i + presig.kInv * presig.r *
            (weight signers.toFinset (node C) i * share i)) := by
        rw [hparts]
        apply Finset.sum_congr rfl
        intro i _
        ring
    _ = presig.kInv * digestScalar C msgDigest * 1 + presig.kInv * presig.r * sk := by
        rw [Finset.sum_add_distrib, ← Finset.mul_sum, ← Finset.mul_sum, hone, hsk]
    _ = presig.kInv * (digestScalar C msgDigest + presig.r * sk) := by ring

variable (share presig msgDigest) in
/-- **Every signer follows the script** of the parts, up to the last check of the signature. -/
theorem onlineSign_follows_parts (hs : ∀ i ∈ signers, i + 1 < 2 ^ 16) (hnd : signers.Nodup)
    (publicKey : C.Point) {pos : ℕ} (hpos : pos < signers.length) :
    Follows signers.length pos
      (fun _ d _ => (⟨toBeBytes (signaturePart signers share msgDigest presig d)⟩ : SignatureShareMsg)) 1
      (finishSignature publicKey msgDigest presig
        (∑ d ∈ Finset.range signers.length, signaturePart signers share msgDigest presig d))
      (runOnlineSign (signers.getD pos 0) signers (share (signers.getD pos 0)) publicKey msgDigest
        presig) := by
  have hlambda := lagrangeCoeff_eq_weight (C := C) (hs _ (getD_mem hpos)) hs hnd
  -- the parts of all positions, with the own one first
  have htotal : addSignatureShares pos (signaturePart signers share msgDigest presig pos)
      (scriptInbox signers.length pos (fun _ d _ =>
        (⟨toBeBytes (signaturePart signers share msgDigest presig d)⟩ : SignatureShareMsg)) 0) =
      ∑ d ∈ Finset.range signers.length, signaturePart signers share msgDigest presig d := by
    rw [scriptInbox_eq, addSignatureShares_spec _ fun d hd => (mem_others.mp hd).2, sum_map_others,
      Finset.add_sum_erase _ _ (Finset.mem_range.mpr hpos)]
  simp only [runOnlineSign, position_getD hnd hpos, hlambda, okOr_some, orPanic_some, Proc.attempt_ok]
  refine .round (fun j hj hji => if_neg ?_) ?_
  · rintro (rfl | hge)
    · exact hji rfl
    · omega
  · rw [← htotal]
    exact .done

end Online

/-- A key generation, a presigning by at least the threshold of its parties, and a digest. -/
structure Session (C : Curve) (H : Hash) where
  keygen : KeygenSession C H
  presign : PresignSession C
  signers_lt : ∀ i ∈ presign.signers, i < keygen.n
  threshold_le : keygen.t ≤ presign.signers.length
  msgDigest : Vector UInt8 32

namespace Session

variable (x : Session C H)

def signers : List ℕ := x.presign.signers

/-- The party at a position. -/
def party (pos : ℕ) : ℕ := x.signers.getD pos 0

def z : C.Scalar := digestScalar C x.msgDigest

/-- The second half of the signature. -/
def s : C.Scalar := x.presign.k⁻¹ * (x.z + x.presign.r * x.keygen.sk)

/-- The part of the signature that the signer at a position computes. -/
noncomputable abbrev part (pos : ℕ) : C.Scalar :=
  signaturePart x.signers (fun i => (x.keygen.output i).ecShare) x.msgDigest x.presign.presignature
    pos

/-- The signers sign the digest, each with its presignature and what the key generation returned
    to it. -/
noncomputable def onlineSetup (presig : ℕ → Presignature C) :
    Setup OnlineSignMsg (Res OnlineSignError Signature) :=
  onlineSignSetup x.signers (fun pos => (x.keygen.output (x.party pos)).ecShare)
    (fun pos => (x.keygen.output (x.party pos)).publicKey) x.msgDigest presig

variable {x}

theorem nodup : x.signers.Nodup := x.presign.nodup

theorem signers_ne_nil : x.signers ≠ [] := by
  have h1 := x.keygen.one_le
  have h2 := x.threshold_le
  exact List.length_pos_iff.mp (by simp only [signers]; omega)

theorem add_one_lt {i : ℕ} (hi : i ∈ x.signers) : i + 1 < 2 ^ 16 := by
  have h1 := x.signers_lt i hi
  have h2 := x.keygen.n_lt
  omega

/-- **The parts** add up to the signature. -/
theorem sum_part : ∑ pos ∈ Finset.range x.signers.length, x.part pos = x.s := by
  have hdeg : x.keygen.poly.degree < x.signers.length :=
    lt_of_lt_of_le x.keygen.poly_degree_lt (by exact_mod_cast x.threshold_le)
  have hsk := combine_eq (fun _ hj => add_one_lt (x := x) hj) nodup hdeg
  rw [KeygenSession.poly_eval_zero] at hsk
  exact sum_signaturePart (fun _ hj => add_one_lt hj) nodup signers_ne_nil hsk

/-- The signature verifies. -/
theorem verifySignature_eq (hs : x.s ≠ 0) :
    verifySignature (x.keygen.sk • C.generator) x.msgDigest (toBeBytes x.presign.r)
      (toBeBytes x.s) = true :=
  verifySignature_sign x.msgDigest hs

variable (x) in
/-- What every signer sends: its part of the signature. -/
noncomputable def onlineScript : (r : ℕ) → ℕ → ℕ → OnlineSignMsg r := fun _ d _ => ⟨toBeBytes (x.part d)⟩

/-- **Every signer follows the script**, up to the last check of the signature. -/
theorem onlineSign_follows {presig : ℕ → Presignature C}
    (hpresig : ∀ pos < x.signers.length, presig pos = x.presign.presignature) :
    ∀ pos < x.signers.length, Follows x.signers.length pos x.onlineScript 1
      (finishSignature (x.keygen.sk • C.generator) x.msgDigest x.presign.presignature x.s)
      ((x.onlineSetup presig).prog pos) := by
  intro pos hpos
  have hfollows := onlineSign_follows_parts (fun i => (x.keygen.output i).ecShare)
    x.presign.presignature x.msgDigest (fun _ hi => add_one_lt hi) nodup
    (x.keygen.sk • C.generator) hpos
  rw [show _ = x.s from sum_part] at hfollows
  show Follows x.signers.length pos x.onlineScript 1 _ (runOnlineSign (x.party pos) x.signers
    (x.keygen.output (x.party pos)).ecShare (x.keygen.output (x.party pos)).publicKey x.msgDigest
    (presig pos))
  rw [hpresig pos hpos]
  exact hfollows

/-- **Honest signing** with the joint presignature ends at every signer with the last check of the
    signature. -/
theorem runOnlineSign_finishes {presig : ℕ → Presignature C}
    (hpresig : ∀ pos < x.signers.length, presig pos = x.presign.presignature) :
    Completes (x.onlineSetup presig) fun _ =>
      finishSignature (x.keygen.sk • C.generator) x.msgDigest x.presign.presignature x.s :=
  completes_of_follows (fun _ _ => not_false) (onlineSign_follows hpresig)

/-- The last check accepts if `s` is not zero. -/
theorem finishSignature_eq (hs : x.s ≠ 0) {recId : UInt8}
    (hrec : recoveryId x.presign.rPoint = some recId) :
    finishSignature (x.keygen.sk • C.generator) x.msgDigest x.presign.presignature x.s =
      .ok ⟨toBeBytes x.presign.r, toBeBytes x.s, recId⟩ :=
  finishSignature_ok (verifySignature_eq hs) hrec

end Session

/-- **Honest CGGMP21.**  The key generation succeeds at every party with one public key, the
    presigning at every signer with one presignature `(k, k⁻¹, x(k G), k G)`, and, if
    `s = k⁻¹ (z + r sk)` is not zero, the signing at every signer with the signature `(r, s)`,
    which verifies under the public key. -/
theorem cggmp21_correct (H : Hash) (x : Session C H) (hs : x.s ≠ 0) :
    ∃ (out : ℕ → Cggmp21KeygenOutput C) (presig : Presignature C) (sig : Signature),
      (Completes x.keygen.setup (fun i => .ok (out i)) ∧
        ∀ i < x.keygen.n, (out i).publicKey = x.keygen.sk • C.generator) ∧
      (Completes (x.presign.setup H) (fun _ => .ok presig) ∧
        presig.rPoint = presig.k • C.generator ∧ presig.k * presig.kInv = 1 ∧
        presig.r = pointXCoord presig.rPoint) ∧
      Completes (onlineSignSetup x.signers (fun pos => (out (x.party pos)).ecShare)
        (fun pos => (out (x.party pos)).publicKey) x.msgDigest fun _ => presig)
        (fun _ => .ok sig) ∧
      sig.rBytes = toBeBytes presig.r ∧
      sig.sBytes =
        toBeBytes (presig.kInv * (digestScalar C x.msgDigest + presig.r * x.keygen.sk)) ∧
      verifySignature (x.keygen.sk • C.generator) x.msgDigest sig.rBytes sig.sBytes = true := by
  have hk : x.presign.k ≠ 0 := x.presign.sum_ne_zero
  have hrPoint : x.presign.rPoint ≠ 0 := smul_ne_zero hk C.generator_ne_zero
  obtain ⟨recId, hrec⟩ := exists_recoveryId hrPoint
  have hsign : Completes (x.onlineSetup fun _ => x.presign.presignature) _ :=
    x.runOnlineSign_finishes fun _ _ => rfl
  rw [Session.finishSignature_eq hs hrec] at hsign
  exact ⟨x.keygen.output, x.presign.presignature, ⟨toBeBytes x.presign.r, toBeBytes x.s, recId⟩,
    ⟨x.keygen.runKeygen_completes, fun _ _ => rfl⟩,
    ⟨x.presign.runPresign_completes H, rfl, mul_inv_cancel₀ hk, rfl⟩, hsign, rfl, rfl,
    Session.verifySignature_eq hs⟩

/-! ### A small session -/

theorem challenge_oneHash (input : List UInt8) : challenge oneHash input = 1 := by
  show ((ofBE (Vector.ofFn fun k : Fin 32 => if k = 31 then (1 : UInt8) else 0).toList : ℕ) : ℤ) = 1
  decide +kernel

/-- The challenge 1 can be answered for every key. -/
theorem isAnswerable_oneHash (N : ℕ) (sid : List UInt8) (i : ℕ) : IsAnswerable oneHash N sid i := by
  rw [IsAnswerable, blumChallenge, challenge_oneHash]
  exact ⟨Int.one_gcd, jacobiSym.one_left N⟩

/-- Three parties with threshold 2; every dealer shares 1. -/
def smallKeygen : KeygenSession smallCurve oneHash where
  n := 3
  t := 2
  n_lt := three_lt_indices
  one_le := by decide
  sid := []
  coins _ := ⟨65539, 65543, smallKeypair, 1, fun _ => 1, 1, 1, fun _ => 0, fun _ => ⟨1, 0⟩⟩
  generated _ _ := generated_smallKeypair
  lt_modulus _ _ := by decide
  rho_coprime _ _ _ _ _ _ h := coprime_of_genBigintRange_zero h
  blum_answers _ _ _ h hbits :=
    (generated_smallKeypair.bits_eq_nil_iff h).mp hbits 0 (by decide) (isAnswerable_oneHash ..)

/-- Parties 2 and 0 draw the nonce 1 each. -/
def smallPresign : PresignSession smallCurve where
  signers := [2, 0]
  nodup := by decide
  coins _ := ⟨smallKeypair, 1, fun _ => 0, fun _ => ⟨0, 0⟩⟩
  generated _ _ := ⟨_, _, generated_smallKeypair⟩
  lt_modulus _ _ := by decide
  rho_coprime _ _ _ _ _ _ h := coprime_of_genBigintRange_zero h
  sum_ne_zero := by decide

/-- They sign a digest of zeros. -/
def smallSession : Session smallCurve oneHash where
  keygen := smallKeygen
  presign := smallPresign
  signers_lt := by decide
  threshold_le := by decide
  msgDigest := Vector.replicate 32 0

theorem smallSession_values : smallSession.presign.r = 2 ∧ smallSession.s = 3 := by
  decide +kernel

/-- The small session succeeds. -/
theorem cggmp21_correct_smallSession :
    smallSession.s ≠ 0 ∧ ∃ (presig : Presignature smallCurve) (sig : Signature),
      Completes (smallSession.presign.setup oneHash) (fun _ => .ok presig) ∧
      verifySignature (smallSession.keygen.sk • smallCurve.generator) smallSession.msgDigest
        sig.rBytes sig.sBytes = true := by
  have hs : smallSession.s ≠ 0 := by
    rw [smallSession_values.2]
    decide
  obtain ⟨-, presig, sig, -, ⟨hpresig, -⟩, -, -, -, hverify⟩ := cggmp21_correct oneHash smallSession hs
  exact ⟨hs, presig, sig, hpresig, hverify⟩

end Govis.Cggmp21
