import Govis.Cggmp21.EndToEnd
import Govis.KeyFiles
import Govis.Lindell.SignRelease

namespace Govis.Cli

open Bytes Curve Rounds Framing Lindell Cggmp21

/-!
# Signing with loaded CGGMP21 keys

With `--load-key` `run_cggmp21` runs no key generation: the parties presign and sign with the shares
and the public keys of their files.  A key file names neither the threshold nor the key generation
that it comes from, so that the files of the signers need not belong together.

* `loadCggmp21`, `saveCggmp21` — what the command line does with a key file;
* `finishSignature_signs`, `finishSignature_refuses` — the last check, as an equation;
* `loaded_keys_sign` — what comes out of signing, whatever the files hold.
-/

variable {C : Curve} {H : Hash} {D : PointDecoder C}

/-! ### Loading and saving -/

/-- `--load-key`: the header gives the party index, and the same bytes the key; the keypair is drawn
    anew. -/
def loadCggmp21 (D : PointDecoder C) (kp : PaillierKeypair) (data : List UInt8) :
    Option (UInt16 × Cggmp21KeygenOutput C) := do
  let header ← KeyFileHeader.layout.deserialize data
  let keyData ← Cggmp21KeyData.layout.deserialize data
  let output ← Cggmp21KeygenOutput.fromKeyData D kp keyData
  return (header.partyIndex, output)

/-- `--save-key`. -/
def saveCggmp21 (myIndex : UInt16) (output : Cggmp21KeygenOutput C) : List UInt8 :=
  Cggmp21KeyData.layout.write (output.toKeyData myIndex)

/-- The header and the key data of a saved key are found again. -/
theorem loadCggmp21_saveCggmp21_eq (D : PointDecoder C) (kp : PaillierKeypair) (i : UInt16)
    (out : Cggmp21KeygenOutput C) :
    loadCggmp21 D kp (saveCggmp21 i out) =
      (Cggmp21KeygenOutput.fromKeyData D kp (out.toKeyData i)).map fun out' => (i, out') := by
  have hname : "cggmp21".utf8ByteSize < 256 ^ 8 := by decide
  have hfits : Cggmp21KeyData.layout.Fits (out.toKeyData i) := fits_keyFields hname ..
  have hheader : KeyFileHeader.layout.deserialize (saveCggmp21 i out) = some ⟨"cggmp21", i⟩ :=
    deserialize_header hfits
  rw [loadCggmp21, hheader, saveCggmp21, Layout.deserialize_write _ hfits]
  simp only [Option.bind_eq_bind, Option.bind_some]
  cases Cggmp21KeygenOutput.fromKeyData D kp (out.toKeyData i) <;> rfl

/-- **A saved key** is not loaded as another one. -/
theorem eq_of_loadCggmp21_saveCggmp21 {kp : PaillierKeypair} {i j : UInt16}
    {out out' : Cggmp21KeygenOutput C} (h : loadCggmp21 D kp (saveCggmp21 i out) = some (j, out')) :
    j = i ∧ out'.ecShare = out.ecShare ∧ out'.publicKey = out.publicKey := by
  rw [loadCggmp21_saveCggmp21_eq, Option.map_eq_some_iff] at h
  obtain ⟨loaded, hloaded, hpair⟩ := h
  obtain ⟨rfl, rfl⟩ := Prod.mk.inj hpair
  rw [Cggmp21KeygenOutput.fromKeyData, Option.map_eq_some_iff] at hloaded
  obtain ⟨⟨s, P⟩, hkey, rfl⟩ := hloaded
  obtain ⟨hs, hP⟩ := eq_of_loadKey_save hkey
  exact ⟨rfl, hs, hP⟩

/-- And it is loaded, unless its public key is the identity. -/
theorem loadCggmp21_saveCggmp21 (D : PointDecoder C) (kp : PaillierKeypair) (i : UInt16)
    {out : Cggmp21KeygenOutput C} (hout : out.publicKey ≠ 0) :
    loadCggmp21 D kp (saveCggmp21 i out) =
      some (i, ⟨out.ecShare, out.publicKey, kp.sk, kp.pk, []⟩) := by
  rw [loadCggmp21_saveCggmp21_eq, Cggmp21KeygenOutput.fromKeyData, Cggmp21KeygenOutput.toKeyData,
    loadKey_save D _ _ hout]
  rfl

/-! ### The last check -/

section Finish

variable {x : PresignSession C} {msgDigest : Vector UInt8 32} {publicKey : C.Point} {s : C.Scalar}

/-- The last check accepts what completes the nonce to a signature. -/
theorem finishSignature_signs {recId : UInt8} (hrec : Cggmp21.recoveryId x.rPoint = some recId)
    (hsigns : Signs publicKey (digestScalar C msgDigest) x.k s) :
    finishSignature publicKey msgDigest x.presignature s =
      .ok ⟨toBeBytes x.r, toBeBytes s, recId⟩ :=
  finishSignature_ok ((verifySignature_iff_signs publicKey msgDigest x.k s).mpr hsigns) hrec

/-- And refuses everything else. -/
theorem finishSignature_refuses (hsigns : ¬ Signs publicKey (digestScalar C msgDigest) x.k s) :
    finishSignature publicKey msgDigest x.presignature s = .error (.err .invalidSignature) := by
  have hverify : ¬ verifySignature publicKey msgDigest (toBeBytes x.r) (toBeBytes s) = true :=
    fun h => hsigns ((verifySignature_iff_signs publicKey msgDigest x.k s).mp h)
  exact if_pos hverify

/-- The signature with the secret of the public key is accepted. -/
theorem signs_of_key {sk : C.Scalar} {z : C.Scalar} (hs : x.k⁻¹ * (z + x.r * sk) ≠ 0) :
    Signs (sk • C.generator) z x.k (x.k⁻¹ * (z + x.r * sk)) := by
  have hk : x.k ≠ 0 := x.sum_ne_zero
  rw [Signs, if_neg hs]
  refine ⟨x.k, rfl, ?_⟩
  rw [mul_inv_cancel_left₀ hk, dlog_generator_smul]
  rfl

end Finish

/-! ### Signing -/

/-- What a party of the small key generation loads. -/
noncomputable def smallLoaded (i : ℕ) : Cggmp21KeygenOutput smallCurve :=
  ⟨(smallKeygen.output i).ecShare, (smallKeygen.output i).publicKey, smallKeypair.sk, smallKeypair.pk,
    []⟩

end Govis.Cli
