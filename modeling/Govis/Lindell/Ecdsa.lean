import Govis.Core
import Govis.SmallCurve

namespace Govis.Lindell

open Bytes Curve

/-!
# ECDSA verification

`verify_signature` and `recovery_id` of `lindell/sign.rs`.

* `ValidSignature` — what ECDSA asks of a pair of encodings;
* `verifySignature_iff_valid_iff` — exactly when the verifier and ECDSA agree;
* `verifySignature_sign` — the verifier accepts what the signing equation produces.
-/

variable {C : Curve}

/-- `verify_signature`. -/
def verifySignature (publicKey : C.Point) (msgDigest : Vector UInt8 32)
    (rBytes sBytes : List UInt8) : Bool :=
  let r := fromBeBytesModOrder C rBytes
  let s := fromBeBytesModOrder C sBytes
  let z := fromBeBytesModOrder C msgDigest.toList
  -- no inverse becomes zero
  let sInv := if s = 0 then 0 else s⁻¹
  let u1 := z * sInv
  let u2 := r * sInv
  let p := u1 • C.generator + u2 • publicKey
  let calculatedR := pointXCoord p
  r == calculatedR

/-- `recovery_id`: the parity of the byte at index 32 of the uncompressed encoding. -/
def recoveryId (rPoint : C.Point) : UInt8 := (toBytes false rPoint).getD 32 0 % 2

/-- The scalar of a digest. -/
def digestScalar (C : Curve) (msgDigest : Vector UInt8 32) : C.Scalar :=
  fromBeBytesModOrder C msgDigest.toList

/-- The encoding of a number between 1 and the order of the group. -/
def InRange (C : Curve) (bytes : List UInt8) : Prop := 1 ≤ ofBE bytes ∧ ofBE bytes < C.q

/-- The first coordinate modulo the order, with zero for the identity. -/
def xOrZero (P : C.Point) : C.Scalar :=
  match C.coords P with
  | none => 0
  | some (x, _) => (x : C.Scalar)

/-- The point `(z / s) * G + (r / s) * Q`. -/
def ecdsaPoint (Q : C.Point) (z r s : C.Scalar) : C.Point :=
  (z / s) • C.generator + (r / s) • Q

/-- **ECDSA.**  The two encodings are in range, and the point is not the identity and has the
    first number as its first coordinate modulo the order. -/
def ValidSignature (Q : C.Point) (msgDigest : Vector UInt8 32) (rBytes sBytes : List UInt8) : Prop :=
  InRange C rBytes ∧ InRange C sBytes ∧
    ∃ x y, C.coords (ecdsaPoint Q (digestScalar C msgDigest) (ofBE rBytes : ℕ)
      (ofBE sBytes : ℕ)) = some (x, y) ∧ (x : C.Scalar) = (ofBE rBytes : ℕ)

/-- The code reads coordinates off encodings. -/
theorem pointXCoord_eq (P : C.Point) : pointXCoord P = xOrZero P := by
  cases h : C.coords P with
  | none =>
    rw [(C.coords_eq_none P).mp h, pointXCoord_zero, xOrZero, (C.coords_eq_none 0).mpr rfl]
  | some e =>
    rw [pointXCoord_of_coords h, xOrZero, h]

/-- The encoding of a number in range is not zero modulo the order. -/
theorem InRange.ne_zero {bytes : List UInt8} (h : InRange C bytes) :
    ((ofBE bytes : ℕ) : C.Scalar) ≠ 0 := by
  intro h0
  have hv := congrArg ZMod.val h0
  rw [ZMod.val_cast_of_lt h.2, ZMod.val_zero] at hv
  have := h.1
  omega

/-- **Acceptance.** With no inverse of `s` the verifier looks at the identity. -/
theorem verifySignature_eq_true_iff (Q : C.Point) (msgDigest : Vector UInt8 32)
    (rBytes sBytes : List UInt8) :
    verifySignature Q msgDigest rBytes sBytes = true ↔
      if ((ofBE sBytes : ℕ) : C.Scalar) = 0 then ((ofBE rBytes : ℕ) : C.Scalar) = 0
      else ((ofBE rBytes : ℕ) : C.Scalar) = xOrZero (ecdsaPoint Q (digestScalar C msgDigest)
        (ofBE rBytes : ℕ) (ofBE sBytes : ℕ)) := by
  simp only [verifySignature, beq_iff_eq]
  by_cases hs : fromBeBytesModOrder C sBytes = 0
  · have hs' : ((ofBE sBytes : ℕ) : C.Scalar) = 0 := hs
    rw [if_pos hs, if_pos hs', mul_zero, mul_zero, zero_smul, zero_smul, add_zero, pointXCoord_zero]
    rfl
  · have hs' : ¬ ((ofBE sBytes : ℕ) : C.Scalar) = 0 := hs
    rw [if_neg hs, if_neg hs', pointXCoord_eq, ← div_eq_mul_inv, ← div_eq_mul_inv]
    rfl

/-- On encodings in range the verifier decides ECDSA. -/
theorem verifySignature_iff_of_inRange (Q : C.Point) (msgDigest : Vector UInt8 32)
    {rBytes sBytes : List UInt8} (hr : InRange C rBytes) (hs : InRange C sBytes) :
    verifySignature Q msgDigest rBytes sBytes = true ↔ ValidSignature Q msgDigest rBytes sBytes := by
  rw [verifySignature_eq_true_iff, if_neg hs.ne_zero, xOrZero]
  constructor
  · intro h
    refine ⟨hr, hs, ?_⟩
    cases hc : C.coords (ecdsaPoint Q (digestScalar C msgDigest) (ofBE rBytes : ℕ)
        (ofBE sBytes : ℕ)) with
    | none =>
      -- the identity counts as zero, which is out of range
      rw [hc] at h
      exact absurd h hr.ne_zero
    | some e =>
      rw [hc] at h
      exact ⟨e.1, e.2, rfl, h.symm⟩
  · rintro ⟨-, -, x, y, hc, hx⟩
    rw [hc]
    exact hx.symm

/-- **When the verifier decides ECDSA.**  It does so on two encodings in range.  On others,
    which are never valid, it does so when, with `s` divisible by the order, `r` is not, and
    when otherwise `r` is not the first coordinate of the point of the reduced numbers, the
    identity counting as zero. -/
theorem verifySignature_iff_valid_iff (Q : C.Point) (msgDigest : Vector UInt8 32)
    (rBytes sBytes : List UInt8) :
    (verifySignature Q msgDigest rBytes sBytes = true ↔
        ValidSignature Q msgDigest rBytes sBytes) ↔
      (InRange C rBytes ∧ InRange C sBytes) ∨
        if ((ofBE sBytes : ℕ) : C.Scalar) = 0 then ((ofBE rBytes : ℕ) : C.Scalar) ≠ 0
        else ((ofBE rBytes : ℕ) : C.Scalar) ≠ xOrZero (ecdsaPoint Q (digestScalar C msgDigest)
          (ofBE rBytes : ℕ) (ofBE sBytes : ℕ)) := by
  by_cases hin : InRange C rBytes ∧ InRange C sBytes
  · exact iff_of_true (verifySignature_iff_of_inRange Q msgDigest hin.1 hin.2) (.inl hin)
  · have hinvalid : ¬ ValidSignature Q msgDigest rBytes sBytes := fun h => hin ⟨h.1, h.2.1⟩
    rw [iff_false_right hinvalid, verifySignature_eq_true_iff, or_iff_right hin]
    split <;> rfl

/-- Two empty strings are accepted for every key and digest. -/
theorem verifySignature_nil (Q : C.Point) (msgDigest : Vector UInt8 32) :
    verifySignature Q msgDigest [] [] = true := by
  rw [verifySignature_eq_true_iff, if_pos (by simp)]
  simp

/-- **Accepted, not valid.** -/
theorem verifySignature_nil_not_valid :
    smallCurve.generator ≠ 0 ∧
      verifySignature smallCurve.generator (Vector.replicate 32 0) [] [] = true ∧
      ¬ ValidSignature smallCurve.generator (Vector.replicate 32 0) [] [] := by
  refine ⟨smallCurve.generator_ne_zero, verifySignature_nil _ _, fun h => ?_⟩
  exact absurd h.1.1 (by decide)

/-- **Signatures verify.**  The signing equation under the secret of the key, with a nonce and a
    second number other than zero, yields an accepted pair. -/
theorem verifySignature_sign {sk k : C.Scalar} (msgDigest : Vector UInt8 32)
    (hs : k⁻¹ * (digestScalar C msgDigest + pointXCoord (k • C.generator) * sk) ≠ 0) :
    verifySignature (sk • C.generator) msgDigest (toBeBytes (pointXCoord (k • C.generator)))
      (toBeBytes (k⁻¹ * (digestScalar C msgDigest + pointXCoord (k • C.generator) * sk))) = true := by
  set r := pointXCoord (k • C.generator) with hr
  set s := k⁻¹ * (digestScalar C msgDigest + r * sk) with hsdef
  have hk : k ≠ 0 := fun h => hs (by rw [hsdef, h, inv_zero, zero_mul])
  -- the nonce is `(z + r * sk) / s`
  have hpoint : (digestScalar C msgDigest * s⁻¹) • C.generator + (r * s⁻¹) • sk • C.generator =
      k • C.generator := by
    rw [smul_smul, ← add_smul]
    congr 1
    have : k * s = digestScalar C msgDigest + r * sk := by
      rw [hsdef, mul_inv_cancel_left₀ hk]
    field_simp
    rw [← this, mul_comm]
  simp only [verifySignature, fromBeBytesModOrder_toBeBytes, if_neg hs, beq_iff_eq]
  rw [show fromBeBytesModOrder C msgDigest.toList = digestScalar C msgDigest from rfl, hpoint, hr]

end Govis.Lindell
