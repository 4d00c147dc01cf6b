import Govis.Recovery

namespace Govis

open Bytes Curve Lindell Cggmp21

/-!
# Which recovery ids are right

`recovery_id` of `cggmp21/sign.rs` asks for the parity of the second coordinate;
`recovery_id` of `lindell/sign.rs` reads the last byte of the first one.

* `recovers_sign_iff` — recovery from the signing equation needs the parity of the second
  coordinate;
* `recoveryId_right_iff` — so the two ids agree, and recovery finds the key, exactly at the points
  whose coordinates have the same parity.
-/

variable {C : Curve}

/-- The second number of the signing equation. -/
def signS (sk z k : C.Scalar) : C.Scalar := k⁻¹ * (z + pointXCoord (k • C.generator) * sk)

/-- The verifier's point of a signature is the nonce point. -/
theorem ecdsaPoint_signS {sk z k : C.Scalar} (hs : signS sk z k ≠ 0) :
    ecdsaPoint (sk • C.generator) z (pointXCoord (k • C.generator)) (signS sk z k) =
      k • C.generator := by
  have hk : k ≠ 0 := fun h => hs (by rw [signS, h, inv_zero, zero_mul])
  have heq : k * signS sk z k = z + pointXCoord (k • C.generator) * sk := by
    rw [signS, mul_inv_cancel_left₀ hk]
  rw [ecdsaPoint_eq, dlog_generator_smul, ← heq, mul_div_cancel_right₀ _ hs]

/-- **Recovery** from a signature finds the key exactly if the id is the parity of the second
    coordinate of the nonce point. -/
theorem recovers_sign_iff {sk z k : C.Scalar} {x y recId : ℕ}
    (hk : C.coords (k • C.generator) = some (x, y)) (hx : x < C.q) (hx0 : x ≠ 0)
    (hs : signS sk z k ≠ 0) :
    RecoversKey z x (signS sk z k).val recId (sk • C.generator) ↔ recId = y % 2 := by
  have hr : ((x : ℕ) : C.Scalar) ≠ 0 := by
    intro h
    have hval := congrArg ZMod.val h
    rw [ZMod.val_cast_of_lt hx, ZMod.val_zero] at hval
    exact hx0 hval
  have hs' : (((signS sk z k).val : ℕ) : C.Scalar) ≠ 0 := by
    rwa [ZMod.natCast_zmod_val]
  have hpoint := ecdsaPoint_signS hs
  rw [pointXCoord_of_coords hk] at hpoint
  rw [recovers_iff hr hs', ZMod.natCast_zmod_val, hpoint, hk]
  constructor
  · rintro ⟨y', h, hy'⟩
    obtain ⟨-, rfl⟩ := Prod.mk.inj (Option.some.inj h)
    exact hy'.symm
  · rintro rfl
    exact ⟨y, rfl, rfl⟩

/-- A first coordinate of zero, which recovery cannot divide by, gives the key of the secret zero. -/
theorem recovers_zero_iff {sk z : C.Scalar} {P : C.Point} {y s recId : ℕ}
    (hP : C.coords P = some (0, y)) (hrecId : recId < 2) :
    RecoversKey z 0 s recId (sk • C.generator) ↔ sk = 0 := by
  -- one of the two points with this coordinate has the parity, and either gives the identity
  rw [RecoversKey, exists_parity_iff hP hrecId, Nat.cast_zero, inv_zero, zero_smul]
  constructor
  · intro h
    rwa [← zero_smul C.Scalar C.generator, generator_smul_eq_iff] at h
  · rintro rfl
    exact zero_smul _ _

/-- **When recovery ids are right.**  The id of `cggmp21/sign.rs` is the parity of the second
    coordinate.  That of `lindell/sign.rs` is the same, and leads recovery to the key of every
    signature with this nonce point, exactly if the coordinates have the same parity. -/
theorem recoveryId_right_iff {R : C.Point} {x y : ℕ} (hR : C.coords R = some (x, y)) :
    (∃ recId, Cggmp21.recoveryId R = some recId ∧ recId.toNat = y % 2) ∧
    (Cggmp21.recoveryId R = some (Lindell.recoveryId R) ∧
        (Lindell.recoveryId R).toNat = y % 2 ↔ x % 2 = y % 2) ∧
    ∀ sk z k : C.Scalar, R = k • C.generator → x < C.q → signS sk z k ≠ 0 →
      (RecoversKey z x (signS sk z k).val (Lindell.recoveryId R).toNat (sk • C.generator) ↔
        if x = 0 then sk = 0 else x % 2 = y % 2) := by
  obtain ⟨recId, hrecId⟩ : ∃ recId, Cggmp21.recoveryId R = some recId := by
    rw [Cggmp21.recoveryId, hR]
    exact ⟨_, rfl⟩
  have hright := Cggmp21.toNat_recoveryId hR hrecId
  have hlindell := Govis.toNat_recoveryId hR
  refine ⟨⟨recId, hrecId, hright⟩, ?_, ?_⟩
  · rw [hrecId, hlindell, Option.some.injEq]
    constructor
    · exact fun h => h.2
    · intro h
      refine ⟨UInt8.toNat_inj.mp ?_, h⟩
      rw [hright, hlindell, h]
  · rintro sk z k rfl hx hs
    rw [hlindell]
    split
    · rename_i hx0
      subst hx0
      exact recovers_zero_iff hR (by omega)
    · rename_i hx0
      exact recovers_sign_iff hR hx hx0 hs

/-- At the opposite of the generator of the small curve, with the coordinates 1 and 65536, the two
    ids differ, and recovery with that of `lindell/sign.rs` misses the key 1. -/
theorem recoveryId_wrong :
    smallCurve.coords ((-1 : smallCurve.Scalar) • smallCurve.generator) = some (1, 65536) ∧
      Lindell.recoveryId ((-1 : smallCurve.Scalar) • smallCurve.generator) = 1 ∧
      Cggmp21.recoveryId ((-1 : smallCurve.Scalar) • smallCurve.generator) = some 0 ∧
      signS (1 : smallCurve.Scalar) 0 (-1) ≠ 0 ∧
      ¬ RecoversKey (0 : smallCurve.Scalar) 1 (signS (1 : smallCurve.Scalar) 0 (-1)).val
        (Lindell.recoveryId ((-1 : smallCurve.Scalar) • smallCurve.generator)).toNat
        ((1 : smallCurve.Scalar) • smallCurve.generator) := by
  have hcoords : smallCurve.coords ((-1 : smallCurve.Scalar) • smallCurve.generator) =
      some (1, 65536) := by decide +kernel
  have hs : signS (1 : smallCurve.Scalar) 0 (-1) ≠ 0 := by
    rw [signS, pointXCoord_of_coords hcoords]
    simp
  refine ⟨hcoords, by decide +kernel, by decide +kernel, hs, ?_⟩
  rw [recovers_sign_iff hcoords (by decide) one_ne_zero hs, toNat_recoveryId hcoords]
  decide

/-- The generator of the small curve has the coordinates 1 and 1. -/
theorem recoveryId_right_iff_generator :
    Cggmp21.recoveryId smallCurve.generator = some (Lindell.recoveryId smallCurve.generator) :=
  ((recoveryId_right_iff (C := smallCurve) (R := smallCurve.generator) (x := 1) (y := 1)
    (by decide +kernel)).2.1.mpr rfl).1

end Govis
