import Govis.SmallCurve

namespace Govis

open Curve Shamir

/-!
# Interpolation by the signers

`lagrange_coeff` as both signing protocols use it: the list of signers may come in any order,
with gaps, and be longer than the threshold.  Indices are below `65535`, so that `i + 1` still
is a 16-bit number.

* `lagrangeCoeff_interpolates` — the coefficients recover the value at zero of every polynomial
  of degree below the number of signers, and the inversion never fails.
-/

variable {C : Curve}

/-- The nodes of indices below `65535` are 16-bit numbers. -/
theorem succ_lt_two_pow_16 {signers : List ℕ} (hs : ∀ j ∈ signers, j < 65535) :
    ∀ j ∈ signers, j + 1 < 2 ^ 16 := by
  intro j hj
  have hlt := hs j hj
  omega

/-- The coefficients of a list of signers exist, with or without repetitions. -/
theorem lagrangeCoeff_isSome {i : ℕ} {signers : List ℕ} (hi : i + 1 < 2 ^ 16)
    (hs : ∀ j ∈ signers, j + 1 < 2 ^ 16) : (lagrangeCoeff C i signers).isSome := by
  simp [lagrangeCoeff, lagrangeLoop_den_ne_zero hi hs]

/-- **Lagrange coefficients interpolate at zero.** -/
theorem lagrangeCoeff_interpolates (C : Curve) :
    (∀ (signers : List ℕ) (f : Polynomial C.Scalar), signers.Nodup → (∀ j ∈ signers, j < 65535) →
      f.degree < signers.length →
      ∃ coeff : ℕ → C.Scalar, (∀ i ∈ signers, lagrangeCoeff C i signers = some (coeff i)) ∧
        (signers.map fun i => coeff i * f.eval ((i + 1 : ℕ) : C.Scalar)).sum = f.eval 0 ∧
        (signers ≠ [] → (signers.map coeff).sum = 1)) ∧
    ∀ (i : ℕ) (signers : List ℕ), i < 65535 → (∀ j ∈ signers, j < 65535) →
      (lagrangeLoop C i signers).2 ≠ 0 ∧ (lagrangeCoeff C i signers).isSome := by
  constructor
  · intro signers f hnd hs hf
    have hs' := succ_lt_two_pow_16 hs
    have hinj : Set.InjOn (node C) signers.toFinset :=
      node_injOn.mono fun j hj => hs' j (List.mem_toFinset.mp hj)
    have hcard : signers.toFinset.card = signers.length := List.toFinset_card_of_nodup hnd
    refine ⟨weight signers.toFinset (node C), ?_, ?_, ?_⟩
    · exact fun i hi => lagrangeCoeff_eq_weight (hs' i hi) hs' hnd
    · rw [← sum_weight_mul_eval hinj (hcard ▸ hf), List.sum_toFinset _ hnd]
      rfl
    · -- the constant polynomial one
      intro hne
      have hone : (1 : Polynomial C.Scalar).degree < signers.toFinset.card := by
        rw [Polynomial.degree_one, hcard]
        exact_mod_cast List.length_pos_iff.mpr hne
      have hsum := sum_weight_mul_eval hinj hone
      simp only [Polynomial.eval_one, mul_one] at hsum
      rw [← hsum, List.sum_toFinset _ hnd]
  · intro i signers hi hs
    have hs' := succ_lt_two_pow_16 hs
    have hi' : i + 1 < 2 ^ 16 := by omega
    exact ⟨lagrangeLoop_den_ne_zero hi' hs', lagrangeCoeff_isSome hi' hs'⟩

/-- The line `X` and the signers `7`, `2` of the small curve. -/
theorem lagrangeCoeff_interpolates_two :
    (∃ coeff : ℕ → smallCurve.Scalar,
      (∀ i ∈ [7, 2], lagrangeCoeff smallCurve i [7, 2] = some (coeff i)) ∧
        ([7, 2].map fun i => coeff i * Polynomial.X.eval ((i + 1 : ℕ) : smallCurve.Scalar)).sum =
          Polynomial.X.eval (0 : smallCurve.Scalar) ∧
        ([7, 2] ≠ [] → ([7, 2].map coeff).sum = 1)) ∧
      (lagrangeLoop smallCurve 2 [7, 7, 2]).2 ≠ 0 ∧
      (lagrangeCoeff smallCurve 2 [7, 7, 2]).isSome :=
  ⟨(lagrangeCoeff_interpolates smallCurve).1 [7, 2] Polynomial.X (by decide) (by decide) (by
      rw [Polynomial.degree_X]
      decide),
    (lagrangeCoeff_interpolates smallCurve).2 2 [7, 7, 2] (by decide) (by decide)⟩

end Govis
