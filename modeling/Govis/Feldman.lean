import Govis.Core

namespace Govis

open Curve Shamir Polynomial

/-!
# The joint polynomial of several dealings

Every dealer `d < n` publishes a vector of points.  The polynomial whose coefficients are the
discrete logarithms of these points, summed over the dealers, is what a Feldman DKG shares.

* `jointPoly`, `jointAt` — the polynomial, and its values in the exponent;
* `combine_jointPoly` — enough shares of it recover its value at zero;
* `degree_lt_of_combine` — and only polynomials of degree below the threshold are recovered
  by every large enough set.
-/

variable {C : Curve}

/-- The polynomial dealt by the vectors `vec d`. -/
noncomputable def jointPoly (n : ℕ) (vec : ℕ → List C.Point) : C.Scalar[X] :=
  ∑ d ∈ Finset.range n, polyOf ((vec d).map dlog)

/-- Its value at `x`, in the exponent. -/
def jointAt (n : ℕ) (vec : ℕ → List C.Point) (x : C.Scalar) : C.Point :=
  ∑ d ∈ Finset.range n, evalAt x (vec d)

/-- A vector is the image of its discrete logarithms. -/
theorem map_dlog_smul (l : List C.Point) : (l.map dlog).map (· • C.generator) = l := by
  rw [List.map_map]
  exact (List.map_congr_left fun P _ => dlog_smul_generator P).trans (List.map_id l)

theorem map_smul_dlog (l : List C.Scalar) : (l.map (· • C.generator)).map dlog = l := by
  rw [List.map_map]
  exact (List.map_congr_left fun a _ => dlog_generator_smul a).trans (List.map_id l)

theorem evalAt_dlog (x : C.Scalar) (l : List C.Point) :
    evalAt x (l.map dlog) • C.generator = evalAt x l := by
  rw [← evalAt_map_smul, map_dlog_smul]

theorem eval_jointPoly (n : ℕ) (vec : ℕ → List C.Point) (x : C.Scalar) :
    (jointPoly n vec).eval x = ∑ d ∈ Finset.range n, evalAt x ((vec d).map dlog) := by
  rw [jointPoly, eval_finsetSum]
  exact Finset.sum_congr rfl fun d _ => eval_polyOf x _

/-- **The joint polynomial in the exponent.** -/
theorem eval_jointPoly_smul (n : ℕ) (vec : ℕ → List C.Point) (x : C.Scalar) :
    (jointPoly n vec).eval x • C.generator = jointAt n vec x := by
  rw [eval_jointPoly, Finset.sum_smul]
  exact Finset.sum_congr rfl fun d _ => evalAt_dlog x (vec d)

theorem jointAt_zero (n : ℕ) (vec : ℕ → List C.Point) :
    jointAt n vec 0 = ∑ d ∈ Finset.range n, (vec d).headD 0 :=
  Finset.sum_congr rfl fun d _ => evalAt_zero (vec d)

/-- Its coefficients in the exponent are the sums of the published points. -/
theorem coeff_jointPoly_smul (n : ℕ) (vec : ℕ → List C.Point) (k : ℕ) :
    (jointPoly n vec).coeff k • C.generator = ∑ d ∈ Finset.range n, (vec d).getD k 0 := by
  rw [jointPoly, finsetSum_coeff, Finset.sum_smul]
  apply Finset.sum_congr rfl
  intro d _
  rw [coeff_polyOf, List.getD_eq_getElem?_getD, List.getD_eq_getElem?_getD, List.getElem?_map]
  -- a vector without a `k`-th point contributes zero on both sides
  cases (vec d)[k]? with
  | none => simp
  | some P => simp

/-- The degree is below `t` exactly if the points at every position from `t` on cancel. -/
theorem degree_jointPoly_lt_iff (n t : ℕ) (vec : ℕ → List C.Point) :
    (jointPoly n vec).degree < t ↔ ∀ k ≥ t, ∑ d ∈ Finset.range n, (vec d).getD k 0 = 0 := by
  rw [degree_lt_iff_coeff_zero]
  refine forall_congr' fun k => imp_congr_right fun _ => ?_
  rw [← coeff_jointPoly_smul]
  constructor
  · intro h
    rw [h, zero_smul]
  · intro h
    exact generator_smul_eq_iff.mp (by rw [h, zero_smul])

/-- The degree is below every bound on the lengths of the vectors. -/
theorem degree_jointPoly_lt_of_length {n L : ℕ} {vec : ℕ → List C.Point}
    (hL : ∀ d < n, (vec d).length ≤ L) : (jointPoly n vec).degree < L := by
  apply (degree_jointPoly_lt_iff n L vec).mpr
  intro k hk
  apply Finset.sum_eq_zero
  intro d hd
  rw [List.getD_eq_getElem?_getD,
    List.getElem?_eq_none (le_trans (hL d (Finset.mem_range.mp hd)) hk), Option.getD_none]

section Threshold

variable {n t : ℕ} {vec : ℕ → List C.Point}

/-- **Reconstruction of the joint secret.** -/
theorem combine_jointPoly {signers : List ℕ} (hs : ∀ j ∈ signers, j + 1 < 2 ^ 16)
    (hnd : signers.Nodup) (hdeg : (jointPoly n vec).degree < signers.length) :
    combine signers (fun i => (jointPoly n vec).eval (node C i)) = some ((jointPoly n vec).eval 0) :=
  combine_eq hs hnd hdeg

/-- A set of parties that recovers the value at zero of a polynomial of degree at most their
    number holds it to a degree below that number. -/
theorem degree_lt_of_combine_toList {f : C.Scalar[X]} {T : Finset ℕ} (hT : ∀ j ∈ T, j + 1 < 2 ^ 16)
    (hf : f.degree ≤ T.card)
    (hcomb : combine T.toList (fun i => f.eval (node C i)) = some (f.eval 0)) :
    f.degree < T.card := by
  rw [combine_eq_sum (fun j hj => hT j (Finset.mem_toList.mp hj)) T.nodup_toList,
    Finset.toList_toFinset, Option.some.injEq] at hcomb
  exact degree_lt_of_sum_weight (node_injOn.mono fun j hj => hT j hj)
    (fun j hj => node_ne_zero (hT j hj)) hf hcomb

/-- **Only low degrees are reconstructed.**  If every set of at least `t` of the parties `P`
    recovers the value at zero of a polynomial of degree at most `P.card`, the degree is
    below `t`. -/
theorem degree_lt_of_combine {f : C.Scalar[X]} {P : Finset ℕ} (hP : ∀ j ∈ P, j + 1 < 2 ^ 16)
    (ht : t ≤ P.card) (hf : f.degree ≤ P.card)
    (hall : ∀ signers : List ℕ, signers.Nodup → (∀ j ∈ signers, j ∈ P) → t ≤ signers.length →
      combine signers (fun i => f.eval (node C i)) = some (f.eval 0)) : f.degree < t := by
  -- `k` of the parties lower a degree of at most `k`
  have hset : ∀ k, t ≤ k → k ≤ P.card → f.degree ≤ k → f.degree < k := by
    intro k htk hkP hk
    obtain ⟨T, hTP, hTcard⟩ := Finset.exists_subset_card_eq hkP
    have h := degree_lt_of_combine_toList (fun j hj => hP j (hTP hj)) (by rwa [hTcard])
      (hall T.toList T.nodup_toList (fun j hj => hTP (Finset.mem_toList.mp hj))
        (by rwa [Finset.length_toList, hTcard]))
    rwa [hTcard] at h
  -- lower the degree one by one, with a set of as many parties each time
  have hstep : ∀ k ≤ P.card - t, f.degree ≤ (P.card - k : ℕ) := by
    intro k
    induction k with
    | zero => exact fun _ => hf
    | succ k ih =>
      intro hk
      have hlt := hset (P.card - k) (by omega) (Nat.sub_le _ _) (ih (by omega))
      apply (degree_le_iff_coeff_zero _ _).mpr
      intro m hm
      have hm' : P.card - (k + 1) < m := by exact_mod_cast hm
      exact (degree_lt_iff_coeff_zero _ _).mp hlt m (by omega)
  have hlast := hstep (P.card - t) (le_refl _)
  rw [Nat.sub_sub_self ht] at hlast
  exact hset t (le_refl _) ht hlast

/-- Every set of at least `t` of the parties `P` recovers `sk` from its shares. -/
def Recovers (t : ℕ) (P : Finset ℕ) (share : ℕ → C.Scalar) (sk : C.Scalar) : Prop :=
  ∀ signers : List ℕ, signers.Nodup → (∀ i ∈ signers, i ∈ P) → t ≤ signers.length →
    combine signers share = some sk

/-- The points that the vectors have at every position from `t` on cancel. -/
def PointsCancel (n t : ℕ) (vec : ℕ → List C.Point) : Prop :=
  ∀ k ≥ t, ∑ d ∈ Finset.range n, (vec d).getD k 0 = 0

theorem pointsCancel_of_length (h : ∀ d < n, (vec d).length ≤ t) : PointsCancel n t vec :=
  (degree_jointPoly_lt_iff n t vec).mp (degree_jointPoly_lt_of_length h)

/-- **The threshold is met** if the points from position `t` on cancel. -/
theorem PointsCancel.recovers (h : PointsCancel n t vec) {P : Finset ℕ}
    (hP : ∀ j ∈ P, j + 1 < 2 ^ 16) :
    Recovers t P (fun i => (jointPoly n vec).eval (node C i)) ((jointPoly n vec).eval 0) := by
  intro signers hnd hsigners ht
  refine combine_jointPoly (fun j hj => hP j (hsigners j hj)) hnd ?_
  exact lt_of_lt_of_le ((degree_jointPoly_lt_iff n t vec).mpr h) (by exact_mod_cast ht)

/-- **And only then**, if no vector is longer than the number of parties plus one. -/
theorem Recovers.pointsCancel {P : Finset ℕ}
    (h : Recovers t P (fun i => (jointPoly n vec).eval (node C i)) ((jointPoly n vec).eval 0))
    (hP : ∀ j ∈ P, j + 1 < 2 ^ 16) (ht : t ≤ P.card)
    (hlen : ∀ d < n, (vec d).length ≤ P.card + 1) : PointsCancel n t vec := by
  have hdeg : (jointPoly n vec).degree ≤ P.card := by
    apply (degree_le_iff_coeff_zero _ _).mpr
    intro m hm
    have hm' : P.card < m := by exact_mod_cast hm
    exact (degree_lt_iff_coeff_zero _ _).mp (degree_jointPoly_lt_of_length hlen) m (by omega)
  exact (degree_jointPoly_lt_iff n t vec).mp (degree_lt_of_combine hP ht hdeg h)

/-- Only the shares of the parties matter. -/
theorem Recovers.congr {P : Finset ℕ} {share share' : ℕ → C.Scalar} {sk : C.Scalar}
    (h : Recovers t P share sk) (heq : ∀ i ∈ P, share' i = share i) : Recovers t P share' sk := by
  intro signers hnd hsigners ht
  rw [combine_congr fun i hi => heq i (hsigners i hi)]
  exact h signers hnd hsigners ht

end Threshold

end Govis
