import Govis.Curve
import Govis.Shamir.Sharing

namespace Govis

open Bytes Curve Shamir

/-!
# Feldman VSS core

`core.rs`: dealing a polynomial, committing to it, and the Lagrange coefficients.  A party
index `i` stands for the node `i + 1`.

* `lagrangeCoeff_eq_weight` — on a duplicate-free list the coefficients are the Lagrange
  weights at zero, and the inversion in the code never fails;
* `combine_eq` — the combination of shares with these coefficients recovers `f(0)`;
* `evaluatePolynomial_share` — what a dealer hands out.
-/

variable {C : Curve}

/-! ### Conversions -/

/-- `scalar_to_bigint`. -/
def scalarToBigint (s : C.Scalar) : ℤ := (ofBE (toBeBytes s) : ℕ)

@[simp] theorem scalarToBigint_eq (s : C.Scalar) : scalarToBigint s = (s.val : ℤ) := by
  rw [scalarToBigint, ofBE_toBeBytes]

/-- `biguint_to_scalar`. -/
def biguintToScalar (C : Curve) (b : ℕ) : C.Scalar := fromBeBytesModOrder C (minBE b)

@[simp] theorem biguintToScalar_eq (b : ℕ) : biguintToScalar C b = (b : C.Scalar) := by
  rw [biguintToScalar, fromBeBytesModOrder, ofBE_minBE]

/-- `point_x_coord`: bytes 1 to 33 of the uncompressed encoding. -/
def pointXCoord (P : C.Point) : C.Scalar :=
  fromBeBytesModOrder C (((toBytes false P).drop 1).take 32)

theorem pointXCoord_of_coords {P : C.Point} {x y : ℕ} (h : C.coords P = some (x, y)) :
    pointXCoord P = (x : C.Scalar) := by
  have hx : x < 256 ^ 32 :=
    lt_of_lt_of_le (C.coords_lt P x y h).1 (le_trans C.p_le (by norm_num))
  -- byte 0 is the tag `4`
  have htake : ((toBytes false P).drop 1).take 32 = toBE 32 x := by
    simp only [toBytes, h, List.drop_succ_cons, List.drop_zero]
    rw [List.take_left' (length_toBE 32 x)]
  rw [pointXCoord, htake, fromBeBytesModOrder, ofBE_toBE hx]

/-- The all-zero encoding of the identity reads as zero. -/
@[simp] theorem pointXCoord_zero : pointXCoord (0 : C.Point) = 0 := by
  have htake : ((toBytes false (0 : C.Point)).drop 1).take 32 = List.replicate 32 0 := by
    simp only [toBytes, (C.coords_eq_none 0).mpr rfl]
    rfl
  have h : ofBE (List.replicate 32 0) = 0 := by decide
  rw [pointXCoord, htake, fromBeBytesModOrder, h, Nat.cast_zero]

/-! ### Lagrange coefficients -/

/-- The node of a party index. -/
def node (C : Curve) (i : ℕ) : C.Scalar := ((i + 1 : ℕ) : C.Scalar)

/-- Indices below `2 ^ 16 - 1` have distinct nodes. -/
theorem node_injOn : Set.InjOn (node C) {i | i + 1 < 2 ^ 16} := by
  intro i hi j hj hij
  have hlt : ∀ {k : ℕ}, k + 1 < 2 ^ 16 → k + 1 < C.q := fun hk => lt_trans hk C.two_pow_16_lt
  have h := congrArg ZMod.val hij
  rw [node, node, ZMod.val_cast_of_lt (hlt hi), ZMod.val_cast_of_lt (hlt hj)] at h
  omega

theorem node_ne_zero {i : ℕ} (hi : i + 1 < 2 ^ 16) : node C i ≠ 0 := by
  intro h
  have hv := congrArg ZMod.val h
  rw [node, ZMod.val_cast_of_lt (lt_trans hi C.two_pow_16_lt), ZMod.val_zero] at hv
  omega

/-- The loop of `lagrange_coeff`: numerator and denominator. -/
def lagrangeLoop (C : Curve) (i : ℕ) (signers : List ℕ) : C.Scalar × C.Scalar :=
  signers.foldl (fun acc j =>
    if j = i then acc
    else (acc.1 * node C j, acc.2 * (node C j - node C i))) (1, 1)

/-- `lagrange_coeff`: none when the denominator has no inverse. -/
def lagrangeCoeff (C : Curve) (i : ℕ) (signers : List ℕ) : Option C.Scalar :=
  let nd := lagrangeLoop C i signers
  if nd.2 = 0 then none else some (nd.1 * nd.2⁻¹)

theorem lagrangeLoop_eq (i : ℕ) (signers : List ℕ) :
    lagrangeLoop C i signers =
      (((signers.filter (· ≠ i)).map (node C)).prod,
        ((signers.filter (· ≠ i)).map fun j => node C j - node C i).prod) := by
  -- the loop from any pair of accumulators
  have hgen : ∀ (l : List ℕ) (a b : C.Scalar),
      l.foldl (fun acc j => if j = i then acc
        else (acc.1 * node C j, acc.2 * (node C j - node C i))) (a, b) =
      (a * ((l.filter (· ≠ i)).map (node C)).prod,
        b * ((l.filter (· ≠ i)).map fun j => node C j - node C i).prod) := by
    intro l
    induction l with
    | nil => simp
    | cons j l ih =>
      intro a b
      by_cases hj : j = i
      · simp [hj, ih]
      · simp [hj, ih, mul_assoc]
  simpa [lagrangeLoop] using hgen signers 1 1

/-- The denominator is non-zero for indices below `2 ^ 16 - 1`. -/
theorem lagrangeLoop_den_ne_zero {i : ℕ} {signers : List ℕ} (hi : i + 1 < 2 ^ 16)
    (hs : ∀ j ∈ signers, j + 1 < 2 ^ 16) : (lagrangeLoop C i signers).2 ≠ 0 := by
  rw [lagrangeLoop_eq]
  apply List.prod_ne_zero
  intro hmem
  obtain ⟨j, hj, hzero⟩ := List.mem_map.mp hmem
  have hj' := List.mem_filter.mp hj
  refine absurd (node_injOn (hs j hj'.1) hi (sub_eq_zero.mp hzero)) ?_
  simpa using hj'.2

/-- **Lagrange coefficients.** On a duplicate-free list they are the weights at zero. -/
theorem lagrangeCoeff_eq_weight {i : ℕ} {signers : List ℕ} (hi : i + 1 < 2 ^ 16)
    (hs : ∀ j ∈ signers, j + 1 < 2 ^ 16) (hnd : signers.Nodup) :
    lagrangeCoeff C i signers = some (weight signers.toFinset (node C) i) := by
  -- without duplicates the filtered list is the set without `i`
  have hset : ∀ f : ℕ → C.Scalar,
      ((signers.filter (· ≠ i)).map f).prod = ∏ j ∈ signers.toFinset.erase i, f j := by
    intro f
    rw [← List.prod_toFinset f (hnd.filter _)]
    refine Finset.prod_congr (Finset.ext fun j => ?_) fun _ _ => rfl
    simp [and_comm]
  simp only [lagrangeCoeff, if_neg (lagrangeLoop_den_ne_zero hi hs)]
  rw [lagrangeLoop_eq, hset, hset, weight, ← div_eq_mul_inv, Finset.prod_div_distrib]

/-- The weight of a signer is not zero. -/
theorem weight_node_ne_zero {i : ℕ} {signers : List ℕ} (hs : ∀ j ∈ signers, j + 1 < 2 ^ 16)
    (hi : i ∈ signers) : weight signers.toFinset (node C) i ≠ 0 :=
  weight_ne_zero (node_injOn.mono fun j hj => hs j (List.mem_toFinset.mp hj))
    (fun j hj => node_ne_zero (hs j (List.mem_toFinset.mp hj))) (List.mem_toFinset.mpr hi)

/-- A loop of steps that all succeed. -/
theorem mapM_eq_map {α β : Type} {f : α → Option β} {g : α → β} {l : List α}
    (h : ∀ a ∈ l, f a = some (g a)) : l.mapM f = some (l.map g) := by
  induction l with
  | nil => rfl
  | cons a l ih =>
    rw [List.mapM_cons, h a (by simp), ih fun b hb => h b (by simp [hb])]
    rfl

/-- What a loop that succeeds returns. -/
theorem eq_map_of_mapM {α β : Type} {f : α → Option β} {g : α → β} {l : List α} {bs : List β}
    (h : l.mapM f = some bs) (hg : ∀ a ∈ l, f a = some (g a)) : bs = l.map g :=
  Option.some.inj (h.symm.trans (mapM_eq_map hg))

/-- Conversely, every step of a loop that succeeds has succeeded. -/
theorem exists_map_of_mapM {α β : Type} {f : α → Option β} {l : List α} {bs : List β}
    (h : l.mapM f = some bs) : ∀ a ∈ l, ∃ b, f a = some b := by
  induction l generalizing bs with
  | nil => exact fun a ha => absurd ha List.not_mem_nil
  | cons a l ih =>
    rw [List.mapM_cons] at h
    obtain ⟨b, hb, h⟩ := Option.bind_eq_some_iff.mp h
    obtain ⟨bs', hbs', -⟩ := Option.bind_eq_some_iff.mp h
    intro a' ha'
    rcases List.mem_cons.mp ha' with rfl | ha'
    · exact ⟨b, hb⟩
    · exact ih hbs' a' ha'

/-- What a loop has pushed when every step pushes something. -/
theorem exists_filterMap_of_mapM {α β : Type} [Nonempty β] {f : α → Option (Option β)} {l : List α}
    {bs : List (Option β)} (h : l.mapM f = some bs) (hpush : ∀ a ∈ l, f a ≠ some none) :
    ∃ g : α → β, (∀ a ∈ l, f a = some (some (g a))) ∧ bs.filterMap id = l.map g := by
  have hstep : ∀ a ∈ l, ∃ b, f a = some (some b) := by
    intro a ha
    obtain ⟨o, ho⟩ := exists_map_of_mapM h a ha
    cases o with
    | none => exact absurd ho (hpush a ha)
    | some b => exact ⟨b, ho⟩
  choose! g hg using hstep
  refine ⟨g, hg, ?_⟩
  rw [eq_map_of_mapM h hg, List.filterMap_map]
  simp only [Function.comp_def, id, List.filterMap_eq_map']

/-- The combination of the shares of `signers` with their Lagrange coefficients. -/
def combine (signers : List ℕ) (share : ℕ → C.Scalar) : Option C.Scalar := do
  let terms ← signers.mapM fun i => (lagrangeCoeff C i signers).map (· * share i)
  return terms.sum

theorem combine_eq_sum {signers : List ℕ} (hs : ∀ j ∈ signers, j + 1 < 2 ^ 16)
    (hnd : signers.Nodup) (share : ℕ → C.Scalar) :
    combine signers share =
      some (∑ i ∈ signers.toFinset, weight signers.toFinset (node C) i * share i) := by
  have hmap : signers.mapM (fun i => (lagrangeCoeff C i signers).map (· * share i)) =
      some (signers.map fun i => weight signers.toFinset (node C) i * share i) :=
    mapM_eq_map fun i hi => by
      rw [lagrangeCoeff_eq_weight (hs i hi) hs hnd, Option.map_some]
  simp only [combine, hmap]
  rw [List.sum_toFinset _ hnd]
  rfl

/-- **Reconstruction.** Shares on a polynomial of degree below the number of signers combine
    to its value at zero. -/
theorem combine_eq {signers : List ℕ} (hs : ∀ j ∈ signers, j + 1 < 2 ^ 16) (hnd : signers.Nodup)
    {f : Polynomial C.Scalar} (hf : f.degree < signers.length) :
    combine signers (fun i => f.eval (node C i)) = some (f.eval 0) := by
  rw [combine_eq_sum hs hnd, sum_weight_mul_eval]
  · exact node_injOn.mono fun j hj => hs j (List.mem_toFinset.mp hj)
  · rwa [List.toFinset_card_of_nodup hnd]

/-- **Signing in shares.** An affine function of the shares combines to its value at the
    secret. -/
theorem sum_weight_affine {signers : List ℕ} (hs : ∀ j ∈ signers, j + 1 < 2 ^ 16)
    (hnd : signers.Nodup) (hne : signers ≠ []) {f : Polynomial C.Scalar}
    (hf : f.degree < signers.length) (a z r : C.Scalar) :
    ∑ i ∈ signers.toFinset, weight signers.toFinset (node C) i *
      (a * (z + r * f.eval (node C i))) = a * (z + r * f.eval 0) := by
  have hcard : signers.toFinset.card = signers.length := List.toFinset_card_of_nodup hnd
  have hpos : (0 : WithBot ℕ) < signers.length := by
    exact_mod_cast List.length_pos_iff.mpr hne
  -- the affine function of the shares is itself a sharing, of the same degree
  have heval : ∀ x, (Polynomial.C a * (Polynomial.C z + Polynomial.C r * f)).eval x =
      a * (z + r * f.eval x) := fun x => by simp
  have hdeg : (Polynomial.C a * (Polynomial.C z + Polynomial.C r * f)).degree <
      signers.toFinset.card := by
    have hsmul : ∀ (b : C.Scalar) (g : Polynomial C.Scalar), g.degree < signers.length →
        (Polynomial.C b * g).degree < signers.length := fun b g hg => by
      rw [← Polynomial.smul_eq_C_mul]
      exact lt_of_le_of_lt (Polynomial.degree_smul_le b g) hg
    rw [hcard]
    exact hsmul a _ (lt_of_le_of_lt (Polynomial.degree_add_le _ _)
      (max_lt (lt_of_le_of_lt Polynomial.degree_C_le hpos) (hsmul r f hf)))
  have hsum := sum_weight_mul_eval (v := node C)
    (node_injOn.mono fun j hj => hs j (List.mem_toFinset.mp hj)) hdeg
  simpa only [heval] using hsum

/-- Only the shares of the signers matter. -/
theorem combine_congr {signers : List ℕ} {share share' : ℕ → C.Scalar}
    (h : ∀ i ∈ signers, share i = share' i) : combine signers share = combine signers share' := by
  have hmap : ∀ l : List ℕ, (∀ i ∈ l, share i = share' i) →
      l.mapM (fun i => (lagrangeCoeff C i signers).map (· * share i)) =
        l.mapM fun i => (lagrangeCoeff C i signers).map (· * share' i) := by
    intro l hl
    induction l with
    | nil => rfl
    | cons i l ih =>
      rw [List.mapM_cons, List.mapM_cons, hl i (by simp), ih fun j hj => hl j (by simp [hj])]
  simp only [combine, hmap signers h]

/-- A single signer's combination is its share. -/
@[simp] theorem combine_singleton (i : ℕ) (share : ℕ → C.Scalar) :
    combine [i] share = some (share i) := by
  simp [combine, lagrangeCoeff, lagrangeLoop]

/-! ### Dealing -/

/-- The coefficients of a dealing: the intercept and `t - 1` random draws. -/
def dealing (intercept : C.Scalar) (draw : ℕ → C.Scalar) (t : ℕ) : List C.Scalar :=
  intercept :: (List.range (t - 1)).map draw

/-- The share loop: a running sum and a running power. -/
def shareAt (coeffs : List C.Scalar) (x : C.Scalar) : C.Scalar :=
  (coeffs.foldl (fun acc a => (acc.1 + a * acc.2, acc.2 * x)) ((0 : C.Scalar), (1 : C.Scalar))).1

/-- `evaluate_polynomial`: the commitments to the coefficients and the shares of the parties
    `0 .. n`. -/
def evaluatePolynomial (intercept : C.Scalar) (draw : ℕ → C.Scalar) (t n : ℕ) :
    List C.Point × List C.Scalar :=
  let coeffs := dealing intercept draw t
  (coeffs.map (· • C.generator), (List.range n).map fun j => shareAt coeffs (node C j))

/-- The verification loop over a vector of points. -/
def pointAt (coeffs : List C.Point) (x : C.Scalar) : C.Point :=
  (coeffs.foldl (fun acc a => (acc.1 + acc.2 • a, acc.2 * x)) ((0 : C.Point), (1 : C.Scalar))).1

theorem shareAt_eq (coeffs : List C.Scalar) (x : C.Scalar) : shareAt coeffs x = evalAt x coeffs := by
  have hfun : (fun (acc : C.Scalar × C.Scalar) a => (acc.1 + a * acc.2, acc.2 * x)) =
      fun acc a => (acc.1 + acc.2 • a, acc.2 * x) := by
    funext acc a
    rw [smul_eq_mul, mul_comm a]
  rw [shareAt, hfun, foldl_powers, one_smul, zero_add]

theorem pointAt_eq (coeffs : List C.Point) (x : C.Scalar) : pointAt coeffs x = evalAt x coeffs := by
  rw [pointAt, foldl_powers, one_smul, zero_add]

@[simp] theorem length_dealing (intercept : C.Scalar) (draw : ℕ → C.Scalar) {t : ℕ} (ht : 1 ≤ t) :
    (dealing intercept draw t).length = t := by
  simp only [dealing, List.length_cons, List.length_map, List.length_range]
  omega

@[simp] theorem evalAt_zero_dealing (intercept : C.Scalar) (draw : ℕ → C.Scalar) (t : ℕ) :
    evalAt (0 : C.Scalar) (dealing intercept draw t) = intercept := by
  rw [evalAt_zero]
  rfl

/-- **A dealer's share** is the value of its polynomial at the party's node. -/
theorem evaluatePolynomial_share (intercept : C.Scalar) (draw : ℕ → C.Scalar) {t n j : ℕ}
    (hj : j < n) :
    (evaluatePolynomial intercept draw t n).2[j]? =
      some (evalAt (node C j) (dealing intercept draw t)) := by
  simp [evaluatePolynomial, hj, shareAt_eq]

/-- Every polynomial of degree below `t` can be dealt. -/
theorem evalAt_dealing_coeff {f : Polynomial C.Scalar} {t : ℕ} (ht : 1 ≤ t) (hf : f.degree < t)
    (x : C.Scalar) :
    evalAt x (dealing (f.coeff 0) (fun k => f.coeff (k + 1)) t) = f.eval x := by
  have hpoly : polyOf (dealing (f.coeff 0) (fun k => f.coeff (k + 1)) t) = f := by
    ext k
    rw [coeff_polyOf]
    cases k with
    | zero => rfl
    | succ k =>
      rw [dealing, List.getD_cons_succ, List.getD_eq_getElem?_getD, List.getElem?_map]
      by_cases hk : k < t - 1
      · rw [List.getElem?_range hk, Option.map_some, Option.getD_some]
      · rw [List.getElem?_eq_none (by rw [List.length_range]; omega)]
        refine (Polynomial.coeff_eq_zero_of_degree_lt (lt_of_lt_of_le hf ?_)).symm
        exact_mod_cast (show t ≤ k + 1 by omega)
  rw [← eval_polyOf, hpoly]

/-- What `compute_commitment` hashes. -/
def commitmentInput (sid : List UInt8) (partyIndex : ℕ) (commitments : List C.Point) : List UInt8 :=
  ascii "govis-dkg-commit" ++ sid ++ toBE 2 partyIndex ++ commitments.flatMap (toBytes true)

/-- `compute_commitment`. -/
def computeCommitment (H : Hash) (sid : List UInt8) (partyIndex : ℕ) (commitments : List C.Point) :
    Vector UInt8 32 :=
  H (commitmentInput sid partyIndex commitments)

/-- The encodings of points, one after the other, determine them. -/
theorem flatMap_toBytes_injective :
    Function.Injective fun v : List C.Point => v.flatMap (toBytes true) := by
  intro v w hpts
  simp only at hpts
  induction v generalizing w with
  | nil =>
    cases w with
    | nil => rfl
    | cons Q w =>
      have hlen := congrArg List.length hpts
      simp at hlen
      omega
  | cons P v ih =>
    cases w with
    | nil =>
      have hlen := congrArg List.length hpts
      simp at hlen
    | cons Q w =>
      -- every encoding has 33 bytes, so the first points can be split off
      rw [List.flatMap_cons, List.flatMap_cons] at hpts
      obtain ⟨hPQ, hrest⟩ := List.append_inj hpts (by simp)
      rw [toBytes_true_injective hPQ, ih hrest]

/-- **A commitment's input** determines the committed vector. -/
theorem commitmentInput_injective (sid : List UInt8) (partyIndex : ℕ) :
    Function.Injective (commitmentInput sid partyIndex : List C.Point → List UInt8) :=
  fun _ _ h => flatMap_toBytes_injective (List.append_cancel_left h)

end Govis
