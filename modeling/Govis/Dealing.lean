import Govis.Feldman
import Govis.SmallCurve

namespace Govis

open Curve Shamir Polynomial

/-!
# Dealing and refreshing without a network

The dealings of `core.rs`, which a caller distributes on its own: a key generation by
`generate_dkg_shares`, offsets by `generate_refresh_shares`, and `update_private_share` at the party
that receives them.

* `generateSharesInternal_eq` — up to its assertion it deals what `evaluate_polynomial` deals;
* `DkgShares.Deals` — the vector commits to a polynomial and the shares are its values;
* `updatePrivateShare_perm` — the order of the offsets does not matter;
* `refreshes_keep_key` — after any number of refreshes, applied in any order, the shares verify
  against the added points and recover the secret of the key generation.
-/

variable {C : Curve}

/-- `DkgShares`: the commitments to a polynomial and one share for each party. -/
structure DkgShares (C : Curve) where
  commitments : List C.Point
  secretShares : List C.Scalar

/-- `RefreshShares`: the same data, for the offsets of a refresh. -/
abbrev RefreshShares (C : Curve) := DkgShares C

/-- `generate_shares_internal`: none when the assertion fails. -/
def generateSharesInternal (intercept : C.Scalar) (threshold totalParties : ℕ)
    (draw : ℕ → C.Scalar) : Option (DkgShares C) :=
  if threshold ≤ totalParties then
    let coeffs := dealing intercept draw threshold
    some {
      commitments := coeffs.map (· • C.generator)
      secretShares := (List.range' 1 totalParties).map fun i : ℕ => shareAt coeffs i }
  else none

/-- `generate_dkg_shares`: the first draw is the intercept. -/
def generateDkgShares (t n : ℕ) (rng : ℕ → C.Scalar) : Option (DkgShares C) :=
  generateSharesInternal (rng 0) t n fun k => rng (k + 1)

/-- `generate_refresh_shares`: the intercept is zero. -/
def generateRefreshShares (t n : ℕ) (rng : ℕ → C.Scalar) : Option (RefreshShares C) :=
  generateSharesInternal 0 t n rng

/-- `update_private_share`. -/
def updatePrivateShare (oldShare : C.Scalar) (receivedOffsets : List C.Scalar) : C.Scalar :=
  receivedOffsets.foldl (· + ·) oldShare

@[simp] theorem updatePrivateShare_nil (s : C.Scalar) : updatePrivateShare s [] = s := rfl

theorem updatePrivateShare_eq (s : C.Scalar) (offsets : List C.Scalar) :
    updatePrivateShare s offsets = s + offsets.sum := by
  unfold updatePrivateShare
  induction offsets generalizing s with
  | nil => simp
  | cons a l ih => simp [ih, add_assoc]

/-- The order of the offsets does not matter. -/
theorem updatePrivateShare_perm {s : C.Scalar} {l l' : List C.Scalar} (h : l.Perm l') :
    updatePrivateShare s l = updatePrivateShare s l' := by
  simp only [updatePrivateShare_eq, h.sum_eq]

/-- **The two dealers agree.**  The parties `1 ..= n` of the one are the parties `0 .. n` of the
    other. -/
theorem generateSharesInternal_eq (intercept : C.Scalar) (draw : ℕ → C.Scalar) {t n : ℕ}
    (htn : t ≤ n) :
    generateSharesInternal intercept t n draw =
      some ⟨(evaluatePolynomial intercept draw t n).1,
        (evaluatePolynomial intercept draw t n).2⟩ := by
  simp only [generateSharesInternal, if_pos htn, evaluatePolynomial, List.range'_eq_map_range,
    List.map_map]
  refine congrArg some (congrArg (DkgShares.mk _) (List.map_congr_left fun j _ => ?_))
  simp [node, add_comm]

/-! ### What a dealing is -/

/-- The vector commits to a polynomial of degree below `t`, and the shares are its values at the
    nodes of `n` parties. -/
structure DkgShares.Deals (d : DkgShares C) (t n : ℕ) (f : C.Scalar[X]) : Prop where
  degree_lt : f.degree < t
  length_commitments : d.commitments.length = t
  commits : ∀ x, evalAt x d.commitments = f.eval x • C.generator
  length_shares : d.secretShares.length = n
  share_eq : ∀ i < n, d.secretShares[i]? = some (f.eval (node C i))

/-- **Every dealing** deals the polynomial of its coefficients. -/
theorem deals_of_generate {intercept : C.Scalar} {draw : ℕ → C.Scalar} {t n : ℕ} {d : DkgShares C}
    (ht : 1 ≤ t) (h : generateSharesInternal intercept t n draw = some d) :
    ∃ f : C.Scalar[X], f.eval 0 = intercept ∧ d.Deals t n f := by
  have htn : t ≤ n := by
    by_contra hlt
    simp [generateSharesInternal, hlt] at h
  rw [generateSharesInternal_eq _ _ htn, Option.some.injEq] at h
  subst h
  refine ⟨polyOf (dealing intercept draw t), ?_, ?_, ?_, fun x => ?_, ?_, fun i hi => ?_⟩
  · simp [eval_polyOf]
  · apply (degree_lt_iff_coeff_zero _ _).mpr
    intro k hk
    have hlen : (dealing intercept draw t).length ≤ k := by simpa [ht] using hk
    rw [coeff_polyOf, List.getD_eq_getElem?_getD, List.getElem?_eq_none hlen, Option.getD_none]
  · simp [evaluatePolynomial, ht]
  · rw [eval_polyOf]
    exact evalAt_map_smul x _ _
  · simp [evaluatePolynomial]
  · rw [eval_polyOf, evaluatePolynomial_share _ _ hi]

/-! ### Refreshing -/

/-- The points after a dealing: those of the dealing are added, position by position. -/
def addCommitments (commitments : List C.Point) (r : RefreshShares C) : List C.Point :=
  List.zipWith (· + ·) commitments r.commitments

/-- The share of party `i` once it has applied its offsets of some dealings.  None when a dealing
    has no share for it. -/
def refreshedShare (i : ℕ) (dkg : DkgShares C) (applied : List (RefreshShares C)) :
    Option C.Scalar := do
  let old ← dkg.secretShares[i]?
  let offsets ← applied.mapM (·.secretShares[i]?)
  return updatePrivateShare old offsets

theorem evalAt_zipWith_add {F M : Type*} [CommRing F] [AddCommGroup M] [Module F M] (x : F)
    {v w : List M} (h : v.length = w.length) :
    evalAt x (List.zipWith (· + ·) v w) = evalAt x v + evalAt x w := by
  induction v generalizing w with
  | nil => simp_all [List.length_eq_zero_iff.mp h.symm]
  | cons a v ih =>
    cases w with
    | nil => simp at h
    | cons b w =>
      simp only [List.length_cons, Nat.add_right_cancel_iff] at h
      simp only [List.zipWith_cons_cons, evalAt_cons, ih h, smul_add]
      abel

/-- The polynomials of a list of dealings. -/
noncomputable def offsetPoly (f : RefreshShares C → C.Scalar[X]) (rs : List (RefreshShares C)) :
    C.Scalar[X] :=
  (rs.map f).sum

theorem degree_offsetPoly {f : RefreshShares C → C.Scalar[X]} {t : ℕ}
    {rs : List (RefreshShares C)} (h : ∀ r ∈ rs, (f r).degree < t) :
    (offsetPoly f rs).degree < t := by
  unfold offsetPoly
  induction rs with
  | nil => simp
  | cons r rs ih =>
    rw [List.map_cons, List.sum_cons]
    exact lt_of_le_of_lt (degree_add_le _ _)
      (max_lt (h r (by simp)) (ih fun r' hr' => h r' (by simp [hr'])))

theorem eval_offsetPoly (f : RefreshShares C → C.Scalar[X]) (rs : List (RefreshShares C))
    (x : C.Scalar) : (offsetPoly f rs).eval x = (rs.map fun r => (f r).eval x).sum := by
  unfold offsetPoly
  induction rs with
  | nil => simp
  | cons r rs ih => simp [ih]

/-- **Run lemma.** The added points commit to the sum of the polynomials. -/
theorem evalAt_foldl_addCommitments {f : RefreshShares C → C.Scalar[X]} {t n : ℕ} {x : C.Scalar}
    {rs : List (RefreshShares C)} (hrs : ∀ r ∈ rs, r.Deals t n (f r)) {v : List C.Point}
    (hv : v.length = t) :
    (rs.foldl addCommitments v).length = t ∧
      evalAt x (rs.foldl addCommitments v) = evalAt x v + (offsetPoly f rs).eval x • C.generator := by
  induction rs generalizing v with
  | nil => simp [hv, offsetPoly]
  | cons r rs ih =>
    have hr := hrs r (by simp)
    -- one dealing adds its polynomial
    have hlen : v.length = r.commitments.length := hv.trans hr.length_commitments.symm
    have hstep : (addCommitments v r).length = t := by
      simp [addCommitments, hv, hr.length_commitments]
    obtain ⟨hlast, heval⟩ := ih (fun r' hr' => hrs r' (by simp [hr'])) hstep
    refine ⟨hlast, ?_⟩
    rw [List.foldl_cons, heval, addCommitments, evalAt_zipWith_add x hlen, hr.commits, add_assoc,
      ← add_smul, ← eval_add]
    rfl

/-- The share of a party that has applied some dealings. -/
theorem refreshedShare_eq {g : C.Scalar[X]} {f : RefreshShares C → C.Scalar[X]} {t n : ℕ}
    {dkg : DkgShares C} {rs : List (RefreshShares C)} (hdkg : dkg.Deals t n g)
    (hrs : ∀ r ∈ rs, r.Deals t n (f r)) {i : ℕ} (hi : i < n) :
    refreshedShare i dkg rs = some ((g + offsetPoly f rs).eval (node C i)) := by
  have hoffsets : rs.mapM (·.secretShares[i]?) = some (rs.map fun r => (f r).eval (node C i)) :=
    mapM_eq_map fun r hr => (hrs r hr).share_eq i hi
  simp [refreshedShare, hdkg.share_eq i hi, hoffsets, updatePrivateShare_eq, eval_offsetPoly]

/-- **Refreshes keep the key.**  A key is dealt, and any number of refreshes after it, each with its
    own randomness.  Every party applies their offsets in an order of its own.  Then each party
    obtains a share, the first of the added points is still that of the key generation, every
    share verifies against the added points, and any `t` parties recover the secret. -/
theorem refreshes_keep_key {t n : ℕ} (ht : 1 ≤ t) (hn : n < 2 ^ 16) {rng : ℕ → C.Scalar}
    {dkg : DkgShares C} (hdkg : generateDkgShares t n rng = some dkg)
    {rs : List (RefreshShares C)} (hrs : ∀ r ∈ rs, ∃ rng', generateRefreshShares t n rng' = some r)
    {applied : ℕ → List (RefreshShares C)} (happlied : ∀ i < n, (applied i).Perm rs) :
    ∃ share : ℕ → C.Scalar,
      (∀ i < n, refreshedShare i dkg (applied i) = some (share i)) ∧
      (rs.foldl addCommitments dkg.commitments).head? = dkg.commitments.head? ∧
      (∀ i < n, share i • C.generator =
        pointAt (rs.foldl addCommitments dkg.commitments) (node C i)) ∧
      Recovers t (Finset.range n) share (rng 0) := by
  obtain ⟨g, hg0, hg⟩ := deals_of_generate ht hdkg
  have hpoly : ∀ r : RefreshShares C, ∃ f : C.Scalar[X],
      r ∈ rs → f.eval 0 = 0 ∧ r.Deals t n f := by
    intro r
    by_cases hr : r ∈ rs
    · obtain ⟨rng', hrng⟩ := hrs r hr
      obtain ⟨f, hf0, hf⟩ := deals_of_generate ht hrng
      exact ⟨f, fun _ => ⟨hf0, hf⟩⟩
    · exact ⟨0, fun h => absurd h hr⟩
  choose f hf using hpoly
  have hdeals : ∀ r ∈ rs, r.Deals t n (f r) := fun r hr => (hf r hr).2
  -- the offsets share zero
  have hzero : (offsetPoly f rs).eval 0 = 0 := by
    rw [eval_offsetPoly]
    exact List.sum_eq_zero fun y hy => by
      obtain ⟨r, hr, rfl⟩ := List.mem_map.mp hy
      exact (hf r hr).1
  obtain ⟨hlen, -⟩ := evalAt_foldl_addCommitments (x := (0 : C.Scalar)) hdeals hg.length_commitments
  have hvec : ∀ x, evalAt x (rs.foldl addCommitments dkg.commitments) =
      (g + offsetPoly f rs).eval x • C.generator := by
    intro x
    rw [(evalAt_foldl_addCommitments hdeals hg.length_commitments).2, hg.commits, eval_add, add_smul]
  refine ⟨fun i => (g + offsetPoly f rs).eval (node C i), fun i hi => ?_, ?_, fun i _ => ?_, ?_⟩
  · -- the order at a party does not change its sum
    have happly : ∀ r ∈ applied i, r.Deals t n (f r) := fun r hr =>
      hdeals r ((happlied i hi).mem_iff.mp hr)
    rw [refreshedShare_eq hg happly hi, offsetPoly, offsetPoly, ((happlied i hi).map f).sum_eq]
  · have hhead := hvec 0
    rw [eval_add, hzero, add_zero, ← hg.commits, evalAt_zero, evalAt_zero] at hhead
    -- both vectors have a first point
    have hfirst : ∀ v : List C.Point, v.length = t → v.head? = some (v.headD 0) := by
      intro v hv
      cases v with
      | nil => simp at hv; omega
      | cons P v => rfl
    rw [hfirst _ hlen, hfirst _ hg.length_commitments, hhead]
  · rw [pointAt_eq, hvec]
  · intro signers hnd hsigners hlen
    have hdeg : (g + offsetPoly f rs).degree < signers.length :=
      lt_of_lt_of_le (lt_of_le_of_lt (degree_add_le _ _)
        (max_lt hg.degree_lt (degree_offsetPoly fun r hr => (hdeals r hr).degree_lt)))
        (by exact_mod_cast hlen)
    rw [combine_eq (fun i hi => ?_) hnd hdeg, eval_add, hzero, add_zero, hg0]
    have := Finset.mem_range.mp (hsigners i hi)
    omega

/-- Three parties with threshold two apply two refreshes, the last party in the other order. -/
theorem refreshes_keep_key_three :
    ∃ (dkg r r' : DkgShares smallCurve) (share : ℕ → smallCurve.Scalar),
      generateDkgShares 2 3 (fun _ => 5) = some dkg ∧
      (∀ i < 3, refreshedShare i dkg (if i = 2 then [r', r] else [r, r']) = some (share i)) ∧
      Recovers 2 (Finset.range 3) share 5 := by
  obtain ⟨dkg, hdkg⟩ : ∃ d, generateDkgShares 2 3 (fun _ => (5 : smallCurve.Scalar)) = some d :=
    ⟨_, generateSharesInternal_eq _ _ (show 2 ≤ 3 by decide)⟩
  have hdeal : ∀ c : smallCurve.Scalar, ∃ r, generateRefreshShares 2 3 (fun _ => c) = some r :=
    fun c => ⟨_, generateSharesInternal_eq _ _ (show 2 ≤ 3 by decide)⟩
  obtain ⟨r, hr⟩ := hdeal 7
  obtain ⟨r', hr'⟩ := hdeal 8
  have hrs : ∀ d ∈ [r, r'], ∃ rng', generateRefreshShares 2 3 rng' = some d := by
    intro d hd
    rcases List.mem_pair.mp hd with rfl | rfl
    · exact ⟨_, hr⟩
    · exact ⟨_, hr'⟩
  have happlied : ∀ i < 3, (if i = 2 then [r', r] else [r, r']).Perm [r, r'] := by
    intro i _
    split
    · exact List.Perm.swap r r' []
    · exact List.Perm.refl _
  obtain ⟨share, hshare, -, -, hrec⟩ := refreshes_keep_key (show 1 ≤ 2 by decide)
    (show 3 < 2 ^ 16 by decide) hdkg hrs happlied
  exact ⟨dkg, r, r', share, hdkg, hshare, hrec⟩

end Govis
