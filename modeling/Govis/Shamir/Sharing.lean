import Mathlib.LinearAlgebra.Lagrange

namespace Shamir

open Polynomial

/-!
# Polynomial sharing

A secret is shared by a polynomial `f` with `f(0)` the secret; the share at the node `x`
is `f(x)`.  A dealing may also be published in the exponent, as the list `aₖ • g`.

* `evalAt x l` — the value at `x` of the polynomial with coefficient list `l`, for
  coefficients in any module: scalars, or group elements;
* `polyOf l` — the polynomial itself, for scalar coefficients;
* `weight S v i` — the Lagrange weight at zero of node `i` among the nodes `S`;
* `sum_weight_mul_eval` — the weights recover the secret from any set of nodes larger than
  the degree;
* `exists_eval_eq`, `eq_of_eval_zero_of_eval` — as many values as coefficients can be prescribed, and
  determine the polynomial;
* `exists_mask` — a polynomial that moves the secret and none of few shares.
-/

section EvalAt

variable {F M : Type*} [CommRing F] [AddCommGroup M] [Module F M]

/-- The value at `x` of the polynomial with coefficients `l`, lowest degree first. -/
def evalAt (x : F) : List M → M
  | [] => 0
  | a :: l => a + x • evalAt x l

@[simp] theorem evalAt_nil (x : F) : evalAt x ([] : List M) = 0 := rfl

@[simp] theorem evalAt_cons (x : F) (a : M) (l : List M) :
    evalAt x (a :: l) = a + x • evalAt x l := rfl

/-- The value at zero is the constant coefficient. -/
theorem evalAt_zero (l : List M) : evalAt (0 : F) l = l.headD 0 := by
  cases l with
  | nil => rfl
  | cons a l => simp

/-- **Evaluation in the exponent.** -/
theorem evalAt_map_smul (x : F) (l : List F) (g : M) :
    evalAt x (l.map (· • g)) = evalAt x l • g := by
  induction l with
  | nil => simp
  | cons a l ih => rw [List.map_cons, evalAt_cons, evalAt_cons, ih, add_smul, smul_eq_mul, mul_smul]

/-- The evaluation loop: a running sum and a running power of `x`. -/
theorem foldl_powers (x p : F) (m : M) (l : List M) :
    l.foldl (fun (acc : M × F) a => (acc.1 + acc.2 • a, acc.2 * x)) (m, p)
      = (m + p • evalAt x l, p * x ^ l.length) := by
  induction l generalizing m p with
  | nil => simp
  | cons a l ih =>
    rw [List.foldl_cons, ih, evalAt_cons, smul_add, smul_smul, add_assoc, List.length_cons,
      pow_succ', mul_assoc]

end EvalAt

section PolyOf

variable {F : Type*} [CommRing F]

/-- The polynomial with coefficients `l`, lowest degree first. -/
noncomputable def polyOf : List F → F[X]
  | [] => 0
  | a :: l => C a + X * polyOf l

/-- `evalAt` on scalars is polynomial evaluation. -/
theorem eval_polyOf (x : F) (l : List F) : (polyOf l).eval x = evalAt x l := by
  induction l with
  | nil => simp [polyOf]
  | cons a l ih => simp [polyOf, ih]

theorem coeff_polyOf (l : List F) (k : ℕ) : (polyOf l).coeff k = l.getD k 0 := by
  induction l generalizing k with
  | nil => simp [polyOf]
  | cons a l ih =>
    cases k with
    | zero => simp [polyOf]
    | succ k => simp [polyOf, ih, coeff_C_succ, coeff_X_mul]

end PolyOf

/-! ### Interpolation at zero -/

section Interpolation

variable {F ι : Type*} [Field F] [DecidableEq ι] {S : Finset ι} {v : ι → F}

/-- The weight at zero of node `i` among the nodes `S`. -/
def weight (S : Finset ι) (v : ι → F) (i : ι) : F :=
  ∏ j ∈ S.erase i, v j / (v j - v i)

/-- The weight is the value at zero of the Lagrange basis polynomial. -/
theorem weight_eq_eval_basis (S : Finset ι) (v : ι → F) (i : ι) :
    weight S v i = (Lagrange.basis S v i).eval 0 := by
  rw [weight, Lagrange.basis, eval_prod]
  apply Finset.prod_congr rfl
  intro j _
  rw [Lagrange.basisDivisor, eval_mul, eval_C, eval_sub, eval_X, eval_C, zero_sub, mul_neg,
    ← neg_mul, ← inv_neg, neg_sub, div_eq_mul_inv, mul_comm]

/-- **Interpolation at zero.** The weights recover `f(0)` from the values of `f` at more nodes
    than its degree. -/
theorem sum_weight_mul_eval (hv : Set.InjOn v S) {f : F[X]} (hf : f.degree < S.card) :
    ∑ i ∈ S, weight S v i * f.eval (v i) = f.eval 0 := by
  -- a polynomial of low degree is its own interpolant
  conv_rhs => rw [Lagrange.eq_interpolate hv hf, Lagrange.interpolate_apply, eval_finsetSum]
  apply Finset.sum_congr rfl
  intro i _
  rw [weight_eq_eval_basis, eval_mul, eval_C, mul_comm]

/-- **Threshold.** If a polynomial of degree at most the number of nodes, none of them zero, is
    still recovered at zero by them, its degree is below their number. -/
theorem degree_lt_of_sum_weight (hv : Set.InjOn v S) (h0 : ∀ i ∈ S, v i ≠ 0) {f : F[X]}
    (hf : f.degree ≤ S.card) (hsum : ∑ i ∈ S, weight S v i * f.eval (v i) = f.eval 0) :
    f.degree < S.card := by
  -- subtract the multiple of the nodal polynomial that cancels the top coefficient
  set c := f.coeff S.card with hc
  set g := f - C c * Lagrange.nodal S v with hg
  have hnodal : (Lagrange.nodal S v).coeff S.card = 1 := by
    have hmonic := Lagrange.nodal_monic (s := S) (v := v)
    rwa [Polynomial.Monic, leadingCoeff, Lagrange.natDegree_nodal] at hmonic
  have hgdeg : g.degree < S.card := by
    apply (degree_lt_iff_coeff_zero _ _).mpr
    intro m hm
    rcases Nat.eq_or_lt_of_le hm with rfl | hlt
    · rw [hg, coeff_sub, coeff_C_mul, hnodal, mul_one, sub_self]
    · have h1 : f.coeff m = 0 := coeff_eq_zero_of_degree_lt (lt_of_le_of_lt hf (by exact_mod_cast hlt))
      have h2 : (Lagrange.nodal S v).coeff m = 0 :=
        coeff_eq_zero_of_degree_lt (by rw [Lagrange.degree_nodal]; exact_mod_cast hlt)
      rw [hg, coeff_sub, coeff_C_mul, h1, h2, mul_zero, sub_self]
  have hnode : ∀ i ∈ S, g.eval (v i) = f.eval (v i) := by
    intro i hi
    rw [hg, eval_sub, eval_mul, Lagrange.eval_nodal_at_node hi, mul_zero, sub_zero]
  have hzero : c * (Lagrange.nodal S v).eval 0 = 0 := by
    have hgsum := sum_weight_mul_eval hv hgdeg
    rw [Finset.sum_congr rfl fun i hi => by rw [hnode i hi], hsum, hg, eval_sub, eval_mul, eval_C]
      at hgsum
    exact sub_eq_self.mp hgsum.symm
  have hne : (Lagrange.nodal S v).eval 0 ≠ 0 :=
    Lagrange.eval_nodal_not_at_node fun i hi h => h0 i hi h.symm
  have hc0 : c = 0 := (mul_eq_zero.mp hzero).resolve_right hne
  rw [hg, hc0, C_0, zero_mul, sub_zero] at hgdeg
  exact hgdeg

/-- A polynomial takes any value at one node and vanishes at others, of which there are as many as its
    degree. -/
theorem exists_eval_eq {j : ι} (hj : j ∉ S) (hv : Set.InjOn v (insert j S : Finset ι)) (a : F) :
    ∃ f : F[X], f.degree < (S.card + 1 : ℕ) ∧ f.eval (v j) = a ∧ ∀ i ∈ S, f.eval (v i) = 0 := by
  refine ⟨Lagrange.interpolate (insert j S) v fun i => if i = j then a else 0, ?_, ?_, fun i hi => ?_⟩
  · have hdeg := Lagrange.degree_interpolate_lt (fun i => if i = j then a else 0) hv
    rwa [Finset.card_insert_of_notMem hj] at hdeg
  · rw [Lagrange.eval_interpolate_at_node _ hv (Finset.mem_insert_self j S), if_pos rfl]
  · rw [Lagrange.eval_interpolate_at_node _ hv (Finset.mem_insert_of_mem hi), if_neg]
    exact fun h => hj (h ▸ hi)

omit [DecidableEq ι] in
/-- Zero and nodes other than zero determine a polynomial of a degree up to their number. -/
theorem eq_of_eval_zero_of_eval (hv : Set.InjOn v S) (h0 : ∀ i ∈ S, v i ≠ 0) {f g : F[X]}
    (hf : f.degree < (S.card + 1 : ℕ)) (hg : g.degree < (S.card + 1 : ℕ))
    (hzero : f.eval 0 = g.eval 0) (heq : ∀ i ∈ S, f.eval (v i) = g.eval (v i)) : f = g := by
  classical
  have hmem : (0 : F) ∉ S.image v := by
    rintro h
    obtain ⟨i, hi, hvi⟩ := Finset.mem_image.mp h
    exact h0 i hi hvi
  have hcard : (insert 0 (S.image v)).card = S.card + 1 := by
    rw [Finset.card_insert_of_notMem hmem, Finset.card_image_of_injOn hv]
  refine eq_of_degrees_lt_of_eval_finset_eq (insert 0 (S.image v)) (by rwa [hcard])
    (by rwa [hcard]) fun x hx => ?_
  rcases Finset.mem_insert.mp hx with rfl | hx
  · exact hzero
  · obtain ⟨i, hi, rfl⟩ := Finset.mem_image.mp hx
    exact heq i hi

omit [DecidableEq ι] in
/-- **Masks.** A polynomial takes any value at zero and vanishes at given nodes other than zero, of
    which there are as many as its degree. -/
theorem exists_mask (h0 : ∀ i ∈ S, v i ≠ 0) (a : F) :
    ∃ f : F[X], f.degree < (S.card + 1 : ℕ) ∧ f.eval 0 = a ∧ ∀ i ∈ S, f.eval (v i) = 0 := by
  have hne : (Lagrange.nodal S v).eval 0 ≠ 0 :=
    Lagrange.eval_nodal_not_at_node fun i hi h => h0 i hi h.symm
  refine ⟨C (a / (Lagrange.nodal S v).eval 0) * Lagrange.nodal S v, ?_, ?_, fun i hi => ?_⟩
  · rw [C_mul']
    refine lt_of_le_of_lt (degree_smul_le _ _) ?_
    rw [Lagrange.degree_nodal]
    exact_mod_cast Nat.lt_succ_self _
  · rw [eval_mul, eval_C, div_mul_cancel₀ a hne]
  · rw [eval_mul, Lagrange.eval_nodal_at_node hi, mul_zero]

/-- The weight of a node is non-zero when no node is. -/
theorem weight_ne_zero (hv : Set.InjOn v S) (h0 : ∀ i ∈ S, v i ≠ 0) {i : ι} (hi : i ∈ S) :
    weight S v i ≠ 0 := by
  refine Finset.prod_ne_zero_iff.mpr fun j hj => div_ne_zero (h0 j (Finset.mem_of_mem_erase hj)) ?_
  intro heq
  exact Finset.ne_of_mem_erase hj (hv (Finset.mem_of_mem_erase hj) hi (sub_eq_zero.mp heq))

end Interpolation

end Shamir
