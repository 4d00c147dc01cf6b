import Govis.Shamir.Sharing

namespace Shamir

open Polynomial

/-!
# Masks that two dealers share

Two dealers add up to a mask.  Each of them keeps a dealing without a zero coefficient.

* `exists_forall_ne` — fewer linear equations than scalars, none of them void, leave a vector that
  solves none;
* `exists_split` — a polynomial that vanishes on a set is the sum of two that do, and that move the
  coefficients of two dealings away from zero.
-/

section Avoid

variable {F V ι : Type*} [Field F] [Fintype F] [AddCommGroup V] [Module F V]

/-- **Off the hyperplanes.** -/
theorem exists_forall_ne [DecidableEq ι] (J : Finset ι) (l : ι → V →ₗ[F] F) (c : ι → F)
    (hc : ∀ j ∈ J, l j = 0 → c j ≠ 0) (hJ : J.card < Fintype.card F) :
    ∃ w, ∀ j ∈ J, l j w ≠ c j := by
  classical
  induction J using Finset.induction_on with
  | empty => exact ⟨0, fun j hj => absurd hj (Finset.notMem_empty j)⟩
  | insert j₀ J hj₀ ih =>
    rw [Finset.card_insert_of_notMem hj₀] at hJ
    obtain ⟨w, hw⟩ := ih (fun j hj => hc j (Finset.mem_insert_of_mem hj)) (by omega)
    by_cases heq : l j₀ w = c j₀
    swap
    · exact ⟨w, fun j hj => (Finset.mem_insert.mp hj).elim (fun h => h ▸ heq) (hw j)⟩
    have hne : l j₀ ≠ 0 := by
      intro h0
      refine hc j₀ (Finset.mem_insert_self _ _) h0 ?_
      rw [← heq, h0, LinearMap.zero_apply]
    obtain ⟨u, hu⟩ : ∃ u, l j₀ u ≠ 0 := by
      by_contra hall
      push Not at hall
      exact hne (LinearMap.ext hall)
    -- on the line through `w` in the direction `u` every equation takes one scalar away
    set B : Finset F := insert 0 (J.image fun j => (c j - l j w) / l j u) with hB
    have hcard : B.card < Fintype.card F :=
      lt_of_le_of_lt (le_trans (Finset.card_insert_le _ _)
        (Nat.succ_le_succ Finset.card_image_le)) hJ
    obtain ⟨a, ha⟩ : ∃ a, a ∉ B := by
      by_contra hall
      push Not at hall
      rw [Finset.eq_univ_iff_forall.mpr hall, Finset.card_univ] at hcard
      exact lt_irrefl _ hcard
    rw [hB, Finset.mem_insert, not_or] at ha
    refine ⟨w + a • u, fun j hj => ?_⟩
    rw [map_add, map_smul, smul_eq_mul]
    rcases Finset.mem_insert.mp hj with rfl | hj
    · rw [heq, ne_eq, add_eq_left]
      exact mul_ne_zero ha.1 hu
    · by_cases hju : l j u = 0
      · rw [hju, mul_zero, add_zero]
        exact hw j hj
      · intro h
        refine ha.2 (Finset.mem_image.mpr ⟨j, hj, ?_⟩)
        rw [← h, add_sub_cancel_left, mul_div_cancel_right₀ _ hju]

end Avoid

section Split

variable {F : Type*} [Field F]

/-- The polynomials of degree below `t` that vanish on `S`. -/
def vanishing (S : Finset F) (t : ℕ) : Submodule F F[X] where
  carrier := {f | f.degree < t ∧ ∀ x ∈ S, f.eval x = 0}
  add_mem' := by
    rintro f g ⟨hf, hfS⟩ ⟨hg, hgS⟩
    refine ⟨lt_of_le_of_lt (degree_add_le f g) (max_lt hf hg), fun x hx => ?_⟩
    rw [eval_add, hfS x hx, hgS x hx, add_zero]
  zero_mem' := ⟨by rw [degree_zero]; exact WithBot.bot_lt_coe t, fun x _ => eval_zero⟩
  smul_mem' := by
    rintro a f ⟨hf, hfS⟩
    refine ⟨lt_of_le_of_lt (degree_smul_le a f) hf, fun x hx => ?_⟩
    rw [eval_smul, hfS x hx, smul_zero]

/-- **Splitting a mask.**  The coefficients at the positions `K` of two dealings `c` and `c'`, none of
    which is zero, can take the parts of a mask `e` without becoming zero. -/
theorem exists_split [Fintype F] {S : Finset F} {t : ℕ} {e : F[X]} (he : e ∈ vanishing S t)
    {K : Finset ℕ} (hK : 2 * K.card < Fintype.card F) {c c' : ℕ → F} (hc : ∀ k ∈ K, c k ≠ 0)
    (hc' : ∀ k ∈ K, c' k ≠ 0) :
    ∃ f ∈ vanishing S t, ∃ g ∈ vanishing S t, f + g = e ∧
      ∀ k ∈ K, c k + f.coeff k ≠ 0 ∧ c' k + g.coeff k ≠ 0 := by
  -- the values that a coefficient of the first part must not take
  set bad : ℕ × Bool → F := fun p => if p.2 then -c p.1 else c' p.1 + e.coeff p.1 with hbad
  -- where no part has a coefficient, the mask has none
  have hvoid : ∀ p ∈ K ×ˢ (Finset.univ : Finset Bool),
      (lcoeff F p.1).comp (vanishing S t).subtype = 0 → bad p ≠ 0 := by
    rintro ⟨k, b⟩ hp h0
    have hk := (Finset.mem_product.mp hp).1
    have hek : e.coeff k = 0 := LinearMap.congr_fun h0 ⟨e, he⟩
    cases b with
    | true => exact neg_ne_zero.mpr (hc k hk)
    | false =>
      show c' k + e.coeff k ≠ 0
      rw [hek, add_zero]
      exact hc' k hk
  have hcard : (K ×ˢ (Finset.univ : Finset Bool)).card < Fintype.card F := by
    rw [Finset.card_product, Finset.card_univ, Fintype.card_bool, mul_comm]
    exact hK
  obtain ⟨f, hf⟩ := exists_forall_ne _ _ bad hvoid hcard
  refine ⟨f, f.2, e - f, sub_mem he f.2, add_sub_cancel _ _, fun k hk => ⟨fun h => ?_, fun h => ?_⟩⟩
  · refine hf (k, true) (Finset.mem_product.mpr ⟨hk, Finset.mem_univ _⟩) ?_
    exact eq_neg_of_add_eq_zero_right h
  · refine hf (k, false) (Finset.mem_product.mpr ⟨hk, Finset.mem_univ _⟩) ?_
    rw [coeff_sub, ← add_sub_assoc] at h
    exact (sub_eq_zero.mp h).symm

end Split

end Shamir
