import Mathlib.Algebra.Order.Ring.Abs
import Mathlib.RingTheory.Coprime.Lemmas
import Mathlib.Data.Int.ModEq
import Mathlib.Data.Nat.Fib.Basic
import Mathlib.Tactic.Linarith
import Mathlib.Tactic.Ring

namespace Arith

/-!
# The extended Euclidean algorithm

The loop keeps two pairs `(t, r)` and `(t', r')` with `a * t ≡ r` and `a * t' ≡ r'` modulo `m`,
and divides `r` by `r'` until nothing is left.

* `Bezout` — the invariant, with the bound `|t| * r' + |t'| * r = m` that keeps the
  coefficients below the modulus;
* `EuclidRuns` — the loop without fuel: it ends (`Bezout.exists_runs`), and after few rounds
  (`EuclidRuns.fib_le`);
* `euclidLoop_spec` — the loop ends with the greatest common divisor and its coefficient;
* `IsInverse`, `euclidLoop_isInverse` — one correction by the modulus makes it the inverse.
-/

/-- The loop on `(t, t', r, r')`, for at most `fuel` rounds. -/
def euclidLoop : ℕ → ℤ → ℤ → ℤ → ℤ → ℤ × ℤ
  | 0, t, _, r, _ => (t, r)
  | fuel + 1, t, t', r, r' =>
    if r' = 0 then (t, r)
    else euclidLoop fuel t' (t - r.tdiv r' * t') r' (r - r.tdiv r' * r')

/-- The loop without fuel: from `(t, t', r, r')` it ends after so many rounds with a pair `(t, r)`. -/
inductive EuclidRuns : ℤ → ℤ → ℤ → ℤ → ℕ → ℤ × ℤ → Prop
  | done (t t' r : ℤ) : EuclidRuns t t' r 0 0 (t, r)
  | round {t t' r r' : ℤ} {rounds : ℕ} {out : ℤ × ℤ} (hr' : r' ≠ 0)
      (h : EuclidRuns t' (t - r.tdiv r' * t') r' (r - r.tdiv r' * r') rounds out) :
      EuclidRuns t t' r r' (rounds + 1) out

/-- What holds at the head of the loop. -/
structure Bezout (m a t t' r r' : ℤ) : Prop where
  nonneg : 0 ≤ r'
  lt : r' < r
  left : a * t ≡ r [ZMOD m]
  right : a * t' ≡ r' [ZMOD m]
  gcd : Int.gcd r r' = Int.gcd a m
  bound : |t| * r' + |t'| * r = m
  le : |t| ≤ |t'|
  /-- The coefficients alternate in sign. -/
  signs : t * t' ≤ 0

theorem Bezout.init {m a : ℤ} (ha : 0 ≤ a) (ham : a < m) : Bezout m a 0 1 m a where
  nonneg := ha
  lt := ham
  left := by
    rw [mul_zero]
    exact (Int.modEq_zero_iff_dvd.mpr (dvd_refl m)).symm
  right := by rw [mul_one]
  gcd := Int.gcd_comm m a
  bound := by rw [abs_zero, abs_one, zero_mul, one_mul, zero_add]
  le := by rw [abs_zero, abs_one]; exact zero_le_one
  signs := by rw [zero_mul]

/-- Alternating coefficients do not cancel. -/
theorem abs_sub_mul_of_signs {t t' q : ℤ} (hq : 0 ≤ q) (hsigns : t * t' ≤ 0) :
    |t - q * t'| = |t| + q * |t'| := by
  rw [sub_eq_add_neg, (abs_add_eq_add_abs_iff t (-(q * t'))).mpr, abs_neg, abs_mul, abs_of_nonneg hq]
  rcases mul_nonpos_iff.mp hsigns with ⟨ht, ht'⟩ | ⟨ht, ht'⟩
  · exact .inl ⟨ht, neg_nonneg.mpr (mul_nonpos_of_nonneg_of_nonpos hq ht')⟩
  · exact .inr ⟨ht, neg_nonpos.mpr (mul_nonneg hq ht')⟩

/-- The quotient of a round is not zero. -/
theorem Bezout.one_le_tdiv {m a t t' r r' : ℤ} (h : Bezout m a t t' r r') (hr' : r' ≠ 0) :
    1 ≤ r.tdiv r' := by
  have hpos : 0 < r' := lt_of_le_of_ne h.nonneg (Ne.symm hr')
  rw [Int.tdiv_eq_ediv_of_nonneg (le_of_lt (lt_of_le_of_lt h.nonneg h.lt))]
  exact Int.le_ediv_of_mul_le hpos (by rw [one_mul]; exact le_of_lt h.lt)

/-- **Step lemma.** A round of the loop keeps the invariant. -/
theorem Bezout.step {m a t t' r r' : ℤ} (h : Bezout m a t t' r r') (hr' : r' ≠ 0) :
    Bezout m a t' (t - r.tdiv r' * t') r' (r - r.tdiv r' * r') := by
  have hpos : 0 < r' := lt_of_le_of_ne h.nonneg (Ne.symm hr')
  have hr : 0 ≤ r := le_of_lt (lt_of_le_of_lt h.nonneg h.lt)
  have hmod : r - r.tdiv r' * r' = r % r' := by
    rw [Int.tdiv_eq_ediv_of_nonneg hr, Int.emod_def, mul_comm]
  have hq := h.one_le_tdiv hr'
  -- the signs alternate, so the sizes add up
  have habs := abs_sub_mul_of_signs (le_trans zero_le_one hq) h.signs
  refine ⟨?_, ?_, h.right, ?_, ?_, ?_, ?_, ?_⟩
  · rw [hmod]
    exact Int.emod_nonneg r hr'
  · rw [hmod]
    exact Int.emod_lt_of_pos r hpos
  · have hsub := h.left.sub ((Int.ModEq.refl (r.tdiv r')).mul h.right)
    convert hsub using 1
    ring
  · rw [hmod, Int.gcd_comm, Int.gcd_emod, h.gcd]
  · rw [habs, ← h.bound]
    ring
  · rw [habs]
    nlinarith [abs_nonneg t, abs_nonneg t']
  · nlinarith [h.signs, mul_self_nonneg t']

/-! ### Termination -/

/-- Enough fuel makes no difference. -/
theorem EuclidRuns.euclidLoop_eq {t t' r r' : ℤ} {rounds fuel : ℕ} {out : ℤ × ℤ}
    (h : EuclidRuns t t' r r' rounds out) (hfuel : rounds ≤ fuel) :
    euclidLoop fuel t t' r r' = out := by
  induction h generalizing fuel with
  | done t t' r =>
    cases fuel with
    | zero => rfl
    | succ fuel => rw [euclidLoop, if_pos rfl]
  | @round t t' r r' rounds out hr' _ ih =>
    obtain ⟨fuel, rfl⟩ := Nat.exists_eq_add_of_le' (Nat.one_le_of_lt hfuel)
    rw [euclidLoop, if_neg hr']
    exact ih (Nat.le_of_succ_le_succ hfuel)

/-- **Termination.**  The remainder decreases in every round. -/
theorem Bezout.exists_runs {m a t t' r r' : ℤ} (h : Bezout m a t t' r r') :
    ∃ (rounds : ℕ) (out : ℤ × ℤ), EuclidRuns t t' r r' rounds out ∧ (rounds : ℤ) ≤ r' := by
  induction hk : r'.toNat using Nat.strong_induction_on generalizing t t' r r' with
  | _ k ih =>
    by_cases hr' : r' = 0
    · subst hr'
      exact ⟨0, (t, r), .done t t' r, le_rfl⟩
    · have hstep := h.step hr'
      have hnonneg := h.nonneg
      have hlt := hstep.lt
      have hless : (r - r.tdiv r' * r').toNat < k := by omega
      obtain ⟨rounds, out, hruns, hle⟩ := ih _ hless hstep rfl
      refine ⟨rounds + 1, out, .round hr' hruns, ?_⟩
      push_cast
      omega

/-- **Few rounds.**  The remainders of a loop that takes long are as large as Fibonacci numbers. -/
theorem EuclidRuns.fib_le {m a t t' r r' : ℤ} {rounds : ℕ} {out : ℤ × ℤ}
    (hruns : EuclidRuns t t' r r' rounds out) (h : Bezout m a t t' r r') :
    (Nat.fib rounds : ℤ) ≤ r' ∧ (Nat.fib (rounds + 1) : ℤ) ≤ r := by
  induction hruns with
  | done t t' r =>
    have hlt := h.lt
    refine ⟨le_rfl, ?_⟩
    rw [zero_add, Nat.fib_one, Nat.cast_one]
    exact hlt
  | @round t t' r r' rounds out hr' _ ih =>
    obtain ⟨hrest, hr'fib⟩ := ih (h.step hr')
    refine ⟨hr'fib, ?_⟩
    have hquot : r' ≤ r.tdiv r' * r' := le_mul_of_one_le_left h.nonneg (h.one_le_tdiv hr')
    rw [Nat.fib_add_two]
    push_cast
    linarith

/-! ### The result -/

/-- **The loop** ends with the greatest common divisor and a coefficient of it, no larger than
    the modulus. -/
theorem euclidLoop_spec {m a t t' r r' : ℤ} {fuel : ℕ} (h : Bezout m a t t' r r')
    (hfuel : r' < fuel) :
    a * (euclidLoop fuel t t' r r').1 ≡ (euclidLoop fuel t t' r r').2 [ZMOD m] ∧
      (euclidLoop fuel t t' r r').2 = Int.gcd a m ∧ |(euclidLoop fuel t t' r r').1| ≤ m := by
  induction fuel generalizing t t' r r' with
  | zero => exact absurd hfuel (not_lt.mpr h.nonneg)
  | succ fuel ih =>
    rw [euclidLoop]
    split
    -- nothing is left: `r` is the divisor, and the bound reads `|t'| * r = m`
    · rename_i hr'
      have hgcd := h.gcd
      have hbound := h.bound
      have hlt := h.lt
      subst hr'
      rw [Int.gcd_zero_right] at hgcd
      rw [mul_zero, zero_add] at hbound
      refine ⟨h.left, ?_, ?_⟩
      · rw [← hgcd, Int.natAbs_of_nonneg (le_of_lt hlt)]
      · calc |t| ≤ |t'| := h.le
          _ ≤ |t'| * r := le_mul_of_one_le_right (abs_nonneg t') hlt
          _ = m := hbound
    · rename_i hr'
      have hstep := h.step hr'
      exact ih hstep (by have := hstep.lt; push_cast at hfuel; omega)

/-! ### Inverses -/

/-- The inverse of `a` among the remainders modulo `m`. -/
structure IsInverse (a m x : ℤ) : Prop where
  nonneg : 0 ≤ x
  lt : x < m
  mul_modEq : a * x ≡ 1 [ZMOD m]

/-- **Uniqueness.** -/
theorem IsInverse.unique {a m x y : ℤ} (hx : IsInverse a m x) (hy : IsInverse a m y) : x = y := by
  have hmod : x ≡ y [ZMOD m] :=
    calc x = 1 * x := (one_mul x).symm
      _ ≡ a * y * x [ZMOD m] := (hy.mul_modEq.mul_right x).symm
      _ = a * x * y := by ring
      _ ≡ 1 * y [ZMOD m] := hx.mul_modEq.mul_right y
      _ = y := one_mul y
  have hemod := hmod.eq
  rwa [Int.emod_eq_of_lt hx.nonneg hx.lt, Int.emod_eq_of_lt hy.nonneg hy.lt] at hemod

/-- Zero is no inverse. -/
theorem IsInverse.ne_zero {a m x : ℤ} (hm : 1 < m) (h : IsInverse a m x) : x ≠ 0 := by
  rintro rfl
  have hmod := h.mul_modEq
  rw [mul_zero] at hmod
  have hle := Int.le_of_dvd one_pos (Int.modEq_iff_dvd.mp hmod)
  omega

/-- **One correction** by the modulus is enough. -/
theorem isInverse_of_abs_le {a m t : ℤ} (hm : 1 < m) (hmul : a * t ≡ 1 [ZMOD m]) (hle : |t| ≤ m) :
    IsInverse a m (if t < 0 then t + m else t) := by
  obtain ⟨hneg, hpos⟩ := abs_le.mp hle
  split
  · refine ⟨by omega, by omega, ?_⟩
    rw [mul_add]
    exact (Int.modEq_iff_dvd.mpr ⟨-a, by ring⟩).trans hmul
  · refine ⟨by omega, lt_of_le_of_ne hpos ?_, hmul⟩
    -- the modulus itself is no inverse
    rintro rfl
    have hdvd : t ∣ 1 - a * t := Int.modEq_iff_dvd.mp hmul
    have hone := Int.le_of_dvd one_pos ((dvd_sub_left (dvd_mul_left t a)).mp hdvd)
    omega

/-- What the loop is started with. -/
theorem Bezout.start {m : ℤ} (a : ℤ) (hm : 1 < m) : Bezout m (a.fmod m) 0 1 m (a.fmod m) := by
  have hpos : 0 < m := lt_trans zero_lt_one hm
  rw [Int.fmod_eq_emod_of_nonneg a (le_of_lt hpos)]
  exact .init (Int.emod_nonneg a (ne_of_gt hpos)) (Int.emod_lt_of_pos a hpos)

/-- Its divisor is that of `a`. -/
theorem euclidLoop_start_gcd {m : ℤ} (a : ℤ) (hm : 1 < m) :
    (euclidLoop m.toNat 0 1 m (a.fmod m)).2 = Int.gcd a m := by
  have h := Bezout.start a hm
  have hfuel : a.fmod m < (m.toNat : ℕ) := by
    have hlt := h.lt
    omega
  obtain ⟨-, hgcd, -⟩ := euclidLoop_spec h hfuel
  rw [hgcd, Int.fmod_eq_emod_of_nonneg a (by omega), Int.gcd_emod]

/-- **Modular inverses.**  Started on `a` modulo `m`, the loop finds the inverse of `a` if there is
    one. -/
theorem euclidLoop_isInverse {m a : ℤ} (hm : 1 < m) (hcop : Int.gcd a m = 1) :
    let t := (euclidLoop m.toNat 0 1 m (a.fmod m)).1
    IsInverse a m (if t < 0 then t + m else t) := by
  have h := Bezout.start a hm
  have hfuel : a.fmod m < (m.toNat : ℕ) := by
    have hlt := h.lt
    omega
  obtain ⟨hmul, -, hle⟩ := euclidLoop_spec h hfuel
  rw [euclidLoop_start_gcd a hm, hcop, Nat.cast_one] at hmul
  have hred : a.fmod m ≡ a [ZMOD m] := by
    rw [Int.fmod_eq_emod_of_nonneg a (by omega)]
    exact Int.mod_modEq a m
  exact isInverse_of_abs_le hm ((hred.symm.mul_right _).trans hmul) hle

end Arith
