import Govis.PaillierZkComplete

namespace Govis

open Arith

/-!
# Modular inverses

`modinv` and `modinv_internal` run the same loop.  The first one looks at the divisor that is left;
the second one takes the coefficient for the inverse in any case.

* `modinv_iff_isInverse` — the loop of both ends, and what they return.
-/

/-- The loop that both functions start ends, after few rounds, and the fuel of the model is enough
    for it. -/
theorem exists_runs_modinv (a : ℤ) {n : ℤ} (hn : 1 < n) : ∃ (rounds : ℕ) (t r : ℤ),
    EuclidRuns 0 1 n (a.fmod n) rounds (t, r) ∧ (Nat.fib (rounds + 1) : ℤ) ≤ n ∧
      modinv a n = (if r > 1 then 0 else if t < 0 then t + n else t) ∧
      modinvInternal a n = if t < 0 then t + n else t := by
  have hstart := Bezout.start a hn
  obtain ⟨rounds, ⟨t, r⟩, hruns, hrounds⟩ := hstart.exists_runs
  have hfuel : rounds ≤ n.toNat := by
    have hlt := hstart.lt
    omega
  have hloop := hruns.euclidLoop_eq hfuel
  refine ⟨rounds, t, r, hruns, (hruns.fib_le hstart).2, ?_, ?_⟩
  · simp only [modinv, hloop]
  · simp only [modinvInternal, hloop]

/-- **Inverses.**  The loop of `modinv` and `modinv_internal` ends on every input.  For coprime numbers
    `modinv` returns the inverse and `modinv_internal` the same; for others `modinv` returns zero. -/
theorem modinv_iff_isInverse (a : ℤ) {n : ℤ} (hn : 1 < n) :
    (∃ (rounds : ℕ) (t r : ℤ),
      EuclidRuns 0 1 n (a.fmod n) rounds (t, r) ∧ (Nat.fib (rounds + 1) : ℤ) ≤ n ∧
        modinv a n = (if r > 1 then 0 else if t < 0 then t + n else t) ∧
        modinvInternal a n = if t < 0 then t + n else t) ∧
    (Int.gcd a n = 1 → (∀ x, (0 ≤ x ∧ x < n ∧ a * x ≡ 1 [ZMOD n]) ↔ x = modinv a n) ∧
      modinvInternal a n = modinv a n) ∧
    (Int.gcd a n ≠ 1 → modinv a n = 0) := by
  refine ⟨exists_runs_modinv a hn, fun hcop => ?_, modinv_eq_zero hn⟩
  have hinv := isInverse_modinv hn hcop
  refine ⟨fun x => ⟨?_, ?_⟩, (isInverse_modinvInternal hn hcop).unique hinv⟩
  · rintro ⟨hnonneg, hlt, hmul⟩
    exact IsInverse.unique ⟨hnonneg, hlt, hmul⟩ hinv
  · rintro rfl
    exact ⟨hinv.nonneg, hinv.lt, hinv.mul_modEq⟩

/-- A number that has an inverse modulo `10`, and one that has none. -/
theorem modinv_iff_isInverse_ten :
    ((∀ x : ℤ, (0 ≤ x ∧ x < 10 ∧ -3 * x ≡ 1 [ZMOD 10]) ↔ x = modinv (-3) 10) ∧
      modinvInternal (-3) 10 = modinv (-3) 10) ∧
    modinv 4 10 = 0 :=
  ⟨(modinv_iff_isInverse (-3) (by norm_num)).2.1 (by decide),
    (modinv_iff_isInverse 4 (by norm_num)).2.2 (by decide)⟩

end Govis
