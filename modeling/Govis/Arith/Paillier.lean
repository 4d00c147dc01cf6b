import Mathlib.FieldTheory.Finite.Basic
import Mathlib.NumberTheory.Basic

namespace Arith

/-!
# The algebra of Paillier encryption

Ciphertexts for the modulus `N` live modulo `N ^ 2`; `(1 + N) ^ m * u ^ N` encrypts `m`.

* `one_add_pow_modEq` — the powers of `1 + N` are linear in the exponent;
* `pow_modEq_sq` — an `N`-th power modulo `N ^ 2` depends on its base modulo `N` only;
* `Encrypts` — a ciphertext of a message, with its homomorphic operations;
* `Encrypts.pow_lcm` — the power by `lcm (p - 1) (q - 1)` exposes the message;
* `sigma_modEq` — the verification equation of the proofs of knowledge about ciphertexts.
-/

/-- The powers of `1 + N`. -/
theorem one_add_pow_modEq (N m : ℕ) : (1 + N : ℤ) ^ m ≡ 1 + m * N [ZMOD N ^ 2] := by
  induction m with
  | zero => simp
  | succ m ih =>
    calc (1 + N : ℤ) ^ (m + 1) = (1 + N) ^ m * (1 + N) := pow_succ _ _
      _ ≡ (1 + m * N) * (1 + N) [ZMOD N ^ 2] := ih.mul_right _
      _ ≡ 1 + (m + 1 : ℕ) * N [ZMOD N ^ 2] :=
        Int.modEq_iff_dvd.mpr ⟨-m, by push_cast; ring⟩

/-- An `N`-th power modulo `N ^ 2` depends on its base modulo `N` only. -/
theorem pow_modEq_sq {N : ℕ} {a b : ℤ} (h : a ≡ b [ZMOD N]) : a ^ N ≡ b ^ N [ZMOD N ^ 2] := by
  have hdvd := dvd_sub_pow_of_dvd_sub (R := ℤ) (p := N) (Int.modEq_iff_dvd.mp h) 1
  rw [pow_one] at hdvd
  exact Int.modEq_iff_dvd.mpr hdvd

/-- `c` is a ciphertext of `m` for the modulus `N`. -/
def Encrypts (N : ℕ) (c : ℤ) (m : ℕ) : Prop :=
  ∃ u : ℤ, IsCoprime u N ∧ c ≡ (1 + N) ^ m * u ^ N [ZMOD N ^ 2]

section Homomorphic

variable {N m m' : ℕ} {c c' : ℤ}

/-- **Addition** of messages. -/
theorem Encrypts.mul (h : Encrypts N c m) (h' : Encrypts N c' m') :
    Encrypts N (c * c') (m + m') := by
  obtain ⟨u, hu, hc⟩ := h
  obtain ⟨u', hu', hc'⟩ := h'
  refine ⟨u * u', hu.mul_left hu', (hc.mul hc').trans ?_⟩
  rw [show (1 + N : ℤ) ^ m * u ^ N * ((1 + N) ^ m' * u' ^ N) =
    (1 + N) ^ (m + m') * (u * u') ^ N by ring]

/-- **Multiplication** of the message by a number. -/
theorem Encrypts.pow (h : Encrypts N c m) (k : ℕ) : Encrypts N (c ^ k) (k * m) := by
  obtain ⟨u, hu, hc⟩ := h
  refine ⟨u ^ k, hu.pow_left, (hc.pow k).trans ?_⟩
  rw [mul_pow, ← pow_mul, ← pow_mul, ← pow_mul, mul_comm m k, mul_comm N k]

theorem Encrypts.congr (h : Encrypts N c m) (hc : c' ≡ c [ZMOD N ^ 2]) : Encrypts N c' m := by
  obtain ⟨u, hu, heq⟩ := h
  exact ⟨u, hu, hc.trans heq⟩

end Homomorphic

/-! ### Decryption -/

section Decryption

variable {p q : ℕ}

/-- **Fermat for two primes.** -/
theorem pow_lcm_modEq_one (hp : p.Prime) (hq : q.Prime) (hpq : p ≠ q) {u : ℤ}
    (hu : IsCoprime u (p * q : ℕ)) : u ^ Nat.lcm (p - 1) (q - 1) ≡ 1 [ZMOD (p * q : ℕ)] := by
  -- each prime separately
  have hprime : ∀ {r : ℕ}, r.Prime → IsCoprime u r → (r - 1) ∣ Nat.lcm (p - 1) (q - 1) →
      u ^ Nat.lcm (p - 1) (q - 1) ≡ 1 [ZMOD r] := by
    rintro r hr hur ⟨k, hk⟩
    rw [hk, pow_mul]
    exact (Int.ModEq.pow k (Int.ModEq.pow_card_sub_one_eq_one hr hur)).trans (by rw [one_pow])
  rw [Nat.cast_mul] at hu ⊢
  refine (Int.modEq_and_modEq_iff_modEq_mul ?_).mp
    ⟨hprime hp hu.of_mul_right_left (Nat.dvd_lcm_left _ _),
      hprime hq hu.of_mul_right_right (Nat.dvd_lcm_right _ _)⟩
  exact (Nat.coprime_primes hp hq).mpr hpq

/-- **The exposed message.** -/
theorem Encrypts.pow_lcm (hp : p.Prime) (hq : q.Prime) (hpq : p ≠ q) {c : ℤ} {m : ℕ}
    (h : Encrypts (p * q) c m) :
    c ^ Nat.lcm (p - 1) (q - 1) ≡
      1 + (m * Nat.lcm (p - 1) (q - 1) : ℕ) * (p * q : ℕ) [ZMOD (p * q : ℕ) ^ 2] := by
  obtain ⟨u, hu, hc⟩ := h
  set l := Nat.lcm (p - 1) (q - 1)
  -- the hiding power disappears
  have hunit : u ^ (p * q * l) ≡ 1 [ZMOD (p * q : ℕ) ^ 2] := by
    rw [mul_comm (p * q) l, pow_mul]
    exact (pow_modEq_sq (pow_lcm_modEq_one hp hq hpq hu)).trans (by rw [one_pow])
  calc c ^ l ≡ ((1 + (p * q : ℕ)) ^ m * u ^ (p * q)) ^ l [ZMOD (p * q : ℕ) ^ 2] := hc.pow l
    _ = (1 + (p * q : ℕ)) ^ (m * l) * u ^ (p * q * l) := by rw [mul_pow, ← pow_mul, ← pow_mul]
    _ ≡ (1 + (p * q : ℕ)) ^ (m * l) * 1 [ZMOD (p * q : ℕ) ^ 2] := hunit.mul_left _
    _ ≡ 1 + (m * l : ℕ) * (p * q : ℕ) [ZMOD (p * q : ℕ) ^ 2] := by
      rw [mul_one]
      exact one_add_pow_modEq (p * q) (m * l)

end Decryption

/-- The quotient by `N` of a number `1 + k N` reduced modulo `N ^ 2`. -/
theorem emod_sq_sub_one_div {N : ℕ} (hN : 1 < N) {x : ℤ} {k : ℕ}
    (h : x ≡ 1 + k * N [ZMOD N ^ 2]) : (x % N ^ 2 - 1).tdiv N = (k : ℤ) % N := by
  have hNpos : (0 : ℤ) < N := by exact_mod_cast Nat.lt_of_succ_lt hN
  have hk0 : (0 : ℤ) ≤ k % N := Int.emod_nonneg _ (ne_of_gt hNpos)
  have hk1 : (k : ℤ) % N < N := Int.emod_lt_of_pos _ hNpos
  have hred : x % N ^ 2 = 1 + (k % N : ℤ) * N := by
    have hmod : x ≡ 1 + (k % N : ℤ) * N [ZMOD N ^ 2] := by
      refine h.trans (Int.modEq_iff_dvd.mpr ⟨-(k / N), ?_⟩)
      have := Int.mul_ediv_add_emod k N
      nlinarith
    rw [hmod, Int.emod_eq_of_lt (by positivity)]
    nlinarith
  rw [hred, add_sub_cancel_left, Int.mul_tdiv_cancel _ (ne_of_gt hNpos)]

/-! ### Proofs of knowledge -/

/-- **Sigma protocols.** The response `z = α + e m`, `s = γ ρ ^ e` to the challenge `e`
    satisfies the verification equation of the commitment `b ^ α γ ^ N` and the statement
    `b ^ m ρ ^ N`. -/
theorem sigma_modEq {N : ℕ} {b cα c γ ρ s : ℤ} {α m e : ℕ}
    (hα : cα ≡ b ^ α * γ ^ N [ZMOD N ^ 2]) (hc : c ≡ b ^ m * ρ ^ N [ZMOD N ^ 2])
    (hs : s ≡ γ * ρ ^ e [ZMOD N]) :
    cα * c ^ e ≡ b ^ (α + e * m) * s ^ N [ZMOD N ^ 2] :=
  calc cα * c ^ e ≡ b ^ α * γ ^ N * (b ^ m * ρ ^ N) ^ e [ZMOD N ^ 2] := hα.mul (hc.pow e)
    _ = b ^ (α + e * m) * (γ * ρ ^ e) ^ N := by ring
    _ ≡ b ^ (α + e * m) * s ^ N [ZMOD N ^ 2] := (pow_modEq_sq hs.symm).mul_left _

end Arith
