import Govis.Arith.Paillier

namespace Arith

/-!
# Every unit is a ciphertext

For a product `N` of two primes whose `lcm (p - 1) (q - 1)` is coprime to it, the ciphertexts are
the units modulo `N ^ 2`, each of one message and one randomness modulo `N`.

* `exists_root` — what a power prime to `N` takes to one is an `N`-th power;
* `exists_encrypts` — every unit encrypts something;
* `modEq_of_encrypts` — with a randomness that is determined modulo `N`.
-/

variable {N l : ℕ} {c u v M : ℤ}

/-- A multiple of `N` that is one more than a multiple of `l`. -/
theorem exists_mul_eq_mul_add_one (hcop : Nat.Coprime N l) (hl : 1 < l) :
    ∃ a b : ℕ, N * a = l * b + 1 := by
  obtain ⟨a, -, ha⟩ := Nat.exists_mul_mod_eq_one_of_coprime hcop hl
  refine ⟨a, N * a / l, ?_⟩
  have h := Nat.div_add_mod (N * a) l
  rw [ha] at h
  exact h.symm

/-- What a power prime to `N` takes to one is an `N`-th power. -/
theorem exists_root (hcop : Nat.Coprime N l) (hl : 1 < l) (h : c ^ l ≡ 1 [ZMOD M]) :
    ∃ a : ℕ, (c ^ a) ^ N ≡ c [ZMOD M] := by
  obtain ⟨a, b, hab⟩ := exists_mul_eq_mul_add_one hcop hl
  refine ⟨a, ?_⟩
  calc (c ^ a) ^ N = (c ^ l) ^ b * c := by rw [← pow_mul, mul_comm a N, hab, pow_succ, pow_mul]
    _ ≡ 1 ^ b * c [ZMOD M] := (h.pow b).mul_right c
    _ = c := by rw [one_pow, one_mul]

/-- **Roots are unique.** -/
theorem modEq_of_pow_modEq (hcop : Nat.Coprime N l) (hl : 1 < l) (hu : u ^ l ≡ 1 [ZMOD M])
    (hv : v ^ l ≡ 1 [ZMOD M]) (h : u ^ N ≡ v ^ N [ZMOD M]) : u ≡ v [ZMOD M] := by
  obtain ⟨a, b, hab⟩ := exists_mul_eq_mul_add_one hcop hl
  have hroot : ∀ {x : ℤ}, x ^ l ≡ 1 [ZMOD M] → (x ^ N) ^ a ≡ x [ZMOD M] := by
    intro x hx
    calc (x ^ N) ^ a = (x ^ l) ^ b * x := by rw [← pow_mul, hab, pow_succ, pow_mul]
      _ ≡ 1 ^ b * x [ZMOD M] := (hx.pow b).mul_right x
      _ = x := by rw [one_pow, one_mul]
  exact (hroot hu).symm.trans ((h.pow a).trans (hroot hv))

theorem isCoprime_one_add (N : ℕ) : IsCoprime (1 + N : ℤ) N := ⟨1, -1, by ring⟩

/-- The powers of `1 + N` depend on the exponent modulo `N` only. -/
theorem one_add_pow_congr {m m' : ℕ} (h : (m : ℤ) ≡ m' [ZMOD N]) :
    (1 + N : ℤ) ^ m ≡ (1 + N) ^ m' [ZMOD N ^ 2] := by
  obtain ⟨d, hd⟩ := Int.modEq_iff_dvd.mp h
  refine (one_add_pow_modEq N m).trans (.trans ?_ (one_add_pow_modEq N m').symm)
  refine Int.modEq_iff_dvd.mpr ⟨d, ?_⟩
  linear_combination (N : ℤ) * hd

/-- So does the message. -/
theorem Encrypts.mod {m : ℕ} (h : Encrypts N c m) : Encrypts N c (m % N) := by
  obtain ⟨u, hu, hc⟩ := h
  refine ⟨u, hu, hc.trans ((one_add_pow_congr ?_).mul_right _)⟩
  rw [Int.natCast_mod]
  exact (Int.mod_modEq _ _).symm

section Primes

variable {p q : ℕ}

/-- **Every unit is a ciphertext.** -/
theorem exists_encrypts (hp : p.Prime) (hq : q.Prime) (hpq : p ≠ q)
    (hcop : Nat.Coprime (p * q) (Nat.lcm (p - 1) (q - 1))) (hl : 1 < Nat.lcm (p - 1) (q - 1))
    (hc : IsCoprime c (p * q : ℕ)) : ∃ m < p * q, Encrypts (p * q) c m := by
  have hN : 0 < p * q := Nat.mul_pos hp.pos hq.pos
  obtain ⟨k, hk⟩ := Int.modEq_iff_dvd.mp (pow_lcm_modEq_one hp hq hpq hc).symm
  generalize p * q = N at *
  generalize Nat.lcm (p - 1) (q - 1) = l at *
  -- `c ^ l` is `1 + k N`; a message `m` with `m l = - k` makes it vanish
  obtain ⟨a, b, hab⟩ := exists_mul_eq_mul_add_one hcop hl
  set m := ((k * b) % N).toNat with hm
  have hmk : (m : ℤ) ≡ k * b [ZMOD N] := by
    rw [hm, Int.toNat_of_nonneg (Int.emod_nonneg _ (by omega))]
    exact Int.mod_modEq _ _
  have hmN : m < N := by
    have := Int.emod_lt_of_pos (k * b) (show (0 : ℤ) < N by omega)
    omega
  have hvanish : (N : ℤ) ∣ k + m * l := by
    obtain ⟨d, hd⟩ := Int.modEq_iff_dvd.mp hmk
    refine ⟨k * a - d * l, ?_⟩
    have hab' : (N * a : ℤ) = l * b + 1 := by exact_mod_cast hab
    linear_combination -k * hab' - l * hd
  have hroot : (c * (1 + N) ^ m) ^ l ≡ 1 [ZMOD N ^ 2] := by
    obtain ⟨d, hd⟩ := hvanish
    calc (c * (1 + N) ^ m) ^ l = c ^ l * (1 + N) ^ (m * l) := by rw [mul_pow, pow_mul]
      _ ≡ c ^ l * (1 + (m * l : ℕ) * N) [ZMOD N ^ 2] := (one_add_pow_modEq N (m * l)).mul_left _
      _ ≡ 1 [ZMOD N ^ 2] := by
        refine (Int.modEq_iff_dvd.mpr ⟨d + k * (m * l), ?_⟩).symm
        push_cast
        linear_combination (1 + m * l * N) * hk + N * hd
  obtain ⟨e, he⟩ := exists_root hcop hl hroot
  have hunit : IsCoprime (c * (1 + N) ^ m) (N : ℤ) := hc.mul_left (isCoprime_one_add N).pow_left
  have henc : Encrypts N c (N - m) := by
    refine ⟨(c * (1 + N) ^ m) ^ e, hunit.pow_left, ?_⟩
    calc c = 1 ^ N * c := by rw [one_pow, one_mul]
      _ ≡ (1 + N) ^ N * c [ZMOD N ^ 2] := (pow_modEq_sq (Int.modEq_iff_dvd.mpr ⟨1, by ring⟩)).mul_right _
      _ = (1 + N) ^ (N - m) * (c * (1 + N) ^ m) := by
        rw [mul_comm c, ← mul_assoc, ← pow_add, Nat.sub_add_cancel hmN.le]
      _ ≡ (1 + N) ^ (N - m) * ((c * (1 + N) ^ m) ^ e) ^ N [ZMOD N ^ 2] := he.symm.mul_left _
  exact ⟨(N - m) % N, Nat.mod_lt _ hN, henc.mod⟩

/-- **Of one randomness**, modulo `N`. -/
theorem modEq_of_encrypts (hp : p.Prime) (hq : q.Prime) (hpq : p ≠ q)
    (hcop : Nat.Coprime (p * q) (Nat.lcm (p - 1) (q - 1))) (hl : 1 < Nat.lcm (p - 1) (q - 1))
    {m : ℕ} (hu : IsCoprime u (p * q : ℕ)) (hv : IsCoprime v (p * q : ℕ))
    (h : (1 + (p * q : ℕ)) ^ m * u ^ (p * q) ≡ (1 + (p * q : ℕ)) ^ m * v ^ (p * q)
      [ZMOD (p * q : ℕ) ^ 2]) : u ≡ v [ZMOD (p * q : ℕ)] := by
  refine modEq_of_pow_modEq hcop hl (pow_lcm_modEq_one hp hq hpq hu)
    (pow_lcm_modEq_one hp hq hpq hv) ?_
  -- modulo `N` the power of `1 + N` is one
  have hone : (1 + (p * q : ℕ) : ℤ) ^ m ≡ 1 [ZMOD (p * q : ℕ)] := by
    have h1 : (1 + (p * q : ℕ) : ℤ) ≡ 1 [ZMOD (p * q : ℕ)] := Int.modEq_iff_dvd.mpr ⟨-1, by ring⟩
    exact (h1.pow m).trans (by rw [one_pow])
  have hN := h.of_dvd (dvd_pow_self _ two_ne_zero)
  have hcancel : ∀ x : ℤ, x ≡ (1 + (p * q : ℕ)) ^ m * x [ZMOD (p * q : ℕ)] := fun x => by
    simpa using (hone.mul_right x).symm
  exact (hcancel _).trans (hN.trans (hcancel _).symm)

end Primes

end Arith
