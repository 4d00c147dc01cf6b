import Govis.Arith.PaillierUnits
import Govis.Arith.Sigma
import Govis.Paillier

namespace Govis

open Arith

/-!
# The ciphertexts of a keypair

What a peer sends as a ciphertext need not come from `encrypt`.  Under a keypair that key
generation returns it makes no difference.

* `ValidKeypair.coprime_lambda` — the modulus is coprime to `lambda`;
* `ciphertexts_bijective` — **every unit is `encrypt_with_rho` of one message and one randomness**,
  `decrypt` returns the message, and `add` and `scalar_mul` act on all units.
-/

variable {p q : ℕ} {kp : PaillierKeypair}

/-- The modulus is coprime to `lambda`, which has an inverse. -/
theorem ValidKeypair.coprime_lambda (h : ValidKeypair p q kp) :
    Nat.Coprime (p * q) (Nat.lcm (p - 1) (q - 1)) := by
  have hmu := h.mu_inverse
  rw [h.lambda_eq, h.n_eq] at hmu
  obtain ⟨d, hd⟩ := Int.modEq_iff_dvd.mp hmu
  refine Nat.isCoprime_iff_coprime.mp ⟨d, kp.sk.mu, ?_⟩
  linear_combination -hd

theorem ValidKeypair.one_lt_lambda (h : ValidKeypair p q kp) : 1 < Nat.lcm (p - 1) (q - 1) := by
  have hp := h.p_mod
  have hq := h.q_mod
  have hpos : 0 < Nat.lcm (p - 1) (q - 1) := Nat.lcm_pos (by omega) (by omega)
  have hle := Nat.le_of_dvd hpos (Nat.dvd_lcm_left (p - 1) (q - 1))
  omega

/-- **Every unit is a ciphertext** of the number it decrypts to. -/
theorem ValidKeypair.encrypts_of_isCoprime (h : ValidKeypair p q kp) {c : ℤ}
    (hc : IsCoprime c kp.pk.n) :
    ∃ m < kp.pk.n, Encrypts kp.pk.n c m ∧ decrypt kp.sk kp.pk c = some (m : ℤ) := by
  rw [h.n_eq] at hc
  obtain ⟨m, hm, henc⟩ := exists_encrypts h.p_prime h.q_prime h.ne h.coprime_lambda h.one_lt_lambda hc
  rw [← h.n_eq] at hm henc
  refine ⟨m, hm, henc, ?_⟩
  rw [decrypt_of_encrypts h henc, Nat.mod_eq_of_lt hm]

/-- `c` is, modulo `n ^ 2`, the encryption of `m` with `rho`, both in the range from which they are
    taken. -/
structure Opens (pk : PaillierPublicKey) (c m rho : ℤ) : Prop where
  m_nonneg : 0 ≤ m
  m_lt : m < pk.n
  rho_nonneg : 0 ≤ rho
  rho_lt : rho < pk.n
  coprime : IsCoprime rho pk.n
  eq : encryptWithRho pk m rho = some (c % pk.nSq)

theorem Opens.modEq {pk : PaillierPublicKey} {c m rho : ℤ} (h : Opens pk c m rho)
    (hpk : pk.WellFormed) : c ≡ (1 + pk.n) ^ m.toNat * rho ^ pk.n [ZMOD pk.n ^ 2] := by
  have heq := h.eq
  rw [← Int.toNat_of_nonneg h.m_nonneg, encryptWithRho_eq hpk, Option.some.injEq,
    hpk.nSq_cast] at heq
  exact heq.symm

theorem Opens.encrypts {pk : PaillierPublicKey} {c m rho : ℤ} (h : Opens pk c m rho)
    (hpk : pk.WellFormed) : Encrypts pk.n c m.toNat :=
  ⟨rho, h.coprime, h.modEq hpk⟩

/-- What a message and a randomness open is a unit. -/
theorem Opens.isCoprime {pk : PaillierPublicKey} {c m rho : ℤ} (h : Opens pk c m rho)
    (hpk : pk.WellFormed) : IsCoprime c pk.n := by
  have hmod := (h.modEq hpk).of_dvd (dvd_pow_self (pk.n : ℤ) two_ne_zero)
  exact isCoprime_of_modEq hmod.symm
    ((isCoprime_one_add pk.n).pow_left.mul_left h.coprime.pow_left)

section Keypair

/-- Decryption finds the message. -/
theorem Opens.decrypt_eq {c m rho : ℤ} (h : Opens kp.pk c m rho) (hkp : ValidKeypair p q kp) :
    decrypt kp.sk kp.pk c = some m := by
  have hlt : m.toNat < kp.pk.n := by
    have := h.m_lt
    have := h.m_nonneg
    omega
  rw [decrypt_of_encrypts hkp (h.encrypts hkp.wellFormed), Nat.mod_eq_of_lt hlt,
    Int.toNat_of_nonneg h.m_nonneg]

/-- A unit has an opening. -/
theorem ValidKeypair.exists_opens (h : ValidKeypair p q kp) {c : ℤ} (hc : IsCoprime c kp.pk.n) :
    ∃ m rho, Opens kp.pk c m rho := by
  obtain ⟨m, hm, ⟨u, hu, hcu⟩, -⟩ := h.encrypts_of_isCoprime hc
  have hpos := h.wellFormed.n_pos
  have hmod : u % kp.pk.n ≡ u [ZMOD kp.pk.n] := Int.mod_modEq _ _
  refine ⟨m, u % kp.pk.n, Int.natCast_nonneg m, by exact_mod_cast hm,
    Int.emod_nonneg _ hpos.ne', Int.emod_lt_of_pos _ hpos, isCoprime_of_modEq hmod.symm hu, ?_⟩
  rw [encryptWithRho_eq h.wellFormed, h.wellFormed.nSq_cast]
  exact congrArg some (hcu.trans ((pow_modEq_sq hmod.symm).mul_left _)).symm

/-- And only one. -/
theorem Opens.unique {c m m' rho rho' : ℤ} (h : Opens kp.pk c m rho) (h' : Opens kp.pk c m' rho')
    (hkp : ValidKeypair p q kp) : m' = m ∧ rho' = rho := by
  have hm : m' = m := Option.some.inj ((h'.decrypt_eq hkp).symm.trans (h.decrypt_eq hkp))
  subst hm
  refine ⟨rfl, ?_⟩
  have heq := (h'.modEq hkp.wellFormed).symm.trans (h.modEq hkp.wellFormed)
  have hc := h.coprime
  have hc' := h'.coprime
  rw [hkp.n_eq] at heq hc hc'
  have hmod := modEq_of_encrypts hkp.p_prime hkp.q_prime hkp.ne hkp.coprime_lambda
    hkp.one_lt_lambda hc' hc heq
  rw [← hkp.n_eq] at hmod
  -- both are reduced
  have hred := hmod
  rw [Int.ModEq, Int.emod_eq_of_lt h'.rho_nonneg h'.rho_lt,
    Int.emod_eq_of_lt h.rho_nonneg h.rho_lt] at hred
  exact hred

end Keypair

/-- **The ciphertexts of a generated keypair.**  Every number coprime to the modulus is the encryption
    of one message with one randomness, and what is opened by some is coprime to the modulus and
    decrypts to the message.  Whoever has made two such numbers, `add` decrypts to the sum of the
    messages modulo `n`, and `scalar_mul` by a number that is not negative to the product. -/
theorem ciphertexts_bijective (h : Generated p q kp) :
    (∀ c : ℤ, IsCoprime c kp.pk.n → ∃! e : ℤ × ℤ, Opens kp.pk c e.1 e.2) ∧
    (∀ c m rho : ℤ, Opens kp.pk c m rho →
      IsCoprime c kp.pk.n ∧ decrypt kp.sk kp.pk c = some m) ∧
    ∀ c c' m m' : ℤ, IsCoprime c kp.pk.n → IsCoprime c' kp.pk.n →
      decrypt kp.sk kp.pk c = some m → decrypt kp.sk kp.pk c' = some m' →
        decrypt kp.sk kp.pk (add kp.pk c c') = some ((m + m') % kp.pk.n) ∧
        ∀ k : ℕ, ∃ ck, scalarMul kp.pk c k = some ck ∧
          decrypt kp.sk kp.pk ck = some (k * m % kp.pk.n) := by
  have hkp := h.valid
  have hwf := hkp.wellFormed
  refine ⟨fun c hc => ?_, fun c m rho ho => ⟨ho.isCoprime hwf, ho.decrypt_eq hkp⟩, ?_⟩
  · obtain ⟨m, rho, ho⟩ := hkp.exists_opens hc
    refine ⟨(m, rho), ho, fun e he => ?_⟩
    obtain ⟨hm, hrho⟩ := ho.unique he hkp
    exact Prod.ext hm hrho
  · intro c c' m m' hc hc' hm hm'
    obtain ⟨x, -, henc, hx⟩ := hkp.encrypts_of_isCoprime hc
    obtain ⟨x', -, henc', hx'⟩ := hkp.encrypts_of_isCoprime hc'
    obtain rfl := Option.some.inj (hm.symm.trans hx)
    obtain rfl := Option.some.inj (hm'.symm.trans hx')
    refine ⟨?_, fun k => ?_⟩
    · rw [decrypt_of_encrypts hkp (encrypts_add hwf henc henc')]
      push_cast
      rfl
    · obtain ⟨ck, hck, henck⟩ := encrypts_scalarMul hwf henc k
      refine ⟨ck, hck, ?_⟩
      rw [decrypt_of_encrypts hkp henck]
      push_cast
      rfl

/-- The number two under the key of 7 and 11. -/
theorem ciphertexts_bijective_seven_eleven :
    ∃! e : ℤ × ℤ, Opens ⟨77, 5929, 78⟩ 2 e.1 e.2 := by
  have htwo : IsCoprime (2 : ℤ) (77 : ℕ) := by
    rw [Int.isCoprime_iff_gcd_eq_one]
    decide
  exact (ciphertexts_bijective generated_seven_eleven).1 2 htwo

end Govis
