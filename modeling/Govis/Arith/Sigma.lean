import Govis.Arith.Paillier
import Mathlib.Tactic.LinearCombination

namespace Arith

/-!
# Special soundness modulo `N ^ 2`

A sigma protocol about the ciphertext `c` accepts the response `(z, s)` to the challenge `e` when
`cα * c ^ e` is `b ^ z * s ^ N` modulo `N ^ 2`; `cα` is the first message.

* `SigmaAccepts.extract` — two responses to one invertible first message extract the relation;
* `not_sigmaAccepts_of_dvd_once` — nothing is accepted when a prime factor of `N` divides the
  first message exactly once;
* `exists_forgery` — when the square of a prime factor of `N = p * q` divides the first message
  and the other factor can be answered, there are accepted responses that extract nothing.
-/

/-- The verification equation. -/
def SigmaAccepts (N : ℕ) (b cα c : ℤ) (e z : ℕ) (s : ℤ) : Prop :=
  cα * c ^ e ≡ b ^ z * s ^ N [ZMOD N ^ 2]

/-- What two accepted responses to the challenges `e` and `e'` are to extract. -/
def Extracts (N : ℕ) (b c : ℤ) (e e' z z' : ℕ) : Prop :=
  ∃ u : ℤ, IsCoprime u N ∧ c ^ (e - e') * b ^ z' ≡ b ^ z * u ^ N [ZMOD N ^ 2]

theorem isCoprime_of_modEq {a b m : ℤ} (h : a ≡ b [ZMOD m]) (ha : IsCoprime a m) :
    IsCoprime b m := by
  obtain ⟨k, hk⟩ := Int.modEq_iff_dvd.mp h
  rw [show b = a + m * k by linear_combination hk]
  exact ha.add_mul_left_left k

/-! ### Extraction -/

section Extraction

variable {N : ℕ} {b cα c s s' : ℤ} {e e' z z' : ℕ}

/-- **Special soundness** for an invertible first message. -/
theorem SigmaAccepts.extract (hN : N ≠ 0) (hα : IsCoprime cα N) (hc : IsCoprime c N)
    (hlt : e' < e) (h : SigmaAccepts N b cα c e z s) (h' : SigmaAccepts N b cα c e' z' s') :
    Extracts N b c e e' z z' := by
  -- both responses hide with units
  have hresponse : ∀ {e z : ℕ} {s : ℤ}, SigmaAccepts N b cα c e z s → IsCoprime s N := by
    intro e z s hacc
    have hunit : IsCoprime (b ^ z * s ^ N) ((N : ℤ) ^ 2) :=
      isCoprime_of_modEq hacc (hα.mul_left hc.pow_left).pow_right
    exact (IsCoprime.pow_left_iff (Nat.pos_of_ne_zero hN)).mp
      ((IsCoprime.pow_right_iff two_pos).mp hunit.of_mul_left_right)
  have hs := hresponse h
  obtain ⟨t, w, ht⟩ := hresponse h'
  have hinv : (s' * t) ^ N ≡ 1 [ZMOD N ^ 2] := by
    have hone : s' * t ≡ 1 [ZMOD N] := Int.modEq_iff_dvd.mpr ⟨w, by linear_combination -ht⟩
    exact (pow_modEq_sq hone).trans (by rw [one_pow])
  refine ⟨s * t, ?_, ?_⟩
  · exact hs.mul_left ⟨s', w, by linear_combination ht⟩
  -- the equation holds after multiplication by a unit
  have hunit : IsCoprime ((N : ℤ) ^ 2) (cα * c ^ e') := (hα.mul_left hc.pow_left).pow_right.symm
  have hscaled : cα * c ^ e' * (c ^ (e - e') * b ^ z') ≡
      cα * c ^ e' * (b ^ z * (s * t) ^ N) [ZMOD N ^ 2] := by
    calc cα * c ^ e' * (c ^ (e - e') * b ^ z')
        = cα * c ^ e * b ^ z' := by
          rw [show c ^ e = c ^ e' * c ^ (e - e') by rw [← pow_add, Nat.add_sub_cancel' hlt.le]]
          ring
      _ ≡ b ^ z * s ^ N * b ^ z' [ZMOD N ^ 2] := h.mul_right _
      _ = b ^ z' * (b ^ z * s ^ N) * 1 := by ring
      _ ≡ b ^ z' * (b ^ z * s ^ N) * (s' * t) ^ N [ZMOD N ^ 2] := hinv.symm.mul_left _
      _ = b ^ z' * s' ^ N * (b ^ z * (s * t) ^ N) := by ring
      _ ≡ cα * c ^ e' * (b ^ z * (s * t) ^ N) [ZMOD N ^ 2] := h'.symm.mul_right _
  rw [Int.modEq_iff_dvd, ← mul_sub] at hscaled
  exact Int.modEq_iff_dvd.mpr (hunit.dvd_of_dvd_mul_left hscaled)

/-- **No response** is accepted when a prime factor divides the first message exactly once. -/
theorem not_sigmaAccepts_of_dvd_once {p : ℕ} (hp : p.Prime) (hpN : p ∣ N) (hN : 2 ≤ N)
    (hb : IsCoprime b N) (hc : IsCoprime c N) (hdvd : (p : ℤ) ∣ cα) (honce : ¬ (p : ℤ) ^ 2 ∣ cα) :
    ¬ SigmaAccepts N b cα c e z s := by
  intro h
  have hpN' : (p : ℤ) ∣ N := Int.natCast_dvd_natCast.mpr hpN
  have hmod : (p : ℤ) ^ 2 ∣ b ^ z * s ^ N - cα * c ^ e :=
    (pow_dvd_pow_of_dvd hpN' 2).trans (Int.modEq_iff_dvd.mp h)
  have hprime : Prime (p : ℤ) := Nat.prime_iff_prime_int.mp hp
  -- the prime divides the response, hence its square divides the power
  have hs : (p : ℤ) ∣ s := by
    have hprod : (p : ℤ) ∣ b ^ z * s ^ N := by
      have h1 : (p : ℤ) ∣ b ^ z * s ^ N - cα * c ^ e := (dvd_pow_self _ two_ne_zero).trans hmod
      exact (dvd_sub_left (hdvd.mul_right _)).mp h1
    have hbz : IsCoprime (p : ℤ) (b ^ z) := (hb.of_isCoprime_of_dvd_right hpN').symm.pow_right
    exact hprime.dvd_of_dvd_pow (hbz.dvd_of_dvd_mul_left hprod)
  have hsN : (p : ℤ) ^ 2 ∣ b ^ z * s ^ N :=
    ((pow_dvd_pow_of_dvd hs 2).trans (pow_dvd_pow s hN)).mul_left _
  have hcp : IsCoprime ((p : ℤ) ^ 2) (c ^ e) :=
    (hc.of_isCoprime_of_dvd_right hpN').symm.pow_left.pow_right
  exact honce (hcp.dvd_of_dvd_mul_right ((dvd_sub_right hsN).mp hmod))

end Extraction

/-! ### Forgeries -/

section Forgery

variable {p q : ℕ}

/-- Residues modulo two coprime numbers. -/
theorem exists_modEq_modEq {m n : ℤ} (h : IsCoprime m n) (a b : ℤ) :
    ∃ c, c ≡ a [ZMOD m] ∧ c ≡ b [ZMOD n] := by
  obtain ⟨u, v, huv⟩ := h
  refine ⟨a * (v * n) + b * (u * m), ?_, ?_⟩
  · exact Int.modEq_iff_dvd.mpr ⟨(a - b) * u, by linear_combination (-a) * huv⟩
  · exact Int.modEq_iff_dvd.mpr ⟨(b - a) * v, by linear_combination (-b) * huv⟩

/-- A unit modulo a prime has order dividing `q * (q - 1)` modulo its square. -/
theorem pow_mul_pred_modEq_one (hq : q.Prime) {u : ℤ} (hu : IsCoprime u q) :
    u ^ (q * (q - 1)) ≡ 1 [ZMOD q ^ 2] := by
  rw [mul_comm, pow_mul]
  exact (pow_modEq_sq (Int.ModEq.pow_card_sub_one_eq_one hq hu)).trans (by rw [one_pow])

/-- The powers of `1 + N` modulo the square of a factor tell their exponents apart, up to `N`-th
    powers. -/
theorem dvd_sub_of_pow_modEq (hp : p.Prime) (hq : q.Prime) (hpq : p ≠ q) {u : ℤ} {z z' : ℕ}
    (hu : IsCoprime u p)
    (h : (1 + (p * q : ℕ) : ℤ) ^ z' ≡ (1 + (p * q : ℕ)) ^ z * u ^ (p * q) [ZMOD p ^ 2]) :
    (p : ℤ) ∣ (z : ℤ) - z' := by
  have hlin : ∀ k : ℕ, (1 + (p * q : ℕ) : ℤ) ^ k ≡ 1 + k * (p * q : ℕ) [ZMOD p ^ 2] := by
    intro k
    apply (one_add_pow_modEq (p * q) k).of_dvd
    push_cast
    exact pow_dvd_pow_of_dvd (dvd_mul_right _ _) 2
  -- the hiding power disappears
  have hunit : u ^ (p * q * (p - 1)) ≡ 1 [ZMOD p ^ 2] := by
    rw [show p * q * (p - 1) = p * (p - 1) * q by ring, pow_mul]
    exact ((pow_mul_pred_modEq_one hp hu).pow q).trans (by rw [one_pow])
  have hpow : (1 + (p * q : ℕ) : ℤ) ^ (z' * (p - 1)) ≡ (1 + (p * q : ℕ)) ^ (z * (p - 1))
      [ZMOD p ^ 2] := by
    have hraise := h.pow (p - 1)
    rw [mul_pow, ← pow_mul, ← pow_mul, ← pow_mul] at hraise
    exact hraise.trans ((hunit.mul_left _).trans (by rw [mul_one]))
  have hdvd := Int.modEq_iff_dvd.mp (((hlin _).symm.trans hpow).trans (hlin _))
  obtain ⟨k, hk⟩ := hdvd
  push_cast [Nat.cast_pred hp.pos] at hk
  have hp0 : (p : ℤ) ≠ 0 := Int.natCast_ne_zero.mpr hp.ne_zero
  have hcancel : ((z : ℤ) - z') * ((p - 1) * q) = p * k :=
    mul_left_cancel₀ hp0 (by linear_combination hk)
  have hcop : IsCoprime (p : ℤ) ((p - 1) * q) := by
    refine IsCoprime.mul_right ⟨1, -1, by ring⟩ ?_
    exact Nat.isCoprime_iff_coprime.mpr ((Nat.coprime_primes hp hq).mpr hpq)
  exact hcop.dvd_of_dvd_mul_right ⟨k, hcancel⟩

/-- Modulo the square of `q`, a number that `q` does not divide has an inverse, and one that the
    square divides is zero: both have a multiple that is a power. -/
theorem exists_mul_modEq_pow (hq : q.Prime) {N : ℕ} (hN : N ≠ 0) {cα : ℤ}
    (hqα : ¬ (q : ℤ) ∣ cα ∨ (q : ℤ) ^ 2 ∣ cα) :
    ∃ d t : ℤ, IsCoprime d q ∧ cα * d ≡ t ^ N [ZMOD q ^ 2] := by
  rcases hqα with hunit | hzero
  · have hα : IsCoprime cα ((q : ℤ) ^ 2) :=
      ((Nat.prime_iff_prime_int.mp hq).coprime_iff_not_dvd.mpr hunit).symm.pow_right
    obtain ⟨v, w, hvw⟩ := hα
    refine ⟨v, 1, ?_, Int.modEq_iff_dvd.mpr ⟨w, ?_⟩⟩
    · exact ⟨cα, w * q, by linear_combination hvw⟩
    · rw [one_pow]
      linear_combination -hvw
  · refine ⟨1, 0, isCoprime_one_left, ?_⟩
    rw [zero_pow hN, mul_one]
    exact Int.modEq_zero_iff_dvd.mpr hzero

/-- The generator to a multiple of `q`. -/
theorem one_add_pow_modEq_one (p : ℕ) {z : ℕ} (hz : q ∣ z) :
    (1 + (p * q : ℕ) : ℤ) ^ z ≡ 1 [ZMOD q ^ 2] := by
  obtain ⟨k, rfl⟩ := hz
  refine ((one_add_pow_modEq (p * q) (q * k)).of_dvd ?_).trans ?_
  · push_cast
    exact pow_dvd_pow_of_dvd (dvd_mul_left _ _) 2
  · exact Int.modEq_iff_dvd.mpr ⟨-(p * k), by push_cast; ring⟩

/-- The acceptance equation, one prime at a time. -/
theorem sigmaAccepts_of_modEq (hcop : IsCoprime (p : ℤ) q) {b cα c s : ℤ} {e z : ℕ}
    (hp : cα * c ^ e ≡ b ^ z * s ^ (p * q) [ZMOD p ^ 2])
    (hq : cα * c ^ e ≡ b ^ z * s ^ (p * q) [ZMOD q ^ 2]) : SigmaAccepts (p * q) b cα c e z s := by
  unfold SigmaAccepts
  rw [Int.modEq_iff_dvd] at hp hq ⊢
  rw [Nat.cast_mul, mul_pow]
  exact hcop.pow.mul_dvd hp hq

/-- **Forgeries.**  When the square of `p` divides the first message, and `q` does not or its
    square does, there is a ciphertext, with two challenges, for which every response `z` that is a
    multiple of `q` is accepted; responses that differ modulo `p` extract nothing. -/
theorem exists_forgery (hp : p.Prime) (hq : q.Prime) (hpq : p ≠ q) {cα : ℤ}
    (hpα : (p : ℤ) ^ 2 ∣ cα) (hqα : ¬ (q : ℤ) ∣ cα ∨ (q : ℤ) ^ 2 ∣ cα) :
    ∃ (c s : ℤ) (e e' : ℕ), IsCoprime c (p * q : ℕ) ∧ e' < e ∧
      (∀ z : ℕ, q ∣ z → SigmaAccepts (p * q) (1 + (p * q : ℕ)) cα c e z s ∧
        SigmaAccepts (p * q) (1 + (p * q : ℕ)) cα c e' z s) ∧
      ∀ z z' : ℕ, ¬ (p : ℤ) ∣ (z : ℤ) - z' →
        ¬ Extracts (p * q) (1 + (p * q : ℕ)) c e e' z z' := by
  have hcop : IsCoprime (p : ℤ) q :=
    Nat.isCoprime_iff_coprime.mpr ((Nat.coprime_primes hp hq).mpr hpq)
  have hN : 2 ≤ p * q := by nlinarith [hp.two_le, hq.two_le]
  -- modulo the square of `p` the ciphertext is one and the response zero
  obtain ⟨d, t, hd, hdt⟩ := exists_mul_modEq_pow hq (show p * q ≠ 0 by omega) hqα
  obtain ⟨c, hcp, hcq⟩ := exists_modEq_modEq (hcop.pow (m := 2) (n := 2)) 1 d
  obtain ⟨s, hsp, hsq⟩ := exists_modEq_modEq hcop 0 t
  have hdvd : ∀ {r : ℤ}, r ∣ r ^ 2 := dvd_pow_self _ two_ne_zero
  have hcq' : IsCoprime c q := isCoprime_of_modEq (hcq.symm.of_dvd hdvd) hd
  have hcp' : IsCoprime c p := isCoprime_of_modEq (hcp.symm.of_dvd hdvd) isCoprime_one_left
  have haccept : ∀ e z : ℕ, c ^ e ≡ d [ZMOD q ^ 2] → q ∣ z →
      SigmaAccepts (p * q) (1 + (p * q : ℕ)) cα c e z s := by
    intro e z he hz
    have hs : (p : ℤ) ^ 2 ∣ s ^ (p * q) :=
      (pow_dvd_pow_of_dvd (Int.modEq_zero_iff_dvd.mp hsp) 2).trans (pow_dvd_pow s hN)
    have hspow : s ^ (p * q) ≡ t ^ (p * q) [ZMOD q ^ 2] := by
      rw [mul_comm p q, pow_mul, pow_mul]
      exact (pow_modEq_sq hsq).pow p
    refine sigmaAccepts_of_modEq hcop ?_ ?_
    · exact (Int.modEq_zero_iff_dvd.mpr (hpα.mul_right _)).trans
        (Int.modEq_zero_iff_dvd.mpr (hs.mul_left _)).symm
    · calc cα * c ^ e ≡ cα * d [ZMOD q ^ 2] := he.mul_left _
        _ ≡ t ^ (p * q) [ZMOD q ^ 2] := hdt
        _ = 1 * t ^ (p * q) := (one_mul _).symm
        _ ≡ (1 + (p * q : ℕ)) ^ z * s ^ (p * q) [ZMOD q ^ 2] :=
          ((one_add_pow_modEq_one p hz).mul hspow).symm
  have hone : c ^ 1 ≡ d [ZMOD q ^ 2] := by rwa [pow_one]
  have hlong : c ^ (1 + q * (q - 1)) ≡ d [ZMOD q ^ 2] := by
    rw [pow_add]
    exact (hone.mul (pow_mul_pred_modEq_one hq hcq')).trans (by rw [mul_one])
  have hpos : 0 < q * (q - 1) := Nat.mul_pos hq.pos (Nat.sub_pos_of_lt hq.one_lt)
  refine ⟨c, s, 1 + q * (q - 1), 1, ?_, by omega, ?_, ?_⟩
  · rw [Nat.cast_mul]
    exact hcp'.mul_right hcq'
  · exact fun z hz => ⟨haccept _ z hlong hz, haccept _ z hone hz⟩
  · rintro z z' hz ⟨u, hu, heq⟩
    refine hz (dvd_sub_of_pow_modEq (u := u) hp hq hpq ?_ ?_)
    · rw [Nat.cast_mul] at hu
      exact hu.of_mul_right_left
    · have hsq : ((p : ℤ) ^ 2) ∣ ((p * q : ℕ) : ℤ) ^ 2 := by
        push_cast
        exact pow_dvd_pow_of_dvd (dvd_mul_right _ _) 2
      have hc1 : c ^ (1 + q * (q - 1) - 1) ≡ 1 [ZMOD p ^ 2] :=
        (hcp.pow _).trans (by rw [one_pow])
      exact ((hc1.mul_right _).trans (by rw [one_mul])).symm.trans (heq.of_dvd hsq)

end Forgery

end Arith
