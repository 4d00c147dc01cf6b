import Govis.Arith.Euclid
import Govis.Arith.Paillier
import Govis.Arith.PowMod
import Mathlib.Tactic.NormNum.Prime

namespace Govis

open Arith

/-!
# Paillier encryption

`paillier.rs`.  `BigUint` is `ℕ` and `BigInt` is `ℤ`; its operators `/` and `%` truncate, and
`mod_floor` is `Int.fmod`.  A panic is `none`.  A modulus of zero makes `modpow` panic before
anything is divided by it.

* `generateKeypairExt` — key generation from a list of prime draws;
* `Generated` — the keypairs it can return, and `Generated.valid`, what holds of them;
* `encryptWithRho_eq` — encryption succeeds, and with what;
* `decrypt_of_encrypts` — decryption returns the message modulo `n`;
* `decrypt_homomorphism` — so it does on whatever `add` and `scalar_mul` build from ciphertexts.
-/

/-- Paillier public key. `n = p * q`, `n_sq = n^2`, `g` the generator. -/
structure PaillierPublicKey where
  n : ℕ
  nSq : ℕ
  g : ℕ
deriving DecidableEq, Repr

/-- Paillier private key. -/
structure PaillierPrivateKey where
  lambda : ℕ
  mu : ℕ
deriving DecidableEq, Repr

structure PaillierKeypair where
  pk : PaillierPublicKey
  sk : PaillierPrivateKey
deriving DecidableEq, Repr

/-- `gen_bigint_range`: an element of `[lo, hi)` from the draw `u`; an empty range panics. -/
def genBigintRange (lo hi : ℤ) (u : ℕ) : Option ℤ :=
  if lo < hi then some (lo + u % (hi - lo)) else none

/-- `encrypt_with_rho`. -/
def encryptWithRho (pk : PaillierPublicKey) (m rho : ℤ) : Option ℤ := do
  let gm ← modpow pk.g m pk.nSq
  let rn ← modpow rho pk.n pk.nSq
  return (gm * rn).tmod pk.nSq

/-- `PaillierPublicKey::add`. -/
def add (pk : PaillierPublicKey) (c1 c2 : ℤ) : ℤ := (c1 * c2).tmod pk.nSq

/-- `PaillierPublicKey::scalar_mul`. -/
def scalarMul (pk : PaillierPublicKey) (c k : ℤ) : Option ℤ := modpow c k pk.nSq

/-- `l_function`. -/
def lFunction (x n : ℤ) : ℤ := (x - 1).tdiv n

/-- `PaillierPrivateKey::decrypt`. -/
def decrypt (sk : PaillierPrivateKey) (pk : PaillierPublicKey) (c : ℤ) : Option ℤ := do
  let cLambda ← modpow c sk.lambda pk.nSq
  let l := lFunction cLambda pk.n
  return (l * sk.mu).tmod pk.n

/-- `modinv`: zero when there is no inverse. -/
def modinv (a n : ℤ) : ℤ :=
  let res := euclidLoop n.toNat 0 1 n (a.fmod n)
  -- the divisor is not one
  if res.2 > 1 then 0
  else if res.1 < 0 then res.1 + n
  else res.1

/-- `biguint_gcd`. -/
def biguintGcd (a b : ℕ) : ℕ :=
  if _ : b = 0 then a else biguintGcd b (a % b)
termination_by b
decreasing_by exact Nat.mod_lt a (Nat.pos_of_ne_zero ‹_›)

/-- `lcm`. -/
def lcm (a b : ℕ) : ℕ := a * b / biguintGcd a b

/-- The body of the loop of `generate_keypair_ext` after two distinct primes are drawn; none
    when the loop goes on because `mu` is zero. -/
def keypairOf (p q : ℕ) : Option PaillierKeypair := do
  let n := p * q
  let nSq := n * n
  let g := n + 1
  let lambda := lcm (p - 1) (q - 1)
  let gLambda ← modpow g lambda nSq
  let l := lFunction gLambda n
  let mu := modinv l n
  if mu = 0 then none
  else return { pk := { n, nSq, g }, sk := { lambda, mu := mu.toNat } }

/-- `generate_keypair_ext` on the primes that the generator draws; none when it has not returned
    by the end of the list. -/
def generateKeypairExt : List ℕ → Option (ℕ × ℕ × PaillierKeypair)
  | [] => none
  | [_] => none
  | p :: q :: rest =>
    -- the first prime is drawn again until it is 3 modulo 4
    if p % 4 ≠ 3 then generateKeypairExt (q :: rest)
    else if q % 4 ≠ 3 then generateKeypairExt rest
    else if p = q then generateKeypairExt rest
    else match keypairOf p q with
      | none => generateKeypairExt rest
      | some kp => some (p, q, kp)

/-- The keypairs that `generate_keypair_ext` can return. -/
def Generated (p q : ℕ) (kp : PaillierKeypair) : Prop :=
  ∃ draws : List ℕ, (∀ d ∈ draws, d.Prime) ∧ generateKeypairExt draws = some (p, q, kp)

/-! ### Public keys -/

/-- What key generation and the parties that rebuild a public key from its modulus ensure. -/
structure PaillierPublicKey.WellFormed (pk : PaillierPublicKey) : Prop where
  one_lt : 1 < pk.n
  nSq_eq : pk.nSq = pk.n * pk.n
  g_eq : pk.g = pk.n + 1

section PublicKey

variable {pk : PaillierPublicKey}

theorem PaillierPublicKey.WellFormed.nSq_pos (h : pk.WellFormed) : (0 : ℤ) < pk.nSq := by
  have hn := h.one_lt
  rw [h.nSq_eq]
  exact_mod_cast Nat.mul_pos (by omega) (by omega)

theorem PaillierPublicKey.WellFormed.n_pos (h : pk.WellFormed) : (0 : ℤ) < pk.n := by
  have hn := h.one_lt
  omega

theorem PaillierPublicKey.WellFormed.n_ne_zero (h : pk.WellFormed) : pk.n ≠ 0 := by
  exact_mod_cast ne_of_gt h.n_pos

theorem PaillierPublicKey.WellFormed.nSq_ne_zero (h : pk.WellFormed) : pk.nSq ≠ 0 := by
  exact_mod_cast ne_of_gt h.nSq_pos

theorem PaillierPublicKey.WellFormed.nSq_cast (h : pk.WellFormed) : (pk.nSq : ℤ) = pk.n ^ 2 := by
  rw [h.nSq_eq, Nat.cast_mul, sq]

theorem PaillierPublicKey.WellFormed.g_cast (h : pk.WellFormed) : (pk.g : ℤ) = 1 + pk.n := by
  rw [h.g_eq, Nat.cast_add, Nat.cast_one, add_comm]

/-- The powers that make up ciphertexts never panic, and are reduced. -/
theorem PaillierPublicKey.WellFormed.modpow_eq (h : pk.WellFormed) (b : ℤ) (e : ℕ) :
    modpow b e pk.nSq = some (b ^ e % pk.nSq) :=
  modpow_natCast b e h.nSq_pos

theorem tmod_modEq (a m : ℤ) : a.tmod m ≡ a [ZMOD m] :=
  Int.modEq_iff_dvd.mpr ⟨a.tdiv m, by rw [Int.tmod_def]; ring⟩

/-- A truncated remainder of a product of reduced factors. -/
theorem tmod_mul_emod {a b m : ℤ} (hm : 0 < m) : (a % m * (b % m)).tmod m = a * b % m := by
  rw [Int.tmod_eq_emod_of_nonneg (mul_nonneg (Int.emod_nonneg _ (ne_of_gt hm))
    (Int.emod_nonneg _ (ne_of_gt hm))), ← Int.mul_emod]

/-- **Encryption** of a non-negative number succeeds. -/
theorem encryptWithRho_eq (h : pk.WellFormed) (m : ℕ) (rho : ℤ) :
    encryptWithRho pk m rho = some ((1 + pk.n) ^ m * rho ^ pk.n % pk.n ^ 2) := by
  rw [encryptWithRho, h.modpow_eq, h.modpow_eq, h.g_cast]
  simp only [Option.bind_eq_bind, Option.bind_some, Option.pure_def, Option.some.injEq]
  rw [tmod_mul_emod h.nSq_pos, h.nSq_cast]

end PublicKey

/-! ### Key generation -/

theorem biguintGcd_eq (a b : ℕ) : biguintGcd a b = Nat.gcd a b := by
  induction b using Nat.strong_induction_on generalizing a with
  | _ b ih =>
    rw [biguintGcd]
    split
    · rename_i hb
      rw [hb, Nat.gcd_zero_right]
    · rename_i hb
      rw [ih _ (Nat.mod_lt a (Nat.pos_of_ne_zero hb)), Nat.gcd_comm, ← Nat.gcd_rec, Nat.gcd_comm]

theorem lcm_eq (a b : ℕ) : lcm a b = Nat.lcm a b := by
  rw [lcm, biguintGcd_eq]
  rfl

/-- The result is the inverse if there is one. -/
theorem isInverse_modinv {a n : ℤ} (hn : 1 < n) (hcop : Int.gcd a n = 1) :
    IsInverse a n (modinv a n) := by
  have hgcd := euclidLoop_start_gcd a hn
  rw [hcop, Nat.cast_one] at hgcd
  simp only [modinv]
  rw [if_neg (by omega)]
  exact euclidLoop_isInverse hn hcop

/-- It is zero otherwise. -/
theorem modinv_eq_zero {a n : ℤ} (hn : 1 < n) (hgcd : Int.gcd a n ≠ 1) : modinv a n = 0 := by
  have hloop := euclidLoop_start_gcd a hn
  have hpos : 0 < Int.gcd a n := Int.gcd_pos_of_ne_zero_right a (by omega)
  simp only [modinv]
  rw [if_pos (by omega)]

/-- **Modular inverses.** A number coprime to the modulus has a non-zero one, and a non-zero
    result is an inverse. -/
theorem modinv_spec {a n : ℤ} (hn : 1 < n) :
    (IsCoprime a n → modinv a n ≠ 0) ∧
      (modinv a n ≠ 0 → 0 ≤ modinv a n ∧ a * modinv a n ≡ 1 [ZMOD n]) := by
  constructor
  · intro hcop
    exact (isInverse_modinv hn (Int.isCoprime_iff_gcd_eq_one.mp hcop)).ne_zero hn
  · intro hne
    have hinv := isInverse_modinv hn (not_not.mp fun hgcd => hne (modinv_eq_zero hn hgcd))
    exact ⟨hinv.nonneg, hinv.mul_modEq⟩

/-- What holds of a keypair that key generation returns. -/
structure ValidKeypair (p q : ℕ) (kp : PaillierKeypair) : Prop where
  p_prime : p.Prime
  q_prime : q.Prime
  p_mod : p % 4 = 3
  q_mod : q % 4 = 3
  ne : p ≠ q
  n_eq : kp.pk.n = p * q
  wellFormed : kp.pk.WellFormed
  lambda_eq : kp.sk.lambda = Nat.lcm (p - 1) (q - 1)
  mu_inverse : (kp.sk.lambda * kp.sk.mu : ℤ) ≡ 1 [ZMOD kp.pk.n]

/-- `1 + n` raised to `lambda` exposes `lambda`. -/
theorem lFunction_one_add_pow {n : ℕ} (hn : 1 < n) (l : ℕ) :
    lFunction ((1 + n) ^ l % n ^ 2) n = (l : ℤ) % n :=
  emod_sq_sub_one_div hn (one_add_pow_modEq n l)

/-- **Key generation** on two distinct primes: it fails only if `lambda` has no inverse. -/
theorem keypairOf_eq {p q : ℕ} (hp : p.Prime) (hq : q.Prime) :
    keypairOf p q =
      let lambda := Nat.lcm (p - 1) (q - 1)
      if modinv (lambda % (p * q : ℕ) : ℤ) (p * q : ℕ) = 0 then none
      else some ⟨⟨p * q, p * q * (p * q), p * q + 1⟩,
        ⟨lambda, (modinv (lambda % (p * q : ℕ) : ℤ) (p * q : ℕ)).toNat⟩⟩ := by
  have hn : 1 < p * q := by nlinarith [hp.two_le, hq.two_le]
  have hpk : (⟨p * q, p * q * (p * q), p * q + 1⟩ : PaillierPublicKey).WellFormed := ⟨hn, rfl, rfl⟩
  have hsq : ((p * q * (p * q) : ℕ) : ℤ) = ((p * q : ℕ) : ℤ) ^ 2 := hpk.nSq_cast
  have hg : ((p * q + 1 : ℕ) : ℤ) = 1 + (p * q : ℕ) := hpk.g_cast
  have hpow : modpow (p * q + 1 : ℕ) (Nat.lcm (p - 1) (q - 1) : ℕ) (p * q * (p * q) : ℕ) =
      some ((1 + (p * q : ℕ) : ℤ) ^ Nat.lcm (p - 1) (q - 1) % ((p * q : ℕ) : ℤ) ^ 2) := by
    rw [← hsq, ← hg]
    exact hpk.modpow_eq _ _
  simp only [keypairOf, lcm_eq, hpow, Option.bind_eq_bind, Option.bind_some,
    lFunction_one_add_pow hn]
  rfl

/-- A keypair of two distinct primes inverts `lambda`. -/
theorem valid_of_keypairOf {p q : ℕ} {kp : PaillierKeypair} (hp : p.Prime) (hq : q.Prime)
    (hp3 : p % 4 = 3) (hq3 : q % 4 = 3) (hpq : p ≠ q) (h : keypairOf p q = some kp) :
    ValidKeypair p q kp := by
  have hn : 1 < p * q := by nlinarith [hp.two_le, hq.two_le]
  simp only [keypairOf_eq hp hq] at h
  split at h
  · cases h
  · rename_i hmu
    cases h
    obtain ⟨hpos, hinv⟩ := (modinv_spec (show (1 : ℤ) < (p * q : ℕ) by exact_mod_cast hn)).2 hmu
    refine ⟨hp, hq, hp3, hq3, hpq, rfl, ⟨hn, rfl, rfl⟩, rfl, ?_⟩
    rw [Int.toNat_of_nonneg hpos]
    exact ((Int.mod_modEq _ _).symm.mul_right _).trans hinv

/-- **What key generation returns.** -/
theorem Generated.valid {p q : ℕ} {kp : PaillierKeypair} (h : Generated p q kp) :
    ValidKeypair p q kp := by
  obtain ⟨draws, hprime, hgen⟩ := h
  fun_induction generateKeypairExt draws with
  | case1 => cases hgen
  | case2 => cases hgen
  | case3 p' q' rest hp' ih => exact ih (fun d hd => hprime d (List.mem_cons_of_mem _ hd)) hgen
  | case4 p' q' rest hp' hq' ih =>
    exact ih (fun d hd => hprime d (List.mem_cons_of_mem _ (List.mem_cons_of_mem _ hd))) hgen
  | case5 q' rest hq' _ ih =>
    exact ih (fun d hd => hprime d (List.mem_cons_of_mem _ (List.mem_cons_of_mem _ hd))) hgen
  | case6 p' q' rest hp' hq' hne hnone ih =>
    exact ih (fun d hd => hprime d (List.mem_cons_of_mem _ (List.mem_cons_of_mem _ hd))) hgen
  | case7 p' q' rest hp' hq' hne kp' hkp =>
    cases hgen
    exact valid_of_keypairOf (hprime _ (by simp)) (hprime _ (by simp)) (not_not.mp hp')
      (not_not.mp hq') hne hkp

/-- **Key generation returns** when it draws two primes whose `lambda` is coprime to their
    product. -/
theorem exists_generated {p q : ℕ} (hp : p.Prime) (hq : q.Prime) (hp3 : p % 4 = 3)
    (hq3 : q % 4 = 3) (hpq : p ≠ q) (hcop : Nat.Coprime (Nat.lcm (p - 1) (q - 1)) (p * q)) :
    ∃ kp, Generated p q kp ∧ kp.pk = ⟨p * q, p * q * (p * q), p * q + 1⟩ := by
  have hn : (1 : ℤ) < (p * q : ℕ) := by
    have : 1 < p * q := by nlinarith [hp.two_le, hq.two_le]
    exact_mod_cast this
  have hunit : IsCoprime ((Nat.lcm (p - 1) (q - 1) : ℤ) % (p * q : ℕ)) (p * q : ℕ) := by
    rw [Int.isCoprime_iff_gcd_eq_one, Int.gcd_emod, Int.gcd_natCast_natCast]
    exact hcop
  have hpair : ∃ kp, keypairOf p q = some kp ∧ kp.pk = ⟨p * q, p * q * (p * q), p * q + 1⟩ := by
    simp only [keypairOf_eq hp hq, if_neg ((modinv_spec hn).1 hunit)]
    exact ⟨_, rfl, rfl⟩
  obtain ⟨kp, hkp, hpk⟩ := hpair
  refine ⟨kp, ⟨[p, q], by simpa using ⟨hp, hq⟩, ?_⟩, hpk⟩
  rw [generateKeypairExt, if_neg (not_not.mpr hp3), if_neg (not_not.mpr hq3), if_neg hpq, hkp]

section Keypair

variable {p q : ℕ} {kp : PaillierKeypair}

/-- Decryption never panics, whatever the ciphertext. -/
theorem exists_decrypt (h : kp.pk.WellFormed) (c : ℤ) : ∃ m, decrypt kp.sk kp.pk c = some m := by
  rw [decrypt, h.modpow_eq]
  exact ⟨_, rfl⟩

/-- **Decryption** returns the message modulo `n`. -/
theorem decrypt_of_encrypts (h : ValidKeypair p q kp) {c : ℤ} {m : ℕ}
    (hc : Encrypts kp.pk.n c m) : decrypt kp.sk kp.pk c = some ((m % kp.pk.n : ℕ) : ℤ) := by
  have hpos := h.wellFormed.n_pos
  have hl : lFunction (c ^ kp.sk.lambda % kp.pk.nSq) kp.pk.n =
      (m * kp.sk.lambda : ℕ) % (kp.pk.n : ℤ) := by
    rw [h.wellFormed.nSq_cast]
    refine emod_sq_sub_one_div h.wellFormed.one_lt ?_
    rw [h.n_eq] at hc ⊢
    rw [h.lambda_eq]
    exact hc.pow_lcm h.p_prime h.q_prime h.ne
  have hmsg : (m * kp.sk.lambda : ℕ) % (kp.pk.n : ℤ) * kp.sk.mu ≡ m [ZMOD kp.pk.n] :=
    calc (m * kp.sk.lambda : ℕ) % (kp.pk.n : ℤ) * kp.sk.mu
        ≡ (m * kp.sk.lambda : ℕ) * kp.sk.mu [ZMOD kp.pk.n] := (Int.mod_modEq _ _).mul_right _
      _ = m * (kp.sk.lambda * kp.sk.mu) := by push_cast; ring
      _ ≡ m * 1 [ZMOD kp.pk.n] := h.mu_inverse.mul_left _
      _ = m := mul_one _
  rw [decrypt, h.wellFormed.modpow_eq]
  simp only [Option.bind_eq_bind, Option.bind_some, Option.pure_def, Option.some.injEq, hl]
  rw [Int.tmod_eq_emod_of_nonneg (mul_nonneg (Int.emod_nonneg _ (ne_of_gt hpos))
    (Int.natCast_nonneg _)), hmsg.eq, Int.natCast_mod]

end Keypair

/-! ### Expressions over ciphertexts -/

/-- An expression over ciphertexts; the leaves are fresh encryptions. -/
inductive CipherExpr where
  | enc (m : ℕ) (rho : ℤ)
  | add (a b : CipherExpr)
  | scalarMul (a : CipherExpr) (k : ℕ)
deriving Repr

namespace CipherExpr

/-- The ciphertext that the operations of the key compute. -/
def cipher (pk : PaillierPublicKey) : CipherExpr → Option ℤ
  | enc m rho => encryptWithRho pk m rho
  | add a b => do
    let c1 ← a.cipher pk
    let c2 ← b.cipher pk
    return Govis.add pk c1 c2
  | scalarMul a k => do
    let c ← a.cipher pk
    Govis.scalarMul pk c k

/-- The same expression over the plaintexts. -/
def value : CipherExpr → ℕ
  | enc m _ => m
  | add a b => a.value + b.value
  | scalarMul a k => k * a.value

/-- The randomness of every leaf is coprime to `n`. -/
def Fresh (n : ℕ) : CipherExpr → Prop
  | enc _ rho => IsCoprime rho n
  | add a b => a.Fresh n ∧ b.Fresh n
  | scalarMul a _ => a.Fresh n

end CipherExpr

section Homomorphism

variable {p q : ℕ} {kp : PaillierKeypair} {pk : PaillierPublicKey}

theorem encrypts_add (h : pk.WellFormed) {c1 c2 : ℤ} {m1 m2 : ℕ} (h1 : Encrypts pk.n c1 m1)
    (h2 : Encrypts pk.n c2 m2) : Encrypts pk.n (add pk c1 c2) (m1 + m2) := by
  apply (h1.mul h2).congr
  rw [add, ← h.nSq_cast]
  exact tmod_modEq _ _

theorem encrypts_scalarMul (h : pk.WellFormed) {c : ℤ} {m : ℕ} (hc : Encrypts pk.n c m) (k : ℕ) :
    ∃ c', scalarMul pk c k = some c' ∧ Encrypts pk.n c' (k * m) := by
  refine ⟨_, h.modpow_eq c k, (hc.pow k).congr ?_⟩
  rw [← h.nSq_cast]
  exact Int.mod_modEq _ _

/-- **Expressions are ciphertexts** of their values. -/
theorem CipherExpr.encrypts (h : pk.WellFormed) (e : CipherExpr) (he : e.Fresh pk.n) :
    ∃ c, e.cipher pk = some c ∧ Encrypts pk.n c e.value := by
  induction e with
  | enc m rho =>
    refine ⟨_, encryptWithRho_eq h m rho, ?_⟩
    exact ⟨rho, he, Int.mod_modEq _ _⟩
  | add a b iha ihb =>
    obtain ⟨c1, hc1, hm1⟩ := iha he.1
    obtain ⟨c2, hc2, hm2⟩ := ihb he.2
    refine ⟨Govis.add pk c1 c2, ?_, encrypts_add h hm1 hm2⟩
    simp [CipherExpr.cipher, hc1, hc2]
  | scalarMul a k ih =>
    obtain ⟨c, hc, hm⟩ := ih he
    obtain ⟨c', hc', hm'⟩ := encrypts_scalarMul h hm k
    refine ⟨c', ?_, hm'⟩
    simp [CipherExpr.cipher, hc, hc']

/-- **Decryption is a homomorphism**: on every expression it returns the value of the plaintexts
    modulo `n`, and on an encryption of a number below `n` that number. -/
theorem decrypt_homomorphism (h : Generated p q kp) :
    (∀ e : CipherExpr, e.Fresh kp.pk.n → ∃ c, e.cipher kp.pk = some c ∧
      decrypt kp.sk kp.pk c = some ((e.value % kp.pk.n : ℕ) : ℤ)) ∧
    ∀ (m : ℕ) (rho : ℤ), IsCoprime rho kp.pk.n → m < kp.pk.n →
      ∃ c, encryptWithRho kp.pk m rho = some c ∧ decrypt kp.sk kp.pk c = some (m : ℤ) := by
  have hall : ∀ e : CipherExpr, e.Fresh kp.pk.n → ∃ c, e.cipher kp.pk = some c ∧
      decrypt kp.sk kp.pk c = some ((e.value % kp.pk.n : ℕ) : ℤ) := by
    intro e he
    obtain ⟨c, hc, hm⟩ := e.encrypts h.valid.wellFormed he
    exact ⟨c, hc, decrypt_of_encrypts h.valid hm⟩
  refine ⟨hall, fun m rho hrho hm => ?_⟩
  obtain ⟨c, hc, hdec⟩ := hall (.enc m rho) hrho
  refine ⟨c, hc, ?_⟩
  rw [hdec]
  show some ((m % kp.pk.n : ℕ) : ℤ) = some (m : ℤ)
  rw [Nat.mod_eq_of_lt hm]

/-- The draws `7` and `11` make a keypair. -/
theorem generated_seven_eleven : Generated 7 11 ⟨⟨77, 5929, 78⟩, ⟨30, 18⟩⟩ := by
  have hp : Nat.Prime 7 := by norm_num
  have hq : Nat.Prime 11 := by norm_num
  have hpair : keypairOf 7 11 = some ⟨⟨77, 5929, 78⟩, ⟨30, 18⟩⟩ := by
    rw [keypairOf_eq hp hq]
    rfl
  refine ⟨[7, 11], by simpa using ⟨hp, hq⟩, ?_⟩
  rw [generateKeypairExt, if_neg (by norm_num), if_neg (by norm_num), if_neg (by norm_num), hpair]

/-- Ten times the sum of 5 and 4 under the key of 7 and 11. -/
theorem decrypt_homomorphism_seven_eleven :
    ∃ c, (CipherExpr.scalarMul (.add (.enc 5 2) (.enc 4 3)) 10).cipher ⟨77, 5929, 78⟩ = some c ∧
      decrypt ⟨30, 18⟩ ⟨77, 5929, 78⟩ c = some 13 := by
  have hfresh : (CipherExpr.scalarMul (.add (.enc 5 2) (.enc 4 3)) 10).Fresh 77 := by
    show IsCoprime (2 : ℤ) (77 : ℕ) ∧ IsCoprime (3 : ℤ) (77 : ℕ)
    rw [Int.isCoprime_iff_gcd_eq_one, Int.isCoprime_iff_gcd_eq_one]
    decide
  exact (decrypt_homomorphism generated_seven_eleven).1 _ hfresh

end Homomorphism

end Govis
