import Govis.Cggmp21.Keygen
import Govis.Cggmp21.Presign
import Govis.Lindell.Sign
import Govis.PaillierZkBounds

namespace Govis

open Arith Bytes Curve

/-!
# The size of what honest parties send

Numbers that an honest party computes under a modulus of at most `w` words of 32 bits.

* `Short` — at most `32 + 2 * w` words;
* `short_encryptWithRho` — ciphertexts are short;
* `short_proveRange`, `short_proveMul`, `short_provePoint`, `short_proveBlum` — so are the proofs.
-/

variable {C : Curve} {H : Hash} {pk : PaillierPublicKey} {sid : List UInt8} {w : ℕ}

theorem mul_lt_two_pow {a b i j k : ℕ} (ha : a < 2 ^ i) (hb : b < 2 ^ j) (hk : i + j ≤ k) :
    a * b < 2 ^ k := by
  refine lt_of_lt_of_le (Nat.mul_lt_mul'' ha hb) ?_
  rw [← pow_add]
  exact Nat.pow_le_pow_right (by norm_num) hk

/-- A number that fits `32 + 2 * w` words, whatever its sign. -/
def Short (w : ℕ) (z : ℤ) : Prop := z.natAbs < 2 ^ (32 * (32 + 2 * w))

/-- A public key whose modulus fits `w` words. -/
structure ShortKey (w : ℕ) (pk : PaillierPublicKey) : Prop where
  wellFormed : pk.WellFormed
  n_lt : pk.n < 2 ^ (32 * w)

theorem Short.of_lt {z : ℤ} {k : ℕ} (h : z.natAbs < 2 ^ k) (hk : k ≤ 32 * (32 + 2 * w)) : Short w z :=
  lt_of_lt_of_le h (Nat.pow_le_pow_right (by norm_num) hk)

namespace ShortKey

variable (h : ShortKey w pk)

include h

theorem nSq_lt : pk.nSq < 2 ^ (32 * (2 * w)) := by
  rw [h.wellFormed.nSq_eq]
  exact mul_lt_two_pow h.n_lt h.n_lt (by omega)

/-- What is reduced modulo the square is short. -/
theorem short_tmod_nSq (a : ℤ) : Short w (a.tmod pk.nSq) := by
  refine .of_lt (k := 32 * (2 * w)) (lt_trans ?_ h.nSq_lt) (by omega)
  rw [Int.natAbs_tmod, Int.natAbs_natCast]
  exact Nat.mod_lt _ (Nat.pos_of_ne_zero h.wellFormed.nSq_ne_zero)

/-- What is reduced modulo the modulus is short. -/
theorem short_tmod_n (a : ℤ) : Short w (a.tmod pk.n) := by
  refine .of_lt (k := 32 * w) (lt_trans ?_ h.n_lt) (by omega)
  rw [Int.natAbs_tmod, Int.natAbs_natCast]
  exact Nat.mod_lt _ (Nat.pos_of_ne_zero h.wellFormed.n_ne_zero)

theorem short_n : Short w (pk.n : ℤ) :=
  .of_lt (k := 32 * w) (by rw [Int.natAbs_natCast]; exact h.n_lt) (by omega)

theorem short_g : Short w (pk.g : ℤ) := by
  refine .of_lt (k := 32 * w + 1) ?_ (by omega)
  rw [Int.natAbs_natCast, h.wellFormed.g_eq, pow_succ]
  have := h.n_lt
  omega

theorem size_le : pk.n.size ≤ 32 * w := Nat.size_le.mpr h.n_lt

/-- **Ciphertexts.** -/
theorem short_encryptWithRho {m rho c : ℤ} (hc : encryptWithRho pk m rho = some c) : Short w c := by
  simp only [encryptWithRho, Option.bind_eq_bind, Option.bind_eq_some_iff, Option.pure_def] at hc
  obtain ⟨gm, -, rn, -, hc⟩ := hc
  cases hc
  exact h.short_tmod_nSq _

theorem short_commitWith {base gamma c : ℤ} (hc : commitWith pk base gamma = some c) : Short w c := by
  simp only [commitWith, Option.bind_eq_bind, Option.bind_eq_some_iff, Option.pure_def] at hc
  obtain ⟨gammaN, -, hc⟩ := hc
  cases hc
  exact h.short_tmod_nSq _

theorem short_respondWith {gamma rho e s : ℤ} (hs : respondWith pk gamma rho e = some s) :
    Short w s := by
  simp only [respondWith, Option.bind_eq_bind, Option.bind_eq_some_iff, Option.pure_def] at hs
  obtain ⟨rhoE, -, hs⟩ := hs
  cases hs
  exact h.short_tmod_n _

end ShortKey

/-! ### Responses -/

theorem challenge_lt (H : Hash) (input : List UInt8) : (challenge H input).natAbs < 2 ^ 256 := by
  rw [challenge, Int.natAbs_natCast]
  refine lt_of_lt_of_eq (ofBE_lt _) ?_
  rw [Vector.length_toList]
  norm_num

/-- What is drawn below a power of two. -/
theorem genBigintRange_lt {k u : ℕ} {x : ℤ} (h : genBigintRange 0 (2 ^ k) u = some x) :
    x.natAbs < 2 ^ k := by
  unfold genBigintRange at h
  rw [if_pos (by positivity)] at h
  have hx := Option.some.inj h
  have hpos : (0 : ℤ) < 2 ^ k := by positivity
  have h0 := Int.emod_nonneg (u : ℤ) (ne_of_gt hpos)
  have hlt := Int.emod_lt_of_pos (u : ℤ) hpos
  rw [zero_add, sub_zero] at hx
  rw [hx] at h0 hlt
  exact_mod_cast (Int.natAbs_of_nonneg h0).trans_lt hlt

/-- **A response** to a challenge, with a mask of `k` bits and a witness below `2 ^ 256`. -/
theorem short_response {k : ℕ} {alpha e m : ℤ} (halpha : alpha.natAbs < 2 ^ k)
    (he : e.natAbs < 2 ^ 256) (hm : m.natAbs < 2 ^ 256) (hk : k ≤ 768 + 64 * w) :
    Short w (alpha + e * m) := by
  have hprod : (e * m).natAbs < 2 ^ (768 + 64 * w) := by
    rw [Int.natAbs_mul]
    exact mul_lt_two_pow he hm (by omega)
  have hmask : alpha.natAbs < 2 ^ (768 + 64 * w) :=
    lt_of_lt_of_le halpha (Nat.pow_le_pow_right (by norm_num) hk)
  refine .of_lt (k := 768 + 64 * w + 1) ?_ (by omega)
  rw [pow_succ]
  have hle := Int.natAbs_add_le alpha (e * m)
  omega

section Proofs

variable (hpk : ShortKey w pk)

include hpk

/-- **Range proofs.** -/
theorem short_proveRange {c m rho : ℤ} {ell : ℕ} {draws : ProofDraws ℕ} {proof : RangeProof}
    (h : proveRange H pk c m rho ell sid draws = some proof) (hell : ell ≤ 256)
    (hm : m.natAbs < 2 ^ 256) : Short w proof.cAlpha ∧ Short w proof.z ∧ Short w proof.s := by
  simp only [proveRange, Option.bind_eq_bind, Option.bind_eq_some_iff, Option.pure_def] at h
  obtain ⟨alpha, halpha, gamma, -, cAlpha, hcAlpha, s, hs, hproof⟩ := h
  cases hproof
  refine ⟨hpk.short_commitWith hcAlpha, ?_, hpk.short_respondWith hs⟩
  have hsize := hpk.size_le
  exact short_response (genBigintRange_lt halpha) (challenge_lt H _) hm (by omega)

/-- **Multiplication proofs.** -/
theorem short_proveMul {cIn cOut scalar rhoOut : ℤ} {bits : ℕ} {draws : ProofDraws ℕ} {proof : MulProof}
    (h : proveMul H pk cIn cOut scalar rhoOut bits sid draws = some proof) (hbits : bits ≤ 256)
    (hscalar : scalar.natAbs < 2 ^ 256) :
    Short w proof.cT ∧ Short w proof.z ∧ Short w proof.sResponse := by
  simp only [proveMul, Option.bind_eq_bind, Option.bind_eq_some_iff, Option.pure_def] at h
  obtain ⟨t, ht, rhoT, -, cInT, -, cT, hcT, s, hs, hproof⟩ := h
  cases hproof
  refine ⟨hpk.short_commitWith hcT, ?_, hpk.short_respondWith hs⟩
  exact short_response (genBigintRange_lt ht) (challenge_lt H _) hscalar (by omega)

/-- **Consistency and log proofs.** -/
theorem short_provePoint {m rho : ℤ} {base : C.Point} {chal : C.Point → ℤ → ℤ}
    {draws : ProofDraws C.Scalar} {proof : PointProof C}
    (h : provePoint pk m rho base chal draws = some proof) (hchal : ∀ a c, (chal a c).natAbs < 2 ^ 256)
    (hm : m.natAbs < 2 ^ 256) :
    Short w proof.cAlpha ∧ Short w proof.z ∧ Short w proof.sResponse := by
  simp only [provePoint, Option.bind_eq_bind, Option.bind_eq_some_iff, Option.pure_def] at h
  obtain ⟨gamma, -, cAlpha, hcAlpha, s, hs, hproof⟩ := h
  cases hproof
  refine ⟨hpk.short_commitWith hcAlpha, ?_, hpk.short_respondWith hs⟩
  have halpha : (scalarToBigint draws.alpha).natAbs < 2 ^ 256 := by
    rw [scalarToBigint_eq, Int.natAbs_natCast]
    exact val_lt_two_pow_256 draws.alpha
  exact short_response halpha (hchal _ _) hm (by omega)

end Proofs

/-! ### Blum proofs -/

/-- What an iteration pushes is its index, and a root that is reduced. -/
theorem blumEntry_some {p q n i : ℕ} (hn : n ≠ 0) {entry : ℕ × Bool × ℤ}
    (h : blumEntry H p q n sid i = some (some entry)) : entry.1 = i ∧ entry.2.2.natAbs < n := by
  have hroot : ∀ {a root : ℤ}, blumRoot p q n a = some root → root.natAbs < n := by
    intro a root hroot
    simp only [blumRoot, Option.bind_eq_bind, Option.bind_eq_some_iff, Option.pure_def] at hroot
    obtain ⟨rp, -, rq, -, hroot⟩ := hroot
    cases hroot
    have hpos : (0 : ℤ) < n := by omega
    unfold crt
    rw [Int.fmod_eq_emod_of_nonneg _ (le_of_lt hpos)]
    have h0 := Int.emod_nonneg (rp + p * ((rq - rp).fmod n * modinvInternal p q).fmod q) (ne_of_gt hpos)
    have hlt := Int.emod_lt_of_pos (rp + p * ((rq - rp).fmod n * modinvInternal p q).fmod q) hpos
    omega
  simp only [blumEntry, Option.bind_eq_bind, Option.bind_eq_some_iff, Option.pure_def] at h
  obtain ⟨bp, -, bq, -, h⟩ := h
  split at h
  · simp only [Option.bind_eq_some_iff] at h
    obtain ⟨root, hr, h⟩ := h
    cases h
    exact ⟨rfl, hroot hr⟩
  · simp only [Option.bind_eq_some_iff] at h
    obtain ⟨np, -, nq, -, h⟩ := h
    split at h
    · simp only [Option.bind_eq_some_iff] at h
      obtain ⟨root, hr, h⟩ := h
      cases h
      exact ⟨rfl, hroot hr⟩
    · cases h

/-- **Blum proofs** have at most 128 entries, with indices below 128 and reduced roots. -/
theorem short_proveBlum {p q n : ℕ} (hn : n ≠ 0) {proof : BlumProof}
    (h : proveBlum H p q n sid = some proof) :
    proof.challengeIndices.length ≤ 128 ∧ proof.bits.length ≤ 128 ∧ proof.roots.length ≤ 128 ∧
      (∀ i ∈ proof.challengeIndices, i < 128) ∧ ∀ root ∈ proof.roots, root.natAbs < n := by
  simp only [proveBlum, Option.bind_eq_bind, Option.bind_eq_some_iff, Option.pure_def] at h
  obtain ⟨pushed, hpushed, hproof⟩ := h
  cases hproof
  choose! g hg using exists_map_of_mapM hpushed
  obtain rfl : (List.range 128).map g = pushed := by
    rw [mapM_eq_map fun i hi => hg i hi] at hpushed
    exact Option.some.inj hpushed
  set pushed := (List.range 128).map g with hpushed
  have hlen : pushed.length = 128 := by rw [List.length_map, List.length_range]
  have hle : (pushed.filterMap id).length ≤ 128 := hlen ▸ List.length_filterMap_le id pushed
  have hentry : ∀ entry ∈ pushed.filterMap id, entry.1 < 128 ∧ entry.2.2.natAbs < n := by
    intro entry hmem
    obtain ⟨_, hmem, rfl⟩ := List.mem_filterMap.mp hmem
    obtain ⟨i, hi, hpush⟩ := List.mem_map.mp hmem
    obtain ⟨heq, hroot⟩ := blumEntry_some hn ((hg i hi).trans (congrArg some hpush))
    exact ⟨heq ▸ List.mem_range.mp hi, hroot⟩
  simp only [List.length_map, List.mem_map]
  refine ⟨hle, hle, hle, ?_, ?_⟩
  · rintro i ⟨entry, hmem, rfl⟩
    exact (hentry entry hmem).1
  · rintro root ⟨entry, hmem, rfl⟩
    exact (hentry entry hmem).2

end Govis
