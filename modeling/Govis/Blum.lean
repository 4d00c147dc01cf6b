import Govis.Arith.Residues
import Govis.PaillierZkComplete

namespace Govis

open Arith

/-!
# What Blum proofs show

* `verifyBlum_iff_answered` — what the verifier asks of a proof;
* `completeAnswers_iff` — **completeness is not part of it**: wherever a proof is accepted, so is one
  that gives one answer twice;
* `proveBlum_answers` — **honest proofs** answer exactly these challenges, and are accepted if
  there is one.
-/

variable {H : Hash} {sid : List UInt8} {n : ℕ}

/-- The entries that the loop of `verify_blum` looks at. -/
def BlumProof.entries (proof : BlumProof) : List ((ℕ × Bool) × ℤ) :=
  (proof.challengeIndices.zip proof.bits).zip proof.roots

/-- What the root of an entry is to square to: the challenge or its negative. -/
def blumResidue (H : Hash) (sid : List UInt8) (n : ℕ) (i : ℕ) (bit : Bool) : ℤ :=
  if bit then blumChallenge H sid n i else -blumChallenge H sid n i

/-! ### The verifier -/

/-- Reduction modulo `n`, of the challenge and of its negative. -/
theorem blumResidue_modEq (H : Hash) (sid : List UInt8) (n i : ℕ) (bit : Bool) :
    (if bit then (blumChallenge H sid n i).fmod n else n - (blumChallenge H sid n i).fmod n) ≡
      blumResidue H sid n i bit [ZMOD n] := by
  have hc : (blumChallenge H sid n i).fmod n ≡ blumChallenge H sid n i [ZMOD n] := by
    rw [Int.fmod_eq_emod_of_nonneg _ (Int.natCast_nonneg n)]
    exact Int.mod_modEq _ _
  cases bit with
  | true => exact hc
  | false =>
    have hzero : (n : ℤ) ≡ 0 [ZMOD n] := Int.modEq_zero_iff_dvd.mpr (dvd_refl _)
    exact (hzero.sub hc).trans (by rw [zero_sub]; rfl)

/-- **The test of an entry.** -/
theorem blumEntryValid_iff (hn : 0 < n) (entry : (ℕ × Bool) × ℤ) :
    blumEntryValid H n sid entry = true ↔
      entry.2 ^ 2 ≡ blumResidue H sid n entry.1.1 entry.1.2 [ZMOD n] := by
  have hpos : (0 : ℤ) < n := by exact_mod_cast hn
  rw [blumEntryValid, modpow_of_nonneg _ (by norm_num) hpos]
  simp only [beq_iff_eq, Option.some.injEq]
  rw [Int.fmod_eq_emod_of_nonneg _ (le_of_lt hpos)]
  exact ⟨fun h => Int.ModEq.trans h (blumResidue_modEq H sid n _ _),
    fun h => Int.ModEq.trans h (blumResidue_modEq H sid n _ _).symm⟩

/-- What the verifier asks: there are bits, no other list is shorter, and each entry with a bit has
    a good root. -/
structure Answered (H : Hash) (n : ℕ) (sid : List UInt8) (proof : BlumProof) : Prop where
  mod_four : n % 4 = 1
  ne_nil : proof.bits ≠ []
  le_indices : proof.bits.length ≤ proof.challengeIndices.length
  le_roots : proof.bits.length ≤ proof.roots.length
  valid : ∀ entry ∈ proof.entries,
    entry.2 ^ 2 ≡ blumResidue H sid n entry.1.1 entry.1.2 [ZMOD n]

/-- **The verifier.** -/
theorem verifyBlum_iff_answered (proof : BlumProof) :
    verifyBlum H n sid proof = true ↔ Answered H n sid proof := by
  have hfmod : (n : ℤ).fmod 4 = (n % 4 : ℕ) := by
    rw [Int.fmod_eq_emod_of_nonneg _ (by norm_num)]
    omega
  have hlen : proof.entries.length =
      min (min proof.challengeIndices.length proof.bits.length) proof.roots.length := by
    rw [BlumProof.entries, List.length_zip, List.length_zip]
  by_cases h4 : n % 4 = 1
  · have hn : 0 < n := by omega
    have hcount : verifyBlum H n sid proof = true ↔
        0 < proof.entries.countP (blumEntryValid H n sid) ∧
          proof.entries.countP (blumEntryValid H n sid) = proof.bits.length := by
      rw [verifyBlum, if_neg (by omega), if_neg (by rw [hfmod, h4]; decide)]
      simp only [Bool.and_eq_true, decide_eq_true_eq, beq_iff_eq, BlumProof.entries]
    have hle := List.countP_le_length (p := blumEntryValid H n sid) (l := proof.entries)
    rw [hcount]
    constructor
    · rintro ⟨hpos, heq⟩
      -- as many good entries as bits: no entry is cut off, and none is bad
      have hall : proof.entries.countP (blumEntryValid H n sid) = proof.entries.length := by omega
      refine ⟨h4, List.ne_nil_of_length_pos (heq ▸ hpos), by omega, by omega, ?_⟩
      intro entry hentry
      exact (blumEntryValid_iff hn entry).mp (List.countP_eq_length.mp hall entry hentry)
    · intro h
      have hall : proof.entries.countP (blumEntryValid H n sid) = proof.entries.length :=
        List.countP_eq_length.mpr fun entry hentry =>
          (blumEntryValid_iff hn entry).mpr (h.valid entry hentry)
      have hbits := List.length_pos_iff.mpr h.ne_nil
      have hindices := h.le_indices
      have hroots := h.le_roots
      omega
  · have hreject : verifyBlum H n sid proof = false := by
      rw [verifyBlum]
      split
      · rfl
      · rw [if_pos]
        rw [hfmod]
        exact fun h => h4 (by exact_mod_cast h)
    rw [hreject]
    exact iff_of_false Bool.false_ne_true fun h => h4 h.mod_four

/-! ### Complete answers -/

/-- The proof answers every challenge with the Jacobi symbol 1, each once, and the lists match. -/
structure CompleteAnswers (H : Hash) (n : ℕ) (sid : List UInt8) (proof : BlumProof) : Prop where
  one_lt : 1 < n
  length_indices : proof.challengeIndices.length = proof.bits.length
  length_roots : proof.roots.length = proof.bits.length
  nodup : proof.challengeIndices.Nodup
  lt : ∀ i ∈ proof.challengeIndices, i < 128
  answers : ∀ i < 128, jacobiSym (blumChallenge H sid n i) n = 1 → ∃ bit root,
    ((i, bit), root) ∈ proof.entries ∧ root ^ 2 ≡ blumResidue H sid n i bit [ZMOD n]

/-- The indices are of the type `u64`. -/
def BlumProof.Fits (proof : BlumProof) : Prop := ∀ i ∈ proof.challengeIndices, i < 2 ^ 64

theorem mem_indices_of_mem_entries {proof : BlumProof} {i : ℕ} {bit : Bool} {root : ℤ}
    (h : ((i, bit), root) ∈ proof.entries) : i ∈ proof.challengeIndices :=
  (List.of_mem_zip (List.of_mem_zip h).1).1

/-- An accepted proof has a first entry. -/
theorem Answered.exists_mem_entries {proof : BlumProof} (h : Answered H n sid proof) :
    ∃ entry, entry ∈ proof.entries := by
  have hbits := List.length_pos_iff.mpr h.ne_nil
  have hindices := h.le_indices
  have hroots := h.le_roots
  apply List.exists_mem_of_length_pos
  rw [BlumProof.entries, List.length_zip, List.length_zip]
  omega

/-- **One good answer, given twice**, is a proof that the verifier accepts. -/
theorem answered_twice (h4 : n % 4 = 1) {i : ℕ} {bit : Bool} {root : ℤ}
    (hroot : root ^ 2 ≡ blumResidue H sid n i bit [ZMOD n]) :
    Answered H n sid ⟨[i, i], [bit, bit], [root, root]⟩ where
  mod_four := h4
  ne_nil := List.cons_ne_nil _ _
  le_indices := Nat.le_refl 2
  le_roots := Nat.le_refl 2
  valid entry hentry := by
    have hmem : entry = ((i, bit), root) := by simpa [BlumProof.entries] using hentry
    rw [hmem]
    exact hroot

/-- **When acceptance means completeness.**  For a modulus and a session id every accepted proof is
    complete exactly if none is accepted: the modulus is not 1 modulo 4, or no challenge that a
    64-bit index can name is a square up to its sign. -/
theorem completeAnswers_iff (H : Hash) (n : ℕ) (sid : List UInt8) :
    (∀ proof : BlumProof, proof.Fits → verifyBlum H n sid proof = true →
      CompleteAnswers H n sid proof) ↔
      n % 4 ≠ 1 ∨ ∀ i < 2 ^ 64, ∀ root : ℤ,
        ¬ root ^ 2 ≡ blumChallenge H sid n i [ZMOD n] ∧
          ¬ root ^ 2 ≡ -blumChallenge H sid n i [ZMOD n] := by
  constructor
  · intro h
    by_contra hnot
    push Not at hnot
    obtain ⟨h4, i, hi, root, hsquare⟩ := hnot
    obtain ⟨bit, hroot⟩ : ∃ bit, root ^ 2 ≡ blumResidue H sid n i bit [ZMOD n] := by
      by_cases hpos : root ^ 2 ≡ blumChallenge H sid n i [ZMOD n]
      · exact ⟨true, hpos⟩
      · exact ⟨false, hsquare hpos⟩
    -- the answer given twice is accepted, and is not complete
    have haccept := (verifyBlum_iff_answered _).mpr (answered_twice h4 hroot)
    have hfits : BlumProof.Fits ⟨[i, i], [bit, bit], [root, root]⟩ := by
      simpa [BlumProof.Fits] using hi
    simpa using (h _ hfits haccept).nodup
  · intro hnone proof hfits hverify
    have hanswered := (verifyBlum_iff_answered proof).mp hverify
    obtain ⟨⟨⟨i, bit⟩, root⟩, hentry⟩ := hanswered.exists_mem_entries
    have hroot := hanswered.valid _ hentry
    rcases hnone with h4 | hnone
    · exact absurd hanswered.mod_four h4
    · obtain ⟨hpos, hneg⟩ := hnone i (hfits i (mem_indices_of_mem_entries hentry)) root
      cases bit with
      | true => exact absurd hroot hpos
      | false => exact absurd hroot hneg

/-- **One answer is enough** for the modulus 77, where all 128 challenges are 1: the proof that
    answers the first one is accepted. -/
theorem verifyBlum_one_answer :
    verifyBlum oneHash 77 [] ⟨[0], [true], [1]⟩ = true ∧
      ¬ CompleteAnswers oneHash 77 [] ⟨[0], [true], [1]⟩ := by
  refine ⟨by decide +kernel, fun h => ?_⟩
  have hone : blumChallenge oneHash [] 77 1 = 1 := rfl
  obtain ⟨bit, root, hentry, -⟩ := h.answers 1 (by norm_num) (by rw [hone, jacobiSym.one_left])
  have hindex := mem_indices_of_mem_entries hentry
  exact absurd hindex (by decide)

/-! ### The prover -/

section Prover

variable {p q : ℕ}

/-- **The residue test** decides whether the symbol is 1. -/
theorem isQuadraticResidueModPrime_iff (hp : p.Prime) (hp3 : p % 4 = 3) {a b : ℤ}
    (h : a ≡ b [ZMOD p]) : isQuadraticResidueModPrime a p = some true ↔ jacobiSym b p = 1 := by
  have hhalf : (((p : ℤ) - 1) / 2).toNat = (p - 1) / 2 := by omega
  have hone : (1 : ℤ) % p = 1 := Int.emod_eq_of_lt zero_le_one (by exact_mod_cast hp.one_lt)
  rw [← jacobiSym.mod_left' h, ← pow_half_modEq_one_iff hp (by omega),
    isQuadraticResidueModPrime_eq_beq hp, hhalf, Int.ModEq, hone, Option.some.injEq, beq_iff_eq]

/-- The challenges that an honest prover answers: those coprime to the modulus with the Jacobi
    symbol 1. -/
def IsAnswerable (H : Hash) (n : ℕ) (sid : List UInt8) (i : ℕ) : Prop :=
  Int.gcd (blumChallenge H sid n i) n = 1 ∧ jacobiSym (blumChallenge H sid n i) n = 1

instance (H : Hash) (n : ℕ) (sid : List UInt8) (i : ℕ) : Decidable (IsAnswerable H n sid i) :=
  inferInstanceAs (Decidable (_ ∧ _))

/-- Such a challenge or its negative is a residue modulo both primes. -/
theorem isAnswerable_iff (hp3 : p % 4 = 3) (hq3 : q % 4 = 3) (i : ℕ) :
    IsAnswerable H (p * q) sid i ↔
      (jacobiSym (blumChallenge H sid (p * q) i) p = 1 ∧
        jacobiSym (blumChallenge H sid (p * q) i) q = 1) ∨
      (jacobiSym (-blumChallenge H sid (p * q) i) p = 1 ∧
        jacobiSym (-blumChallenge H sid (p * q) i) q = 1) := by
  rw [← jacobiSym_mul_eq_one_iff hp3 hq3, IsAnswerable, and_iff_right_iff_imp]
  intro hjacobi
  by_contra hgcd
  have hne : p * q ≠ 0 := Nat.mul_ne_zero (by omega) (by omega)
  rw [jacobiSym.eq_zero_iff.mpr ⟨hne, hgcd⟩] at hjacobi
  cases hjacobi

/-- **One iteration** pushes its index exactly if the challenge is answerable. -/
theorem blumEntry_index (hp : p.Prime) (hq : q.Prime) (hp3 : p % 4 = 3) (hq3 : q % 4 = 3) {i : ℕ}
    {pushed : Option (ℕ × Bool × ℤ)} (h : blumEntry H p q (p * q) sid i = some pushed) :
    pushed.map (fun e => e.1) = if IsAnswerable H (p * q) sid i then some i else none := by
  have hdvdp : (p : ℤ) ∣ (p * q : ℕ) := ⟨q, by push_cast; rfl⟩
  have hdvdq : (q : ℤ) ∣ (p * q : ℕ) := ⟨p, by push_cast; ring⟩
  have htrue := blumResidue_modEq H sid (p * q) i true
  have hfalse := blumResidue_modEq H sid (p * q) i false
  obtain ⟨bp, hbp⟩ := isQuadraticResidueModPrime_eq hp
    ((blumChallenge H sid (p * q) i).fmod (p * q : ℕ))
  obtain ⟨bq, hbq⟩ := isQuadraticResidueModPrime_eq hq
    ((blumChallenge H sid (p * q) i).fmod (p * q : ℕ))
  obtain ⟨np, hnp⟩ := isQuadraticResidueModPrime_eq hp
    ((p * q : ℕ) - (blumChallenge H sid (p * q) i).fmod (p * q : ℕ))
  obtain ⟨nq, hnq⟩ := isQuadraticResidueModPrime_eq hq
    ((p * q : ℕ) - (blumChallenge H sid (p * q) i).fmod (p * q : ℕ))
  -- the four tests are the four symbols
  have hbp' := isQuadraticResidueModPrime_iff hp hp3 (htrue.of_dvd hdvdp)
  have hbq' := isQuadraticResidueModPrime_iff hq hq3 (htrue.of_dvd hdvdq)
  have hnp' := isQuadraticResidueModPrime_iff hp hp3 (hfalse.of_dvd hdvdp)
  have hnq' := isQuadraticResidueModPrime_iff hq hq3 (hfalse.of_dvd hdvdq)
  simp only [if_true, Bool.false_eq_true, if_false, blumResidue, hbp, hbq, hnp, hnq,
    Option.some.injEq] at hbp' hbq' hnp' hnq'
  have hanswerable : IsAnswerable H (p * q) sid i ↔ (bp && bq) = true ∨ (np && nq) = true := by
    rw [isAnswerable_iff hp3 hq3, Bool.and_eq_true, Bool.and_eq_true, hbp', hbq', hnp', hnq']
  simp only [blumEntry, hbp, hbq, hnp, hnq, Option.bind_eq_bind, Option.bind_some] at h
  by_cases hres : (bp && bq) = true
  · rw [if_pos (hanswerable.mpr (.inl hres))]
    rw [if_pos hres, Option.bind_eq_some_iff] at h
    obtain ⟨root, -, hroot⟩ := h
    cases hroot
    rfl
  · rw [if_neg hres] at h
    by_cases hneg : (np && nq) = true
    · rw [if_pos (hanswerable.mpr (.inr hneg))]
      rw [if_pos hneg, Option.bind_eq_some_iff] at h
      obtain ⟨root, -, hroot⟩ := h
      cases hroot
      rfl
    · rw [if_neg fun hans => (hanswerable.mp hans).elim hres hneg]
      rw [if_neg hneg] at h
      cases h
      rfl

/-- **What the prover pushes**: the answerable ones of the 128 challenges, each with a root. -/
theorem proveBlum_spec (hp : p.Prime) (hq : q.Prime) (hpq : p ≠ q) (hp3 : p % 4 = 3)
    (hq3 : q % 4 = 3) (H : Hash) (sid : List UInt8) :
    ∃ proof, proveBlum H p q (p * q) sid = some proof ∧
      proof.challengeIndices = (List.range 128).filter (IsAnswerable H (p * q) sid) ∧
      proof.bits.length = proof.challengeIndices.length ∧
      proof.roots.length = proof.challengeIndices.length ∧
      ∀ entry ∈ proof.entries,
        entry.2 ^ 2 ≡ blumResidue H sid (p * q) entry.1.1 entry.1.2 [ZMOD (p * q : ℕ)] := by
  choose pushed hpushed hvalid using blumEntry_valid hp hq hpq hp3 hq3 H sid
  have hn : 0 < p * q := Nat.mul_pos hp.pos hq.pos
  set entries := ((List.range 128).map pushed).filterMap id with hentries
  set proof : BlumProof :=
    ⟨entries.map fun e => e.1, entries.map fun e => e.2.1, entries.map fun e => e.2.2⟩ with hproof
  have hprove : proveBlum H p q (p * q) sid = some proof := by
    rw [proveBlum, mapM_eq_map fun i _ => hpushed i]
    rfl
  refine ⟨proof, hprove, ?_, ?_, ?_, ?_⟩
  · have hguard : ∀ i, (pushed i).map (fun e => e.1) =
        Option.guard (fun i => decide (IsAnswerable H (p * q) sid i)) i := by
      intro i
      rw [blumEntry_index hp hq hp3 hq3 (hpushed i), Option.guard]
      simp only [decide_eq_true_eq]
    simp only [hproof, hentries, List.filterMap_map, List.map_filterMap, Function.comp_def, id_eq,
      hguard, List.filterMap_eq_filter]
  · rw [List.length_map, List.length_map]
  · rw [List.length_map, List.length_map]
  · intro entry hentry
    simp only [hproof, BlumProof.entries, List.zip_map', List.mem_map] at hentry
    obtain ⟨e, he, rfl⟩ := hentry
    obtain ⟨o, ho, heo⟩ := List.mem_filterMap.mp he
    obtain ⟨i, -, rfl⟩ := List.mem_map.mp ho
    exact (blumEntryValid_iff hn _).mp (hvalid i e heo)

/-- Such a proof is accepted exactly if it has bits. -/
theorem verifyBlum_iff_bits (hp3 : p % 4 = 3) (hq3 : q % 4 = 3) {proof : BlumProof}
    (hbits : proof.bits.length = proof.challengeIndices.length)
    (hlen : proof.roots.length = proof.challengeIndices.length)
    (hroots : ∀ entry ∈ proof.entries,
      entry.2 ^ 2 ≡ blumResidue H sid (p * q) entry.1.1 entry.1.2 [ZMOD (p * q : ℕ)]) :
    verifyBlum H (p * q) sid proof = true ↔ proof.bits ≠ [] := by
  have hmod : p * q % 4 = 1 := by rw [Nat.mul_mod, hp3, hq3]
  rw [verifyBlum_iff_answered]
  constructor
  · intro h
    exact h.ne_nil
  · intro hne
    exact ⟨hmod, hne, le_of_eq hbits, le_of_eq (hbits.trans hlen.symm), hroots⟩

section Generated

variable {kp : PaillierKeypair}

/-- **Blum proofs verify** if they answer at least one challenge. -/
theorem Generated.verifyBlum_complete (hgen : Generated p q kp) (H : Hash) (sid : List UInt8) :
    ∃ proof, proveBlum H p q kp.pk.n sid = some proof ∧
      (proof.bits ≠ [] → verifyBlum H kp.pk.n sid proof = true) := by
  obtain ⟨hp, hq, hp3, hq3, hpq, hn, -, -, -⟩ := hgen.valid
  obtain ⟨proof, hprove, -, hbits, hlen, hroots⟩ := proveBlum_spec hp hq hpq hp3 hq3 H sid
  rw [hn]
  exact ⟨proof, hprove, (verifyBlum_iff_bits hp3 hq3 hbits hlen hroots).mpr⟩

/-- An honest proof has no bits exactly if no challenge is answerable. -/
theorem Generated.bits_eq_nil_iff (hgen : Generated p q kp) {proof : BlumProof}
    (h : proveBlum H p q kp.pk.n sid = some proof) :
    proof.bits = [] ↔ ∀ i < 128, ¬ IsAnswerable H kp.pk.n sid i := by
  obtain ⟨hp, hq, hp3, hq3, hpq, hn, -, -, -⟩ := hgen.valid
  rw [hn] at h ⊢
  obtain ⟨proof', hprove, hindices, hbits, -, -⟩ := proveBlum_spec hp hq hpq hp3 hq3 H sid
  obtain rfl : proof' = proof := Option.some.inj (hprove.symm.trans h)
  rw [← List.length_eq_zero_iff, hbits, List.length_eq_zero_iff, hindices, List.filter_eq_nil_iff]
  simp only [List.mem_range, decide_eq_true_eq]

end Generated

/-- **Honest proofs.**  They answer exactly the answerable ones of the 128 challenges, with roots of
    the challenges or of their negatives, and are accepted exactly if there is an answer. -/
theorem proveBlum_answers (hp : p.Prime) (hq : q.Prime) (hpq : p ≠ q) (hp3 : p % 4 = 3)
    (hq3 : q % 4 = 3) (H : Hash) (sid : List UInt8) :
    ∃ proof, proveBlum H p q (p * q) sid = some proof ∧
      proof.challengeIndices = (List.range 128).filter (IsAnswerable H (p * q) sid) ∧
      proof.bits.length = proof.challengeIndices.length ∧
      proof.roots.length = proof.challengeIndices.length ∧
      (∀ entry ∈ proof.entries,
        entry.2 ^ 2 ≡ blumResidue H sid (p * q) entry.1.1 entry.1.2 [ZMOD (p * q : ℕ)]) ∧
      (verifyBlum H (p * q) sid proof = true ↔ proof.challengeIndices ≠ []) := by
  obtain ⟨proof, hprove, hindices, hbits, hlen, hroots⟩ := proveBlum_spec hp hq hpq hp3 hq3 H sid
  refine ⟨proof, hprove, hindices, hbits, hlen, hroots, ?_⟩
  rw [verifyBlum_iff_bits hp3 hq3 hbits hlen hroots, ← List.length_pos_iff, hbits,
    List.length_pos_iff]

/-- The key of 7 and 11 with challenges of 1. -/
theorem proveBlum_answers_seven_eleven :
    ∃ proof, proveBlum oneHash 7 11 (7 * 11) [] = some proof ∧
      (verifyBlum oneHash (7 * 11) [] proof = true ↔ proof.challengeIndices ≠ []) := by
  obtain ⟨proof, hproof, -, -, -, -, hverify⟩ := proveBlum_answers (p := 7) (q := 11) (by norm_num)
    (by norm_num) (by norm_num) (by norm_num) (by norm_num) oneHash []
  exact ⟨proof, hproof, hverify⟩

end Prover

end Govis
