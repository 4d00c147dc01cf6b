import Govis.Cggmp21.KeygenShares
import Govis.Cggmp21.PresignConsistency
import Govis.Lindell.DkgChecks
import Govis.PaillierZkPanics
import Govis.Rounds.First

namespace Govis

open Arith Bytes Curve Rounds

/-!
# Which messages make an honest party panic

`run_vss`, `run_keygen` and `run_presign` at one party, on whatever the other parties send.

* `addRounds` — the assertion of `RoundInput::new`, with which each of them starts;
* `runVss_panics_iff` — an empty vector of coefficients;
* `runKeygen_panics_iff` — the Paillier modulus 1, an empty vector, a missing ciphertext, a
  negative response;
* `runPresign_panics_iff` — a Paillier modulus below 2, or nonces that add up to zero;
* `not_panics_iff` — **the contents that do no harm**, for the three protocols;
* `panics_on_small_inputs` — contents that do.
-/

variable {C : Curve} {H : Hash} {sid : List UInt8}

/-! ### Setting up the rounds -/

section Rounds

variable {Msg : ℕ → Type} {E α : Type}

/-- The calls of `mpc.add_round`: `RoundInput::new` asserts that there are two parties, and that `i` is
    one of them. -/
def addRounds (i n : ℕ) (rest : Proc Msg (Res E α) 0) : Proc Msg (Res E α) 0 :=
  .attempt (orPanic (if 2 ≤ n ∧ i < n then some () else none)) fun _ => rest

theorem addRounds_eq {i n : ℕ} (h : 2 ≤ n ∧ i < n) (rest : Proc Msg (Res E α) 0) :
    addRounds i n rest = rest := by
  rw [addRounds, if_pos h, orPanic_some, Proc.attempt_ok]

theorem addRounds_ne_panic_iff {i n : ℕ} {rest : Proc Msg (Res E α) 0} {inb : Inbox Msg} :
    (addRounds i n rest).exec inb ≠ .error .panic ↔
      2 ≤ n ∧ i < n ∧ rest.exec inb ≠ .error .panic := by
  by_cases h : 2 ≤ n ∧ i < n
  · rw [addRounds_eq h, and_iff_right h.1, and_iff_right h.2]
  · rw [addRounds, if_neg h, orPanic_none, Proc.attempt_error, Proc.exec_done]
    exact iff_of_false (fun hne => hne rfl) fun hall => h ⟨hall.1, hall.2.1⟩

end Rounds

/-! ### The DKG -/

namespace Lindell

/-- The vector that dealer `d` reveals opens its commitment. -/
def Opens (H : Hash) (sid : List UInt8) (commit : ℕ → CommitMsg) (reveal : ℕ → RevealMsg C) (d : ℕ) :
    Prop :=
  computeCommitment H sid d (reveal d).publicCoeffs = (commit d).commitment

theorem openReveals_eq_panic (commit : ℕ → CommitMsg) (reveal : ℕ → RevealMsg C) (senders : List ℕ)
    (pk : C.Point) (seen : List (ℕ × RevealMsg C)) :
    openReveals H sid pk seen ((senders.map fun d => (d, commit d)).zip
        (senders.map fun d => (d, reveal d))) = .error .panic ↔
      FirstAt (fun d => Opens H sid commit reveal d ∧ (reveal d).publicCoeffs ≠ [])
        (fun d => Opens H sid commit reveal d ∧ (reveal d).publicCoeffs = []) senders := by
  induction senders generalizing pk seen with
  | nil => simp [openReveals, FirstAt]
  | cons d senders ih =>
    rw [List.map_cons, List.map_cons, List.zip_cons_cons, openReveals, FirstAt]
    by_cases hopen : computeCommitment H sid d (reveal d).publicCoeffs = (commit d).commitment
    · rw [if_neg (not_not.mpr hopen)]
      cases hv : (reveal d).publicCoeffs with
      | nil =>
        simp only [true_iff]
        exact .inl ⟨hopen, trivial⟩
      | cons c v =>
        simp only [ih, reduceCtorEq, and_false, false_or, ne_eq, not_false_eq_true, and_true]
        exact ⟨fun h => ⟨hopen, h⟩, fun h => h.2⟩
    · rw [if_pos hopen]
      constructor
      · intro h
        cases h
      · rintro (h | h)
        · exact absurd h.1 hopen
        · exact absurd h.1.1 hopen

theorem addShares_ne_panic (i : ℕ) (seen : List (ℕ × RevealMsg C)) (x : C.Scalar)
    (l : List (ℕ × ShareMsg C)) : addShares i seen x l ≠ .error .panic := by
  induction l generalizing x with
  | nil =>
    intro h
    cases h
  | cons e rest ih =>
    obtain ⟨sender, msg⟩ := e
    rw [addShares]
    split
    · intro h
      cases h
    · split
      · intro h
        cases h
      · exact ih _

/-- Some dealer reveals an empty vector that opens its commitment, and those before it open theirs
    to vectors that are not empty. -/
def VssHarmful (H : Hash) (sid : List UInt8) (n i : ℕ) (commit : ℕ → CommitMsg)
    (reveal : ℕ → RevealMsg C) : Prop :=
  ∃ d < n, d ≠ i ∧ (Opens H sid commit reveal d ∧ (reveal d).publicCoeffs = []) ∧
    ∀ d' < d, d' ≠ i → Opens H sid commit reveal d' ∧ (reveal d').publicCoeffs ≠ []

/-- **`run_vss` panics** exactly on these contents. -/
theorem runVss_panics_iff {i n t : ℕ} (hi : i < n) {intercept : C.Scalar} {draw : ℕ → C.Scalar}
    {inb : Inbox (Msg C)} {commit : ℕ → CommitMsg} {reveal : ℕ → RevealMsg C}
    (h0 : inb 0 = (others n i).map fun d => (d, commit d))
    (h1 : inb 1 = (others n i).map fun d => (d, reveal d)) :
    (runVss H i n t sid intercept draw).exec inb = .error .panic ↔
      VssHarmful H sid n i commit reveal := by
  have hhead : (evaluatePolynomial intercept draw t n).1.head? =
      some (intercept • C.generator) := rfl
  have hown : (evaluatePolynomial intercept draw t n).2[i]? = _ :=
    evaluatePolynomial_share intercept draw hi
  rw [VssHarmful, ← firstAt_others_iff, ← openReveals_eq_panic commit reveal (others n i)
    (intercept • C.generator) [], ← h0, ← h1]
  simp only [runVss, Proc.exec_send, Proc.exec_recv, Proc.exec_attempt_eq_error, hhead, hown,
    orPanic_some, ok_bind, Proc.exec_done, reduceCtorEq, and_false, exists_false, or_false]
  constructor
  · rintro (h | ⟨opened, -, h⟩)
    · exact h
    · exact absurd h (addShares_ne_panic _ _ _ _)
  · exact .inl

end Lindell

/-! ### Key generation -/

namespace Cggmp21

theorem recordKeys_ne_panic (pks : List (Option PaillierPublicKey)) (l : List (ℕ × Round1Msg)) :
    recordKeys H sid pks l ≠ .error .panic := by
  induction l generalizing pks with
  | nil =>
    intro h
    cases h
  | cons e rest ih =>
    obtain ⟨sender, msg1⟩ := e
    rw [recordKeys]
    split
    · intro h
      cases h
    · exact ih _

/-- Encrypting an own share panics exactly for a modulus below 2. -/
theorem encryptShare_eq_none_iff (H : Hash) (sid : List UInt8) {commitments : List C.Point} {share : C.Scalar} {peer : ℕ}
    (hshare : share • C.generator = pointAt commitments (node C peer)) (n rho : ℕ)
    (draws : ProofDraws C.Scalar) :
    encryptShare H sid commitments share (peerKey n) peer rho draws = none ↔ n ≤ 1 := by
  by_cases hn : 1 < n
  · have hpk : (peerKey n).WellFormed := ⟨hn, rfl, rfl⟩
    obtain ⟨x, c, hgen, henc, hmod⟩ := exists_encryption hpk share.val rho
    have hpoint : ((share.val : ℕ) : C.Scalar) • C.generator =
        pointAt commitments (node C peer) := by
      rw [ZMod.natCast_zmod_val, hshare]
    obtain ⟨proof, hproof, -⟩ := verifyLog_complete H sid hpk hpoint hmod draws
    simp only [encryptShare, hgen, scalarToBigint_eq, henc, hproof, Option.bind_eq_bind,
      Option.bind_some, Option.pure_def, reduceCtorEq, false_iff, not_le]
    exact hn
  · have hgen : genBigintRange 1 (peerKey n).n rho = none := by
      show genBigintRange 1 (n : ℤ) rho = none
      rw [genBigintRange, if_neg (by omega)]
    simp only [encryptShare, hgen, Option.bind_eq_bind, Option.bind_none, true_iff]
    omega

/-- A loop of steps fails when one of its steps does. -/
theorem mapM_eq_none_iff {α β : Type} {f : α → Option β} {l : List α} :
    l.mapM f = none ↔ ∃ a ∈ l, f a = none := by
  constructor
  · intro h
    by_contra hall
    push Not at hall
    have hsome : ∀ a ∈ l, ∃ b, f a = some b := fun a ha => Option.ne_none_iff_exists'.mp (hall a ha)
    cases l with
    | nil => cases h
    | cons a l =>
      obtain ⟨b, -⟩ := hsome a List.mem_cons_self
      have : Nonempty β := ⟨b⟩
      choose! g hg using hsome
      rw [mapM_eq_map hg] at h
      cases h
  · rintro ⟨a, ha, hf⟩
    cases hm : l.mapM f with
    | none => rfl
    | some bs =>
      obtain ⟨b, hb⟩ := exists_map_of_mapM hm a ha
      rw [hf] at hb
      cases hb

/-- A loop over the other parties fails when one of its steps does. -/
theorem mapM_others_eq_none_iff {β : Type} {f : ℕ → Option β} {n i : ℕ} {P : ℕ → Prop}
    (h : ∀ j < n, j ≠ i → (f j = none ↔ P j)) :
    (others n i).mapM f = none ↔ ∃ j < n, j ≠ i ∧ P j := by
  rw [mapM_eq_none_iff]
  constructor
  · rintro ⟨j, hj, hnone⟩
    obtain ⟨hjn, hji⟩ := mem_others.mp hj
    exact ⟨j, hjn, hji, (h j hjn hji).mp hnone⟩
  · rintro ⟨j, hjn, hji, hP⟩
    exact ⟨j, mem_others.mpr ⟨hjn, hji⟩, (h j hjn hji).mpr hP⟩

/-- The broadcast of round 2 panics exactly if some recorded modulus is below 2. -/
theorem dealShares_eq_none_iff (H : Hash) (sid : List UInt8) {i n : ℕ} (t : ℕ) (coins : KeygenCoins C)
    {pks : List (Option PaillierPublicKey)} {modulus : ℕ → ℕ}
    (hpks : ∀ j < n, j ≠ i → pks[j]? = some (some (peerKey (modulus j)))) :
    dealShares H i n sid coins (evaluatePolynomial coins.ecSecret coins.draw t n).1
        (evaluatePolynomial coins.ecSecret coins.draw t n).2 pks = none ↔
      ∃ j < n, j ≠ i ∧ modulus j ≤ 1 := by
  have hhead : (evaluatePolynomial coins.ecSecret coins.draw t n).1.head? =
      some (coins.ecSecret • C.generator) := rfl
  have hshare : ∀ j, (Shamir.evalAt (node C j) (dealing coins.ecSecret coins.draw t)) • C.generator =
      pointAt (evaluatePolynomial coins.ecSecret coins.draw t n).1 (node C j) := by
    intro j
    rw [pointAt_eq]
    exact (Shamir.evalAt_map_smul _ _ _).symm
  simp only [dealShares, hhead, Option.bind_eq_bind, Option.bind_some, Option.pure_def,
    Option.bind_eq_none_iff, reduceCtorEq, imp_false]
  rw [← Option.eq_none_iff_forall_ne_some]
  refine mapM_others_eq_none_iff fun j hjn hji => ?_
  rw [← encryptShare_eq_none_iff H sid (hshare j) (modulus j) (coins.rho j) (coins.logDraws j)]
  simp only [hpks j hjn hji, evaluatePolynomial_share _ _ hjn, Option.bind_some, Option.bind_eq_none_iff,
    reduceCtorEq]
  exact (Option.eq_none_iff_forall_ne_some).symm

/-- The commitment of round 1 opens to what dealer `d` reveals in round 2. -/
def KeyOpens (H : Hash) (sid : List UInt8) (msg1 : ℕ → Round2Msg) (msg2 : ℕ → Round3Msg C) (d : ℕ) :
    Prop :=
  keygenCommit H sid d (msg2 d).polynomialCoeffPoints (msg2 d).nonce = (msg1 d).commitment

/-- The entry for party `i` in the list of dealer `d`. -/
def shareEntry (i d : ℕ) (msg3 : Round3Msg C) : Option (ℤ × LogProof C) :=
  msg3.encryptedShares[if d < i then i - 1 else i]?

/-- The message of dealer `d` passes every check of party `i`. -/
def Passes (H : Hash) (sid : List UInt8) (i : ℕ) (kp : PaillierKeypair) (msg1 : ℕ → Round2Msg)
    (msg2 : ℕ → Round3Msg C) (d : ℕ) : Prop :=
  KeyOpens H sid msg1 msg2 d ∧ ∃ first enc, (msg2 d).polynomialCoeffPoints.head? = some first ∧
    verifySchnorr H first sid (msg2 d).schnorrProof = true ∧ shareEntry i d (msg2 d) = some enc ∧
    verifyLog H kp.pk enc.1 (pointAt (msg2 d).polynomialCoeffPoints (node C i)) sid enc.2 = some true

/-- The message of dealer `d` makes party `i` panic: no points, no entry for `i`, or an entry whose
    proof has a negative response and is right on the curve. -/
def Harmful (H : Hash) (sid : List UInt8) (i : ℕ) (kp : PaillierKeypair) (msg1 : ℕ → Round2Msg)
    (msg2 : ℕ → Round3Msg C) (d : ℕ) : Prop :=
  KeyOpens H sid msg1 msg2 d ∧ ((msg2 d).polynomialCoeffPoints = [] ∨
    ∃ first, (msg2 d).polynomialCoeffPoints.head? = some first ∧
      verifySchnorr H first sid (msg2 d).schnorrProof = true ∧
      (shareEntry i d (msg2 d) = none ∨ ∃ enc, shareEntry i d (msg2 d) = some enc ∧
        fromBeBytesModOrder C (magnitude enc.2.z) • C.generator = enc.2.a +
          fromBeBytesModOrder C (magnitude (logChallenge H sid kp.pk.n kp.pk.g enc.1
            (pointAt (msg2 d).polynomialCoeffPoints (node C i)) enc.2.a enc.2.cAlpha)) •
            pointAt (msg2 d).polynomialCoeffPoints (node C i) ∧
        enc.2.z < 0))

section Keygen

variable {i : ℕ} {kp : PaillierKeypair}

/-- What becomes of the entry of dealer `d`. -/
theorem receiveShare_cases (H : Hash) (sid : List UInt8) (i : ℕ) (hpk : kp.pk.WellFormed) (d : ℕ) (msg3 : Round3Msg C) :
    (receiveShare H sid i kp d msg3 = .error .panic ↔ shareEntry i d msg3 = none ∨
      ∃ enc, shareEntry i d msg3 = some enc ∧
        verifyLog H kp.pk enc.1 (pointAt msg3.polynomialCoeffPoints (node C i)) sid enc.2 = none) ∧
    ((∃ share, receiveShare H sid i kp d msg3 = .ok share) ↔
      ∃ enc, shareEntry i d msg3 = some enc ∧
        verifyLog H kp.pk enc.1 (pointAt msg3.polynomialCoeffPoints (node C i)) sid enc.2 =
          some true) := by
  unfold receiveShare
  cases hentry : shareEntry i d msg3 with
  | none =>
    rw [shareEntry] at hentry
    simp only [hentry, orPanic_none]
    constructor
    · simp [bind, Except.bind]
    · simp [bind, Except.bind]
  | some enc =>
    rw [shareEntry] at hentry
    simp only [hentry, orPanic_some, ok_bind]
    cases hlog : verifyLog H kp.pk enc.1 (pointAt msg3.polynomialCoeffPoints (node C i)) sid enc.2 with
    | none =>
      constructor
      · simp [bind, Except.bind, hlog]
      · simp [bind, Except.bind, hlog]
    | some b =>
      obtain ⟨m, hm⟩ := exists_decrypt hpk enc.1
      cases b with
      | false =>
        constructor
        · simp [hlog]
        · simp [hlog]
      | true =>
        constructor
        · simp [hlog, hm, pure, Except.pure]
        · simp [hlog, hm, pure, Except.pure]

/-- **The loop after round 2** panics at the first harmful message that comes after ones that pass
    every check. -/
theorem openKeys_eq_panic (hpk : kp.pk.WellFormed) {msg1 : ℕ → Round2Msg} {msg2 : ℕ → Round3Msg C}
    {round2Msgs : List (ℕ × Round2Msg)} {senders : List ℕ}
    (hsenders : ∀ d ∈ senders, d ≠ i ∧ messageFrom d round2Msgs = some (msg1 d))
    (x : C.Scalar) (pk : C.Point) :
    openKeys H sid i kp round2Msgs x pk (senders.map fun d => (d, msg2 d)) = .error .panic ↔
      FirstAt (Passes H sid i kp msg1 msg2) (Harmful H sid i kp msg1 msg2) senders := by
  induction senders generalizing x pk with
  | nil => simp [openKeys, FirstAt]
  | cons d senders ih =>
    obtain ⟨hdi, hcommit⟩ := hsenders d List.mem_cons_self
    have hrest := ih fun e he => hsenders e (List.mem_cons_of_mem _ he)
    obtain ⟨hpanic, hok⟩ := receiveShare_cases H sid i hpk d (msg2 d)
    simp only [verifyLog_eq_none_iff, or_iff_left hpk.nSq_ne_zero] at hpanic
    rw [List.map_cons, openKeys, hcommit, orPanic_some, ok_bind, FirstAt, Passes, Harmful, KeyOpens]
    by_cases hopen : keygenCommit H sid d (msg2 d).polynomialCoeffPoints (msg2 d).nonce =
        (msg1 d).commitment
    · rw [if_neg (not_not.mpr hopen)]
      cases hpoints : (msg2 d).polynomialCoeffPoints with
      | nil => simp [bind, Except.bind, hpoints ▸ hopen]
      | cons first v =>
        rw [hpoints] at hopen hpanic hok
        by_cases hschnorr : verifySchnorr H first sid (msg2 d).schnorrProof = true
        · simp only [List.head?_cons, orPanic_some, ok_bind, hschnorr, not_true_eq_false, if_false,
            ne_eq, hdi, not_false_eq_true, if_true, bind_eq_error, hpanic, hrest, hopen,
            Option.some.injEq, exists_eq_left', true_and, reduceCtorEq, false_or, exists_and_right,
            exists_and_left, hok]
        · simp [hschnorr, hopen]
    · rw [if_pos hopen]
      simp [hopen]

/-- Keys are recorded only when every Blum proof verifies. -/
theorem recordKeys_verified {senders : List ℕ} {msg0 : ℕ → Round1Msg}
    {pks pks' : List (Option PaillierPublicKey)}
    (h : recordKeys H sid pks (senders.map fun d => (d, msg0 d)) = .ok pks') :
    ∀ d ∈ senders, verifyBlum H (ofBE (msg0 d).paillierN) sid (msg0 d).blumProof = true := by
  induction senders generalizing pks with
  | nil => exact fun d hd => absurd hd List.not_mem_nil
  | cons d senders ih =>
    rw [List.map_cons, recordKeys] at h
    split at h
    · cases h
    · rename_i hblum
      intro e he
      rcases List.mem_cons.mp he with rfl | he
      · exact not_not.mp hblum
      · exact ih h e he

/-- A party with a generated keypair can prove its modulus. -/
theorem exists_proveBlum (H : Hash) (sid : List UInt8) {p q : ℕ} (h : Generated p q kp) :
    ∃ proof, proveBlum H p q kp.pk.n sid = some proof := by
  obtain ⟨proof, hproof, -⟩ := h.verifyBlum_complete H sid
  exact ⟨proof, hproof⟩

/-- All Blum proofs verify, and then some modulus is below 2 or, in the loop after round 2, a
    harmful message comes after ones that pass every check. -/
def KeygenHarmful (H : Hash) (sid : List UInt8) (n i : ℕ) (kp : PaillierKeypair)
    (msg0 : ℕ → Round1Msg) (msg1 : ℕ → Round2Msg) (msg2 : ℕ → Round3Msg C) : Prop :=
  (∀ d < n, d ≠ i → verifyBlum H (ofBE (msg0 d).paillierN) sid (msg0 d).blumProof = true) ∧
  ((∃ d < n, d ≠ i ∧ ofBE (msg0 d).paillierN ≤ 1) ∨
    ∃ d < n, d ≠ i ∧ Harmful H sid i kp msg1 msg2 d ∧
      ∀ d' < d, d' ≠ i → Passes H sid i kp msg1 msg2 d')

/-- **`run_keygen` panics** exactly on these contents. -/
theorem runKeygen_panics_iff {n t : ℕ} (hi : i < n) {coins : KeygenCoins C}
    (hgen : Generated coins.p coins.q coins.keypair) {inb : Inbox (KeygenMsg C)}
    {msg0 : ℕ → Round1Msg} {msg1 : ℕ → Round2Msg} {msg2 : ℕ → Round3Msg C}
    (h0 : inb 0 = (others n i).map fun d => (d, msg0 d))
    (h1 : inb 1 = (others n i).map fun d => (d, msg1 d))
    (h2 : inb 2 = (others n i).map fun d => (d, msg2 d)) :
    (runKeygen H i n t sid coins).exec inb = .error .panic ↔
      KeygenHarmful H sid n i coins.keypair msg0 msg1 msg2 := by
  obtain ⟨blum, hblum⟩ := exists_proveBlum H sid hgen
  have hown := evaluatePolynomial_share coins.ecSecret coins.draw (t := t) hi
  have hpk := hgen.valid.wellFormed
  simp only [runKeygen, hblum, orPanic_some, Proc.attempt_ok, Proc.exec_send, Proc.exec_recv]
  rw [h0, Proc.exec_attempt_eq_error]
  simp only [recordKeys_ne_panic, false_or, Proc.exec_send, Proc.exec_recv, h1]
  constructor
  · rintro ⟨pks, hpks, h⟩
    have hverified := recordKeys_verified hpks
    have hkeys : ∀ j < n, j ≠ i → pks[j]? = some (some (peerKey (ofBE (msg0 j).paillierN))) := by
      intro j hj hji
      rw [recordKeys_eq_ok hpks, getElem?_foldl_set _ _ _ (fun e he => by
        rw [List.length_set, List.length_replicate]
        exact (mem_others.mp he).1), if_pos (mem_others.mpr ⟨hj, hji⟩)]
    refine ⟨fun d hd hdi => hverified d (mem_others.mpr ⟨hd, hdi⟩), ?_⟩
    rcases Proc.exec_attempt_eq_error.mp h with hdeal | ⟨msg3, -, h⟩
    · exact .inl ((dealShares_eq_none_iff H sid t coins hkeys).mp (orPanic_eq_panic.mp hdeal))
    · rw [Proc.exec_send, Proc.exec_recv, h2] at h
      rcases Proc.exec_attempt_eq_error.mp h with h | ⟨opened, -, h⟩
      · rw [hown, orPanic_some, ok_bind] at h
        rw [← firstAt_others_iff]
        exact .inr ((openKeys_eq_panic hpk (fun d hd => ⟨(mem_others.mp hd).2,
          messageFrom_map_others msg1 (mem_others.mp hd).1 (mem_others.mp hd).2⟩) _ _).mp h)
      · cases h
  · rintro ⟨hverified, hbad⟩
    have hpks := recordKeys_spec H sid (others n i) msg0
      (fun d hd => hverified d (mem_others.mp hd).1 (mem_others.mp hd).2)
      ((List.replicate n none).set i (some coins.keypair.pk))
    have hkeys : ∀ j < n, j ≠ i → ((others n i).foldl (fun l d =>
        l.set d (some (peerKey (ofBE (msg0 d).paillierN))))
        ((List.replicate n none).set i (some coins.keypair.pk)))[j]? =
          some (some (peerKey (ofBE (msg0 j).paillierN))) := by
      intro j hj hji
      rw [getElem?_foldl_set _ _ _ (fun e he => by
        rw [List.length_set, List.length_replicate]
        exact (mem_others.mp he).1), if_pos (mem_others.mpr ⟨hj, hji⟩)]
    refine ⟨_, hpks, ?_⟩
    rw [Proc.exec_attempt_eq_error]
    -- with all moduli above 1 the broadcast is made, and the loop decides
    by_cases hmod : ∃ d < n, d ≠ i ∧ ofBE (msg0 d).paillierN ≤ 1
    · exact .inl (orPanic_eq_panic.mpr ((dealShares_eq_none_iff H sid t coins hkeys).mpr hmod))
    · have hloop := hbad.resolve_left hmod
      obtain ⟨msg3, hmsg3⟩ := Option.ne_none_iff_exists'.mp fun hnone =>
        hmod ((dealShares_eq_none_iff H sid t coins hkeys).mp hnone)
      refine .inr ⟨msg3, orPanic_eq_ok.mpr hmsg3, ?_⟩
      rw [Proc.exec_send, Proc.exec_recv, h2, Proc.exec_attempt_eq_error, hown, orPanic_some, ok_bind]
      rw [← firstAt_others_iff] at hloop
      exact .inl ((openKeys_eq_panic hpk (fun d hd => ⟨(mem_others.mp hd).2,
        messageFrom_map_others msg1 (mem_others.mp hd).1 (mem_others.mp hd).2⟩) _ _).mpr hloop)

end Keygen

/-! ### Presigning -/

/-- Encrypting a nonce panics exactly for a modulus below 2, whatever the generator. -/
theorem encryptNonce_eq_none_iff (H : Hash) (k : C.Scalar) (n g rho : ℕ) (draws : ProofDraws ℕ) :
    encryptNonce H k ⟨n, n ^ 2, g⟩ rho draws = none ↔ n ≤ 1 := by
  by_cases hn : 1 < n
  · have hsq : 0 < (⟨n, n ^ 2, g⟩ : PaillierPublicKey).nSq := by
      show 0 < n ^ 2
      positivity
    obtain ⟨x, hx, -, -⟩ := genBigintRange_eq (show (1 : ℤ) < n by omega) rho
    obtain ⟨c, hc⟩ := exists_encryptWithRho hsq k.val x
    obtain ⟨proof, hproof⟩ := exists_proveRange hn hsq H c k.val x 256
      (ascii "govis-cggmp21-presign") draws
    simp only [encryptNonce, hx, scalarToBigint_eq, hc, hproof, Option.bind_eq_bind,
      Option.bind_some, Option.pure_def, reduceCtorEq, false_iff, not_le]
    exact hn
  · have hgen : genBigintRange 1 (n : ℤ) rho = none := by
      rw [genBigintRange, if_neg (by omega)]
    simp only [encryptNonce, hgen, Option.bind_eq_bind, Option.bind_none, true_iff]
    omega

/-- The messages of round 3 panic exactly if some peer's modulus is below 2. -/
theorem encryptNonces_eq_none_iff (H : Hash) {localI m : ℕ} (coins : PresignCoins C) (msg0 : ℕ → PaillierPKMsg) :
    encryptNonces H localI m coins
        (peerKeys localI m ((others m localI).map fun d => (d, msg0 d))) = none ↔
      ∃ d < m, d ≠ localI ∧ (msg0 d).n ≤ 1 := by
  unfold encryptNonces
  simp only [Option.bind_eq_bind, Option.pure_def, Option.bind_eq_none_iff, reduceCtorEq, imp_false]
  rw [← Option.eq_none_iff_forall_ne_some]
  refine mapM_others_eq_none_iff fun d hd hdi => ?_
  rw [← encryptNonce_eq_none_iff H coins.k (msg0 d).n (msg0 d).g (coins.rho d)
    (coins.rangeDraws d), peerKeys_spec msg0 hd hdi]
  simp only [Option.bind_some, Option.bind_eq_none_iff, reduceCtorEq, imp_false]
  exact (Option.eq_none_iff_forall_ne_some).symm

/-- The point that the signer at position `d` reveals opens its commitment. -/
def PointOpens (H : Hash) (msg1 : ℕ → CommitMsg) (msg2 : ℕ → RevealMsg C) (d : ℕ) : Prop :=
  presignCommit H d (msg2 d).rPoint = (msg1 d).commitment

/-- The loop after round 2 succeeds exactly if all points open their commitments; it never
    panics. -/
theorem openPoints_cases {msg1 : ℕ → CommitMsg} (msg2 : ℕ → RevealMsg C)
    {round1Msgs : List (ℕ × CommitMsg)} {senders : List ℕ}
    (hsenders : ∀ d ∈ senders, messageFrom d round1Msgs = some (msg1 d)) (total : C.Point) :
    openPoints H round1Msgs total (senders.map fun d => (d, msg2 d)) ≠ .error .panic ∧
      ((∃ total', openPoints H round1Msgs total (senders.map fun d => (d, msg2 d)) = .ok total') ↔
        ∀ d ∈ senders, PointOpens H msg1 msg2 d) := by
  induction senders generalizing total with
  | nil => simp [openPoints]
  | cons d senders ih =>
    obtain ⟨hpanic, hok⟩ := ih (fun e he => hsenders e (List.mem_cons_of_mem _ he))
      (total + (msg2 d).rPoint)
    rw [List.map_cons, openPoints, hsenders d List.mem_cons_self, orPanic_some, ok_bind]
    by_cases hopen : presignCommit H d (msg2 d).rPoint = (msg1 d).commitment
    · rw [if_neg (not_not.mpr hopen)]
      refine ⟨hpanic, hok.trans ⟨fun h e he => ?_, fun h e he => h e (List.mem_cons_of_mem _ he)⟩⟩
      rcases List.mem_cons.mp he with rfl | he
      · exact hopen
      · exact h e he
    · rw [if_pos hopen]
      constructor
      · intro h
        cases h
      · constructor
        · rintro ⟨total', h⟩
          cases h
        · exact fun h => absurd (h d List.mem_cons_self) hopen

/-- All points open their commitments, and then some modulus is below 2 or the nonces add up to
    zero. -/
def PresignHarmful (H : Hash) (m localI : ℕ) (coins : PresignCoins C) (msg0 : ℕ → PaillierPKMsg)
    (msg1 : ℕ → CommitMsg) (msg2 : ℕ → RevealMsg C) (msg3 : ℕ → EncryptedKMsg) : Prop :=
  (∀ d < m, d ≠ localI → PointOpens H msg1 msg2 d) ∧
  ((∃ d < m, d ≠ localI ∧ (msg0 d).n ≤ 1) ∨
    coins.k + ∑ d ∈ (Finset.range m).erase localI,
      (noncePlaintext coins.keypair (msg3 d) : C.Scalar) = 0)

/-- **`run_presign` panics** exactly on these contents. -/
theorem runPresign_panics_iff {signers : List ℕ} {party localI : ℕ}
    (hpos : position signers party = some localI) {coins : PresignCoins C} {p q : ℕ}
    (hgen : Generated p q coins.keypair) {inb : Inbox (PresignMsg C)} {msg0 : ℕ → PaillierPKMsg}
    {msg1 : ℕ → CommitMsg} {msg2 : ℕ → RevealMsg C} {msg3 : ℕ → EncryptedKMsg}
    (h0 : inb 0 = (others signers.length localI).map fun d => (d, msg0 d))
    (h1 : inb 1 = (others signers.length localI).map fun d => (d, msg1 d))
    (h2 : inb 2 = (others signers.length localI).map fun d => (d, msg2 d))
    (h3 : inb 3 = (others signers.length localI).map fun d => (d, msg3 d)) :
    (runPresign H party signers coins).exec inb = .error .panic ↔
      PresignHarmful H signers.length localI coins msg0 msg1 msg2 msg3 := by
  have hpk := hgen.valid.wellFormed
  have hstart : (0 : ℤ) ≤ scalarToBigint coins.k := by
    rw [scalarToBigint_eq]
    exact Int.natCast_nonneg _
  -- the last step panics exactly if the nonces cancel
  obtain ⟨total, htotal⟩ := exists_addNonces hpk C.q localI (scalarToBigint coins.k)
    ((others signers.length localI).map fun d => (d, msg3 d))
  obtain ⟨hnonneg, hcast⟩ := addNonces_eq_some htotal hstart
  have hk : (total : C.Scalar) = coins.k + ∑ d ∈ (Finset.range signers.length).erase localI,
      (noncePlaintext coins.keypair (msg3 d) : C.Scalar) := by
    rw [hcast, scalarToBigint_eq, Int.cast_natCast, ZMod.natCast_zmod_val, ← sum_map_others,
      List.map_map]
    refine congrArg _ (congrArg List.sum (List.map_congr_left fun d hd => ?_))
    exact if_neg (mem_others.mp hd).2
  have hlast : ∀ rPoint : C.Point, (do
      let kTotal ← addNonces C.q localI coins.keypair (scalarToBigint coins.k)
        ((others signers.length localI).map fun d => (d, msg3 d))
      presignatureOf kTotal rPoint) = none ↔ coins.k +
        ∑ d ∈ (Finset.range signers.length).erase localI,
          (noncePlaintext coins.keypair (msg3 d) : C.Scalar) = 0 := by
    intro rPoint
    rw [htotal, Option.bind_eq_bind, Option.bind_some, presignatureOf_eq hnonneg, hk]
    split
    · rename_i hzero
      simp [hzero]
    · rename_i hne
      simp [hne]
  have hfrom : ∀ d ∈ others signers.length localI,
      messageFrom d ((others signers.length localI).map fun d => (d, msg1 d)) = some (msg1 d) :=
    fun d hd => messageFrom_map_others msg1 (mem_others.mp hd).1 (mem_others.mp hd).2
  obtain ⟨hpanic, hok⟩ := openPoints_cases (H := H) msg2 hfrom (coins.k • C.generator)
  simp only [runPresign, hpos, okOr_some, Proc.attempt_ok, Proc.exec_send, Proc.exec_recv,
    Proc.exec_attempt_eq_error, Proc.exec_done, h0, h1, h2, h3, orPanic_eq_panic, hpanic, hlast,
    encryptNonces_eq_none_iff, reduceCtorEq, and_false, exists_false, or_false, false_or]
  constructor
  · rintro ⟨total', hopen, h⟩
    refine ⟨fun d hd hdi => hok.mp ⟨total', hopen⟩ d (mem_others.mpr ⟨hd, hdi⟩), ?_⟩
    rcases h with h | ⟨sendMany, -, h⟩
    · exact .inl h
    · exact .inr h
  · rintro ⟨hopen, h⟩
    obtain ⟨total', htotal'⟩ := hok.mpr fun d hd => hopen d (mem_others.mp hd).1 (mem_others.mp hd).2
    refine ⟨total', htotal', ?_⟩
    by_cases hmod : ∃ d < signers.length, d ≠ localI ∧ (msg0 d).n ≤ 1
    · exact .inl hmod
    · obtain ⟨sendMany, hsend⟩ := Option.ne_none_iff_exists'.mp fun hnone =>
        hmod ((encryptNonces_eq_none_iff H coins msg0).mp hnone)
      exact .inr ⟨sendMany, orPanic_eq_ok.mpr hsend, h.resolve_left hmod⟩

end Cggmp21

/-! ### The three protocols -/

open Lindell Cggmp21

/-- `run_vss` from its first line. -/
def startVss (H : Hash) (i n t : ℕ) (sid : List UInt8) (intercept : C.Scalar)
    (draw : ℕ → C.Scalar) : Proc (Msg C) (Res DkgError (C.Scalar × C.Point)) 0 :=
  addRounds i n (runVss H i n t sid intercept draw)

/-- `run_keygen` from its first line. -/
def startKeygen (H : Hash) (i n t : ℕ) (sid : List UInt8) (coins : KeygenCoins C) :
    Proc (KeygenMsg C) (Res KeygenError (Cggmp21KeygenOutput C)) 0 :=
  addRounds i n (runKeygen H i n t sid coins)

/-- `run_presign` from its first line: the rounds are set up after the party has been found among the
    signers, for its position. -/
def startPresign (H : Hash) (i : ℕ) (signers : List ℕ) (coins : PresignCoins C) :
    Proc (PresignMsg C) (Res PresignError (Presignature C)) 0 :=
  match position signers i with
  | none => runPresign H i signers coins
  | some localI => addRounds localI signers.length (runPresign H i signers coins)

theorem startPresign_eq {i localI : ℕ} {signers : List ℕ} (hpos : position signers i = some localI)
    (coins : PresignCoins C) : startPresign H i signers coins =
      addRounds localI signers.length (runPresign H i signers coins) := by
  rw [startPresign, hpos]

/-- The modulus 1 has a Blum proof, whatever the challenge. -/
theorem verifyBlum_one (H : Hash) (sid : List UInt8) :
    verifyBlum H 1 sid ⟨[0], [true], [0]⟩ = true := by
  have hentry : blumEntryValid H 1 sid ((0, true), 0) = true := by
    unfold blumEntryValid
    simp only [Nat.cast_one, Int.fmod_one, if_true]
    decide
  simp [verifyBlum, hentry]

end Govis
