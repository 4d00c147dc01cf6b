import Govis.Cggmp21.Presign

namespace Govis.Cggmp21

open Bytes Curve Rounds

/-!
# CGGMP21: presigning against corrupt signers

What an honest signer that succeeds in `run_presign` has accepted, whatever the other ones send.

* `openPoints_eq_ok`, `addNonces_eq_some`, `presignatureOf_eq` — what the steps return;
* `runPresign_exec_ok` — the nonce adds up what is decrypted, its point what is revealed;
* `presignNet` — the network in which some of the signers are corrupt;
* `exists_presign_rows` — what an honest signer that succeeds has received.
-/

variable {C : Curve} {H : Hash}

/-! ### The steps -/

/-- What the message of a peer encrypts; zero when it carries no ciphertext. -/
def noncePlaintext (kp : PaillierKeypair) (msg3 : EncryptedKMsg) : ℤ :=
  match msg3.cKShare with
  | none => 0
  | some c => (decrypt kp.sk kp.pk c).getD 0

/-- **Accepted points** are added up. -/
theorem openPoints_eq_ok {round1Msgs : List (ℕ × CommitMsg)} {l : List (ℕ × RevealMsg C)}
    {total total' : C.Point} (h : openPoints H round1Msgs total l = .ok total') :
    total' = total + (l.map fun e => e.2.rPoint).sum := by
  induction l generalizing total with
  | nil =>
    cases h
    rw [List.map_nil, List.sum_nil, add_zero]
  | cons e rest ih =>
    obtain ⟨sender, reveal⟩ := e
    rw [openPoints] at h
    obtain ⟨commitMsg, -, h⟩ := bind_eq_ok.mp h
    split at h
    · cases h
    · rw [ih h, List.map_cons, List.sum_cons, add_assoc]

section Nonces

variable {localI : ℕ} {kp : PaillierKeypair} {l : List (ℕ × EncryptedKMsg)} {total : ℤ}

/-- **Adding nonces.** The sum of the plaintexts, as a scalar; a message without a ciphertext is
    passed over. -/
theorem addNonces_eq_some {sum : ℤ} (h : addNonces C.q localI kp total l = some sum)
    (h0 : 0 ≤ total) :
    0 ≤ sum ∧ (sum : C.Scalar) = total +
      (l.map fun e => if e.1 = localI then 0 else (noncePlaintext kp e.2 : C.Scalar)).sum := by
  induction l generalizing total with
  | nil =>
    cases h
    exact ⟨h0, by rw [List.map_nil, List.sum_nil, add_zero]⟩
  | cons e rest ih =>
    obtain ⟨sender, msg3⟩ := e
    rw [List.map_cons, List.sum_cons]
    unfold addNonces at h
    split at h
    · rename_i hself
      rw [if_pos hself, zero_add]
      exact ih h h0
    · rename_i hne
      rw [if_neg hne]
      cases hc : msg3.cKShare with
      | none =>
        rw [hc] at h
        simp only [noncePlaintext, hc, Int.cast_zero, zero_add]
        exact ih h h0
      | some c =>
        rw [hc] at h
        obtain ⟨plaintext, hdec, h⟩ := Option.bind_eq_some_iff.mp h
        have hq : (0 : ℤ) < C.q := by exact_mod_cast C.q_prime.pos
        have hmod : (total + plaintext).fmod C.q = (total + plaintext) % C.q :=
          Int.fmod_eq_emod_of_nonneg _ (le_of_lt hq)
        -- the partial sums are reduced, so they stay non-negative
        obtain ⟨hpos, hcast⟩ := ih h (hmod ▸ Int.emod_nonneg _ (ne_of_gt hq))
        refine ⟨hpos, ?_⟩
        rw [hcast, hmod, ZMod.intCast_mod, Int.cast_add, add_assoc]
        simp only [noncePlaintext, hc, hdec, Option.getD_some]

/-- With a well-formed key of one's own nothing panics. -/
theorem exists_addNonces (hpk : kp.pk.WellFormed) (order localI : ℕ) (total : ℤ)
    (l : List (ℕ × EncryptedKMsg)) : ∃ sum, addNonces order localI kp total l = some sum := by
  induction l generalizing total with
  | nil => exact ⟨total, rfl⟩
  | cons e rest ih =>
    obtain ⟨sender, msg3⟩ := e
    unfold addNonces
    split
    · exact ih total
    · cases msg3.cKShare with
      | none => exact ih total
      | some c =>
        obtain ⟨m, hm⟩ := exists_decrypt hpk c
        simp only [hm, Option.bind_eq_bind, Option.bind_some]
        exact ih _

/-- **The presignature** of a total. -/
theorem presignatureOf_eq (h0 : 0 ≤ total) (rPoint : C.Point) :
    presignatureOf total rPoint = if (total : C.Scalar) = 0 then none
      else some ⟨total, (total : C.Scalar)⁻¹, pointXCoord rPoint, rPoint⟩ := by
  have hread : fromBeBytesModOrder C (magnitude total) = (total : C.Scalar) := by
    obtain ⟨a, rfl⟩ := Int.eq_ofNat_of_zero_le h0
    rw [fromBeBytesModOrder_magnitude, Int.cast_natCast]
  simp only [presignatureOf, hread]

end Nonces

/-! ### One signer -/

section Signer

variable {signers : List ℕ} {party localI : ℕ} {coins : PresignCoins C} {inb : Inbox (PresignMsg C)}
  {p : Presignature C}

/-- **What a successful signer returns.** -/
theorem runPresign_exec_ok (hpos : position signers party = some localI) {msg2 : ℕ → RevealMsg C}
    {msg3 : ℕ → EncryptedKMsg}
    (h2 : inb 2 = (others signers.length localI).map fun d => (d, msg2 d))
    (h3 : inb 3 = (others signers.length localI).map fun d => (d, msg3 d))
    (h : (runPresign H party signers coins).exec inb = .ok p) :
    p.k = coins.k + ∑ d ∈ (Finset.range signers.length).erase localI,
        (noncePlaintext coins.keypair (msg3 d) : C.Scalar) ∧
      p.rPoint = coins.k • C.generator +
        ∑ d ∈ (Finset.range signers.length).erase localI, (msg2 d).rPoint ∧
      p.k ≠ 0 ∧ p.kInv = p.k⁻¹ ∧ p.r = pointXCoord p.rPoint := by
  simp only [runPresign, hpos, okOr_some, Proc.attempt_ok, Proc.exec_send, Proc.exec_recv,
    Proc.exec_attempt_eq_ok, Proc.exec_done, h2, h3] at h
  obtain ⟨rPointTotal, hopen, sendMany, -, presig, hpresig, hout⟩ := h
  obtain ⟨kTotal, hadd, hof⟩ := Option.bind_eq_some_iff.mp (orPanic_eq_ok.mp hpresig)
  have hstart : (0 : ℤ) ≤ scalarToBigint coins.k := by
    rw [scalarToBigint_eq]
    exact Int.natCast_nonneg _
  obtain ⟨h0, hcast⟩ := addNonces_eq_some hadd hstart
  rw [presignatureOf_eq h0] at hof
  split at hof
  · cases hof
  · rename_i hne
    have hk : (kTotal : C.Scalar) = coins.k + ∑ d ∈ (Finset.range signers.length).erase localI,
        (noncePlaintext coins.keypair (msg3 d) : C.Scalar) := by
      rw [hcast, scalarToBigint_eq, Int.cast_natCast, ZMod.natCast_zmod_val, ← sum_map_others,
        List.map_map]
      -- no entry is the signer's own
      refine congrArg _ (congrArg List.sum (List.map_congr_left fun d hd => ?_))
      exact if_neg (mem_others.mp hd).2
    rw [← Except.ok.inj hout, ← Option.some.inj hof]
    refine ⟨hk, ?_, hne, rfl, rfl⟩
    show rPointTotal = _
    rw [openPoints_eq_ok hopen, List.map_map, ← sum_map_others]
    rfl

/-- A signer that succeeds has completed all four rounds. -/
theorem runPresign_ends_of_ok (h : (runPresign H party signers coins).exec inb = .ok p) :
    (runPresign H party signers coins).ends inb = 4 := by
  simp only [runPresign, Proc.exec_send, Proc.exec_recv, Proc.exec_attempt_eq_ok] at h
  obtain ⟨localI, hlocal, rPointTotal, hopen, sendMany, hsend, presig, hpresig, -⟩ := h
  simp only [runPresign, hlocal, Proc.attempt_ok, Proc.ends_send, Proc.ends_recv, hopen, hsend,
    hpresig, Proc.ends_done]

/-- What a signer broadcasts in round 0. -/
theorem runPresign_sends_key {j : ℕ} {m : PaillierPKMsg}
    (h : (runPresign H party signers coins).Sends inb 0 j m) :
    m = ⟨coins.keypair.pk.n, coins.keypair.pk.g⟩ := by
  unfold runPresign at h
  obtain ⟨localI, -, h⟩ := Proc.sends_attempt_iff.mp h
  rw [Proc.sends_send_recv_iff, Option.some.injEq] at h
  exact h.symm

/-- What a signer broadcasts in round 2. -/
theorem runPresign_sends_point {j : ℕ} {m : RevealMsg C}
    (h : (runPresign H party signers coins).Sends inb 2 j m) :
    m = ⟨coins.k • C.generator⟩ := by
  unfold runPresign at h
  obtain ⟨localI, -, h⟩ := Proc.sends_attempt_iff.mp h
  rw [Proc.sends_send_iff_of_lt inb Nat.zero_lt_two, Proc.sends_recv_iff,
    Proc.sends_send_iff_of_lt inb Nat.one_lt_two, Proc.sends_recv_iff,
    Proc.sends_send_recv_iff, Option.some.injEq] at h
  exact h.symm

/-- **What a signer sends in round 3.** -/
theorem runPresign_sends_nonce {j : ℕ} {m : EncryptedKMsg}
    (h : (runPresign H party signers coins).Sends inb 3 j m) :
    ∃ localI sendMany, position signers party = some localI ∧
      encryptNonces H localI signers.length coins (peerKeys localI signers.length (inb 0)) =
        some sendMany ∧ messageFrom j sendMany = some m := by
  unfold runPresign at h
  obtain ⟨localI, hlocal, h⟩ := Proc.sends_attempt_iff.mp h
  have h03 : 0 < 3 := Nat.zero_lt_succ 2
  have h13 : 1 < 3 := Nat.succ_lt_succ Nat.zero_lt_two
  have h23 : 2 < 3 := Nat.lt_succ_self 2
  rw [Proc.sends_send_iff_of_lt inb h03, Proc.sends_recv_iff, Proc.sends_send_iff_of_lt inb h13,
    Proc.sends_recv_iff, Proc.sends_send_iff_of_lt inb h23, Proc.sends_recv_iff,
    Proc.sends_attempt_iff] at h
  obtain ⟨rPointTotal, -, h⟩ := h
  obtain ⟨sendMany, hsend, h⟩ := Proc.sends_attempt_iff.mp h
  rw [Proc.sends_send_recv_iff] at h
  refine ⟨localI, sendMany, ?_, orPanic_eq_ok.mp hsend, h⟩
  unfold okOr at hlocal
  split at hlocal
  · rename_i hpos
    rw [hpos, Except.ok.inj hlocal]
  · cases hlocal

end Signer

/-! ### Runs -/

/-- The signers run `run_presign`; the positions in `corrupt` may send anything. -/
def presignNet (H : Hash) (signers : List ℕ) (coins : ℕ → PresignCoins C) (corrupt : ℕ → Prop) :
    Setup (PresignMsg C) (Res PresignError (Presignature C)) where
  n := signers.length
  prog pos := runPresign H (signers.getD pos 0) signers (coins pos)
  corrupt := corrupt
  reliable r := r < 3

/-- A party with a position is in the list there. -/
theorem getD_of_position {signers : List ℕ} {party i : ℕ} (h : position signers party = some i) :
    i < signers.length ∧ signers.getD i 0 = party := by
  unfold position at h
  split at h
  · rename_i hmem
    have hi := Option.some.inj h
    subst hi
    have hlt := List.idxOf_lt_length_iff.mpr hmem
    refine ⟨hlt, ?_⟩
    rw [List.getD_eq_getElem?_getD, List.getElem?_eq_getElem hlt, Option.getD_some]
    exact List.getElem_idxOf hlt
  · cases h

section Runs

variable {signers : List ℕ} {coins : ℕ → PresignCoins C} {corrupt : ℕ → Prop}
  {s : Net (PresignMsg C) (Res PresignError (Presignature C))} {party i : ℕ}

/-- What an honest signer had received when it returned a presignature. -/
theorem exists_presign_rows (hs : Reachable (presignNet H signers coins corrupt) s)
    (hpos : position signers party = some i) (hh : ¬ corrupt i) {p : Presignature C}
    (hout : s.Returned i (.ok p)) :
    (runPresign H party signers (coins i)).exec ((s i).inbox signers.length i) = .ok p ∧
      ∃ (msg2 : ℕ → RevealMsg C) (msg3 : ℕ → EncryptedKMsg), ∀ d < signers.length, d ≠ i →
        (s i).got 2 d = some (msg2 d) ∧ (s i).got 3 d = some (msg3 d) := by
  obtain ⟨hi, hparty⟩ := getD_of_position hpos
  have hsound := hs.sound
  have hres := hsound.result hi hh hout
  change (runPresign H (signers.getD i 0) signers (coins i)).exec ((s i).inbox signers.length i) =
    .ok p at hres
  have hends := runPresign_ends_of_ok hres
  have hlt2 : 2 < (runPresign H (signers.getD i 0) signers (coins i)).ends
      ((s i).inbox signers.length i) := by
    rw [hends]
    decide
  have hlt3 : 3 < (runPresign H (signers.getD i 0) signers (coins i)).ends
      ((s i).inbox signers.length i) := by
    rw [hends]
    decide
  have hne2 : Nonempty (RevealMsg C) := ⟨⟨0⟩⟩
  have hne3 : Nonempty EncryptedKMsg := ⟨⟨none, none⟩⟩
  obtain ⟨msg2, hmsg2⟩ : ∃ msg2 : ℕ → RevealMsg C, ∀ d < signers.length, d ≠ i →
      (s i).got 2 d = some (msg2 d) :=
    exists_row fun d hd hdi => hsound.full (r := 2) hi hh hout hlt2 hd hdi
  obtain ⟨msg3, hmsg3⟩ : ∃ msg3 : ℕ → EncryptedKMsg, ∀ d < signers.length, d ≠ i →
      (s i).got 3 d = some (msg3 d) :=
    exists_row fun d hd hdi => hsound.full (r := 3) hi hh hout hlt3 hd hdi
  rw [hparty] at hres
  exact ⟨hres, msg2, msg3, fun d hd hdi => ⟨hmsg2 d hd hdi, hmsg3 d hd hdi⟩⟩

end Runs

end Govis.Cggmp21
