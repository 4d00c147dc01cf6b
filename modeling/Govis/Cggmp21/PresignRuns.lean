import Govis.Cggmp21.PresignAdversary
import Govis.PaillierZkComplete

namespace Govis.Cggmp21

open Arith Bytes Curve Rounds

/-!
# CGGMP21: honest presigning

What `run_presign` does when every signer follows it.

* `openPoints_spec`, `encryptNonce_spec` — the steps succeed, and what they compute;
* `PresignSession` — a list of signers and what they draw;
* `follows_received` — what a signer returns, whatever the others send it in round 3;
* `runPresign_completes` — every signer returns the presignature of the sum of the nonces.
-/

variable {C : Curve} {H : Hash}

/-! ### The steps -/

theorem position_getD {signers : List ℕ} (hnd : signers.Nodup) {pos : ℕ} (hpos : pos < signers.length) :
    position signers (signers.getD pos 0) = some pos := by
  have hget : signers.getD pos 0 = signers[pos] := by
    rw [List.getD_eq_getElem?_getD, List.getElem?_eq_getElem hpos, Option.getD_some]
  rw [position, hget, if_pos (List.getElem_mem hpos), hnd.idxOf_getElem]

/-- **Recording keys.** The key of every other position is known. -/
theorem peerKeys_spec {localI m : ℕ} (msg : ℕ → PaillierPKMsg) {j : ℕ} (hj : j < m)
    (hji : j ≠ localI) :
    (peerKeys localI m ((others m localI).map fun d => (d, msg d)))[j]? =
      some (some ⟨(msg j).n, (msg j).n ^ 2, (msg j).g⟩) := by
  have hfold : ∀ (senders : List ℕ) (l : List (Option PaillierPublicKey)),
      (∀ d ∈ senders, d ≠ localI) →
      (senders.map fun d => (d, msg d)).foldl (fun pks e =>
        if e.1 ≠ localI then pks.set e.1 (some ⟨e.2.n, e.2.n ^ 2, e.2.g⟩) else pks) l =
      senders.foldl (fun l d => l.set d (some ⟨(msg d).n, (msg d).n ^ 2, (msg d).g⟩)) l := by
    intro senders l hne
    rw [List.foldl_map]
    exact List.foldl_ext _ _ _ fun a d hd => if_pos (hne d hd)
  rw [peerKeys, hfold _ _ fun d hd => (mem_others.mp hd).2, getElem?_foldl_set,
    if_pos (mem_others.mpr ⟨hj, hji⟩)]
  intro d hd
  rw [List.length_replicate]
  exact (mem_others.mp hd).1

/-- **Opening points.** Points that open their commitments are added up. -/
theorem openPoints_spec (H : Hash) {round1Msgs : List (ℕ × CommitMsg)} {senders : List ℕ}
    (point : ℕ → C.Point)
    (hopen : ∀ d ∈ senders, messageFrom d round1Msgs = some ⟨presignCommit H d (point d)⟩)
    (total : C.Point) :
    openPoints H round1Msgs total (senders.map fun d => (d, ⟨point d⟩)) =
      .ok (total + (senders.map point).sum) := by
  induction senders generalizing total with
  | nil => simp [openPoints]
  | cons d senders ih =>
    have hrest := ih (fun e he => hopen e (List.mem_cons_of_mem _ he)) (total + point d)
    simp only [List.map_cons, openPoints, hopen d List.mem_cons_self, orPanic_some, ok_bind, ne_eq,
      not_true_eq_false, if_false, hrest, List.sum_cons, add_assoc]

/-- **Encrypting a nonce.** -/
theorem encryptNonce_spec (H : Hash) {pk : PaillierPublicKey} (hpk : pk.WellFormed) (k : C.Scalar)
    (rho : ℕ) (draws : ProofDraws ℕ)
    (hrho : ∀ x, genBigintRange 1 pk.n rho = some x → IsCoprime x pk.n) :
    ∃ c proof, encryptNonce H k pk rho draws = some ⟨some c, some proof⟩ ∧
      Encrypts pk.n c k.val := by
  obtain ⟨x, c, hgen, henc, hmod⟩ := exists_encryption hpk k.val rho
  obtain ⟨proof, hproof, -⟩ := verifyRange_complete H (ascii "govis-cggmp21-presign") hpk
    (lt_two_pow_add (val_lt_two_pow_256 k) _) hmod draws
  refine ⟨c, proof, ?_, ⟨x, hrho x hgen, hmod⟩⟩
  simp only [encryptNonce, hgen, scalarToBigint_eq, henc, hproof, Option.bind_eq_bind,
    Option.bind_some, Option.pure_def]

/-! ### Signers that draw well -/

section Draws

variable {signers : List ℕ} {coins : ℕ → PresignCoins C} {i : ℕ}

/-- What the signers draw lets every step before the last one succeed. -/
structure PresignDraws (signers : List ℕ) (coins : ℕ → PresignCoins C) : Prop where
  nodup : signers.Nodup
  generated : ∀ i < signers.length, ∃ p q, Generated p q (coins i).keypair
  rho_coprime : ∀ i < signers.length, ∀ j < signers.length, i ≠ j → ∀ rho,
    genBigintRange 1 (coins j).keypair.pk.n ((coins i).rho j) = some rho →
      IsCoprime rho (coins j).keypair.pk.n

/-- What every signer sends, given the messages of round 3. -/
def presignScript (H : Hash) (coins : ℕ → PresignCoins C) (msg3 : ℕ → ℕ → EncryptedKMsg) :
    (r : ℕ) → ℕ → ℕ → PresignMsg C r
  | 0, d, _ => (⟨(coins d).keypair.pk.n, (coins d).keypair.pk.g⟩ : PaillierPKMsg)
  | 1, d, _ => (⟨presignCommit H d ((coins d).k • C.generator)⟩ : CommitMsg)
  | 2, d, _ => (⟨(coins d).k • C.generator⟩ : RevealMsg C)
  | _ + 3, d, j => msg3 d j

/-- **After round 2.** The points add up to the point of the joint nonce. -/
theorem openPoints_eq (H : Hash) (coins : ℕ → PresignCoins C) (msg3 : ℕ → ℕ → EncryptedKMsg)
    (hi : i < signers.length) :
    openPoints H (scriptInbox signers.length i (presignScript H coins msg3) 1)
        ((coins i).k • C.generator)
        (scriptInbox signers.length i (presignScript H coins msg3) 2) =
      .ok ((∑ d ∈ Finset.range signers.length, (coins d).k) • C.generator) := by
  have hin2 : scriptInbox signers.length i (presignScript H coins msg3) 2 =
      (others signers.length i).map fun d =>
        (d, (⟨(coins d).k • C.generator⟩ : RevealMsg C)) := scriptInbox_eq _ _ _ 2
  rw [hin2, openPoints_spec H (fun d => (coins d).k • C.generator)]
  · rw [sum_map_others, Finset.add_sum_erase _ (fun d => (coins d).k • C.generator)
      (Finset.mem_range.mpr hi), Finset.sum_smul]
  · intro d hd
    obtain ⟨hdm, hdi⟩ := mem_others.mp hd
    exact messageFrom_scriptInbox (presignScript H coins msg3) 1 hdm hdi

namespace PresignDraws

variable (h : PresignDraws signers coins)

include h

theorem valid (hi : i < signers.length) : ∃ p q, ValidKeypair p q (coins i).keypair := by
  obtain ⟨p, q, hgen⟩ := h.generated i hi
  exact ⟨p, q, hgen.valid⟩

/-- **Round 3.** Every signer can encrypt its nonce for every other one. -/
theorem exists_encrypted (H : Hash) : ∃ (c : ℕ → ℕ → ℤ) (proof : ℕ → ℕ → RangeProof),
    ∀ d < signers.length, ∀ j < signers.length, d ≠ j →
      encryptNonce H (coins d).k (coins j).keypair.pk ((coins d).rho j)
          ((coins d).rangeDraws j) = some ⟨some (c d j), some (proof d j)⟩ ∧
        Encrypts (coins j).keypair.pk.n (c d j) (coins d).k.val := by
  have hex : ∀ d, d < signers.length → ∀ j, j < signers.length → d ≠ j →
      ∃ (c : ℤ) (proof : RangeProof),
      encryptNonce H (coins d).k (coins j).keypair.pk ((coins d).rho j)
          ((coins d).rangeDraws j) = some ⟨some c, some proof⟩ ∧
        Encrypts (coins j).keypair.pk.n c (coins d).k.val := by
    intro d hd j hj hdj
    obtain ⟨p, q, hkp⟩ := h.valid hj
    exact encryptNonce_spec H hkp.wellFormed (coins d).k ((coins d).rho j)
      ((coins d).rangeDraws j) (h.rho_coprime d hd j hj hdj)
  have : Nonempty RangeProof := ⟨⟨0, 0, 0⟩⟩
  choose! c proof henc using hex
  exact ⟨c, proof, henc⟩

/-- **Round 3.** The messages of signer `i`. -/
theorem encryptNonces_eq {msg3 : ℕ → ℕ → EncryptedKMsg}
    (henc : ∀ j < signers.length, i ≠ j → encryptNonce H (coins i).k (coins j).keypair.pk
      ((coins i).rho j) ((coins i).rangeDraws j) = some (msg3 i j)) :
    encryptNonces H i signers.length (coins i)
        (peerKeys i signers.length (scriptInbox signers.length i (presignScript H coins msg3) 0)) =
      some ((others signers.length i).map fun j => (j, msg3 i j)) := by
  have hin0 : scriptInbox signers.length i (presignScript H coins msg3) 0 =
      (others signers.length i).map fun d =>
        (d, (⟨(coins d).keypair.pk.n, (coins d).keypair.pk.g⟩ : PaillierPKMsg)) :=
    scriptInbox_eq _ _ _ 0
  rw [hin0, encryptNonces, mapM_eq_map (g := fun j => some (j, msg3 i j))]
  · simp only [Option.bind_eq_bind, Option.bind_some, Option.pure_def, List.filterMap_map,
      Function.comp_def, id, List.filterMap_eq_map']
  · intro j hj
    obtain ⟨hjm, hji⟩ := mem_others.mp hj
    obtain ⟨p, q, hkp⟩ := h.valid hjm
    -- the key that signer `i` rebuilds is the one of signer `j`
    have hpk : (⟨(coins j).keypair.pk.n, (coins j).keypair.pk.n ^ 2,
        (coins j).keypair.pk.g⟩ : PaillierPublicKey) = (coins j).keypair.pk := by
      rw [sq, ← hkp.wellFormed.nSq_eq]
    rw [peerKeys_spec _ hjm hji]
    simp only [hpk, henc j hjm (Ne.symm hji), Option.bind_eq_bind, Option.bind_some, Option.pure_def]

/-- **A signer follows the script**, whatever it is sent in round 3; what it returns is the
    presignature of what the plaintexts add up to, or a panic. -/
theorem follows_received (H : Hash) {msg3 : ℕ → ℕ → EncryptedKMsg} (hi : i < signers.length)
    (henc : ∀ j < signers.length, i ≠ j → encryptNonce H (coins i).k (coins j).keypair.pk
      ((coins i).rho j) ((coins i).rangeDraws j) = some (msg3 i j)) :
    Follows signers.length i (presignScript H coins msg3) 4 (orPanic (do
        let kTotal ← addNonces C.q i (coins i).keypair (scalarToBigint (coins i).k)
          (scriptInbox signers.length i (presignScript H coins msg3) 3)
        presignatureOf kTotal ((∑ d ∈ Finset.range signers.length, (coins d).k) • C.generator)))
      (runPresign H (signers.getD i 0) signers (coins i)) := by
  have hnonces := h.encryptNonces_eq henc
  have hopen := openPoints_eq H coins msg3 hi
  have hend : ∀ x : Res PresignError (Presignature C),
      (Proc.attempt x fun presig => .done (.ok presig) : Proc (PresignMsg C)
        (Res PresignError (Presignature C)) 4) = .done x := by
    rintro (e | presig)
    · rfl
    · rfl
  simp only [runPresign, position_getD h.nodup hi, okOr_some, Proc.attempt_ok]
  -- three broadcasts, then the loops over what they brought
  refine .round (fun j _ _ => rfl) (.round (fun j _ _ => rfl) (.round (fun j _ _ => rfl) ?_))
  show Follows _ _ _ _ _ (Proc.attempt (openPoints H
    (scriptInbox signers.length i (presignScript H coins msg3) 1) _
    (scriptInbox signers.length i (presignScript H coins msg3) 2)) _)
  rw [hopen, Proc.attempt_ok]
  show Follows _ _ _ _ _ (Proc.attempt (orPanic (encryptNonces H i signers.length (coins i)
    (peerKeys i signers.length (scriptInbox signers.length i (presignScript H coins msg3) 0)))) _)
  rw [hnonces, orPanic_some, Proc.attempt_ok]
  refine .round (fun j hj hji => messageFrom_map_others _ hj hji) ?_
  rw [hend]
  exact .done

end PresignDraws

end Draws

/-! ### Sessions -/

/-- What an honest presigning starts from: a list of distinct signers, and what they draw, by
    position. -/
structure PresignSession (C : Curve) where
  signers : List ℕ
  nodup : signers.Nodup
  coins : ℕ → PresignCoins C
  generated : ∀ i < signers.length, ∃ p q, Generated p q (coins i).keypair
  /-- Nonces are not reduced modulo a Paillier modulus. -/
  lt_modulus : ∀ i < signers.length, C.q < (coins i).keypair.pk.n
  rho_coprime : ∀ i < signers.length, ∀ j < signers.length, i ≠ j → ∀ rho,
    genBigintRange 1 (coins j).keypair.pk.n ((coins i).rho j) = some rho →
      IsCoprime rho (coins j).keypair.pk.n
  sum_ne_zero : ∑ i ∈ Finset.range signers.length, (coins i).k ≠ 0

namespace PresignSession

variable (x : PresignSession C)

/-- The joint nonce. -/
def k : C.Scalar := ∑ i ∈ Finset.range x.signers.length, (x.coins i).k

def rPoint : C.Point := x.k • C.generator

def r : C.Scalar := pointXCoord x.rPoint

/-- What every signer returns. -/
def presignature : Presignature C := ⟨x.k, x.k⁻¹, x.r, x.rPoint⟩

/-- The signers run `run_presign`. -/
def setup (H : Hash) : Setup (PresignMsg C) (Res PresignError (Presignature C)) :=
  presignSetup H x.signers x.coins

/-- What every signer sends, given the ciphertexts and their proofs. -/
abbrev script (H : Hash) (c : ℕ → ℕ → ℤ) (proof : ℕ → ℕ → RangeProof) :
    (r : ℕ) → ℕ → ℕ → PresignMsg C r :=
  presignScript H x.coins fun d j => ⟨some (c d j), some (proof d j)⟩

variable {x}

theorem draws : PresignDraws x.signers x.coins := ⟨x.nodup, x.generated, x.rho_coprime⟩

theorem valid {i : ℕ} (hi : i < x.signers.length) : ∃ p q, ValidKeypair p q (x.coins i).keypair :=
  x.draws.valid hi

/-- **After round 3.** The plaintexts are added up; the point is that of the joint nonce whatever
    they are. -/
theorem addNonces_received (H : Hash) (msg3 : ℕ → ℕ → EncryptedKMsg) {i : ℕ}
    (hi : i < x.signers.length) {k : C.Scalar}
    (hk : (x.coins i).k + ∑ d ∈ (Finset.range x.signers.length).erase i,
      (noncePlaintext (x.coins i).keypair (msg3 d i) : C.Scalar) = k) (hne : k ≠ 0) :
    (do
      let kTotal ← addNonces C.q i (x.coins i).keypair (scalarToBigint (x.coins i).k)
        (scriptInbox x.signers.length i (presignScript H x.coins msg3) 3)
      presignatureOf kTotal x.rPoint) = some ⟨k, k⁻¹, x.r, x.rPoint⟩ := by
  obtain ⟨p, q, hkp⟩ := valid hi
  have hin3 : scriptInbox x.signers.length i (presignScript H x.coins msg3) 3 =
      (others x.signers.length i).map fun d => (d, msg3 d i) := scriptInbox_eq _ _ _ 3
  have hpos : (0 : ℤ) ≤ scalarToBigint (x.coins i).k := by
    rw [scalarToBigint_eq]
    exact Int.natCast_nonneg _
  obtain ⟨total, htotal⟩ := exists_addNonces hkp.wellFormed C.q i
    (scalarToBigint (x.coins i).k) ((others x.signers.length i).map fun d => (d, msg3 d i))
  obtain ⟨hnonneg, hcast⟩ := addNonces_eq_some htotal hpos
  have htk : (total : C.Scalar) = k := by
    rw [hcast, scalarToBigint_eq, Int.cast_natCast, ZMod.natCast_zmod_val, List.map_map, ← hk,
      ← sum_map_others]
    refine congrArg _ (congrArg List.sum (List.map_congr_left fun d hd => ?_))
    exact if_neg (mem_others.mp hd).2
  rw [hin3, htotal, Option.bind_eq_bind, Option.bind_some, presignatureOf_eq hnonneg, htk, if_neg hne]
  rfl

/-- **A signer follows the script**, whatever it is sent in round 3, as long as the nonces do not
    add up to zero. -/
theorem follows_received (H : Hash) {msg3 : ℕ → ℕ → EncryptedKMsg} {i : ℕ}
    (hi : i < x.signers.length)
    (henc : ∀ j < x.signers.length, i ≠ j → encryptNonce H (x.coins i).k (x.coins j).keypair.pk
      ((x.coins i).rho j) ((x.coins i).rangeDraws j) = some (msg3 i j))
    {k : C.Scalar} (hk : (x.coins i).k + ∑ d ∈ (Finset.range x.signers.length).erase i,
      (noncePlaintext (x.coins i).keypair (msg3 d i) : C.Scalar) = k) (hne : k ≠ 0) :
    Follows x.signers.length i (presignScript H x.coins msg3) 4 (.ok ⟨k, k⁻¹, x.r, x.rPoint⟩)
      (runPresign H (x.signers.getD i 0) x.signers (x.coins i)) := by
  have hfollows := x.draws.follows_received H hi henc
  have hadd := addNonces_received H msg3 hi hk hne
  change Follows _ _ _ _ (orPanic (do
    let kTotal ← addNonces C.q i (x.coins i).keypair (scalarToBigint (x.coins i).k)
      (scriptInbox x.signers.length i (presignScript H x.coins msg3) 3)
    presignatureOf kTotal x.rPoint)) _ at hfollows
  rwa [hadd, orPanic_some] at hfollows

/-- An honest ciphertext for signer `i`. -/
theorem noncePlaintext_encrypts {i : ℕ} (hi : i < x.signers.length) {k : C.Scalar} {c : ℤ}
    (henc : Encrypts (x.coins i).keypair.pk.n c k.val) (proof : Option RangeProof) :
    (noncePlaintext (x.coins i).keypair ⟨some c, proof⟩ : C.Scalar) = k := by
  obtain ⟨p, q, hkp⟩ := valid hi
  simp only [noncePlaintext, decrypt_of_encrypts hkp henc, Option.getD_some,
    Nat.mod_eq_of_lt (lt_trans k.val_lt (x.lt_modulus i hi)), Int.cast_natCast,
    ZMod.natCast_zmod_val]

variable (x) in
/-- What the signers compute in a session: the ciphertexts of their nonces, and their proofs. -/
structure Transcript (H : Hash) where
  c : ℕ → ℕ → ℤ
  proof : ℕ → ℕ → RangeProof
  enc_eq : ∀ i < x.signers.length, ∀ j < x.signers.length, i ≠ j →
    encryptNonce H (x.coins i).k (x.coins j).keypair.pk ((x.coins i).rho j)
      ((x.coins i).rangeDraws j) = some ⟨some (c i j), some (proof i j)⟩

/-- **Every session has a transcript.** -/
theorem exists_transcript (x : PresignSession C) (H : Hash) : Nonempty (x.Transcript H) := by
  obtain ⟨c, proof, henc⟩ := x.draws.exists_encrypted H
  exact ⟨⟨c, proof, fun i hi j hj hij => (henc i hi j hj hij).1⟩⟩

/-- The messages of a transcript. -/
abbrev Transcript.msgs {H : Hash} (T : x.Transcript H) : (r : ℕ) → ℕ → ℕ → PresignMsg C r :=
  x.script H T.c T.proof

/-- **Every signer follows its transcript.** -/
theorem Transcript.follows {H : Hash} (T : x.Transcript H) : ∀ i < x.signers.length,
    Follows x.signers.length i T.msgs 4 (.ok x.presignature)
      (runPresign H (x.signers.getD i 0) x.signers (x.coins i)) := by
  intro i hi
  obtain ⟨c, proof, henc⟩ := x.draws.exists_encrypted H
  apply follows_received H hi (T.enc_eq i hi) _ x.sum_ne_zero
  -- every ciphertext for `i` is of its sender's nonce
  rw [← Finset.add_sum_erase _ (fun d => (x.coins d).k) (Finset.mem_range.mpr hi)]
  refine congrArg _ (Finset.sum_congr rfl fun d hd => ?_)
  obtain ⟨hdi, hd⟩ := Finset.mem_erase.mp hd
  obtain ⟨hencrypt, hencrypts⟩ := henc d (Finset.mem_range.mp hd) i hi hdi
  have hsame := Option.some.inj ((T.enc_eq d (Finset.mem_range.mp hd) i hi hdi).symm.trans hencrypt)
  rw [EncryptedKMsg.mk.injEq, Option.some.injEq] at hsame
  rw [hsame.1]
  exact noncePlaintext_encrypts hi hencrypts _

/-- **Honest presigning** succeeds at every signer, with one presignature. -/
theorem runPresign_completes (H : Hash) : Completes (x.setup H) fun _ => .ok x.presignature := by
  obtain ⟨T⟩ := x.exists_transcript H
  exact completes_of_follows (fun _ _ => not_false) T.follows

end PresignSession

end Govis.Cggmp21
