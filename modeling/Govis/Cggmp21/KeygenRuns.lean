import Govis.Blum
import Govis.Cggmp21.KeygenAdversary
import Govis.Lindell.Epochs

namespace Govis.Cggmp21

open Arith Bytes Curve Rounds Shamir Polynomial
open Lindell (ownVector ownShare degree_jointPoly_ownVector
  eval_zero_jointPoly_ownVector map_dlog_ownVector)

/-!
# CGGMP21: honest key generation

What `run_keygen` does when every party follows it.

* `recordKeys_spec`, `encryptShare_spec`, `receiveShare_spec`, `openKeys_spec` — the steps
  succeed, and what they compute;
* `KeygenDraws` — what the parties have to draw, and `KeygenDraws.completes`, what they return then:
  shares that are reduced modulo the recipients' moduli;
* `KeygenSession` — draws under moduli that reduce no share;
* `runKeygen_completes` — every party returns its value of the joint polynomial, under one
  public key.
-/

variable {C : Curve} {H : Hash} {sid : List UInt8}

/-! ### The steps -/

/-- **Recording keys.** If all proofs verify, the key of every sender is recorded. -/
theorem recordKeys_spec (H : Hash) (sid : List UInt8) (senders : List ℕ) (msg : ℕ → Round1Msg)
    (hblum : ∀ d ∈ senders, verifyBlum H (ofBE (msg d).paillierN) sid (msg d).blumProof = true)
    (pks : List (Option PaillierPublicKey)) :
    recordKeys H sid pks (senders.map fun d => (d, msg d)) =
      .ok (senders.foldl (fun l d => l.set d (some (peerKey (ofBE (msg d).paillierN)))) pks) := by
  induction senders generalizing pks with
  | nil => rfl
  | cons d senders ih =>
    simp only [List.map_cons, recordKeys, hblum d List.mem_cons_self, not_true_eq_false, if_false,
      List.foldl_cons]
    exact ih (fun e he => hblum e (List.mem_cons_of_mem _ he)) _

/-- **Encrypting a share** that is on the commitments yields a ciphertext whose proof verifies. -/
theorem encryptShare_spec (H : Hash) (sid : List UInt8) {pk : PaillierPublicKey} (hpk : pk.WellFormed)
    {commitments : List C.Point} {share : C.Scalar} {peer : ℕ}
    (hshare : share • C.generator = pointAt commitments (node C peer)) (rho : ℕ)
    (draws : ProofDraws C.Scalar)
    (hrho : ∀ x, genBigintRange 1 pk.n rho = some x → IsCoprime x pk.n) :
    ∃ enc, encryptShare H sid commitments share pk peer rho draws = some enc ∧
      verifyLog H pk enc.1 (pointAt commitments (node C peer)) sid enc.2 = some true ∧
      Encrypts pk.n enc.1 share.val := by
  obtain ⟨x, c, hgen, henc, hmod⟩ := exists_encryption hpk share.val rho
  have hpoint : ((share.val : ℕ) : C.Scalar) • C.generator = pointAt commitments (node C peer) := by
    rw [ZMod.natCast_zmod_val, hshare]
  obtain ⟨proof, hproof, hok⟩ := verifyLog_complete H sid hpk hpoint hmod draws
  refine ⟨(c, proof), ?_, hok, ⟨x, hrho x hgen, hmod⟩⟩
  simp only [encryptShare, hgen, scalarToBigint_eq, henc, hproof, Option.bind_eq_bind,
    Option.bind_some, Option.pure_def]

/-- **Receiving a share.** The index of the receiver in a list that skips the sender.  What is
    received is the encrypted number modulo the receiver's modulus. -/
theorem receiveShare_spec {p q n : ℕ} {kp : PaillierKeypair} (hkp : ValidKeypair p q kp)
    {i sender : ℕ} (hi : i < n) (hs : sender < n) (hne : i ≠ sender) {msg3 : Round3Msg C}
    (enc : ℕ → ℤ × LogProof C) (hlist : msg3.encryptedShares = (others n sender).map enc)
    (hlog : verifyLog H kp.pk (enc i).1 (pointAt msg3.polynomialCoeffPoints (node C i)) sid
      (enc i).2 = some true)
    {m : ℕ} (henc : Encrypts kp.pk.n (enc i).1 m) :
    receiveShare H sid i kp sender msg3 = .ok ((m % kp.pk.n : ℕ) : C.Scalar) := by
  -- the sender's list has one entry less before `i` if the sender comes first
  have hget : msg3.encryptedShares[if sender < i then i - 1 else i]? = some (enc i) := by
    rw [hlist, List.getElem?_map, getElem?_others hs hi hne, Option.map_some]
  have hdec := decrypt_of_encrypts hkp henc
  simp only [receiveShare, hget, orPanic_some, ok_bind, hlog, hdec, not_true_eq_false, if_false,
    fromBeBytesModOrder_magnitude]
  rfl

/-- **Opening keys.** If every opening and proof is good, the shares and the first coefficients
    are added up. -/
theorem openKeys_spec {i : ℕ} {kp : PaillierKeypair} {round2Msgs : List (ℕ × Round2Msg)}
    {senders : List ℕ} (msg : ℕ → Round3Msg C) (share : ℕ → C.Scalar) (first : ℕ → C.Point)
    (hgood : ∀ d ∈ senders, d ≠ i ∧
      messageFrom d round2Msgs =
        some ⟨keygenCommit H sid d (msg d).polynomialCoeffPoints (msg d).nonce⟩ ∧
      (msg d).polynomialCoeffPoints.head? = some (first d) ∧
      verifySchnorr H (first d) sid (msg d).schnorrProof = true ∧
      receiveShare H sid i kp d (msg d) = .ok (share d))
    (combinedShare : C.Scalar) (publicKey : C.Point) :
    openKeys H sid i kp round2Msgs combinedShare publicKey (senders.map fun d => (d, msg d)) =
      .ok (combinedShare + (senders.map share).sum, publicKey + (senders.map first).sum) := by
  induction senders generalizing combinedShare publicKey with
  | nil => simp [openKeys]
  | cons d senders ih =>
    obtain ⟨hdi, hcommit, hfirst, hschnorr, hshare⟩ := hgood d List.mem_cons_self
    have hrest := ih (fun e he => hgood e (List.mem_cons_of_mem _ he)) (combinedShare + share d)
      (publicKey + first d)
    simp only [List.map_cons, openKeys, hcommit, orPanic_some, ok_bind, ne_eq, not_true_eq_false,
      if_false, hfirst, hschnorr, hdi, not_false_eq_true, if_true, hshare, hrest, List.sum_cons,
      add_assoc]

/-! ### Parties that draw well -/

section Draws

variable {n t i : ℕ} {coins : ℕ → KeygenCoins C}

/-- What the parties draw lets every step of a key generation succeed. -/
structure KeygenDraws (H : Hash) (n : ℕ) (sid : List UInt8) (coins : ℕ → KeygenCoins C) : Prop where
  generated : ∀ i < n, Generated (coins i).p (coins i).q (coins i).keypair
  rho_coprime : ∀ i < n, ∀ j < n, i ≠ j → ∀ rho,
    genBigintRange 1 (coins j).keypair.pk.n ((coins i).rho j) = some rho →
      IsCoprime rho (coins j).keypair.pk.n
  /-- Every Blum proof answers a challenge. -/
  blum_answers : ∀ i < n, ∀ proof,
    proveBlum H (coins i).p (coins i).q (coins i).keypair.pk.n sid = some proof → proof.bits ≠ []

/-- The share of party `j` in the dealing of party `d`. -/
def dealtShare (coins : ℕ → KeygenCoins C) (t d j : ℕ) : C.Scalar :=
  ownShare (fun i => (coins i).dealer) t d j

/-- A share is on its dealer's vector. -/
theorem dealtShare_smul (d j : ℕ) :
    dealtShare coins t d j • C.generator = pointAt (keygenVector coins t d) (node C j) := by
  rw [pointAt_eq, keygenVector, ownVector, evalAt_map_smul]
  rfl

/-- The shares of a party add up to its value of the joint polynomial. -/
theorem sum_dealtShare (j : ℕ) : ∑ d ∈ Finset.range n, dealtShare coins t d j =
    (jointPoly n (keygenVector coins t)).eval (node C j) := by
  rw [eval_jointPoly]
  apply Finset.sum_congr rfl
  intro d _
  rw [keygenVector, map_dlog_ownVector]
  rfl

/-- The broadcast of party `d` in round 2, given its ciphertexts. -/
def dealtMsg (n t : ℕ) (H : Hash) (sid : List UInt8) (coins : ℕ → KeygenCoins C)
    (enc : ℕ → ℕ → ℤ × LogProof C) (d : ℕ) : Round3Msg C where
  nonce := toBeBytes (coins d).nonce
  polynomialCoeffPoints := keygenVector coins t d
  encryptedShares := (others n d).map (enc d)
  schnorrProof := proveSchnorr H (coins d).ecSecret ((coins d).ecSecret • C.generator) sid
    (coins d).schnorrAlpha

/-- What every party sends, given the Blum proofs and the ciphertexts. -/
def keygenScript (n t : ℕ) (H : Hash) (sid : List UInt8) (coins : ℕ → KeygenCoins C)
    (blum : ℕ → BlumProof) (enc : ℕ → ℕ → ℤ × LogProof C) : (r : ℕ) → ℕ → ℕ → KeygenMsg C r
  | 0, d, _ => (⟨minBE (coins d).keypair.pk.n, blum d⟩ : Round1Msg)
  | 1, d, _ => (⟨keygenCommit H sid d (keygenVector coins t d) (toBeBytes (coins d).nonce)⟩ : Round2Msg)
  | _ + 2, d, _ => dealtMsg n t H sid coins enc d

/-- The messages of a key generation are broadcasts. -/
theorem keygenScript_broadcasts {sid : List UInt8} {blum : ℕ → BlumProof}
    {enc : ℕ → ℕ → ℤ × LogProof C} (r d j j' : ℕ) :
    keygenScript n t H sid coins blum enc r d j = keygenScript n t H sid coins blum enc r d j' := by
  rcases r with _ | _ | r
  · rfl
  · rfl
  · rfl

/-- What party `i` returns if dealer `d` encrypts the number `recv d` for it. -/
def receivedOutput (n t : ℕ) (coins : ℕ → KeygenCoins C) (i : ℕ) (recv : ℕ → ℕ) :
    Cggmp21KeygenOutput C where
  ecShare := dealtShare coins t i i +
    ∑ d ∈ (Finset.range n).erase i, ((recv d % (coins i).keypair.pk.n : ℕ) : C.Scalar)
  publicKey := (∑ d ∈ Finset.range n, (coins d).ecSecret) • C.generator
  paillierSk := (coins i).keypair.sk
  paillierPk := (coins i).keypair.pk
  peerPaillierPks := (List.range n).map fun j => some (coins j).keypair.pk

namespace KeygenDraws

variable (h : KeygenDraws H n sid coins)

include h

theorem valid (hi : i < n) : ValidKeypair (coins i).p (coins i).q (coins i).keypair :=
  (h.generated i hi).valid

/-- **Round 0.** Every Blum proof verifies. -/
theorem exists_blum : ∃ blum : ℕ → BlumProof, ∀ i < n,
    proveBlum H (coins i).p (coins i).q (coins i).keypair.pk.n sid = some (blum i) ∧
      verifyBlum H (coins i).keypair.pk.n sid (blum i) = true := by
  have hex : ∀ i, i < n → ∃ proof,
      proveBlum H (coins i).p (coins i).q (coins i).keypair.pk.n sid = some proof ∧
        verifyBlum H (coins i).keypair.pk.n sid proof = true := by
    intro i hi
    obtain ⟨proof, hproof, hok⟩ := (h.generated i hi).verifyBlum_complete H sid
    exact ⟨proof, hproof, hok (h.blum_answers i hi proof hproof)⟩
  have : Nonempty BlumProof := ⟨⟨[], [], []⟩⟩
  choose! blum hblum using hex
  exact ⟨blum, hblum⟩

/-- **Round 1.** Party `i` records the key of every party. -/
theorem recordKeys_eq {blum : ℕ → BlumProof}
    (hblum : ∀ i < n, verifyBlum H (coins i).keypair.pk.n sid (blum i) = true) (hi : i < n)
    (msgs : List (ℕ × Round1Msg))
    (hmsgs : msgs = (others n i).map fun d =>
      (d, (⟨minBE (coins d).keypair.pk.n, blum d⟩ : Round1Msg))) :
    recordKeys H sid ((List.replicate n none).set i (some (coins i).keypair.pk)) msgs =
      .ok ((List.range n).map fun j => some (coins j).keypair.pk) := by
  -- the key that the others rebuild is the party's own
  have hpeer : ∀ j < n, peerKey (ofBE (minBE (coins j).keypair.pk.n)) = (coins j).keypair.pk := by
    intro j hj
    have hwf := (h.valid hj).wellFormed
    rw [ofBE_minBE, peerKey, ← hwf.nSq_eq, ← hwf.g_eq]
  rw [hmsgs, recordKeys_spec H sid (others n i) (fun d => ⟨minBE (coins d).keypair.pk.n, blum d⟩)
    fun d hd => by rw [ofBE_minBE]; exact hblum d (mem_others.mp hd).1]
  refine congrArg Except.ok (List.ext_getElem? fun j => ?_)
  rw [getElem?_foldl_set _ _ _ (fun d hd => by
    rw [List.length_set, List.length_replicate]
    exact (mem_others.mp hd).1) j]
  by_cases hj : j < n
  · rw [List.getElem?_map, List.getElem?_range hj, Option.map_some]
    by_cases hji : j = i
    · subst hji
      rw [if_neg fun h => (mem_others.mp h).2 rfl,
        List.getElem?_set_self (by rwa [List.length_replicate])]
    · rw [if_pos (mem_others.mpr ⟨hj, hji⟩), hpeer j hj]
  · have hnone : (List.replicate n (none : Option PaillierPublicKey))[j]? = none :=
      List.getElem?_eq_none (by rw [List.length_replicate]; omega)
    rw [if_neg fun h => hj (mem_others.mp h).1, List.getElem?_set_ne (by omega), hnone,
      List.getElem?_eq_none]
    rw [List.length_map, List.length_range]
    omega

/-- **Round 2.** Every party can encrypt its shares. -/
theorem exists_encrypted (t : ℕ) : ∃ enc : ℕ → ℕ → ℤ × LogProof C, ∀ d < n, ∀ j < n, d ≠ j →
    encryptShare H sid (keygenVector coins t d) (dealtShare coins t d j) (coins j).keypair.pk j
        ((coins d).rho j) ((coins d).logDraws j) = some (enc d j) ∧
      verifyLog H (coins j).keypair.pk (enc d j).1 (pointAt (keygenVector coins t d) (node C j)) sid
        (enc d j).2 = some true ∧
      Encrypts (coins j).keypair.pk.n (enc d j).1 (dealtShare coins t d j).val := by
  have hex : ∀ d, d < n → ∀ j, j < n → d ≠ j → ∃ enc : ℤ × LogProof C,
      encryptShare H sid (keygenVector coins t d) (dealtShare coins t d j) (coins j).keypair.pk j
          ((coins d).rho j) ((coins d).logDraws j) = some enc ∧
        verifyLog H (coins j).keypair.pk enc.1 (pointAt (keygenVector coins t d) (node C j)) sid
          enc.2 = some true ∧
        Encrypts (coins j).keypair.pk.n enc.1 (dealtShare coins t d j).val := by
    intro d hd j hj hdj
    exact encryptShare_spec H sid (h.valid hj).wellFormed (dealtShare_smul d j) ((coins d).rho j)
      ((coins d).logDraws j) (h.rho_coprime d hd j hj hdj)
  have : Nonempty (ℤ × LogProof C) := ⟨⟨0, ⟨0, 0, 0, 0⟩⟩⟩
  choose! enc henc using hex
  exact ⟨enc, henc⟩

omit h in
/-- **Round 2.** The broadcast of party `i`. -/
theorem dealShares_eq {enc : ℕ → ℕ → ℤ × LogProof C}
    (henc : ∀ j < n, i ≠ j → encryptShare H sid (keygenVector coins t i) (dealtShare coins t i j)
      (coins j).keypair.pk j ((coins i).rho j) ((coins i).logDraws j) = some (enc i j)) :
    dealShares H i n sid (coins i)
        (evaluatePolynomial (coins i).ecSecret (coins i).draw t n).1
        (evaluatePolynomial (coins i).ecSecret (coins i).draw t n).2
        ((List.range n).map fun j => some (coins j).keypair.pk) =
      some (dealtMsg n t H sid coins enc i) := by
  have hpks : ∀ j < n, ((List.range n).map fun j => some (coins j).keypair.pk)[j]? =
      some (some (coins j).keypair.pk) := fun j hj => by
    rw [List.getElem?_map, List.getElem?_range hj, Option.map_some]
  have hvec : (evaluatePolynomial (coins i).ecSecret (coins i).draw t n).1 =
      keygenVector coins t i := rfl
  have hfirst : (keygenVector coins t i).head? = some ((coins i).ecSecret • C.generator) := rfl
  rw [hvec, dealShares, hfirst]
  rw [mapM_eq_map (g := fun peer => some (enc i peer))]
  · simp only [Option.bind_eq_bind, Option.bind_some, Option.pure_def, List.filterMap_map,
      Function.comp_def, id, List.filterMap_eq_map']
    rfl
  · intro j hj
    obtain ⟨hjn, hji⟩ := mem_others.mp hj
    have hshare : (evaluatePolynomial (coins i).ecSecret (coins i).draw t n).2[j]? =
        some (dealtShare coins t i j) := evaluatePolynomial_share _ _ hjn
    simp only [hpks j hjn, hshare, henc j hjn (Ne.symm hji), Option.bind_eq_bind, Option.bind_some,
      Option.pure_def]

/-- **After round 2.** When every ciphertext for party `i` passes its check and encrypts `recv d` for
    dealer `d`, party `i` adds these numbers to its own share, modulo its own modulus. -/
theorem openKeys_received (blum : ℕ → BlumProof) {enc : ℕ → ℕ → ℤ × LogProof C} (hi : i < n)
    {recv : ℕ → ℕ}
    (hlog : ∀ d < n, d ≠ i → verifyLog H (coins i).keypair.pk (enc d i).1
      (pointAt (keygenVector coins t d) (node C i)) sid (enc d i).2 = some true)
    (henc : ∀ d < n, d ≠ i → Encrypts (coins i).keypair.pk.n (enc d i).1 (recv d)) :
    openKeys H sid i (coins i).keypair (scriptInbox n i (keygenScript n t H sid coins blum enc) 1)
        (dealtShare coins t i i) ((coins i).ecSecret • C.generator)
        (scriptInbox n i (keygenScript n t H sid coins blum enc) 2) =
      .ok (dealtShare coins t i i +
          ∑ d ∈ (Finset.range n).erase i, ((recv d % (coins i).keypair.pk.n : ℕ) : C.Scalar),
        (∑ d ∈ Finset.range n, (coins d).ecSecret) • C.generator) := by
  have hin2 : scriptInbox n i (keygenScript n t H sid coins blum enc) 2 =
      (others n i).map fun d => (d, dealtMsg n t H sid coins enc d) := scriptInbox_eq _ _ _ 2
  rw [hin2, openKeys_spec (dealtMsg n t H sid coins enc)
    (fun d => ((recv d % (coins i).keypair.pk.n : ℕ) : C.Scalar))
    fun d => (coins d).ecSecret • C.generator]
  · have hmem : i ∈ Finset.range n := Finset.mem_range.mpr hi
    rw [sum_map_others, sum_map_others,
      Finset.add_sum_erase _ (fun d => (coins d).ecSecret • C.generator) hmem, Finset.sum_smul]
  · intro d hd
    obtain ⟨hdn, hdi⟩ := mem_others.mp hd
    refine ⟨hdi, messageFrom_scriptInbox (keygenScript n t H sid coins blum enc) 1 hdn hdi, rfl,
      verifySchnorr_complete (coins d).ecSecret (coins d).schnorrAlpha, ?_⟩
    -- the list of `d` skips `d`, and its entry for `i` is the ciphertext for `i`
    have hlist : (dealtMsg n t H sid coins enc d).encryptedShares = (others n d).map (enc d) := rfl
    exact receiveShare_spec (h.valid hi) hi hdn (Ne.symm hdi) (enc d) hlist (hlog d hdn hdi)
      (henc d hdn hdi)

/-- **A party follows the script**, whatever numbers `recv d` the ciphertexts of the script for it
    encrypt, as long as their proofs verify. -/
theorem follows_received {blum : ℕ → BlumProof} {enc : ℕ → ℕ → ℤ × LogProof C} (hi : i < n)
    {recv : ℕ → ℕ}
    (hprove : proveBlum H (coins i).p (coins i).q (coins i).keypair.pk.n sid = some (blum i))
    (hblum : ∀ d < n, verifyBlum H (coins d).keypair.pk.n sid (blum d) = true)
    (hown : ∀ j < n, i ≠ j → encryptShare H sid (keygenVector coins t i) (dealtShare coins t i j)
      (coins j).keypair.pk j ((coins i).rho j) ((coins i).logDraws j) = some (enc i j))
    (hlog : ∀ d < n, d ≠ i → verifyLog H (coins i).keypair.pk (enc d i).1
      (pointAt (keygenVector coins t d) (node C i)) sid (enc d i).2 = some true)
    (henc : ∀ d < n, d ≠ i → Encrypts (coins i).keypair.pk.n (enc d i).1 (recv d)) :
    Follows n i (keygenScript n t H sid coins blum enc) 3 (.ok (receivedOutput n t coins i recv))
      (runKeygen H i n t sid (coins i)) := by
  have hshare : (evaluatePolynomial (coins i).ecSecret (coins i).draw t n).2[i]? =
      some (dealtShare coins t i i) := evaluatePolynomial_share _ _ hi
  have hrecord := h.recordKeys_eq hblum hi
    (scriptInbox n i (keygenScript n t H sid coins blum enc) 0) (scriptInbox_eq _ _ _ 0)
  have hdeal := dealShares_eq hown
  have hopen := h.openKeys_received blum hi hlog henc
  -- the four programs between the rounds, one after the other
  simp only [runKeygen, hprove, orPanic_some, Proc.attempt_ok]
  refine .round (fun j _ _ => rfl) ?_
  show Follows _ _ _ _ _ (Proc.attempt (recordKeys H sid _
    (scriptInbox n i (keygenScript n t H sid coins blum enc) 0)) _)
  rw [hrecord, Proc.attempt_ok]
  refine .round (fun j _ _ => rfl) ?_
  rw [hdeal, orPanic_some, Proc.attempt_ok]
  refine .round (fun j _ _ => rfl) ?_
  rw [hshare, orPanic_some, ok_bind]
  show Follows _ _ _ _ _ (Proc.attempt (openKeys H sid i (coins i).keypair
    (scriptInbox n i (keygenScript n t H sid coins blum enc) 1) (dealtShare coins t i i)
    ((coins i).ecSecret • C.generator)
    (scriptInbox n i (keygenScript n t H sid coins blum enc) 2)) _)
  rw [hopen, Proc.attempt_ok]
  exact .done

/-- **Every party follows the script** of the honest ciphertexts. -/
theorem follows (t : ℕ) : ∃ blum enc, ∀ i < n, Follows n i (keygenScript n t H sid coins blum enc) 3
    (.ok (receivedOutput n t coins i fun d => (dealtShare coins t d i).val))
    (runKeygen H i n t sid (coins i)) := by
  obtain ⟨blum, hblum⟩ := h.exists_blum
  obtain ⟨enc, henc⟩ := h.exists_encrypted t
  exact ⟨blum, enc, fun i hi => h.follows_received hi (hblum i hi).1 (fun d hd => (hblum d hd).2)
    (fun j hj hij => (henc i hi j hj hij).1) (fun d hd hdi => (henc d hd i hi hdi).2.1)
    fun d hd hdi => (henc d hd i hi hdi).2.2⟩

/-- **Honest key generation** succeeds at every party, whatever the size of the moduli: every share
    arrives modulo the modulus of the party it is for. -/
theorem completes (t : ℕ) : Completes (keygenSetup H n t sid coins fun _ => False) fun i =>
    .ok (receivedOutput n t coins i fun d => (dealtShare coins t d i).val) := by
  obtain ⟨blum, enc, hfollows⟩ := h.follows t
  exact completes_of_follows (fun _ _ => not_false) hfollows

end KeygenDraws

end Draws

/-! ### Sessions -/

/-- What an honest key generation starts from. -/
structure KeygenSession (C : Curve) (H : Hash) where
  n : ℕ
  t : ℕ
  n_lt : n < 2 ^ 16
  one_le : 1 ≤ t
  sid : List UInt8
  coins : ℕ → KeygenCoins C
  generated : ∀ i < n, Generated (coins i).p (coins i).q (coins i).keypair
  /-- Shares are not reduced modulo a Paillier modulus. -/
  lt_modulus : ∀ i < n, C.q < (coins i).keypair.pk.n
  rho_coprime : ∀ i < n, ∀ j < n, i ≠ j → ∀ rho,
    genBigintRange 1 (coins j).keypair.pk.n ((coins i).rho j) = some rho →
      IsCoprime rho (coins j).keypair.pk.n
  /-- Every Blum proof answers a challenge. -/
  blum_answers : ∀ i < n, ∀ proof,
    proveBlum H (coins i).p (coins i).q (coins i).keypair.pk.n sid = some proof → proof.bits ≠ []

namespace KeygenSession

variable (x : KeygenSession C H)

/-- The vector that party `d` commits to. -/
def vec (d : ℕ) : List C.Point := keygenVector x.coins x.t d

/-- The joint polynomial. -/
noncomputable def poly : C.Scalar[X] := jointPoly x.n x.vec

/-- The joint secret. -/
def sk : C.Scalar := ∑ d ∈ Finset.range x.n, (x.coins d).ecSecret

/-- What party `i` returns. -/
noncomputable def output (i : ℕ) : Cggmp21KeygenOutput C where
  ecShare := x.poly.eval (node C i)
  publicKey := x.sk • C.generator
  paillierSk := (x.coins i).keypair.sk
  paillierPk := (x.coins i).keypair.pk
  peerPaillierPks := (List.range x.n).map fun j => some (x.coins j).keypair.pk

/-- All parties run `run_keygen`. -/
def setup : Setup (KeygenMsg C) (Res KeygenError (Cggmp21KeygenOutput C)) :=
  keygenSetup H x.n x.t x.sid x.coins fun _ => False

/-- The share of party `j` in the dealing of party `d`. -/
abbrev share (d j : ℕ) : C.Scalar := dealtShare x.coins x.t d j

/-- What every party sends, given the Blum proofs and the ciphertexts. -/
abbrev script (blum : ℕ → BlumProof) (enc : ℕ → ℕ → ℤ × LogProof C) :
    (r : ℕ) → ℕ → ℕ → KeygenMsg C r :=
  keygenScript x.n x.t H x.sid x.coins blum enc

variable {x}

theorem valid {i : ℕ} (hi : i < x.n) :
    ValidKeypair (x.coins i).p (x.coins i).q (x.coins i).keypair :=
  (x.generated i hi).valid

theorem draws : KeygenDraws H x.n x.sid x.coins := ⟨x.generated, x.rho_coprime, x.blum_answers⟩

theorem poly_degree_lt : x.poly.degree < x.t := degree_jointPoly_ownVector _ x.one_le

theorem poly_eval_zero : x.poly.eval 0 = x.sk := eval_zero_jointPoly_ownVector _

/-- The shares of party `i` add up to its value of the joint polynomial. -/
theorem sum_share (i : ℕ) : ∑ d ∈ Finset.range x.n, x.share d i = x.poly.eval (node C i) :=
  sum_dealtShare i

/-- What party `i` returns if it receives the scalars `recv d`, which its modulus does not reduce. -/
theorem receivedOutput_eq {i : ℕ} (hi : i < x.n) (recv : ℕ → C.Scalar) :
    receivedOutput x.n x.t x.coins i (fun d => (recv d).val) =
      { x.output i with ecShare := x.share i i + ∑ d ∈ (Finset.range x.n).erase i, recv d } := by
  have hsum : ∀ d ∈ (Finset.range x.n).erase i,
      (((recv d).val % (x.coins i).keypair.pk.n : ℕ) : C.Scalar) = recv d := fun d _ => by
    rw [Nat.mod_eq_of_lt (lt_trans (recv d).val_lt (x.lt_modulus i hi)), ZMod.natCast_zmod_val]
  rw [receivedOutput, Finset.sum_congr rfl hsum]
  rfl

/-- **A party follows the script**, whatever scalars `recv d` the ciphertexts of the script for it
    encrypt, as long as their proofs verify. -/
theorem follows_received {blum : ℕ → BlumProof} {enc : ℕ → ℕ → ℤ × LogProof C} {i : ℕ}
    (hi : i < x.n) {recv : ℕ → C.Scalar}
    (hprove : proveBlum H (x.coins i).p (x.coins i).q (x.coins i).keypair.pk.n x.sid =
      some (blum i))
    (hblum : ∀ d < x.n, verifyBlum H (x.coins d).keypair.pk.n x.sid (blum d) = true)
    (hown : ∀ j < x.n, i ≠ j → encryptShare H x.sid (x.vec i) (x.share i j)
      (x.coins j).keypair.pk j ((x.coins i).rho j) ((x.coins i).logDraws j) = some (enc i j))
    (hlog : ∀ d < x.n, d ≠ i → verifyLog H (x.coins i).keypair.pk (enc d i).1
      (pointAt (x.vec d) (node C i)) x.sid (enc d i).2 = some true)
    (henc : ∀ d < x.n, d ≠ i → Encrypts (x.coins i).keypair.pk.n (enc d i).1 (recv d).val) :
    Follows x.n i (x.script blum enc) 3
      (.ok { x.output i with ecShare := x.share i i + ∑ d ∈ (Finset.range x.n).erase i, recv d })
      (runKeygen H i x.n x.t x.sid (x.coins i)) := by
  rw [← receivedOutput_eq hi]
  exact x.draws.follows_received hi hprove hblum hown hlog henc

variable (x) in
/-- What the parties compute in a session: their Blum proofs, and the ciphertexts of their shares. -/
structure Transcript where
  blum : ℕ → BlumProof
  enc : ℕ → ℕ → ℤ × LogProof C
  blum_eq : ∀ i < x.n,
    proveBlum H (x.coins i).p (x.coins i).q (x.coins i).keypair.pk.n x.sid = some (blum i)
  enc_eq : ∀ i < x.n, ∀ j < x.n, i ≠ j →
    encryptShare H x.sid (x.vec i) (x.share i j) (x.coins j).keypair.pk j ((x.coins i).rho j)
      ((x.coins i).logDraws j) = some (enc i j)

/-- **Every session has a transcript.** -/
theorem exists_transcript (x : KeygenSession C H) : Nonempty x.Transcript := by
  obtain ⟨blum, hblum⟩ := x.draws.exists_blum
  obtain ⟨enc, henc⟩ := x.draws.exists_encrypted x.t
  exact ⟨⟨blum, enc, fun i hi => (hblum i hi).1, fun i hi j hj hij => (henc i hi j hj hij).1⟩⟩

/-- The messages of a transcript. -/
abbrev Transcript.msgs (T : x.Transcript) : (r : ℕ) → ℕ → ℕ → KeygenMsg C r := x.script T.blum T.enc

/-- **Every party follows its transcript.** -/
theorem Transcript.follows (T : x.Transcript) : ∀ i < x.n,
    Follows x.n i T.msgs 3 (.ok (x.output i)) (runKeygen H i x.n x.t x.sid (x.coins i)) := by
  intro i hi
  obtain ⟨blum, hblum⟩ := x.draws.exists_blum
  obtain ⟨enc, henc⟩ := x.draws.exists_encrypted x.t
  -- the proofs verify, and the ciphertexts encrypt the shares
  have hverify : ∀ d < x.n, verifyBlum H (x.coins d).keypair.pk.n x.sid (T.blum d) = true := by
    intro d hd
    obtain ⟨hprove, hok⟩ := hblum d hd
    rwa [Option.some.inj ((T.blum_eq d hd).symm.trans hprove)]
  have hsame : ∀ d < x.n, d ≠ i → T.enc d i = enc d i := fun d hd hdi =>
    Option.some.inj ((T.enc_eq d hd i hi hdi).symm.trans (henc d hd i hi hdi).1)
  have hfollows := @follows_received C H x T.blum T.enc i hi (fun d => x.share d i) (T.blum_eq i hi)
    hverify (T.enc_eq i hi) (fun d hd hdi => by rw [hsame d hd hdi]; exact (henc d hd i hi hdi).2.1)
    fun d hd hdi => by rw [hsame d hd hdi]; exact (henc d hd i hi hdi).2.2
  rwa [Finset.add_sum_erase _ (fun d => x.share d i) (Finset.mem_range.mpr hi), sum_share] at hfollows

/-- **A corrupt dealer that keeps to the protocol.**  The honest parties return as if it were
    honest, and it has sent them its own vector. -/
theorem exists_run_corrupt {c : ℕ} (hc : c < x.n) :
    ∃ s, Reachable (keygenSetup H x.n x.t x.sid x.coins (· = c)) s ∧
      (∀ i < x.n, i ≠ c → s.Returned i (.ok (x.output i))) ∧
      ∀ j < x.n, j ≠ c →
        (s c).sent 1 j =
          some (⟨keygenCommit H x.sid c (x.vec c) (toBeBytes (x.coins c).nonce)⟩ : Round2Msg) ∧
        ∃ m : Round3Msg C, (s c).sent 2 j = some m ∧ m.polynomialCoeffPoints = x.vec c ∧
          m.nonce = toBeBytes (x.coins c).nonce := by
  obtain ⟨T⟩ := x.exists_transcript
  obtain ⟨s, hs, hon, hret⟩ := Rounds.exists_run
    (S := keygenSetup H x.n x.t x.sid x.coins (· = c)) (M := T.msgs) (k := 3)
    (fun d _ r _ j j' => keygenScript_broadcasts r d j j') fun i hi _ => T.follows i hi
  exact ⟨s, hs, hret, fun j hj hjc => ⟨hon.corrupt c hc rfl 1 (by decide) j hj hjc,
    _, hon.corrupt c hc rfl 2 (by decide) j hj hjc, rfl, rfl⟩⟩

/-- **Honest key generation** succeeds at every party: party `i` holds the value of the joint
    polynomial at its node, and all hold one public key. -/
theorem runKeygen_completes : Completes x.setup fun i => .ok (x.output i) := by
  obtain ⟨T⟩ := x.exists_transcript
  exact completes_of_follows (fun _ _ => not_false) T.follows

end KeygenSession

end Govis.Cggmp21
