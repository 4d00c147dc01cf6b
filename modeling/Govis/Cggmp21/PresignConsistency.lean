import Govis.Cggmp21.EndToEnd

namespace Govis.Cggmp21

open Arith Bytes Curve Rounds

/-!
# CGGMP21: what a presignature is worth

A signer adds up the nonces that it decrypts and, separately, the points that are revealed.  The
two are never compared: the range proof that comes with a ciphertext is not looked at, and a
message without a ciphertext is passed over.

* `Presignature.Consistent` — a nonce, its inverse, its point and the coordinate of that;
* `HonestSigners` — what honest signers may be expected to draw;
* `noncePlaintext_honest` — the ciphertexts of an honest signer match its point;
* `runPresign_consistent_iff` — **a presignature is consistent exactly if what the corrupt
  signers have encrypted adds up to the points they have revealed**;
* `runPresign_inconsistent` — a run in which it does not.
-/

variable {C : Curve} {H : Hash} {signers : List ℕ} {coins : ℕ → PresignCoins C}
  {corrupt : ℕ → Prop} {s : Net (PresignMsg C) (Res PresignError (Presignature C))} {party i : ℕ}

/-- The nonce of a presignature is that of its point and of its inverse. -/
structure Presignature.Consistent (p : Presignature C) : Prop where
  rPoint_eq : p.rPoint = p.k • C.generator
  k_mul_kInv : p.k * p.kInv = 1
  r_eq : ∀ x y, C.coords p.rPoint = some (x, y) → p.r = (x : C.Scalar)

/-- The point that signer `d` has revealed to signer `i`. -/
def revealedNonce (s : Net (PresignMsg C) (Res PresignError (Presignature C))) (i d : ℕ) : C.Point :=
  match (s i).got 2 d with
  | none => 0
  | some (m : RevealMsg C) => m.rPoint

/-- What signer `d` has encrypted for signer `i`, as a scalar; zero when it has sent no
    ciphertext. -/
def receivedNonce (coins : ℕ → PresignCoins C)
    (s : Net (PresignMsg C) (Res PresignError (Presignature C))) (i d : ℕ) : C.Scalar :=
  match (s i).got 3 d with
  | none => 0
  | some (m : EncryptedKMsg) => noncePlaintext (coins i).keypair m

/-- The honest signers are where their positions say, their keypairs come from key generation,
    nonces are not reduced modulo their moduli, and what they draw to encrypt for each other is
    invertible. -/
structure HonestSigners (signers : List ℕ) (coins : ℕ → PresignCoins C) (corrupt : ℕ → Prop) :
    Prop where
  position_eq : ∀ d < signers.length, ¬ corrupt d → position signers (signers.getD d 0) = some d
  generated : ∀ d < signers.length, ¬ corrupt d → ∃ p q, Generated p q (coins d).keypair
  lt_modulus : ∀ d < signers.length, ¬ corrupt d → C.q < (coins d).keypair.pk.n
  rho_coprime : ∀ d < signers.length, ¬ corrupt d → ∀ j < signers.length, ¬ corrupt j → d ≠ j →
    ∀ rho, genBigintRange 1 (coins j).keypair.pk.n ((coins d).rho j) = some rho →
      IsCoprime rho (coins j).keypair.pk.n

/-! ### Honest signers -/

/-- A signer that knows the key of every other position encrypts its nonce for each. -/
theorem encryptNonces_entry {localI m : ℕ} {own : PresignCoins C}
    {pks : List (Option PaillierPublicKey)} {sendMany : List (ℕ × EncryptedKMsg)}
    (h : encryptNonces H localI m own pks = some sendMany) {pk : ℕ → PaillierPublicKey}
    (hpk : ∀ j < m, j ≠ localI → pks[j]? = some (some (pk j))) {j : ℕ} (hj : j < m)
    (hji : j ≠ localI) :
    ∃ msg, messageFrom j sendMany = some msg ∧
      encryptNonce H own.k (pk j) (own.rho j) (own.rangeDraws j) = some msg := by
  unfold encryptNonces at h
  obtain ⟨pushed, hpushed, h⟩ := Option.bind_eq_some_iff.mp h
  have : Nonempty (ℕ × EncryptedKMsg) := ⟨⟨0, none, none⟩⟩
  -- every step of the loop pushes the message for its peer
  obtain ⟨entry, hentry, hlist⟩ := exists_filterMap_of_mapM hpushed fun peer hpeer hnone => by
    obtain ⟨hpm, hpi⟩ := mem_others.mp hpeer
    simp only [hpk peer hpm hpi, Option.bind_eq_bind, Option.bind_some] at hnone
    obtain ⟨msg, -, hnone⟩ := Option.bind_eq_some_iff.mp hnone
    cases hnone
  have hmsg : ∀ peer ∈ others m localI, (entry peer).1 = peer ∧
      encryptNonce H own.k (pk peer) (own.rho peer) (own.rangeDraws peer) =
        some (entry peer).2 := by
    intro peer hpeer
    obtain ⟨hpm, hpi⟩ := mem_others.mp hpeer
    have hpair := hentry peer hpeer
    simp only [hpk peer hpm hpi, Option.bind_eq_bind, Option.bind_some] at hpair
    obtain ⟨msg, henc, hpair⟩ := Option.bind_eq_some_iff.mp hpair
    rw [← Option.some.inj (Option.some.inj hpair)]
    exact ⟨rfl, henc⟩
  have hsend : sendMany = (others m localI).map fun peer => (peer, (entry peer).2) := by
    rw [← Option.some.inj h, hlist]
    exact List.map_congr_left fun peer hpeer => Prod.ext (hmsg peer hpeer).1 rfl
  refine ⟨(entry j).2, ?_, (hmsg j (mem_others.mpr ⟨hj, hji⟩)).2⟩
  rw [hsend, messageFrom_map_others (fun peer => (entry peer).2) hj hji]

/-- **Honest signers.** What an honest signer sends another one in round 3 is its nonce, encrypted
    under the receiver's own key. -/
theorem sent_nonce (hs : Reachable (presignNet H signers coins corrupt) s) (hi : i < signers.length)
    (hh : ¬ corrupt i) (hpk : (coins i).keypair.pk.WellFormed) {d : ℕ} (hd : d < signers.length)
    (hc : ¬ corrupt d) (hpos : position signers (signers.getD d 0) = some d) (hdi : d ≠ i)
    {m3 : EncryptedKMsg} (hm3 : (s d).sent 3 i = some m3) :
    encryptNonce H (coins d).k (coins i).keypair.pk ((coins d).rho i) ((coins d).rangeDraws i) =
      some m3 := by
  have hsound := hs.sound
  obtain ⟨localI, sendMany, hlocal, hsend, hmsg⟩ :=
    runPresign_sends_nonce (hsound.sends_of_sent hd hc hm3)
  obtain rfl : d = localI := Option.some.inj (hpos.symm.trans hlocal)
  -- the signer has recorded the key of every other position
  have hfull : ∀ k < signers.length, k ≠ d → ∃ m, (s d).got 0 k = some m := fun k hk hkd =>
    hs.full_of_sent hd hc hm3 (Nat.zero_lt_succ 2) hk hkd
  have : Nonempty PaillierPKMsg := ⟨⟨0, 0⟩⟩
  obtain ⟨msg0, hmsg0⟩ : ∃ msg0 : ℕ → PaillierPKMsg, ∀ k < signers.length, k ≠ d →
      (s d).got 0 k = some (msg0 k) := exists_row hfull
  have hin : (s d).inbox signers.length d 0 =
      (others signers.length d).map fun k => (k, msg0 k) := collect_eq_map_others hmsg0
  have hkeys : ∀ k < signers.length, k ≠ d →
      (peerKeys d signers.length ((s d).inbox signers.length d 0))[k]? =
        some (some ⟨(msg0 k).n, (msg0 k).n ^ 2, (msg0 k).g⟩) := by
    intro k hk hkd
    rw [hin]
    exact peerKeys_spec msg0 hk hkd
  obtain ⟨msg, hmsg', henc⟩ := encryptNonces_entry hsend hkeys hi (Ne.symm hdi)
  obtain rfl : m3 = msg := Option.some.inj (hmsg.symm.trans hmsg')
  have hkey : (⟨(msg0 i).n, (msg0 i).n ^ 2, (msg0 i).g⟩ : PaillierPublicKey) =
      (coins i).keypair.pk := by
    have hown := runPresign_sends_key (hsound.sends hi hh (hmsg0 i hi (Ne.symm hdi)))
    rw [hown]
    show (⟨(coins i).keypair.pk.n, (coins i).keypair.pk.n ^ 2, (coins i).keypair.pk.g⟩ :
      PaillierPublicKey) = _
    rw [sq, ← hpk.nSq_eq]
  rwa [hkey] at henc

/-- What an honest signer encrypts for another one that draws well is its nonce, and what it reveals
    is the point of that. -/
theorem noncePlaintext_honest (hs : Reachable (presignNet H signers coins corrupt) s)
    (hcoins : HonestSigners signers coins corrupt) (hi : i < signers.length) (hh : ¬ corrupt i)
    {d : ℕ} (hd : d < signers.length) (hc : ¬ corrupt d) (hdi : d ≠ i) {m2 : RevealMsg C}
    {m3 : EncryptedKMsg} (hm2 : (s i).got 2 d = some m2) (hm3 : (s i).got 3 d = some m3) :
    m2.rPoint = (coins d).k • C.generator ∧
      (noncePlaintext (coins i).keypair m3 : C.Scalar) = (coins d).k := by
  have hsound := hs.sound
  refine ⟨by rw [runPresign_sends_point (hsound.sends hd hc hm2)], ?_⟩
  obtain ⟨p, q, hgen⟩ := hcoins.generated i hi hh
  have hvalid := hgen.valid
  have henc := sent_nonce hs hi hh hvalid.wellFormed hd hc (hcoins.position_eq d hd hc) hdi
    (hsound.wire i 3 d m3 hm3).2
  obtain ⟨c, proof, henc', hplain⟩ := encryptNonce_spec H hvalid.wellFormed (coins d).k
    ((coins d).rho i) ((coins d).rangeDraws i) (hcoins.rho_coprime d hd hc i hi hh hdi)
  rw [Option.some.inj (henc.symm.trans henc')]
  simp only [noncePlaintext, decrypt_of_encrypts hvalid hplain, Option.getD_some,
    Nat.mod_eq_of_lt (lt_trans (coins d).k.val_lt (hcoins.lt_modulus i hi hh)), Int.cast_natCast,
    ZMod.natCast_zmod_val]

/-! ### The presignature of an honest signer -/

open Classical in
/-- **When a presignature is consistent.**  In every reachable state in which an honest signer has
    returned a presignature, its inverse and its coordinate are right; its point is that of its
    nonce exactly if what the other signers have encrypted for it adds up to the points they have
    revealed to it.  If the honest signers draw well, only the corrupt ones matter. -/
theorem runPresign_consistent_iff (hs : Reachable (presignNet H signers coins corrupt) s)
    (hpos : position signers party = some i) (hh : ¬ corrupt i) {p : Presignature C}
    (hout : s.Returned i (.ok p)) :
    (p.k * p.kInv = 1 ∧ ∀ x y, C.coords p.rPoint = some (x, y) → p.r = (x : C.Scalar)) ∧
    (p.Consistent ↔
      ∑ d ∈ (Finset.range signers.length).erase i, receivedNonce coins s i d • C.generator =
        ∑ d ∈ (Finset.range signers.length).erase i, revealedNonce s i d) ∧
    (HonestSigners signers coins corrupt → (p.Consistent ↔
      ∑ d ∈ (Finset.range signers.length).filter corrupt, receivedNonce coins s i d • C.generator =
        ∑ d ∈ (Finset.range signers.length).filter corrupt, revealedNonce s i d)) := by
  obtain ⟨hi, -⟩ := getD_of_position hpos
  obtain ⟨hres, msg2, msg3, hmsg⟩ := exists_presign_rows hs hpos hh hout
  obtain ⟨hk, hpoint, hne, hinv, hr⟩ := runPresign_exec_ok hpos
    (collect_eq_map_others fun d hd hdi => (hmsg d hd hdi).1)
    (collect_eq_map_others fun d hd hdi => (hmsg d hd hdi).2) hres
  have hmul : p.k * p.kInv = 1 := by rw [hinv, mul_inv_cancel₀ hne]
  have hcoord : ∀ x y, C.coords p.rPoint = some (x, y) → p.r = (x : C.Scalar) := by
    intro x y hxy
    rw [hr]
    exact pointXCoord_of_coords hxy
  -- the messages in the state are those that the signer has added up
  have hreceived : ∀ d ∈ (Finset.range signers.length).erase i,
      receivedNonce coins s i d = (noncePlaintext (coins i).keypair (msg3 d) : C.Scalar) := by
    intro d hd
    obtain ⟨hdi, hd⟩ := Finset.mem_erase.mp hd
    simp only [receivedNonce, (hmsg d (Finset.mem_range.mp hd) hdi).2]
  have hrevealed : ∀ d ∈ (Finset.range signers.length).erase i,
      revealedNonce s i d = (msg2 d).rPoint := by
    intro d hd
    obtain ⟨hdi, hd⟩ := Finset.mem_erase.mp hd
    simp only [revealedNonce, (hmsg d (Finset.mem_range.mp hd) hdi).1]
  have hall : p.Consistent ↔
      ∑ d ∈ (Finset.range signers.length).erase i, receivedNonce coins s i d • C.generator =
        ∑ d ∈ (Finset.range signers.length).erase i, revealedNonce s i d := by
    have hiff : p.rPoint = p.k • C.generator ↔
        ∑ d ∈ (Finset.range signers.length).erase i, receivedNonce coins s i d • C.generator =
          ∑ d ∈ (Finset.range signers.length).erase i, revealedNonce s i d := by
      rw [hk, hpoint, add_smul, add_right_inj, Finset.sum_smul, Finset.sum_congr rfl hrevealed,
        Finset.sum_congr rfl fun d hd => congrArg (· • C.generator) (hreceived d hd)]
      exact eq_comm
    exact ⟨fun h => hiff.mp h.rPoint_eq, fun h => ⟨hiff.mpr h, hmul, hcoord⟩⟩
  refine ⟨⟨hmul, hcoord⟩, hall, fun hcoins => ?_⟩
  rw [hall]
  -- the honest signers contribute the same to both sides
  have hsplit : ∀ f : ℕ → C.Point, ∑ d ∈ (Finset.range signers.length).erase i, f d =
      ∑ d ∈ (Finset.range signers.length).filter corrupt, f d +
        ∑ d ∈ ((Finset.range signers.length).erase i).filter (¬ corrupt ·), f d :=
    sum_erase_eq_corrupt hh
  have hhonest : ∑ d ∈ ((Finset.range signers.length).erase i).filter (¬ corrupt ·),
      receivedNonce coins s i d • C.generator =
        ∑ d ∈ ((Finset.range signers.length).erase i).filter (¬ corrupt ·),
          revealedNonce s i d := by
    apply Finset.sum_congr rfl
    intro d hd
    obtain ⟨hd, hc⟩ := Finset.mem_filter.mp hd
    obtain ⟨hdi, hdn⟩ := Finset.mem_erase.mp hd
    have hdn := Finset.mem_range.mp hdn
    obtain ⟨h2, h3⟩ := noncePlaintext_honest hs hcoins hi hh hdn hc hdi (hmsg d hdn hdi).1
      (hmsg d hdn hdi).2
    rw [hreceived d hd, hrevealed d hd, h2, h3]
  rw [hsplit, hsplit fun d => revealedNonce s i d, hhonest, add_left_inj]

/-! ### An absent ciphertext -/

namespace PresignSession

variable {x : PresignSession C}

/-- **An absent nonce.**  Signer `c` follows the protocol but sends no ciphertext in round 3.
    Every honest signer returns the point of the joint nonce with a nonce that lacks the part of
    `c`. -/
theorem exists_absent_run (H : Hash) {c : ℕ} (hc : c < x.signers.length)
    (hne : x.k - (x.coins c).k ≠ 0) :
    ∃ s, Reachable (presignNet H x.signers x.coins (· = c)) s ∧
      ∀ i < x.signers.length, i ≠ c → s.Returned i (.ok
        ⟨x.k - (x.coins c).k, (x.k - (x.coins c).k)⁻¹, x.r, x.rPoint⟩) := by
  obtain ⟨cipher, proof, henc⟩ := x.draws.exists_encrypted H
  -- the messages of round 3
  set msg3 : ℕ → ℕ → EncryptedKMsg := fun d j =>
    if d = c then ⟨none, none⟩ else ⟨some (cipher d j), some (proof d j)⟩ with hmsg3
  have hfollows : ∀ i < x.signers.length, i ≠ c → Follows x.signers.length i
      (presignScript H x.coins msg3) 4
      (.ok ⟨x.k - (x.coins c).k, (x.k - (x.coins c).k)⁻¹, x.r, x.rPoint⟩)
      (runPresign H (x.signers.getD i 0) x.signers (x.coins i)) := by
    intro i hi hic
    refine follows_received H hi (fun j hj hij => ?_) ?_ hne
    · rw [hmsg3]
      simp only [if_neg hic]
      exact (henc i hi j hj hij).1
    · have hterm : ∀ d ∈ (Finset.range x.signers.length).erase i,
          (noncePlaintext (x.coins i).keypair (msg3 d i) : C.Scalar) =
            (x.coins d).k - if d = c then (x.coins c).k else 0 := by
        intro d hd
        obtain ⟨hdi, hd⟩ := Finset.mem_erase.mp hd
        rw [hmsg3]
        by_cases hdc : d = c
        · subst hdc
          simp [noncePlaintext]
        · simp only [if_neg hdc, sub_zero]
          exact noncePlaintext_encrypts hi (henc d (Finset.mem_range.mp hd) i hi hdi).2 _
      have hmem : c ∈ (Finset.range x.signers.length).erase i :=
        Finset.mem_erase.mpr ⟨Ne.symm hic, Finset.mem_range.mpr hc⟩
      rw [Finset.sum_congr rfl hterm, Finset.sum_sub_distrib, Finset.sum_ite_eq', if_pos hmem,
        ← add_sub_assoc, Finset.add_sum_erase _ (fun d => (x.coins d).k) (Finset.mem_range.mpr hi)]
      rfl
  obtain ⟨s, hs, -, hret⟩ := Rounds.exists_run
    (S := presignNet H x.signers x.coins (· = c)) (M := presignScript H x.coins msg3) (k := 4)
    (fun d _ r hr j j' => by
      have hr : r < 3 := hr
      obtain rfl | rfl | rfl : r = 0 ∨ r = 1 ∨ r = 2 := by omega
      · rfl
      · rfl
      · rfl) hfollows
  exact ⟨s, hs, hret⟩

end PresignSession

/-- **An inconsistent presignature.**  In the small session the corrupt signer at position 1 sends
    no ciphertext; the honest one at position 0 returns a nonce that is not that of its point. -/
theorem runPresign_inconsistent :
    ∃ s p, Reachable (presignNet oneHash [2, 0] smallPresign.coins (· = 1)) s ∧
      s.Returned 0 (.ok p) ∧ ¬ p.Consistent := by
  obtain ⟨s, hs, hret⟩ := PresignSession.exists_absent_run (x := smallPresign) oneHash (c := 1)
    (by decide) (by decide)
  refine ⟨s, _, hs, hret 0 (by decide) (by decide), fun h => ?_⟩
  exact absurd (generator_smul_eq_iff.mp h.rPoint_eq) (by decide)

/-- The criterion on the run with the absent ciphertext. -/
theorem runPresign_consistent_iff_run :
    ∃ s, ∃ p : Presignature smallCurve,
      Reachable (presignNet oneHash [2, 0] smallPresign.coins (· = 1)) s ∧
      s.Returned 0 (.ok p) ∧ p.k * p.kInv = 1 ∧
      (p.Consistent ↔
        ∑ d ∈ (Finset.range 2).filter (· = 1),
            receivedNonce smallPresign.coins s 0 d • smallCurve.generator =
          ∑ d ∈ (Finset.range 2).filter (· = 1), revealedNonce s 0 d) := by
  obtain ⟨s, hs, hret⟩ := PresignSession.exists_absent_run (x := smallPresign) oneHash (c := 1)
    (by decide) (by decide)
  have hreach : Reachable (presignNet oneHash [2, 0] smallPresign.coins (· = 1)) s := hs
  have hout := hret 0 (by decide) (by decide)
  have hcoins : HonestSigners [2, 0] smallPresign.coins (· = 1) :=
    ⟨fun d hd _ => position_getD smallPresign.nodup hd, fun d hd _ => smallPresign.generated d hd,
      fun d hd _ => smallPresign.lt_modulus d hd,
      fun d hd _ j hj _ => smallPresign.rho_coprime d hd j hj⟩
  have h := runPresign_consistent_iff hreach (show position [2, 0] 2 = some 0 by decide) (by decide) hout
  refine ⟨s, _, hreach, hout, h.1.1, ?_⟩
  have hiff := h.2.2 hcoins
  convert hiff <;> rfl

end Govis.Cggmp21
