import Govis.Cggmp21.EndToEnd
import Govis.PaillierZkSound

namespace Govis.Cggmp21

open Arith Bytes Curve Rounds Shamir

/-!
# CGGMP21: what a share is worth

The share that an honest party returns from `run_keygen` adds up numbers that it decrypts.  They
are compared with the coefficient points through the discrete-log proof only, and that proof can
be made for every ciphertext.

* `HonestCoins` — what honest parties may be expected to draw;
* `sent_share`, `sharePlaintext_eq` — what honest dealers encrypt, and what arrives of it;
* `runKeygen_share_iff` — **the share matches the published polynomials exactly if the
  plaintexts that the corrupt dealers have encrypted for the party add up to theirs**;
* `runKeygen_wrong_share` — a run in which they do not.
-/

variable {C : Curve} {H : Hash} {n t : ℕ} {sid : List UInt8} {coins : ℕ → KeygenCoins C}
  {corrupt : ℕ → Prop} {s : Net (KeygenMsg C) (Res KeygenError (Cggmp21KeygenOutput C))} {i : ℕ}

/-- What dealer `d` has encrypted for party `i`. -/
def receivedPlaintext (coins : ℕ → KeygenCoins C)
    (s : Net (KeygenMsg C) (Res KeygenError (Cggmp21KeygenOutput C))) (i d : ℕ) : C.Scalar :=
  match (s i).got 2 d with
  | none => 0
  | some msg3 => sharePlaintext i (coins i).keypair d msg3

/-- The keypairs of the honest parties come from key generation, shares are not reduced modulo
    their moduli, and what honest parties draw to encrypt for each other is invertible. -/
structure HonestCoins (n : ℕ) (coins : ℕ → KeygenCoins C) (corrupt : ℕ → Prop) : Prop where
  generated : ∀ i < n, ¬ corrupt i → Generated (coins i).p (coins i).q (coins i).keypair
  lt_modulus : ∀ i < n, ¬ corrupt i → C.q < (coins i).keypair.pk.n
  rho_coprime : ∀ i < n, ¬ corrupt i → ∀ j < n, ¬ corrupt j → i ≠ j → ∀ rho,
    genBigintRange 1 (coins j).keypair.pk.n ((coins i).rho j) = some rho →
      IsCoprime rho (coins j).keypair.pk.n

/-! ### Honest dealers -/

/-- An honest dealer that has sent in round 2 had recorded the key of every other party. -/
theorem recorded_keys (hs : Reachable (keygenSetup H n t sid coins corrupt) s) {d j : ℕ}
    (hd : d < n) (hc : ¬ corrupt d) {m : Round3Msg C} (hm : (s d).sent 2 j = some m)
    {pks : List (Option PaillierPublicKey)}
    (hpks : recordKeys H sid ((List.replicate n none).set d (some (coins d).keypair.pk))
      ((s d).inbox n d 0) = .ok pks) :
    ∃ msg : ℕ → Round1Msg, (∀ k < n, k ≠ d → (s d).got 0 k = some (msg k)) ∧
      ∀ k < n, k ≠ d → pks[k]? = some (some (peerKey (ofBE (msg k).paillierN))) := by
  have hfull : ∀ k < n, k ≠ d → ∃ m, (s d).got 0 k = some m := fun k hk hkd =>
    hs.full_of_sent hd hc hm Nat.zero_lt_two hk hkd
  have : Nonempty Round1Msg := ⟨⟨[], ⟨[], [], []⟩⟩⟩
  obtain ⟨msg, hmsg⟩ : ∃ msg : ℕ → Round1Msg, ∀ k < n, k ≠ d → (s d).got 0 k = some (msg k) :=
    exists_row hfull
  have hin : (s d).inbox n d 0 = (others n d).map fun k => (k, msg k) := collect_eq_map_others hmsg
  rw [hin] at hpks
  refine ⟨msg, hmsg, fun k hk hkd => ?_⟩
  rw [recordKeys_eq_ok hpks, getElem?_foldl_set _ _ _ (fun e he => by
    rw [List.length_set, List.length_replicate]
    exact (mem_others.mp he).1), if_pos (mem_others.mpr ⟨hk, hkd⟩)]

/-- **Honest dealers.** What an honest dealer broadcasts in round 2 has its share for an honest
    party, encrypted under that party's own key. -/
theorem sent_share (hs : Reachable (keygenSetup H n t sid coins corrupt) s) (hi : i < n)
    (hh : ¬ corrupt i) (hgen : Generated (coins i).p (coins i).q (coins i).keypair) {d k : ℕ}
    (hd : d < n) (hc : ¬ corrupt d) (hdi : d ≠ i) {m : Round3Msg C} (hm : (s d).sent 2 k = some m) :
    ∃ enc, m.encryptedShares[if d < i then i - 1 else i]? = some enc ∧
      encryptShare H sid (keygenVector coins t d) (dealtShare coins t d i) (coins i).keypair.pk i
        ((coins d).rho i) ((coins d).logDraws i) = some enc := by
  obtain ⟨pks, hpks, hdeal⟩ := runKeygen_sends_shares (hs.sound.sends_of_sent hd hc hm)
  obtain ⟨msg, hmsg, hkeys⟩ := recorded_keys hs hd hc hm hpks
  obtain ⟨share, enc, hshare, henc, hget⟩ := dealShares_entry hdeal hkeys hd hi (Ne.symm hdi)
  have hwf := hgen.valid.wellFormed
  -- the key that the dealer has recorded is the party's own
  have hkey : peerKey (ofBE (msg i).paillierN) = (coins i).keypair.pk := by
    have hown := runKeygen_sends_modulus (hs.sound.sends hi hh (hmsg i hi (Ne.symm hdi)))
    rw [hown, peerKey, ← hwf.nSq_eq, ← hwf.g_eq]
  have hval : share = dealtShare coins t d i := by
    have heq := hshare.symm.trans (evaluatePolynomial_share (coins d).ecSecret (coins d).draw hi)
    exact Option.some.inj heq
  rw [hkey, hval] at henc
  exact ⟨enc, hget, henc⟩

/-- **What arrives** is the share modulo the modulus of the party it is for. -/
theorem sharePlaintext_eq (hs : Reachable (keygenSetup H n t sid coins corrupt) s) (hi : i < n)
    (hh : ¬ corrupt i) (hgen : Generated (coins i).p (coins i).q (coins i).keypair) {d : ℕ}
    (hd : d < n) (hc : ¬ corrupt d) (hdi : d ≠ i)
    (hrho : ∀ rho, genBigintRange 1 (coins i).keypair.pk.n ((coins d).rho i) = some rho →
      IsCoprime rho (coins i).keypair.pk.n)
    {m : Round3Msg C} (hm : (s i).got 2 d = some m) :
    sharePlaintext i (coins i).keypair d m =
      (((dealtShare coins t d i).val % (coins i).keypair.pk.n : ℕ) : C.Scalar) := by
  obtain ⟨enc, hget, henc⟩ := sent_share hs hi hh hgen hd hc hdi (hs.sound.wire i 2 d m hm).2
  obtain ⟨enc', henc', -, hplain⟩ := encryptShare_spec H sid hgen.valid.wellFormed
    (dealtShare_smul (t := t) d i) ((coins d).rho i) ((coins d).logDraws i) hrho
  obtain rfl : enc = enc' := Option.some.inj (henc.symm.trans henc')
  simp only [sharePlaintext, hget, decrypt_of_encrypts hgen.valid hplain, Option.map_some,
    Option.getD_some, fromBeBytesModOrder_magnitude]

/-- What an honest dealer encrypts for an honest party that draws well is its share. -/
theorem sharePlaintext_honest (hs : Reachable (keygenSetup H n t sid coins corrupt) s)
    (hcoins : HonestCoins n coins corrupt) (hi : i < n) (hh : ¬ corrupt i) {d : ℕ} (hd : d < n)
    (hc : ¬ corrupt d) (hdi : d ≠ i) {m : Round3Msg C} (hm : (s i).got 2 d = some m) :
    sharePlaintext i (coins i).keypair d m = dealtShare coins t d i := by
  rw [sharePlaintext_eq hs hi hh (hcoins.generated i hi hh) hd hc hdi
    (hcoins.rho_coprime d hd hc i hi hh hdi) hm,
    Nat.mod_eq_of_lt (lt_trans (dealtShare coins t d i).val_lt (hcoins.lt_modulus i hi hh)),
    ZMod.natCast_zmod_val]

/-! ### The share of an honest party -/

/-- **The share** is the party's own plus what the others have encrypted for it. -/
theorem runKeygen_ecShare (hs : Reachable (keygenSetup H n t sid coins corrupt) s) (hi : i < n)
    (hh : ¬ corrupt i) {out : Cggmp21KeygenOutput C} (hout : s.Returned i (.ok out)) :
    out.ecShare = dealtShare coins t i i +
      ∑ d ∈ (Finset.range n).erase i, receivedPlaintext coins s i d := by
  obtain ⟨hres, msg, hmsg⟩ := exists_keygen_row hs hi hh hout
  obtain ⟨⟨own, hown, hshare⟩, -⟩ := runKeygen_exec_ok (collect_eq_map_others hmsg) hres
  rw [evaluatePolynomial_share _ _ hi, Option.some.injEq] at hown
  rw [hshare, ← hown]
  refine congrArg₂ (· + ·) rfl (Finset.sum_congr rfl fun d hd => ?_)
  obtain ⟨hdi, hd⟩ := Finset.mem_erase.mp hd
  simp only [receivedPlaintext, hmsg d (Finset.mem_range.mp hd) hdi]

open Classical in
/-- **When a share matches the published polynomials.**  In every reachable state in which the
    honest party `i` has returned a share, the share matches the sum of the revealed vectors at
    the party's node exactly if the plaintexts that the other dealers have encrypted for the party
    match theirs.  If the honest parties draw well, only the corrupt dealers matter. -/
theorem runKeygen_share_iff (hs : Reachable (keygenSetup H n t sid coins corrupt) s) (hi : i < n)
    (hh : ¬ corrupt i) {out : Cggmp21KeygenOutput C} (hout : s.Returned i (.ok out)) :
    (out.ecShare • C.generator = jointAt n (revealedPoints corrupt coins t s) (node C i) ↔
      ∑ d ∈ (Finset.range n).erase i, receivedPlaintext coins s i d • C.generator =
        ∑ d ∈ (Finset.range n).erase i, pointAt (revealedPoints corrupt coins t s d) (node C i)) ∧
    (HonestCoins n coins corrupt →
      (out.ecShare • C.generator = jointAt n (revealedPoints corrupt coins t s) (node C i) ↔
        ∑ d ∈ (Finset.range n).filter corrupt, receivedPlaintext coins s i d • C.generator =
          ∑ d ∈ (Finset.range n).filter corrupt,
            pointAt (revealedPoints corrupt coins t s d) (node C i))) := by
  have hmem : i ∈ Finset.range n := Finset.mem_range.mpr hi
  have hown : revealedPoints corrupt coins t s i = keygenVector coins t i := if_neg hh
  have hjoint : jointAt n (revealedPoints corrupt coins t s) (node C i) =
      pointAt (keygenVector coins t i) (node C i) + ∑ d ∈ (Finset.range n).erase i,
        pointAt (revealedPoints corrupt coins t s d) (node C i) := by
    rw [jointAt, ← Finset.add_sum_erase _ _ hmem, hown]
    simp only [pointAt_eq]
  have hall : out.ecShare • C.generator = jointAt n (revealedPoints corrupt coins t s) (node C i) ↔
      ∑ d ∈ (Finset.range n).erase i, receivedPlaintext coins s i d • C.generator =
        ∑ d ∈ (Finset.range n).erase i, pointAt (revealedPoints corrupt coins t s d) (node C i) := by
    rw [runKeygen_ecShare hs hi hh hout, add_smul, dealtShare_smul, Finset.sum_smul, hjoint,
      add_right_inj]
  refine ⟨hall, fun hcoins => ?_⟩
  rw [hall]
  -- the honest dealers contribute the same to both sides
  have hsplit : ∀ f : ℕ → C.Point, ∑ d ∈ (Finset.range n).erase i, f d =
      ∑ d ∈ (Finset.range n).filter corrupt, f d +
        ∑ d ∈ ((Finset.range n).erase i).filter (¬ corrupt ·), f d :=
    sum_erase_eq_corrupt hh
  have hhonest : ∑ d ∈ ((Finset.range n).erase i).filter (¬ corrupt ·),
      receivedPlaintext coins s i d • C.generator =
        ∑ d ∈ ((Finset.range n).erase i).filter (¬ corrupt ·),
          pointAt (revealedPoints corrupt coins t s d) (node C i) := by
    obtain ⟨-, msg, hmsg⟩ := exists_keygen_row hs hi hh hout
    apply Finset.sum_congr rfl
    intro d hd
    obtain ⟨hd, hc⟩ := Finset.mem_filter.mp hd
    obtain ⟨hdi, hd⟩ := Finset.mem_erase.mp hd
    have hgot := hmsg d (Finset.mem_range.mp hd) hdi
    rw [revealedPoints, if_neg hc, ← dealtShare_smul]
    simp only [receivedPlaintext, hgot,
      sharePlaintext_honest hs hcoins hi hh (Finset.mem_range.mp hd) hc hdi hgot]
  rw [hsplit, hsplit fun d => pointAt (revealedPoints corrupt coins t s d) (node C i), hhonest,
    add_left_inj]

/-! ### A forged ciphertext -/

namespace KeygenSession

variable (x : KeygenSession C H)

/-- The ciphertext `1`, of zero, with a proof that it encrypts the share of dealer `c`. -/
def forgedShare (c j : ℕ) : ℤ × LogProof C :=
  (1, forgedLog H x.sid (x.coins j).keypair.pk 1 (x.share c j))

variable {x}

theorem encrypts_one (N : ℕ) : Encrypts N 1 0 := by
  refine ⟨1, isCoprime_one_left, ?_⟩
  rw [pow_zero, one_pow, one_mul]

/-- The shares of party `i` without that of dealer `c`. -/
theorem add_sum_share_of_ne {c i : ℕ} (hc : c < x.n) (hi : i < x.n) (hic : i ≠ c) :
    x.share i i + ∑ d ∈ (Finset.range x.n).erase i, (if d = c then 0 else x.share d i) =
      (x.output i).ecShare - x.share c i := by
  have hmem : c ∈ (Finset.range x.n).erase i :=
    Finset.mem_erase.mpr ⟨Ne.symm hic, Finset.mem_range.mpr hc⟩
  have hterm : ∀ d ∈ (Finset.range x.n).erase i, (if d = c then 0 else x.share d i) =
      x.share d i - if d = c then x.share c i else 0 := by
    intro d _
    split
    · rename_i hdc
      rw [hdc, sub_self]
    · rw [sub_zero]
  rw [Finset.sum_congr rfl hterm, Finset.sum_sub_distrib, Finset.sum_ite_eq', if_pos hmem,
    ← add_sub_assoc, Finset.add_sum_erase _ (fun d => x.share d i) (Finset.mem_range.mpr hi),
    sum_share]
  rfl

/-- **A forged dealing.**  Dealer `c` follows the protocol but encrypts zero for everybody.  Every
    honest party returns a share that lacks the part of `c`. -/
theorem exists_forged_run {c : ℕ} (hc : c < x.n) :
    ∃ s, Reachable (keygenSetup H x.n x.t x.sid x.coins (· = c)) s ∧
      (∀ i < x.n, i ≠ c → s.Returned i (.ok { x.output i with
        ecShare := (x.output i).ecShare - x.share c i })) ∧
      ∀ d < x.n, ∀ j < x.n, j ≠ d → revealedPoints (· = c) x.coins x.t s d = x.vec d := by
  obtain ⟨blum, hblum⟩ := x.draws.exists_blum
  obtain ⟨enc, henc⟩ := x.draws.exists_encrypted x.t
  -- the ciphertexts of the script, and what they encrypt
  set enc' : ℕ → ℕ → ℤ × LogProof C := fun d j => if d = c then x.forgedShare c j else enc d j
    with henc'
  have hfollows : ∀ i < x.n, i ≠ c → Follows x.n i (x.script blum enc') 3
      (.ok { x.output i with ecShare := x.share i i +
        ∑ d ∈ (Finset.range x.n).erase i, if d = c then 0 else x.share d i })
      (runKeygen H i x.n x.t x.sid (x.coins i)) := by
    intro i hi hic
    refine follows_received hi (hblum i hi).1 (fun d hd => (hblum d hd).2) (fun j hj hij => ?_)
      (fun d hd hdi => ?_) fun d hd hdi => ?_
    · rw [henc']
      simp only [if_neg hic]
      exact (henc i hi j hj hij).1
    · rw [henc']
      by_cases hdc : d = c
      · subst hdc
        simp only [if_true, forgedShare, KeygenSession.vec, ← dealtShare_smul]
        exact verifyLog_forgedLog H x.sid (valid hi).wellFormed 1 _
      · simp only [if_neg hdc]
        exact (henc d hd i hi hdi).2.1
    · rw [henc']
      by_cases hdc : d = c
      · simp only [if_pos hdc, ZMod.val_zero, forgedShare]
        exact encrypts_one _
      · simp only [if_neg hdc]
        exact (henc d hd i hi hdi).2.2
  obtain ⟨s, hs, hon, hret⟩ := Rounds.exists_run
    (S := keygenSetup H x.n x.t x.sid x.coins (· = c)) (M := x.script blum enc') (k := 3)
    (fun d _ r _ j j' => by
      match r with
      | 0 => rfl
      | 1 => rfl
      | _ + 2 => rfl) hfollows
  refine ⟨s, hs, fun i hi hic => ?_, fun d hd j hj hjd => ?_⟩
  · rw [← add_sum_share_of_ne hc hi hic]
    exact hret i hi hic
  · by_cases hdc : d = c
    · have hsent := hon.corrupt d hd hdc 2 (by decide) j hj hjd
      exact (sent_points hs.sound hd hsent).symm
    · exact if_neg hdc

end KeygenSession

/-- **A wrong share.**  In the small session with a corrupt dealer 1, the honest party 0 returns a
    share that does not match the published polynomials. -/
theorem runKeygen_wrong_share :
    ∃ s out, Reachable (keygenSetup oneHash 3 2 [] smallKeygen.coins (· = 1)) s ∧
      s.Returned 0 (.ok out) ∧
      out.ecShare • smallCurve.generator ≠
        jointAt 3 (revealedPoints (· = 1) smallKeygen.coins 2 s) (node smallCurve 0) := by
  obtain ⟨s, hs, hret, hrev⟩ := KeygenSession.exists_forged_run (x := smallKeygen) (c := 1) (by decide)
  refine ⟨s, _, hs, hret 0 (by decide) (by decide), fun heq => ?_⟩
  have hjoint : jointAt 3 (revealedPoints (· = 1) smallKeygen.coins 2 s) (node smallCurve 0) =
      (smallKeygen.output 0).ecShare • smallCurve.generator := by
    show _ = smallKeygen.poly.eval (node smallCurve 0) • smallCurve.generator
    rw [KeygenSession.poly, eval_jointPoly_smul]
    refine Finset.sum_congr rfl fun d hd => ?_
    have hd3 : d < 3 := Finset.mem_range.mp hd
    exact congrArg (evalAt (node smallCurve 0)) (hrev d hd3 (if d = 0 then 1 else 0)
      (by split <;> decide) (by split <;> omega))
  rw [hjoint, generator_smul_eq_iff, sub_eq_self] at heq
  -- the missing part is the value of `1 + x` at the node 1
  exact absurd heq (by decide)

/-- The criterion on the run with the wrong share. -/
theorem runKeygen_share_iff_run :
    ∃ s, ∃ out : Cggmp21KeygenOutput smallCurve,
      Reachable (keygenSetup oneHash 3 2 [] smallKeygen.coins (· = 1)) s ∧
      s.Returned 0 (.ok out) ∧
      (out.ecShare • smallCurve.generator =
        jointAt 3 (revealedPoints (· = 1) smallKeygen.coins 2 s) (node smallCurve 0) ↔
      ∑ d ∈ (Finset.range 3).filter (· = 1),
          receivedPlaintext smallKeygen.coins s 0 d • smallCurve.generator =
        ∑ d ∈ (Finset.range 3).filter (· = 1),
          pointAt (revealedPoints (· = 1) smallKeygen.coins 2 s d) (node smallCurve 0)) := by
  obtain ⟨s, hs, hret, -⟩ := KeygenSession.exists_forged_run (x := smallKeygen) (c := 1) (by decide)
  have hout := hret 0 (by decide) (by decide)
  have hcoins : HonestCoins 3 smallKeygen.coins (· = 1) :=
    ⟨fun i hi _ => smallKeygen.generated i hi, fun i hi _ => smallKeygen.lt_modulus i hi,
      fun i hi _ j hj _ => smallKeygen.rho_coprime i hi j hj⟩
  have hreach : Reachable (keygenSetup oneHash 3 2 [] smallKeygen.coins (· = 1)) s := hs
  refine ⟨s, _, hreach, hout, ?_⟩
  have h := (runKeygen_share_iff hreach (by decide) (by decide) hout).2 hcoins
  convert h

end Govis.Cggmp21
