import Govis.Cggmp21.Keygen
import Govis.Lindell.DkgRuns

namespace Govis.Cggmp21

open Bytes Curve Rounds Shamir
open Lindell (DealerCoins ownVector)

/-!
# CGGMP21: key generation against corrupt parties

What an honest party that succeeds in `run_keygen` has accepted, whatever the corrupt ones send.

* `openKeys_eq_ok` — every accepted vector of coefficient points is not empty; the share adds up
  the decrypted plaintexts, and the public key the first points;
* `revealedPoints` — the one vector every party shows the others;
* `runKeygen_publicKey` — the public key is the value at zero of their joint polynomial.
-/

variable {C : Curve} {H : Hash} {n t : ℕ} {sid : List UInt8} {i : ℕ}

/-- The dealing that a party draws. -/
def KeygenCoins.dealer (coins : KeygenCoins C) : DealerCoins C := ⟨coins.ecSecret, coins.draw⟩

/-- The vector that party `d` commits to. -/
def keygenVector (coins : ℕ → KeygenCoins C) (t d : ℕ) : List C.Point :=
  ownVector (fun i => (coins i).dealer) t d

/-! ### One party -/

/-- What the message of `sender` encrypts for party `i`, as a scalar; zero when it encrypts
    nothing for it. -/
def sharePlaintext (i : ℕ) (kp : PaillierKeypair) (sender : ℕ) (msg3 : Round3Msg C) : C.Scalar :=
  let encIdx := if sender < i then i - 1 else i
  match msg3.encryptedShares[encIdx]? with
  | none => 0
  | some enc => ((decrypt kp.sk kp.pk enc.1).map fun shareBi =>
      fromBeBytesModOrder C (magnitude shareBi)).getD 0

/-- An accepted share is the plaintext. -/
theorem receiveShare_eq_ok {kp : PaillierKeypair} {sender : ℕ} {msg3 : Round3Msg C}
    {share : C.Scalar} (h : receiveShare H sid i kp sender msg3 = .ok share) :
    share = sharePlaintext i kp sender msg3 := by
  unfold receiveShare at h
  obtain ⟨enc, henc, h⟩ := bind_eq_ok.mp h
  obtain ⟨logOk, -, h⟩ := bind_eq_ok.mp h
  split at h
  · cases h
  · obtain ⟨shareBi, hdec, h⟩ := bind_eq_ok.mp h
    simp only [sharePlaintext, orPanic_eq_ok.mp henc, orPanic_eq_ok.mp hdec, Option.map_some,
      Option.getD_some]
    exact (Except.ok.inj h).symm

/-- **Accepted openings.** -/
theorem openKeys_eq_ok {kp : PaillierKeypair} {round2Msgs : List (ℕ × Round2Msg)}
    {l : List (ℕ × Round3Msg C)} {x x' : C.Scalar} {pk pk' : C.Point}
    (h : openKeys H sid i kp round2Msgs x pk l = .ok (x', pk')) :
    x' = x + (l.map fun e => if e.1 ≠ i then sharePlaintext i kp e.1 e.2 else 0).sum ∧
      pk' = pk + (l.map fun e => e.2.polynomialCoeffPoints.headD 0).sum := by
  induction l generalizing x pk with
  | nil =>
    cases h
    rw [List.map_nil, List.sum_nil, add_zero, List.map_nil, List.sum_nil, add_zero]
    exact ⟨rfl, rfl⟩
  | cons e rest ih =>
    obtain ⟨sender, msg3⟩ := e
    rw [openKeys] at h
    obtain ⟨round2Commit, -, h⟩ := bind_eq_ok.mp h
    split at h
    · cases h
    · obtain ⟨pkPoint, hfirst, h⟩ := bind_eq_ok.mp h
      split at h
      · cases h
      · obtain ⟨share, hshare, h⟩ := bind_eq_ok.mp h
        have hhead : msg3.polynomialCoeffPoints.headD 0 = pkPoint := by
          rw [List.headD_eq_head?_getD, orPanic_eq_ok.mp hfirst, Option.getD_some]
        have hplain : share = if sender ≠ i then sharePlaintext i kp sender msg3 else 0 := by
          split at hshare
          · rename_i hne
            rw [if_pos hne, receiveShare_eq_ok hshare]
          · rename_i hself
            rw [if_neg hself, Except.ok.inj hshare]
        obtain ⟨hx, hpk⟩ := ih h
        rw [hx, hpk, List.map_cons, List.sum_cons, List.map_cons, List.sum_cons, hhead, ← hplain,
          add_assoc, add_assoc]
        exact ⟨rfl, rfl⟩

/-- The keys that are recorded after round 0. -/
theorem recordKeys_eq_ok {senders : List ℕ} {msg : ℕ → Round1Msg}
    {pks pks' : List (Option PaillierPublicKey)}
    (h : recordKeys H sid pks (senders.map fun d => (d, msg d)) = .ok pks') :
    pks' = senders.foldl (fun l d => l.set d (some (peerKey (ofBE (msg d).paillierN)))) pks := by
  induction senders generalizing pks with
  | nil => exact (Except.ok.inj h).symm
  | cons d senders ih =>
    rw [List.map_cons, recordKeys] at h
    split at h
    · cases h
    · rw [List.foldl_cons]
      exact ih h

/-- The broadcast of round 2 carries the vector that was committed to. -/
theorem dealShares_points {coins : KeygenCoins C} {commitments : List C.Point}
    {secretShares : List C.Scalar} {pks : List (Option PaillierPublicKey)} {msg3 : Round3Msg C}
    (h : dealShares H i n sid coins commitments secretShares pks = some msg3) :
    msg3.polynomialCoeffPoints = commitments := by
  unfold dealShares at h
  obtain ⟨first, -, h⟩ := Option.bind_eq_some_iff.mp h
  obtain ⟨pushed, -, h⟩ := Option.bind_eq_some_iff.mp h
  rw [← Option.some.inj h]

/-- When the dealer has recorded a key of every other party, its broadcast of round 2 has an entry
    for each, under the index that skips the dealer. -/
theorem dealShares_entry {coins : KeygenCoins C} {commitments : List C.Point}
    {secretShares : List C.Scalar} {pks : List (Option PaillierPublicKey)} {msg3 : Round3Msg C}
    (h : dealShares H i n sid coins commitments secretShares pks = some msg3)
    {pk : ℕ → PaillierPublicKey} (hpk : ∀ j < n, j ≠ i → pks[j]? = some (some (pk j))) (hi : i < n)
    {j : ℕ} (hj : j < n) (hji : j ≠ i) :
    ∃ share enc, secretShares[j]? = some share ∧
      encryptShare H sid commitments share (pk j) j (coins.rho j) (coins.logDraws j) = some enc ∧
      msg3.encryptedShares[if i < j then j - 1 else j]? = some enc := by
  unfold dealShares at h
  obtain ⟨first, -, h⟩ := Option.bind_eq_some_iff.mp h
  obtain ⟨pushed, hpushed, h⟩ := Option.bind_eq_some_iff.mp h
  have : Nonempty (ℤ × LogProof C) := ⟨⟨0, ⟨0, 0, 0, 0⟩⟩⟩
  -- every step of the loop pushes the ciphertext for its peer
  obtain ⟨enc, henc, hlist⟩ := exists_filterMap_of_mapM hpushed fun peer hpeer hnone => by
    obtain ⟨hpn, hpi⟩ := mem_others.mp hpeer
    simp only [hpk peer hpn hpi, Option.bind_eq_bind, Option.bind_some] at hnone
    obtain ⟨share, -, hnone⟩ := Option.bind_eq_some_iff.mp hnone
    obtain ⟨e, -, hnone⟩ := Option.bind_eq_some_iff.mp hnone
    cases hnone
  have hentry := henc j (mem_others.mpr ⟨hj, hji⟩)
  simp only [hpk j hj hji, Option.bind_eq_bind, Option.bind_some] at hentry
  obtain ⟨share, hshare, hentry⟩ := Option.bind_eq_some_iff.mp hentry
  obtain ⟨e, he, hentry⟩ := Option.bind_eq_some_iff.mp hentry
  refine ⟨share, e, hshare, he, ?_⟩
  have hencrypted : msg3.encryptedShares = (others n i).map enc := by
    rw [← Option.some.inj h, ← hlist]
  rw [hencrypted, List.getElem?_map, getElem?_others hi hj hji, Option.map_some,
    ← Option.some.inj (Option.some.inj hentry)]

section Party

variable {coins : KeygenCoins C} {inb : Inbox (KeygenMsg C)} {out : Cggmp21KeygenOutput C}

/-- **What a successful party returns.** Its share adds up its own one and the plaintexts, its
    public key the first points. -/
theorem runKeygen_exec_ok {msg : ℕ → Round3Msg C}
    (h2 : inb 2 = (others n i).map fun d => (d, msg d))
    (h : (runKeygen H i n t sid coins).exec inb = .ok out) :
    (∃ own, (evaluatePolynomial coins.ecSecret coins.draw t n).2[i]? = some own ∧
      out.ecShare = own +
        ∑ d ∈ (Finset.range n).erase i, sharePlaintext i coins.keypair d (msg d)) ∧
      out.publicKey = coins.ecSecret • C.generator +
        ∑ d ∈ (Finset.range n).erase i, (msg d).polynomialCoeffPoints.headD 0 := by
  simp only [runKeygen, Proc.exec_send, Proc.exec_recv, Proc.exec_attempt_eq_ok, Proc.exec_done,
    h2] at h
  obtain ⟨blum, -, pks, -, msg3, -, opened, hopened, hout⟩ := h
  obtain ⟨own, hown, hopen⟩ := bind_eq_ok.mp hopened
  obtain ⟨hshare, hpk⟩ := openKeys_eq_ok hopen
  rw [← Except.ok.inj hout]
  refine ⟨⟨own, orPanic_eq_ok.mp hown, ?_⟩, ?_⟩
  · show opened.1 = _
    rw [hshare, List.map_map, ← sum_map_others]
    -- no entry is the party's own
    refine congrArg _ (congrArg List.sum (List.map_congr_left fun d hd => ?_))
    exact if_pos (mem_others.mp hd).2
  · show opened.2 = _
    rw [hpk, List.map_map, ← sum_map_others]
    rfl

/-- A party that succeeds has completed all three rounds. -/
theorem runKeygen_ends_of_ok (h : (runKeygen H i n t sid coins).exec inb = .ok out) :
    (runKeygen H i n t sid coins).ends inb = 3 := by
  simp only [runKeygen, Proc.exec_send, Proc.exec_recv, Proc.exec_attempt_eq_ok] at h
  obtain ⟨blum, hblum, pks, hpks, msg3, hmsg3, opened, hopened, -⟩ := h
  simp only [runKeygen, hblum, Proc.attempt_ok, Proc.ends_send, Proc.ends_recv, hpks, hmsg3,
    hopened, Proc.ends_done]

/-- There are three rounds. -/
theorem runKeygen_ends_le : (runKeygen H i n t sid coins).ends inb ≤ 3 := by
  refine Proc.ends_attempt_le (by decide) fun blum => ?_
  rw [Proc.ends_send, Proc.ends_recv]
  refine Proc.ends_attempt_le (by decide) fun pks => ?_
  rw [Proc.ends_send, Proc.ends_recv]
  refine Proc.ends_attempt_le (by decide) fun msg3 => ?_
  rw [Proc.ends_send, Proc.ends_recv]
  exact Proc.ends_attempt_le (le_refl 3) fun opened => le_refl 3

/-- A party that succeeds has something for everybody in each of them. -/
theorem runKeygen_sends_of_ok (h : (runKeygen H i n t sid coins).exec inb = .ok out) {r : ℕ}
    (hr : r < 3) (j : ℕ) : ∃ m, (runKeygen H i n t sid coins).Sends inb r j m := by
  simp only [runKeygen, Proc.exec_send, Proc.exec_recv, Proc.exec_attempt_eq_ok] at h
  obtain ⟨blum, hblum, pks, hpks, msg3, hmsg3, -⟩ := h
  simp only [runKeygen, hblum, Proc.attempt_ok]
  rcases r with _ | _ | _ | r
  · exact ⟨_, .here rfl⟩
  · refine ⟨(⟨keygenCommit H sid i (evaluatePolynomial coins.ecSecret coins.draw t n).1
      (toBeBytes coins.nonce)⟩ : Round2Msg), .later (.round ?_)⟩
    rw [hpks, Proc.attempt_ok]
    exact .here rfl
  · refine ⟨msg3, .later (.round ?_)⟩
    rw [hpks, Proc.attempt_ok]
    refine .later (.round ?_)
    rw [hmsg3, Proc.attempt_ok]
    exact .here rfl
  · omega

/-- What an honest party broadcasts in round 0 carries its modulus. -/
theorem runKeygen_sends_modulus {j : ℕ} {m : Round1Msg}
    (h : (runKeygen H i n t sid coins).Sends inb 0 j m) :
    ofBE m.paillierN = coins.keypair.pk.n := by
  unfold runKeygen at h
  obtain ⟨blum, -, h⟩ := Proc.sends_attempt_iff.mp h
  rw [Proc.sends_send_recv_iff, Option.some.injEq] at h
  rw [← h, ofBE_minBE]

/-- **What an honest party broadcasts in round 2.** -/
theorem runKeygen_sends_shares {j : ℕ} {m : Round3Msg C}
    (h : (runKeygen H i n t sid coins).Sends inb 2 j m) :
    ∃ pks, recordKeys H sid ((List.replicate n none).set i (some coins.keypair.pk)) (inb 0) =
        .ok pks ∧
      dealShares H i n sid coins (evaluatePolynomial coins.ecSecret coins.draw t n).1
        (evaluatePolynomial coins.ecSecret coins.draw t n).2 pks = some m := by
  unfold runKeygen at h
  obtain ⟨blum, -, h⟩ := Proc.sends_attempt_iff.mp h
  rw [Proc.sends_send_iff_of_lt inb Nat.zero_lt_two, Proc.sends_recv_iff,
    Proc.sends_attempt_iff] at h
  obtain ⟨pks, hpks, h⟩ := h
  rw [Proc.sends_send_iff_of_lt inb Nat.one_lt_two, Proc.sends_recv_iff,
    Proc.sends_attempt_iff] at h
  obtain ⟨msg3, hmsg3, h⟩ := h
  rw [Proc.sends_send_recv_iff, Option.some.injEq] at h
  rw [← h]
  exact ⟨pks, hpks, orPanic_eq_ok.mp hmsg3⟩

theorem runKeygen_sends_points {j : ℕ} {m : Round3Msg C}
    (h : (runKeygen H i n t sid coins).Sends inb 2 j m) :
    m.polynomialCoeffPoints = (dealing coins.ecSecret coins.draw t).map (· • C.generator) := by
  obtain ⟨pks, -, hdeal⟩ := runKeygen_sends_shares h
  exact dealShares_points hdeal

end Party

/-! ### Runs -/

open Classical in
/-- The vector of party `d`: its own when it is honest, and what it has put on the wire in round 2
    when it is corrupt. -/
noncomputable def revealedPoints (corrupt : ℕ → Prop) (coins : ℕ → KeygenCoins C) (t : ℕ)
    (s : Net (KeygenMsg C) (Res KeygenError (Cggmp21KeygenOutput C))) (d : ℕ) : List C.Point :=
  if corrupt d then
    if h : ∃ m j, (s d).sent 2 j = some (m : Round3Msg C) then h.choose.polynomialCoeffPoints
    else []
  else keygenVector coins t d

section Runs

variable {coins : ℕ → KeygenCoins C} {corrupt : ℕ → Prop}
  {s : Net (KeygenMsg C) (Res KeygenError (Cggmp21KeygenOutput C))}

/-- **Agreement on the points.** Every party has put one vector on the wire only. -/
theorem sent_points (hs : Sound (keygenSetup H n t sid coins corrupt) s) {d j : ℕ} {m : Round3Msg C}
    (hd : d < n) (hsent : (s d).sent 2 j = some m) :
    m.polynomialCoeffPoints = revealedPoints corrupt coins t s d := by
  -- by reliable broadcast if the party is corrupt, by its program if it is honest
  by_cases hc : corrupt d
  · have hex : ∃ m j, (s d).sent 2 j = some (m : Round3Msg C) := ⟨m, j, hsent⟩
    obtain ⟨j', hj'⟩ := hex.choose_spec
    rw [revealedPoints, if_pos hc, dif_pos hex, hs.reliable d hc 2 trivial j j' m _ hsent hj']
  · rw [revealedPoints, if_neg hc]
    exact runKeygen_sends_points (hs.sends_of_sent hd hc hsent)

theorem got_points (hs : Sound (keygenSetup H n t sid coins corrupt) s) {d : ℕ} {m : Round3Msg C}
    (hm : (s i).got 2 d = some m) : m.polynomialCoeffPoints = revealedPoints corrupt coins t s d := by
  obtain ⟨hd, hsent⟩ := hs.wire i 2 d m hm
  exact sent_points hs hd hsent

/-- The messages of round 2 that an honest party had when it returned. -/
theorem exists_keygen_row (hs : Reachable (keygenSetup H n t sid coins corrupt) s) (hi : i < n)
    (hh : ¬ corrupt i) {out : Cggmp21KeygenOutput C} (hout : s.Returned i (.ok out)) :
    (runKeygen H i n t sid (coins i)).exec ((s i).inbox n i) = .ok out ∧
      ∃ msg : ℕ → Round3Msg C, ∀ d < n, d ≠ i → (s i).got 2 d = some (msg d) := by
  have hsound := hs.sound
  have hres := hsound.result hi hh hout
  change (runKeygen H i n t sid (coins i)).exec _ = _ at hres
  have hends : (runKeygen H i n t sid (coins i)).ends ((s i).inbox n i) = 3 :=
    runKeygen_ends_of_ok hres
  have hfull : ∀ d < n, d ≠ i → ∃ m, (s i).got 2 d = some m := fun d hd hdi =>
    hsound.full (r := 2) hi hh hout (hends.symm ▸ Nat.lt_succ_self 2) hd hdi
  have : Nonempty (Round3Msg C) := ⟨⟨[], [], [], ⟨0, 0⟩⟩⟩
  exact ⟨hres, exists_row hfull⟩

/-- **The public key** that an honest party returns is the value at zero of the joint polynomial,
    in the exponent. -/
theorem runKeygen_publicKey (hs : Reachable (keygenSetup H n t sid coins corrupt) s) (hi : i < n)
    (hh : ¬ corrupt i) {out : Cggmp21KeygenOutput C} (hout : s.Returned i (.ok out)) :
    out.publicKey = (jointPoly n (revealedPoints corrupt coins t s)).eval 0 • C.generator := by
  obtain ⟨hres, msg, hmsg⟩ := exists_keygen_row hs hi hh hout
  -- the own first coefficient stands in for the own vector
  have hown : revealedPoints corrupt coins t s i = keygenVector coins t i := if_neg hh
  rw [(runKeygen_exec_ok (collect_eq_map_others hmsg) hres).2, eval_jointPoly_smul, jointAt_zero,
    ← Finset.add_sum_erase _ _ (Finset.mem_range.mpr hi), hown]
  refine congrArg₂ (· + ·) rfl (Finset.sum_congr rfl fun d hd => ?_)
  obtain ⟨hdi, hd⟩ := Finset.mem_erase.mp hd
  rw [got_points hs.sound (hmsg d (Finset.mem_range.mp hd) hdi)]

end Runs

end Govis.Cggmp21
