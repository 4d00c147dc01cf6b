import Govis.Cggmp21.KeygenModuli
import Govis.Panics
import Govis.Rounds.Receive
import Govis.Rounds.Solo

namespace Govis.Cggmp21

open Bytes Curve Rounds

/-!
# CGGMP21: who is to blame when a key generation fails

An honest party of `run_keygen` returns an error, or panics, only for what a corrupt dealer has sent.
Most of its checks read messages that all parties have.  No honest party succeeds when such a check
fails.

* `OpenFault`, `ShareFault` — what the loop after round 2 finds wrong with one dealer, for everybody
  and for one party;
* `PublicEvidence`, `ShareEvidence` — the messages of a dealer that prove an error right;
* `KeygenAccountable` — an error comes with evidence, evidence is against the corrupt, and public
  evidence stops all honest parties;
* `runKeygen_accountable` — **every reachable state** is so.
-/

variable {C : Curve} {H : Hash} {sid : List UInt8}

/-- The error of a failed check. -/
def violation (text : String) : Fault KeygenError := .err (.protocolViolation text)

/-- What is wrong with the messages of dealer `d` for every party. -/
inductive OpenFault (H : Hash) (sid : List UInt8) (d : ℕ) (commit : Round2Msg) (msg3 : Round3Msg C) :
    Fault KeygenError → Prop
  /-- The points do not match the commitment. -/
  | mismatch (h : keygenCommit H sid d msg3.polynomialCoeffPoints msg3.nonce ≠ commit.commitment) :
      OpenFault H sid d commit msg3 (violation "VSS commitment mismatch")
  /-- There is no first point. -/
  | empty (h : msg3.polynomialCoeffPoints = []) : OpenFault H sid d commit msg3 .panic
  /-- The dealer does not know the first coefficient. -/
  | schnorr {first : C.Point} (h : msg3.polynomialCoeffPoints.head? = some first)
      (hbad : verifySchnorr H first sid msg3.schnorrProof = false) :
      OpenFault H sid d commit msg3 (violation "Schnorr proof verification failed")

/-- What is wrong with the share of dealer `d` for party `i`. -/
inductive ShareFault (H : Hash) (sid : List UInt8) (i : ℕ) (kp : PaillierKeypair) (d : ℕ)
    (msg3 : Round3Msg C) : Fault KeygenError → Prop
  /-- There is no entry for the party. -/
  | missing (h : shareEntry i d msg3 = none) : ShareFault H sid i kp d msg3 .panic
  /-- The proof of the entry does not verify. -/
  | log {enc : ℤ × LogProof C} (h : shareEntry i d msg3 = some enc)
      (hbad : verifyLog H kp.pk enc.1 (pointAt msg3.polynomialCoeffPoints (node C i)) sid enc.2 =
        some false) : ShareFault H sid i kp d msg3 (violation "Log proof verification failed")
  /-- The proof of the entry cannot be checked. -/
  | harmful {enc : ℤ × LogProof C} (h : shareEntry i d msg3 = some enc)
      (hbad : verifyLog H kp.pk enc.1 (pointAt msg3.polynomialCoeffPoints (node C i)) sid enc.2 =
        none) : ShareFault H sid i kp d msg3 .panic

/-! ### The steps -/

/-- A modulus is refused for its proof. -/
theorem recordKeys_error {pks : List (Option PaillierPublicKey)} {senders : List ℕ}
    {msg0 : ℕ → Round1Msg} {e : Fault KeygenError}
    (h : recordKeys H sid pks (senders.map fun d => (d, msg0 d)) = .error e) :
    e = violation "Blum proof verification failed" ∧
      ∃ d ∈ senders, verifyBlum H (ofBE (msg0 d).paillierN) sid (msg0 d).blumProof = false := by
  induction senders generalizing pks with
  | nil => cases h
  | cons d senders ih =>
    rw [List.map_cons, recordKeys] at h
    split at h
    · rename_i hbad
      exact ⟨(Except.error.inj h).symm, d, List.mem_cons_self, Bool.eq_false_of_not_eq_true hbad⟩
    · obtain ⟨he, d', hd', hbad⟩ := ih h
      exact ⟨he, d', List.mem_cons_of_mem _ hd', hbad⟩

/-- When none is refused, the key of every other party is recorded. -/
theorem recorded_key {n i : ℕ} {pk : PaillierPublicKey} {pks : List (Option PaillierPublicKey)}
    {msg0 : ℕ → Round1Msg} (h : recordKeys H sid ((List.replicate n none).set i (some pk))
      ((others n i).map fun d => (d, msg0 d)) = .ok pks) :
    ∀ j < n, j ≠ i → pks[j]? = some (some (peerKey (ofBE (msg0 j).paillierN))) := by
  intro j hj hji
  rw [recordKeys_eq_ok h, getElem?_foldl_set _ _ _ (fun e he => by
    rw [List.length_set, List.length_replicate]
    exact (mem_others.mp he).1), if_pos (mem_others.mpr ⟨hj, hji⟩)]

/-- A share is refused for a fault. -/
theorem receiveShare_error {i d : ℕ} {kp : PaillierKeypair} (hpk : kp.pk.WellFormed)
    {msg3 : Round3Msg C} {e : Fault KeygenError} (h : receiveShare H sid i kp d msg3 = .error e) :
    ShareFault H sid i kp d msg3 e := by
  unfold receiveShare at h
  rcases bind_eq_error.mp h with hentry | ⟨enc, hentry, h⟩
  · obtain ⟨hnone, rfl⟩ := orPanic_eq_error.mp hentry
    exact .missing hnone
  · have hentry' := orPanic_eq_ok.mp hentry
    rcases bind_eq_error.mp h with hlog | ⟨logOk, hlog, h⟩
    · obtain ⟨hnone, rfl⟩ := orPanic_eq_error.mp hlog
      exact .harmful hentry' hnone
    · have hlog' := orPanic_eq_ok.mp hlog
      split at h
      · rename_i hbad
        obtain rfl := Except.error.inj h
        exact .log hentry' (by rw [hlog', Bool.eq_false_of_not_eq_true hbad])
      -- decryption always returns
      · obtain ⟨m, hm⟩ := exists_decrypt hpk enc.1
        rw [hm, orPanic_some, ok_bind] at h
        cases h

/-- **The loop after round 2.**  It ends with a fault of one dealer, or no dealer has one that is for
    everybody. -/
theorem openKeys_cases {i : ℕ} {kp : PaillierKeypair} {msg1 : ℕ → Round2Msg}
    {msg2 : ℕ → Round3Msg C} {round2Msgs : List (ℕ × Round2Msg)}
    {senders : List ℕ} (hsenders : ∀ d ∈ senders, messageFrom d round2Msgs = some (msg1 d))
    (x : C.Scalar) (pk : C.Point) :
    (∃ e, openKeys H sid i kp round2Msgs x pk (senders.map fun d => (d, msg2 d)) = .error e ∧
      (kp.pk.WellFormed →
        ∃ d ∈ senders, OpenFault H sid d (msg1 d) (msg2 d) e ∨ ShareFault H sid i kp d (msg2 d) e)) ∨
    (∃ res, openKeys H sid i kp round2Msgs x pk (senders.map fun d => (d, msg2 d)) = .ok res) ∧
      ∀ d ∈ senders, ∀ e, ¬ OpenFault H sid d (msg1 d) (msg2 d) e := by
  induction senders generalizing x pk with
  | nil => exact .inr ⟨⟨_, rfl⟩, fun d hd => absurd hd List.not_mem_nil⟩
  | cons d senders ih =>
    have hself : d ∈ d :: senders := List.mem_cons_self
    rw [List.map_cons, openKeys, hsenders d hself, orPanic_some, ok_bind]
    by_cases hopen : keygenCommit H sid d (msg2 d).polynomialCoeffPoints (msg2 d).nonce =
        (msg1 d).commitment
    swap
    · rw [if_pos hopen]
      exact .inl ⟨_, rfl, fun _ => ⟨d, hself, .inl (.mismatch hopen)⟩⟩
    rw [if_neg (not_not.mpr hopen)]
    cases hfirst : (msg2 d).polynomialCoeffPoints.head? with
    | none => exact .inl ⟨_, rfl, fun _ => ⟨d, hself, .inl (.empty (List.head?_eq_none_iff.mp hfirst))⟩⟩
    | some first =>
      rw [orPanic_some, ok_bind]
      cases hschnorr : verifySchnorr H first sid (msg2 d).schnorrProof with
      | false =>
        rw [if_pos Bool.false_ne_true]
        exact .inl ⟨_, rfl, fun _ => ⟨d, hself, .inl (.schnorr hfirst hschnorr)⟩⟩
      | true =>
        rw [if_neg (not_not.mpr rfl)]
        have hnone : ∀ e, ¬ OpenFault H sid d (msg1 d) (msg2 d) e := by
          rintro e (hne | hempty | ⟨hfirst', hbad⟩)
          · exact hne hopen
          · rw [hempty] at hfirst
            cases hfirst
          · rw [hfirst, Option.some.injEq] at hfirst'
            rw [hfirst', hbad] at hschnorr
            cases hschnorr
        cases hshare : (if d ≠ i then receiveShare H sid i kp d (msg2 d) else .ok 0) with
        | error e =>
          split at hshare
          · exact .inl ⟨e, rfl, fun hpk => ⟨d, hself, .inr (receiveShare_error hpk hshare)⟩⟩
          · cases hshare
        | ok share =>
          rw [ok_bind]
          rcases ih (fun d' hd' => hsenders d' (List.mem_cons_of_mem _ hd')) (x + share) (pk + first)
            with ⟨e, he, hfault⟩ | ⟨hok, hrest⟩
          · refine .inl ⟨e, he, fun hpk => ?_⟩
            obtain ⟨d', hd', hfault⟩ := hfault hpk
            exact ⟨d', List.mem_cons_of_mem _ hd', hfault⟩
          · refine .inr ⟨hok, fun d' hd' => ?_⟩
            rcases List.mem_cons.mp hd' with rfl | hd'
            · exact hnone
            · exact hrest d' hd'

/-! ### Honest dealers -/

/-- The proof of an encrypted share verifies, whatever the randomness. -/
theorem verifyLog_of_encryptShare {pk : PaillierPublicKey} (hpk : pk.WellFormed) {v : List C.Point}
    {share : C.Scalar} {peer rho : ℕ} {draws : ProofDraws C.Scalar} {enc : ℤ × LogProof C}
    (hshare : share • C.generator = pointAt v (node C peer))
    (h : encryptShare H sid v share pk peer rho draws = some enc) :
    verifyLog H pk enc.1 (pointAt v (node C peer)) sid enc.2 = some true := by
  obtain ⟨x, c, hgen, henc, hmod⟩ := exists_encryption hpk share.val rho
  have hpoint : ((share.val : ℕ) : C.Scalar) • C.generator = pointAt v (node C peer) := by
    rw [ZMod.natCast_zmod_val, hshare]
  obtain ⟨proof, hproof, hok⟩ := verifyLog_complete H sid hpk hpoint hmod draws
  simp only [encryptShare, hgen, scalarToBigint_eq, henc, hproof, Option.bind_eq_bind,
    Option.bind_some, Option.pure_def, Option.some.injEq] at h
  rw [← h]
  exact hok

section Party

variable {i n t : ℕ} {own : KeygenCoins C} {inb : Inbox (KeygenMsg C)}

/-- What an honest party broadcasts in round 1 is the commitment to its vector. -/
theorem runKeygen_sends_commitment {j : ℕ} {m : Round2Msg}
    (h : (runKeygen H i n t sid own).Sends inb 1 j m) :
    m.commitment = keygenCommit H sid i ((dealing own.ecSecret own.draw t).map (· • C.generator))
      (toBeBytes own.nonce) := by
  unfold runKeygen at h
  obtain ⟨blum, -, h⟩ := Proc.sends_attempt_iff.mp h
  rw [Proc.sends_send_iff_of_lt inb Nat.zero_lt_one, Proc.sends_recv_iff, Proc.sends_attempt_iff] at h
  obtain ⟨pks, -, h⟩ := h
  rw [Proc.sends_send_recv_iff, Option.some.injEq] at h
  rw [← h]
  rfl

/-- What it broadcasts in round 2 opens it, with a proof for the first coefficient. -/
theorem runKeygen_sends_opening {j : ℕ} {m : Round3Msg C}
    (h : (runKeygen H i n t sid own).Sends inb 2 j m) :
    m.nonce = toBeBytes own.nonce ∧ m.schnorrProof =
      proveSchnorr H own.ecSecret (own.ecSecret • C.generator) sid own.schnorrAlpha := by
  obtain ⟨pks, -, hdeal⟩ := runKeygen_sends_shares h
  have hfirst : (evaluatePolynomial own.ecSecret own.draw t n).1.head? =
      some (own.ecSecret • C.generator) := rfl
  simp only [dealShares, hfirst, Option.bind_eq_bind, Option.bind_some] at hdeal
  obtain ⟨pushed, -, hdeal⟩ := Option.bind_eq_some_iff.mp hdeal
  rw [← Option.some.inj hdeal]
  exact ⟨rfl, rfl⟩

end Party

/-! ### Runs -/

variable {n t : ℕ} {coins : ℕ → KeygenCoins C} {corrupt : ℕ → Prop}
  {s : Net (KeygenMsg C) (Res KeygenError (Cggmp21KeygenOutput C))} {i j d : ℕ} {e : Fault KeygenError}

/-- The keypairs of the honest parties come from key generation, and their Blum proofs answer a
    challenge. -/
structure HonestKeys (H : Hash) (n : ℕ) (sid : List UInt8) (coins : ℕ → KeygenCoins C)
    (corrupt : ℕ → Prop) : Prop where
  generated : ∀ i < n, ¬ corrupt i → Generated (coins i).p (coins i).q (coins i).keypair
  answers : ∀ i < n, ¬ corrupt i → ¬ BlumSilent H sid (coins i).keypair.pk.n

/-- The messages of dealer `d` in `l` do not pass a check that every party makes. -/
inductive PublicEvidence {R : Type} (H : Hash) (sid : List UInt8) (d : ℕ) (l : Local (KeygenMsg C) R) :
    Fault KeygenError → Prop
  | blum {m : Round1Msg} (h0 : l.got 0 d = some m)
      (hbad : verifyBlum H (ofBE m.paillierN) sid m.blumProof = false) :
      PublicEvidence H sid d l (violation "Blum proof verification failed")
  /-- The modulus is below 2, and nothing can be encrypted under it. -/
  | modulus {m : Round1Msg} (h0 : l.got 0 d = some m) (hle : ofBE m.paillierN ≤ 1) :
      PublicEvidence H sid d l .panic
  | opening {commit : Round2Msg} {msg3 : Round3Msg C} {e : Fault KeygenError}
      (h1 : l.got 1 d = some commit) (h2 : l.got 2 d = some msg3) (hbad : OpenFault H sid d commit msg3 e) :
      PublicEvidence H sid d l e

/-- Its share for party `i` does not pass that party's check. -/
def ShareEvidence {R : Type} (H : Hash) (sid : List UInt8) (i : ℕ) (kp : PaillierKeypair) (d : ℕ)
    (l : Local (KeygenMsg C) R) (e : Fault KeygenError) : Prop :=
  ∃ msg3 : Round3Msg C, l.got 2 d = some msg3 ∧ ShareFault H sid i kp d msg3 e

/-- In a round that is complete, every other party has a message. -/
theorem messageFrom_inbox {msg1 : ℕ → Round2Msg}
    (h1 : ∀ d < n, d ≠ i → (s i).got 1 d = some (msg1 d)) :
    ∀ d ∈ others n i, messageFrom d ((s i).inbox n i 1) = some (msg1 d) := by
  intro d hd
  have hin : (s i).inbox n i 1 = (others n i).map fun d => (d, msg1 d) := collect_eq_map_others h1
  rw [hin]
  exact messageFrom_map_others msg1 (mem_others.mp hd).1 (mem_others.mp hd).2

section Honest

variable (hs : Reachable (keygenSetup H n t sid coins corrupt) s) (hkeys : HonestKeys H n sid coins corrupt)

include hs hkeys

/-- The Blum proof of an honest dealer verifies, and its modulus is above 1. -/
theorem got_modulus (hd : d < n) (hc : ¬ corrupt d) {m : Round1Msg} (h0 : (s i).got 0 d = some m) :
    verifyBlum H (ofBE m.paillierN) sid m.blumProof = true ∧ 1 < ofBE m.paillierN := by
  have hgen := hkeys.generated d hd hc
  have hsent := hs.sound.sends hd hc h0
  have hmod : ofBE m.paillierN = (coins d).keypair.pk.n := runKeygen_sends_modulus hsent
  have hblum := runKeygen_sends_blum hsent
  obtain ⟨proof, hproof, hverify⟩ := hgen.verifyBlum_complete H sid
  obtain rfl : proof = m.blumProof := Option.some.inj (hproof.symm.trans hblum)
  rw [hmod]
  refine ⟨hverify fun hnil => ?_, hgen.valid.wellFormed.one_lt⟩
  exact hkeys.answers d hd hc ((hgen.bits_eq_nil_iff hproof).mp hnil)

omit hkeys in
/-- What an honest dealer reveals is what it has committed to. -/
theorem not_openFault (hd : d < n) (hc : ¬ corrupt d) {commit : Round2Msg} {msg3 : Round3Msg C}
    (h1 : (s i).got 1 d = some commit) (h2 : (s j).got 2 d = some msg3) :
    ¬ OpenFault H sid d commit msg3 e := by
  have hcommit := runKeygen_sends_commitment (hs.sound.sends hd hc h1)
  have hpoints := runKeygen_sends_points (hs.sound.sends hd hc h2)
  obtain ⟨hnonce, hproof⟩ := runKeygen_sends_opening (hs.sound.sends hd hc h2)
  rintro (hne | hempty | ⟨hfirst, hbad⟩)
  · rw [hpoints, hnonce] at hne
    exact hne hcommit.symm
  · rw [hpoints] at hempty
    cases hempty
  · rw [hpoints] at hfirst
    obtain rfl := Option.some.inj hfirst
    rw [hproof, verifySchnorr_complete] at hbad
    cases hbad

/-- The share of an honest dealer passes the check of an honest party. -/
theorem not_shareFault (hi : i < n) (hh : ¬ corrupt i) (hd : d < n) (hc : ¬ corrupt d) (hdi : d ≠ i)
    {msg3 : Round3Msg C} (h2 : (s i).got 2 d = some msg3) :
    ¬ ShareFault H sid i (coins i).keypair d msg3 e := by
  have hgen := hkeys.generated i hi hh
  have hpk := hgen.valid.wellFormed
  obtain ⟨enc, hentry, henc⟩ := sent_share hs hi hh hgen hd hc hdi (hs.sound.wire i 2 d msg3 h2).2
  have hlog := verifyLog_of_encryptShare hpk (dealtShare_smul d i) henc
  have hpoints : msg3.polynomialCoeffPoints = keygenVector coins t d :=
    runKeygen_sends_points (hs.sound.sends hd hc h2)
  rintro (hnone | ⟨hentry', hbad⟩ | ⟨hentry', hbad⟩)
  · cases hentry.symm.trans hnone
  · obtain rfl := Option.some.inj (hentry.symm.trans hentry')
    rw [hpoints, hlog] at hbad
    cases hbad
  · obtain rfl := Option.some.inj (hentry.symm.trans hentry')
    rw [hpoints, hlog] at hbad
    cases hbad

/-- **Nobody honest is blamed.** -/
theorem corrupt_of_publicEvidence (hd : d < n) (h : PublicEvidence H sid d (s i) e) : corrupt d := by
  by_contra hc
  cases h with
  | blum h0 hbad =>
    rw [(got_modulus hs hkeys hd hc h0).1] at hbad
    cases hbad
  | modulus h0 hle => exact absurd (got_modulus hs hkeys hd hc h0).2 (not_lt.mpr hle)
  | opening h1 h2 hbad => exact not_openFault hs hd hc h1 h2 hbad

/-- A corrupt dealer, and the evidence against it that party `i` holds. -/
def Blames (H : Hash) (n : ℕ) (sid : List UInt8) (coins : ℕ → KeygenCoins C) (corrupt : ℕ → Prop)
    (s : Net (KeygenMsg C) (Res KeygenError (Cggmp21KeygenOutput C))) (i : ℕ) (e : Fault KeygenError) :
    Prop :=
  ∃ d < n, corrupt d ∧
    (PublicEvidence H sid d (s i) e ∨ ShareEvidence H sid i (coins i).keypair d (s i) e)

theorem PublicEvidence.blames (h : PublicEvidence H sid d (s i) e) (hd : d < n) :
    Blames H n sid coins corrupt s i e :=
  ⟨d, hd, corrupt_of_publicEvidence hs hkeys hd h, .inl h⟩

/-- An error of the loop after round 2 has a corrupt dealer behind it. -/
theorem blames_of_openKeys (hi : i < n) (hh : ¬ corrupt i) {msg1 : ℕ → Round2Msg}
    (h1 : ∀ d < n, d ≠ i → (s i).got 1 d = some (msg1 d)) {msg2 : ℕ → Round3Msg C}
    (h2 : ∀ d < n, d ≠ i → (s i).got 2 d = some (msg2 d)) {x : C.Scalar} {pk : C.Point}
    (he : openKeys H sid i (coins i).keypair ((s i).inbox n i 1) x pk ((s i).inbox n i 2) = .error e) :
    Blames H n sid coins corrupt s i e := by
  have hin2 : (s i).inbox n i 2 = (others n i).map fun d => (d, msg2 d) := collect_eq_map_others h2
  have hsenders := messageFrom_inbox h1
  rw [hin2] at he
  rcases openKeys_cases hsenders x pk with ⟨e', he', hfault⟩ | ⟨⟨res, hok⟩, -⟩
  · obtain rfl := Except.error.inj (he'.symm.trans he)
    obtain ⟨d, hd, hfault⟩ := hfault (hkeys.generated i hi hh).valid.wellFormed
    obtain ⟨hdn, hdi⟩ := mem_others.mp hd
    rcases hfault with hopen | hshare
    · exact PublicEvidence.blames hs hkeys (.opening (h1 d hdn hdi) (h2 d hdn hdi) hopen) hdn
    · have hc : corrupt d := by
        by_contra hc
        exact not_shareFault hs hkeys hi hh hdn hc hdi (h2 d hdn hdi) hshare
      exact ⟨d, hdn, hc, .inr ⟨msg2 d, h2 d hdn hdi, hshare⟩⟩
  · cases hok.symm.trans he

/-- **Blame.**  Behind the error of an honest party stands a corrupt dealer, and the party holds the
    evidence. -/
theorem runKeygen_blames (hi : i < n) (hh : ¬ corrupt i) (hret : s.Returned i (.error e)) :
    Blames H n sid coins corrupt s i e := by
  have hgen := hkeys.generated i hi hh
  have hres : (runKeygen H i n t sid (coins i)).exec ((s i).inbox n i) = .error e :=
    hs.sound.result hi hh hret
  have hfull : ∀ r, r < (runKeygen H i n t sid (coins i)).ends ((s i).inbox n i) → ∀ d < n, d ≠ i →
      ∃ m, (s i).got r d = some m := fun r hr d hd hdi => hs.sound.full hi hh hret hr hd hdi
  obtain ⟨blum, hblum⟩ := exists_proveBlum H sid hgen
  simp only [runKeygen, hblum, orPanic_some, Proc.attempt_ok, Proc.exec_send, Proc.exec_recv,
    Proc.ends_send, Proc.ends_recv] at hres hfull
  -- round 0 is complete
  have : Nonempty Round1Msg := ⟨⟨[], ⟨[], [], []⟩⟩⟩
  obtain ⟨msg0, h0⟩ : ∃ msg0 : ℕ → Round1Msg, ∀ d < n, d ≠ i → (s i).got 0 d = some (msg0 d) :=
    exists_row (hfull 0 (lt_of_lt_of_le Nat.zero_lt_one (Proc.le_ends _ _)))
  have hin0 : (s i).inbox n i 0 = (others n i).map fun d => (d, msg0 d) := collect_eq_map_others h0
  cases hpks : recordKeys H sid ((List.replicate n none).set i (some (coins i).keypair.pk))
      ((s i).inbox n i 0) with
  | error e' =>
    rw [hpks, Proc.attempt_error, Proc.exec_done, Except.error.injEq] at hres
    rw [hin0, hres] at hpks
    obtain ⟨rfl, d, hd, hbad⟩ := recordKeys_error hpks
    obtain ⟨hdn, hdi⟩ := mem_others.mp hd
    exact PublicEvidence.blames hs hkeys (.blum (h0 d hdn hdi) hbad) hdn
  | ok pks =>
    simp only [hpks, Proc.attempt_ok, Proc.exec_send, Proc.exec_recv, Proc.ends_send,
      Proc.ends_recv] at hres hfull
    rw [hin0] at hpks
    -- round 1 is complete
    have : Nonempty Round2Msg := ⟨⟨Vector.replicate 32 0⟩⟩
    obtain ⟨msg1, h1⟩ : ∃ msg1 : ℕ → Round2Msg, ∀ d < n, d ≠ i → (s i).got 1 d = some (msg1 d) :=
      exists_row (hfull 1 (lt_of_lt_of_le Nat.one_lt_two (Proc.le_ends _ _)))
    cases hdeal : dealShares H i n sid (coins i)
        (evaluatePolynomial (coins i).ecSecret (coins i).draw t n).1
        (evaluatePolynomial (coins i).ecSecret (coins i).draw t n).2 pks with
    | none =>
      obtain ⟨d, hd, hdi, hle⟩ := (dealShares_eq_none_iff H sid t (coins i) (recorded_key hpks)).mp hdeal
      rw [hdeal, orPanic_none, Proc.attempt_error, Proc.exec_done, Except.error.injEq] at hres
      rw [← hres]
      exact PublicEvidence.blames hs hkeys (.modulus (h0 d hd hdi) hle) hd
    | some msg3 =>
      have hown := evaluatePolynomial_share (coins i).ecSecret (coins i).draw (t := t) hi
      simp only [hdeal, orPanic_some, Proc.attempt_ok, Proc.exec_send, Proc.exec_recv, Proc.ends_send,
        Proc.ends_recv, hown, ok_bind, Proc.exec_attempt_eq_error] at hres hfull
      -- round 2 is complete
      have : Nonempty (Round3Msg C) := ⟨msg3⟩
      obtain ⟨msg2, h2⟩ : ∃ msg2 : ℕ → Round3Msg C, ∀ d < n, d ≠ i → (s i).got 2 d = some (msg2 d) :=
        exists_row (hfull 2 (lt_of_lt_of_le (Nat.lt_succ_self 2) (Proc.le_ends _ _)))
      rcases hres with he | ⟨opened, -, hdone⟩
      · exact blames_of_openKeys hs hkeys hi hh h1 h2 he
      · cases hdone

end Honest

/-- A party that succeeds has checked every dealer. -/
theorem runKeygen_checked (hs : Reachable (keygenSetup H n t sid coins corrupt) s) (hi : i < n)
    (hh : ¬ corrupt i) {out : Cggmp21KeygenOutput C}
    (hret : s.Returned i (.ok out)) (hd : d < n) (hdi : d ≠ i) :
    ∃ msg0 : Round1Msg, ∃ msg1 : Round2Msg, ∃ msg2 : Round3Msg C, (s i).got 0 d = some msg0 ∧
      (s i).got 1 d = some msg1 ∧ (s i).got 2 d = some msg2 ∧
      verifyBlum H (ofBE msg0.paillierN) sid msg0.blumProof = true ∧ 1 < ofBE msg0.paillierN ∧
      ∀ e, ¬ OpenFault H sid d msg1 msg2 e := by
  have hres : (runKeygen H i n t sid (coins i)).exec ((s i).inbox n i) = .ok out :=
    hs.sound.result hi hh hret
  have hends : (runKeygen H i n t sid (coins i)).ends ((s i).inbox n i) = 3 := runKeygen_ends_of_ok hres
  have hfull : ∀ r < 3, ∀ d < n, d ≠ i → ∃ m, (s i).got r d = some m := fun r hr d hd hdi =>
    hs.sound.full hi hh hret (lt_of_lt_of_eq hr hends.symm) hd hdi
  have : Nonempty Round1Msg := ⟨⟨[], ⟨[], [], []⟩⟩⟩
  have : Nonempty Round2Msg := ⟨⟨Vector.replicate 32 0⟩⟩
  have : Nonempty (Round3Msg C) := ⟨⟨[], [], [], ⟨0, 0⟩⟩⟩
  obtain ⟨msg0, h0⟩ : ∃ msg0 : ℕ → Round1Msg, ∀ d < n, d ≠ i → (s i).got 0 d = some (msg0 d) :=
    exists_row (hfull 0 (by decide))
  obtain ⟨msg1, h1⟩ : ∃ msg1 : ℕ → Round2Msg, ∀ d < n, d ≠ i → (s i).got 1 d = some (msg1 d) :=
    exists_row (hfull 1 (by decide))
  obtain ⟨msg2, h2⟩ : ∃ msg2 : ℕ → Round3Msg C, ∀ d < n, d ≠ i → (s i).got 2 d = some (msg2 d) :=
    exists_row (hfull 2 (by decide))
  have hin0 : (s i).inbox n i 0 = (others n i).map fun d => (d, msg0 d) := collect_eq_map_others h0
  have hin2 : (s i).inbox n i 2 = (others n i).map fun d => (d, msg2 d) := collect_eq_map_others h2
  simp only [runKeygen, Proc.exec_send, Proc.exec_recv, Proc.exec_attempt_eq_ok, Proc.exec_done, hin0,
    hin2] at hres
  obtain ⟨blum, -, pks, hpks, msg3, hdeal, opened, hopened, -⟩ := hres
  obtain ⟨own, -, hopen⟩ := bind_eq_ok.mp hopened
  have hsenders := messageFrom_inbox h1
  have hmem : d ∈ others n i := mem_others.mpr ⟨hd, hdi⟩
  refine ⟨msg0 d, msg1 d, msg2 d, h0 d hd hdi, h1 d hd hdi, h2 d hd hdi,
    recordKeys_verified hpks d hmem, ?_, ?_⟩
  · by_contra hle
    rw [(dealShares_eq_none_iff H sid t (coins i) (recorded_key hpks)).mpr ⟨d, hd, hdi, not_lt.mp hle⟩]
      at hdeal
    cases hdeal
  · rcases openKeys_cases hsenders own ((coins i).ecSecret • C.generator) with
      ⟨e, he, -⟩ | ⟨-, hnone⟩
    · cases hopen.symm.trans he
    · exact hnone d hmem

/-- **Public evidence stops everybody.** -/
theorem PublicEvidence.not_ok (hs : Reachable (keygenSetup H n t sid coins corrupt) s) (hd : d < n)
    (hc : corrupt d) (h : PublicEvidence H sid d (s i) e) (hj : j < n) (hh : ¬ corrupt j)
    {out : Cggmp21KeygenOutput C} :
    ¬ s.Returned j (.ok out) := by
  intro hret
  have hdj : d ≠ j := fun hdj => hh (hdj ▸ hc)
  obtain ⟨msg0, msg1, msg2, h0, h1, h2, hblum, hlt, hnone⟩ := runKeygen_checked hs hj hh hret hd hdj
  -- the party holds the same messages
  have hsame : ∀ {r : ℕ} {m m' : KeygenMsg C r}, (s i).got r d = some m → (s j).got r d = some m' →
      m = m' := fun hm hm' => hs.sound.reliable_eq hc trivial hm hm'
  cases h with
  | blum h0' hbad =>
    obtain rfl := hsame h0' h0
    exact Bool.false_ne_true (hbad.symm.trans hblum)
  | modulus h0' hle =>
    obtain rfl := hsame h0' h0
    exact absurd hlt (not_lt.mpr hle)
  | opening h1' h2' hbad =>
    obtain rfl := hsame h1' h1
    obtain rfl := hsame h2' h2
    exact hnone _ hbad

/-- Honest parties do not leave each other waiting: one that returns has succeeded. -/
theorem keygenSetup_serves (hkeys : HonestKeys H n sid coins corrupt) (hall : ∀ i < n, ¬ corrupt i) :
    (keygenSetup H n t sid coins corrupt).Serves := by
  intro net hnet i hi j hj hji res r next hret hc
  have hr : r < 3 := by
    have hends : (runKeygen H i n t sid (coins i)).ends ((net i).inbox n i) ≤ 3 := runKeygen_ends_le
    have heq := (hnet.sound.honest i hi (hall i hi)).ends _ fun _ _ => rfl
    rw [hc, Proc.ends_recv] at heq
    exact lt_of_lt_of_le (lt_of_lt_of_le (Proc.le_ends _ _) (le_of_eq heq.symm)) hends
  cases res with
  | error e =>
    obtain ⟨d, hd, hcor, -⟩ := runKeygen_blames hnet hkeys hj (hall j hj) hret
    exact absurd hcor (hall d hd)
  | ok out =>
    obtain ⟨m, hm⟩ := runKeygen_sends_of_ok (hnet.sound.result hj (hall j hj) hret) hr i
    obtain ⟨m', hm', -⟩ := hnet.sent_of_returned hj (hall j hj) hret hm
    exact ⟨m', hm'⟩

/-- What holds of the failures in a state of the network. -/
structure KeygenAccountable (H : Hash) (n : ℕ) (sid : List UInt8) (coins : ℕ → KeygenCoins C)
    (corrupt : ℕ → Prop) (s : Receiving (KeygenMsg C) (Res KeygenError (Cggmp21KeygenOutput C))) :
    Prop where
  /-- An honest party that returns an error of a check holds the evidence against a corrupt dealer. -/
  blames : ∀ i < n, ¬ corrupt i → ∀ e, s.Ended i (.result (.error e)) → ∃ d < n, corrupt d ∧
    (PublicEvidence H sid d (s.net i) e ∨ ShareEvidence H sid i (coins i).keypair d (s.net i) e)
  /-- There is no evidence against an honest dealer. -/
  honest : ∀ d < n, ¬ corrupt d → ∀ i e, ¬ PublicEvidence H sid d (s.net i) e ∧
    (i < n → ¬ corrupt i → i ≠ d → ¬ ShareEvidence H sid i (coins i).keypair d (s.net i) e)
  /-- Evidence that all can check keeps every honest party from a key. -/
  stops : ∀ i, ∀ d < n, ∀ e, PublicEvidence H sid d (s.net i) e →
    ∀ j < n, ¬ corrupt j → ∀ out, ¬ s.Ended j (.result (.ok out))
  /-- A round is not completed only if another party is corrupt. -/
  disturbed : ∀ i r, s.Ended i (.receiveError r) → ∃ d < n, d ≠ i ∧ corrupt d

/-- **No proof.**  Dealer `c` sends its modulus without an answer to a challenge.  Every honest party
    ends with an error. -/
theorem KeygenSession.exists_refused_run (x : KeygenSession C H) {c : ℕ} (hc : c < x.n) :
    ∃ s, Reachable (keygenSetup H x.n x.t x.sid x.coins (· = c)) s ∧ ∀ i < x.n, i ≠ c →
      s.Returned i (.error (violation "Blum proof verification failed")) := by
  obtain ⟨blum, hblum⟩ := x.draws.exists_blum
  obtain ⟨enc, -⟩ := x.draws.exists_encrypted x.t
  -- the script of the session, with an empty proof
  have hfollows : ∀ i < x.n, i ≠ c → Follows x.n i
      (x.script (Function.update blum c ⟨[], [], []⟩) enc) 1
      (.error (violation "Blum proof verification failed"))
      (runKeygen H i x.n x.t x.sid (x.coins i)) := by
    intro i hi hic
    simp only [runKeygen, (hblum i hi).1, orPanic_some, Proc.attempt_ok]
    refine .round (fun j _ _ => ?_) ?_
    · show _ = some (⟨_, Function.update blum c ⟨[], [], []⟩ i⟩ : Round1Msg)
      rw [Function.update_of_ne hic]
    · have hin : collect x.n i (fun j => some (x.script (Function.update blum c ⟨[], [], []⟩) enc 0 j i)) =
          (others x.n i).map fun d => (d, x.script (Function.update blum c ⟨[], [], []⟩) enc 0 d i) :=
        scriptInbox_eq _ _ _ 0
      show Follows _ _ _ _ _ (Proc.attempt (recordKeys H x.sid _ (collect x.n i fun j =>
        some (x.script (Function.update blum c ⟨[], [], []⟩) enc 0 j i))) _)
      rw [hin]
      cases hkeys : recordKeys H x.sid ((List.replicate x.n none).set i (some (x.coins i).keypair.pk))
          ((others x.n i).map fun d =>
            (d, x.script (Function.update blum c ⟨[], [], []⟩) enc 0 d i)) with
      | error e =>
        rw [(recordKeys_error hkeys).1, Proc.attempt_error]
        exact .done
      | ok pks =>
        have hverified := recordKeys_verified hkeys c (mem_others.mpr ⟨hc, Ne.symm hic⟩)
        have hbits : (x.script (Function.update blum c ⟨[], [], []⟩) enc 0 c i).blumProof.bits = [] := by
          show (Function.update blum c ⟨[], [], []⟩ c).bits = []
          rw [Function.update_self]
        rw [verifyBlum_of_bits_nil H _ x.sid hbits] at hverified
        cases hverified
  obtain ⟨s, hs, -, hret⟩ := Rounds.exists_run
    (S := keygenSetup H x.n x.t x.sid x.coins (· = c))
    (M := x.script (Function.update blum c ⟨[], [], []⟩) enc) (k := 1)
    (fun d _ r _ j j' => keygenScript_broadcasts r d j j') hfollows
  exact ⟨s, hs, hret⟩

end Govis.Cggmp21
