import Govis.Lindell.SignSecrecy
import Govis.Lindell.SignPanics
import Govis.Rounds.Receive

namespace Govis.Lindell

open Arith Bytes Curve Rounds

/-!
# Lindell: agreement on the signature

What the honest parties of `run_sign` end with when some of the others are corrupt.

* `Verdict` — the results that are about a signature: it is returned, or it is invalid;
* `Verdict.of_attempt` — a verdict passes every step before the last check;
* `runSign_agreement` — **with an honest `P1` all honest parties return the same verdict**, unless
  a round is not completed;
* `runSign_bystanders` — when both signers are honest, they all return the signature, whatever
  the parties that do not sign send, with the same exception.
-/

variable {C : Curve} {H : Hash} {n : ℕ} {signers : ℕ × ℕ} {share : ℕ → C.Scalar}
  {publicKey : C.Point} {msgDigest : Vector UInt8 32} {p1Coins : ℕ → P1Coins C}
  {p2Coins : ℕ → P2Coins} {corrupt : ℕ → Prop}

/-- The results of the last check: a signature, or `InvalidSignature`. -/
def Verdict (res : Res SignError SignOutput) : Prop :=
  (∃ out, res = .ok out) ∨ res = .error (.err .invalidSignature)

/-! ### The steps before the last check -/

/-- **Step lemma.** A program ends with a verdict only if its next step has passed. -/
theorem Verdict.of_attempt {α : Type} {r : ℕ} {x : Res SignError α}
    {next : α → Proc (SignMsg C) (Res SignError SignOutput) r} {inb : Inbox (SignMsg C)}
    (hx : x ≠ .error (.err .invalidSignature))
    (h : Verdict ((Proc.attempt x next).exec inb)) : ∃ a, x = .ok a ∧ Verdict ((next a).exec inb) := by
  cases x with
  | ok a => exact ⟨a, rfl, h⟩
  | error e =>
    rw [Proc.attempt_error, Proc.exec_done] at h
    rcases h with ⟨out, hout⟩ | h
    · cases hout
    · exact absurd (congrArg Except.error (Except.error.inj h)) hx

theorem orPanic_ne_invalid {α : Type} (x : Option α) :
    (orPanic x : Res SignError α) ≠ .error (.err .invalidSignature) := by
  intro h
  cases (orPanic_eq_error.mp h).2

section Programs

variable {i : ℕ} {x : C.Scalar} {c1 : P1Coins C} {c2 : P2Coins} {inb : Inbox (SignMsg C)}

/-- `P1` ends with a verdict only on a signature that it has broadcast. -/
theorem sends_of_verdict
    (h : Verdict ((runSign H signers.1 n signers x publicKey msgDigest c1 c2).exec inb)) :
    ∃ sig, ∀ j, (runSign H signers.1 n signers x publicKey msgDigest c1 c2).Sends inb 2 j sig := by
  unfold runSign at h
  obtain ⟨u, hu, h⟩ := h.of_attempt (orPanic_ne_invalid _)
  obtain ⟨lambda, hlambda, h⟩ := h.of_attempt (orPanic_ne_invalid _)
  obtain ⟨offer, hoffer, h⟩ := h.of_attempt (by
    rw [if_pos rfl]
    exact orPanic_ne_invalid _)
  rw [Proc.exec_send, Proc.exec_recv] at h
  obtain ⟨answer, hanswer, h⟩ := h.of_attempt (by
    split
    · exact p2Answer_ne_invalid
    · exact fun h => by cases h)
  rw [Proc.exec_send, Proc.exec_recv, if_pos rfl] at h
  obtain ⟨sig, hsig, -⟩ := h.of_attempt p1Combine_ne_invalid
  refine ⟨sig, fun j => Proc.sends_attempt_iff.mpr ⟨u, hu, Proc.sends_attempt_iff.mpr ⟨lambda,
    hlambda, Proc.sends_attempt_iff.mpr ⟨offer, hoffer, .later (.round
      (Proc.sends_attempt_iff.mpr ⟨answer, hanswer, .later (.round ?_)⟩))⟩⟩⟩⟩
  rw [if_pos rfl]
  exact Proc.sends_attempt_iff.mpr ⟨sig, hsig, .here rfl⟩

/-- A `P1` that broadcasts a signature ends with the check of it. -/
theorem exec_of_sends {j : ℕ} {sig : Round3Msg}
    (h : (runSign H signers.1 n signers x publicKey msgDigest c1 c2).Sends inb 2 j sig) :
    (runSign H signers.1 n signers x publicKey msgDigest c1 c2).exec inb =
      checkSignature publicKey msgDigest sig := by
  have hcomb := (combined_of_sends rfl h).sig_eq
  unfold runSign at h ⊢
  obtain ⟨u, hu, h⟩ := Proc.sends_attempt_iff.mp h
  obtain ⟨lambda, hlambda, h⟩ := Proc.sends_attempt_iff.mp h
  obtain ⟨offer, hoffer, h⟩ := Proc.sends_attempt_iff.mp h
  rw [Proc.sends_send_iff_of_lt _ Nat.zero_lt_two, Proc.sends_recv_iff] at h
  obtain ⟨answer, hanswer, h⟩ := Proc.sends_attempt_iff.mp h
  rw [Proc.sends_send_iff_of_lt _ Nat.one_lt_two, Proc.sends_recv_iff, if_pos rfl] at h
  obtain ⟨sig', hsig', h⟩ := Proc.sends_attempt_iff.mp h
  -- the one message of round 2
  have heq : sig' = sig := by
    cases h with
    | here h => exact Option.some.inj h
    | later h =>
      obtain ⟨out, -, h⟩ := Proc.sends_attempt_iff.mp h
      rw [Proc.sends_recv_iff] at h
      exact absurd h (Proc.not_sends_done _ _ _)
  rw [hu, Proc.attempt_ok, hlambda, Proc.attempt_ok, hoffer, Proc.attempt_ok, Proc.exec_send,
    Proc.exec_recv, hanswer, Proc.attempt_ok, Proc.exec_send, Proc.exec_recv, if_pos rfl, hsig',
    Proc.attempt_ok, Proc.exec_send, heq]
  cases checkSignature publicKey msgDigest sig with
  | error e => rfl
  | ok out => rfl

/-- Everybody else ends with a verdict only on a signature that has arrived from `P1`. -/
theorem accept_of_verdict (hi : i ≠ signers.1)
    (h : Verdict ((runSign H i n signers x publicKey msgDigest c1 c2).exec inb)) :
    ∃ sig, messageFrom signers.1 (inb 2) = some sig ∧
      (runSign H i n signers x publicKey msgDigest c1 c2).exec inb =
        checkSignature publicKey msgDigest sig := by
  unfold runSign at h ⊢
  obtain ⟨u, hu, h⟩ := h.of_attempt (orPanic_ne_invalid _)
  obtain ⟨lambda, hlambda, h⟩ := h.of_attempt (orPanic_ne_invalid _)
  obtain ⟨offer, hoffer, h⟩ := h.of_attempt (by
    rw [if_neg hi]
    exact fun h => by cases h)
  rw [Proc.exec_send, Proc.exec_recv] at h
  obtain ⟨answer, hanswer, h⟩ := h.of_attempt (by
    split
    · exact p2Answer_ne_invalid
    · exact fun h => by cases h)
  rw [Proc.exec_send, Proc.exec_recv, if_neg hi, Proc.exec_send, Proc.exec_recv,
    Proc.exec_done] at h
  rw [hu, Proc.attempt_ok, hlambda, Proc.attempt_ok, hoffer, Proc.attempt_ok, Proc.exec_send,
    Proc.exec_recv, hanswer, Proc.attempt_ok, Proc.exec_send, Proc.exec_recv, if_neg hi,
    Proc.exec_send, Proc.exec_recv, Proc.exec_done]
  unfold acceptSignature at h ⊢
  cases hfrom : messageFrom signers.1 (inb 2) with
  | none =>
    rw [hfrom] at h
    rcases h with ⟨out, hout⟩ | h
    · cases hout
    · cases h
  | some sig => exact ⟨sig, rfl, rfl⟩

/-- Everybody but `P1` gets to the last round unless it answers and the offer is no good. -/
theorem ends_of_ne (hn : 2 ≤ n ∧ i < n) (hi : i ≠ signers.1) {lambda : C.Scalar}
    (hlambda : lagrangeCoeff C i [signers.1, signers.2] = some lambda)
    (hanswer : i = signers.2 → ∃ answer, p2Answer H signers.1 lambda (digestScalar C msgDigest) x c2
      (inb 0) = .ok answer) :
    (runSign H i n signers x publicKey msgDigest c1 c2).ends inb = 3 ∧
      (runSign H i n signers x publicKey msgDigest c1 c2).exec inb =
        acceptSignature signers.1 publicKey msgDigest (inb 2) := by
  simp only [runSign, if_pos hn, orPanic_some, Proc.attempt_ok, hlambda, if_neg hi, Proc.ends_send,
    Proc.ends_recv, Proc.exec_send, Proc.exec_recv]
  by_cases h2 : i = signers.2
  · obtain ⟨answer, hanswer⟩ := hanswer h2
    simp only [if_pos h2, hanswer, Proc.attempt_ok, Proc.ends_send, Proc.ends_recv, Proc.ends_done,
      Proc.exec_send, Proc.exec_recv, Proc.exec_done, and_self]
  · simp only [if_neg h2, Proc.attempt_ok, Proc.ends_send, Proc.ends_recv, Proc.ends_done,
      Proc.exec_send, Proc.exec_recv, Proc.exec_done, and_self]

/-- `P2` sends in round 1 what it answers to what has arrived. -/
theorem answer_of_sends {j : ℕ} {m : Round2Msg} {lambda : C.Scalar}
    (hlambda : lagrangeCoeff C signers.2 [signers.1, signers.2] = some lambda)
    (h : (runSign H signers.2 n signers x publicKey msgDigest c1 c2).Sends inb 1 j m) :
    p2Answer H signers.1 lambda (digestScalar C msgDigest) x c2 (inb 0) = .ok m := by
  unfold runSign at h
  obtain ⟨-, -, h⟩ := Proc.sends_attempt_iff.mp h
  obtain ⟨lambda', hlambda', h⟩ := Proc.sends_attempt_iff.mp h
  obtain rfl : lambda = lambda' :=
    Option.some.inj (hlambda.symm.trans (orPanic_eq_ok.mp hlambda'))
  obtain ⟨offer, -, h⟩ := Proc.sends_attempt_iff.mp h
  rw [Proc.sends_send_iff_of_lt _ Nat.zero_lt_one, Proc.sends_recv_iff,
    Proc.sends_attempt_iff] at h
  obtain ⟨answer, hanswer, h⟩ := h
  rw [if_pos rfl] at hanswer
  rw [hanswer]
  -- the later messages belong to round 2
  cases h with
  | here h => exact congrArg _ (Option.some.inj h)
  | later h =>
    rw [Proc.sends_recv_iff] at h
    have := h.le
    omega

end Programs

/-! ### The small session with a corrupt bystander -/

/-- A run of the small session in which party 1, which does not sign, is corrupt. -/
theorem exists_bystander_run :
    ∃ s, Reachable (signNet lastBytes 3 smallSession.signers smallSession.share
        smallSession.publicKey smallSession.msgDigest smallSession.p1Coins smallSession.p2Coins
        (· = 1)) s ∧
      ∀ i < 3, i ≠ 1 → s.Returned i (.ok smallSession.output) := by
  have hs : smallSession.s ≠ 0 := by
    rw [smallSession_values.2]
    exact one_ne_zero
  obtain ⟨data, answer, hfollows⟩ := smallSession.follows lastBytes hs
  obtain ⟨s, hs, -, hret⟩ := exists_run (S := signNet lastBytes 3 smallSession.signers
      smallSession.share smallSession.publicKey smallSession.msgDigest smallSession.p1Coins
      smallSession.p2Coins (· = 1)) (fun _ _ _ hr => hr.elim) fun i hi _ => hfollows i hi
  exact ⟨s, hs, hret⟩

/-! ### Agreement -/

section Agreement

variable {s : Net (SignMsg C) (Res SignError SignOutput)} {i j : ℕ}
  {res res' : Res SignError SignOutput}

/-- Behind a verdict stands the signature that `P1` sends. -/
theorem exists_sig_of_verdict
    (hs : Sound (signNet H n signers share publicKey msgDigest p1Coins p2Coins corrupt) s)
    (h1 : signers.1 < n) (hh1 : ¬ corrupt signers.1) (hi : i < n) (hh : ¬ corrupt i)
    (hres : s.Returned i res) (hv : Verdict res) :
    ∃ sig k, (runSign H signers.1 n signers (share signers.1) publicKey msgDigest
        (p1Coins signers.1) (p2Coins signers.1)).Sends ((s signers.1).inbox n signers.1) 2 k sig ∧
      res = checkSignature publicKey msgDigest sig := by
  have hexec := hs.result hi hh hres
  rw [← hexec] at hv ⊢
  by_cases hi1 : i = signers.1
  · subst hi1
    obtain ⟨sig, hsends⟩ := sends_of_verdict hv
    exact ⟨sig, 0, hsends 0, exec_of_sends (hsends 0)⟩
  · obtain ⟨sig, hfrom, hcheck⟩ := accept_of_verdict hi1 hv
    exact ⟨sig, i, hs.sends h1 hh1 (arrived_of_messageFrom hfrom), hcheck⟩

/-- Two of the parties sign and `P1` is honest.  When one honest party returns a verdict, every
    honest party whose program returns does so with the same one. -/
theorem returned_eq_of_verdict
    (hs : Reachable (signNet H n signers share publicKey msgDigest p1Coins p2Coins corrupt) s)
    (hn : n < 2 ^ 16) (h1 : signers.1 < n) (h2 : signers.2 < n) (hne : signers.1 ≠ signers.2)
    (hh1 : ¬ corrupt signers.1) (hi : i < n) (hh : ¬ corrupt i) (hj : j < n) (hhj : ¬ corrupt j)
    (hres : s.Returned i res) (hres' : s.Returned j res') (hv : Verdict res) : res' = res := by
  have hsound := hs.sound
  obtain ⟨sig, k, hsends, rfl⟩ := exists_sig_of_verdict hsound h1 hh1 hi hh hres hv
  have hexec := hsound.result hj hhj hres'
  by_cases hj1 : j = signers.1
  · subst hj1
    exact hexec.symm.trans (exec_of_sends hsends)
  obtain ⟨lambda, hlambda⟩ := exists_lagrangeCoeff (C := C) hn h1 h2 hne hj
  have hcomb := combined_of_sends rfl hsends
  -- `P1` has combined, so `P2` has answered
  have hanswer : j = signers.2 → ∃ answer, p2Answer H signers.1 lambda (digestScalar C msgDigest)
      (share j) (p2Coins j) ((s j).inbox n j 0) = .ok answer := by
    rintro rfl
    obtain ⟨state, data, -, hcombine⟩ := hcomb
    obtain ⟨-, cS2, mulProof, -, -, -, hfrom, -⟩ := p1Combine_eq_ok hcombine
    exact ⟨_, answer_of_sends hlambda (hsound.sends h2 hhj (arrived_of_messageFrom hfrom))⟩
  obtain ⟨hends, haccept⟩ := ends_of_ne ⟨by omega, hj⟩ hj1 hlambda hanswer
  -- and the signature of round 2 is the one that `P1` sends
  obtain ⟨sig', hgot⟩ := hsound.full (r := 2) hj hhj hres'
    (lt_of_lt_of_eq (Nat.lt_succ_self 2) hends.symm) h1 (Ne.symm hj1)
  have hsig : sig' = sig := (combined_of_sends rfl (hsound.sends h1 hh1 hgot)).sig_eq.trans
    hcomb.sig_eq.symm
  rw [← hexec]
  refine haccept.trans ?_
  have hfrom : messageFrom signers.1 ((s j).inbox n j 2) = some sig := by
    rw [Local.inbox, messageFrom_collect h1 (Ne.symm hj1), hgot, hsig]
  unfold acceptSignature
  rw [hfrom]
  rfl

/-- **Agreement.**  Two of the parties sign and `P1` is honest.  Whatever the corrupt parties
    send, when one honest party returns a signature or `InvalidSignature`, every honest party
    that ends does so with the same result, unless it fails to complete a round. -/
theorem runSign_agreement {s : Receiving (SignMsg C) (Res SignError SignOutput)}
    (hs : RecvReachable (signNet H n signers share publicKey msgDigest p1Coins p2Coins corrupt) s)
    (hn : n < 2 ^ 16) (h1 : signers.1 < n) (h2 : signers.2 < n) (hne : signers.1 ≠ signers.2)
    (hh1 : ¬ corrupt signers.1) (hi : i < n) (hh : ¬ corrupt i) (hj : j < n) (hhj : ¬ corrupt j)
    (hres : s.Ended i (.result res)) (hv : Verdict res) {o : Outcome (Res SignError SignOutput)}
    (ho : s.Ended j o) : o = .result res ∨ ∃ r, o = .receiveError r := by
  cases o with
  | result res' =>
    exact .inl (congrArg _ (returned_eq_of_verdict hs.net hn h1 h2 hne hh1 hi hh hj hhj hres ho hv))
  | receiveError r => exact .inr ⟨r, rfl⟩

end Agreement

/-- The two signers of the small session agree. -/
theorem runSign_agreement_smallSession :
    ∃ s, RecvReachable (signNet lastBytes 3 smallSession.signers smallSession.share
        smallSession.publicKey smallSession.msgDigest smallSession.p1Coins smallSession.p2Coins
        (· = 1)) s ∧
      s.Ended 2 (.result (.ok smallSession.output)) ∧
      ∀ o, s.Ended 0 o → o = .result (.ok smallSession.output) ∨ ∃ r, o = .receiveError r := by
  obtain ⟨s, hs, hret⟩ := exists_bystander_run
  have h2 := hret 2 (by decide) (by decide)
  exact ⟨_, hs.receiving, h2, fun o ho => runSign_agreement hs.receiving three_lt_indices (by decide)
    (by decide) (by decide) (by decide) (by decide) (by decide) (by decide) (by decide) h2
    (.inl ⟨_, rfl⟩) ho⟩

/-! ### Bystanders -/

namespace SignSession

variable {x : SignSession C} {s : Net (SignMsg C) (Res SignError SignOutput)} {i : ℕ}

variable (x) in
/-- The parties of the session run `run_sign`; some of them are corrupt. -/
noncomputable def against (H : Hash) (corrupt : ℕ → Prop) :
    Setup (SignMsg C) (Res SignError SignOutput) :=
  signNet H x.n x.signers x.share x.publicKey x.msgDigest x.p1Coins x.p2Coins corrupt

variable (x) in
/-- The same under any public key `Q`. -/
def underKey (H : Hash) (Q : C.Point) (corrupt : ℕ → Prop) :
    Setup (SignMsg C) (Res SignError SignOutput) :=
  signNet H x.n x.signers x.share Q x.msgDigest x.p1Coins x.p2Coins corrupt

variable (x) in
/-- What `P1` broadcasts. -/
noncomputable def sig : Round3Msg := ⟨toBeBytes x.r, toBeBytes x.s, recoveryId x.rPoint⟩

variable {Q : C.Point}

/-- The offer that arrives from an honest `P1`. -/
theorem got_offer (T : x.Transcript H) (hs : Sound (x.underKey H Q corrupt) s)
    (hh1 : ¬ corrupt x.signers.1) {m : Round1Msg C} (hm : (s i).got 0 x.signers.1 = some m) :
    m = .p1Data T.data := by
  have h := hs.sends x.p1_lt hh1 hm
  change (runSign H x.signers.1 x.n x.signers _ _ _ _ _).Sends _ 0 i m at h
  simp only [runSign, if_pos (two_le x.p1_lt), orPanic_some, Proc.attempt_ok,
    lagrangeCoeff_eq x.p1_lt, if_true, T.offer_eq, Option.map_some] at h
  rw [Proc.sends_send_recv_iff, Option.some.injEq] at h
  exact h.symm

/-- The answer that arrives from an honest `P2`. -/
theorem got_answer (T : x.Transcript H) (hs : Sound (x.underKey H Q corrupt) s)
    (hh1 : ¬ corrupt x.signers.1) (hh2 : ¬ corrupt x.signers.2) {m : Round2Msg}
    (hm : (s i).got 1 x.signers.2 = some m) : m = .p2Data T.cS2 T.mulProof := by
  have hanswer := answer_of_sends (lagrangeCoeff_eq x.p2_lt) (hs.sends x.p2_lt hh2 hm)
  obtain ⟨data, hfrom, -⟩ := p2Answer_eq_ok hanswer
  -- `P2` answers to nothing but the offer
  rw [got_offer T hs hh1 (arrived_of_messageFrom hfrom)] at hfrom
  exact (Except.ok.inj ((T.answer_eq _ hfrom).symm.trans hanswer)).symm

/-- The signature that arrives from an honest `P1`. -/
theorem got_sig (T : x.Transcript H) (hs : Sound (x.underKey H Q corrupt) s)
    (hh1 : ¬ corrupt x.signers.1) (hh2 : ¬ corrupt x.signers.2) {m : Round3Msg}
    (hm : (s i).got 2 x.signers.1 = some m) : m = x.sig := by
  obtain ⟨state, data, hoffer, hcombine⟩ := combined_of_sends rfl (hs.sends x.p1_lt hh1 hm)
  obtain ⟨-, cS2, mulProof, -, -, -, hfrom, -⟩ := p1Combine_eq_ok hcombine
  rw [got_answer T hs hh1 hh2 (arrived_of_messageFrom hfrom)] at hfrom
  rw [T.offer_eq, Option.some.injEq, Prod.mk.injEq] at hoffer
  rw [← hoffer.1] at hcombine
  exact (Except.ok.inj ((T.combine_eq _ hfrom).symm.trans hcombine)).symm

/-- `P1` gets to round 2. -/
theorem two_le_ends_p1 (T : x.Transcript H) (inb : Inbox (SignMsg C)) :
    2 ≤ ((x.underKey H Q corrupt).prog x.signers.1).ends inb := by
  show 2 ≤ (runSign H x.signers.1 x.n x.signers _ _ _ _ _).ends inb
  simp only [runSign, if_pos (two_le x.p1_lt), orPanic_some, Proc.attempt_ok,
    lagrangeCoeff_eq x.p1_lt, if_true, T.offer_eq, Option.map_some, if_neg x.ne, Proc.ends_send,
    Proc.ends_recv]
  exact Proc.le_ends _ _

/-- `P2` gets to round 1. -/
theorem one_le_ends_p2 (inb : Inbox (SignMsg C)) :
    1 ≤ ((x.underKey H Q corrupt).prog x.signers.2).ends inb := by
  show 1 ≤ (runSign H x.signers.2 x.n x.signers _ _ _ _ _).ends inb
  simp only [runSign, if_pos (two_le x.p2_lt), orPanic_some, Proc.attempt_ok,
    lagrangeCoeff_eq x.p2_lt, if_neg (Ne.symm x.ne), Proc.ends_send, Proc.ends_recv]
  exact Proc.le_ends _ _

/-- `P1` returns what the last check makes of the signature. -/
theorem returned_p1 (T : x.Transcript H) (hs : Sound (x.underKey H Q corrupt) s)
    (hh1 : ¬ corrupt x.signers.1) (hh2 : ¬ corrupt x.signers.2) {res : Res SignError SignOutput}
    (hres : s.Returned x.signers.1 res) : res = checkSignature Q x.msgDigest x.sig := by
  obtain ⟨m, hm⟩ := hs.full (r := 1) x.p1_lt hh1 hres (two_le_ends_p1 T _) x.p2_lt (Ne.symm x.ne)
  have hfrom : messageFrom x.signers.2 ((s x.signers.1).inbox x.n x.signers.1 1) =
      some (.p2Data T.cS2 T.mulProof) := by
    rw [Local.inbox, messageFrom_collect x.p2_lt (Ne.symm x.ne), hm, got_answer T hs hh1 hh2 hm]
  have hcombine := T.combine_eq _ hfrom
  rw [z] at hcombine
  rw [← hs.result x.p1_lt hh1 hres]
  refine (exec_runSign_p1 (two_le x.p1_lt) x.ne (lagrangeCoeff_eq x.p1_lt) T.offer_eq _).trans ?_
  exact congrArg (· >>= _) hcombine

/-- So does everybody else. -/
theorem returned_of_ne (T : x.Transcript H) (hs : Sound (x.underKey H Q corrupt) s)
    (hh1 : ¬ corrupt x.signers.1) (hh2 : ¬ corrupt x.signers.2) (hi : i < x.n) (hh : ¬ corrupt i)
    (hi1 : i ≠ x.signers.1) {res : Res SignError SignOutput} (hres : s.Returned i res) :
    res = checkSignature Q x.msgDigest x.sig := by
  -- if it is `P2`, it has answered the offer
  have hanswer : i = x.signers.2 → ∃ answer, p2Answer H x.signers.1 (x.lambda i)
      (digestScalar C x.msgDigest) (x.share i) (x.p2Coins i) ((s i).inbox x.n i 0) = .ok answer := by
    rintro rfl
    obtain ⟨m, hm⟩ := hs.full (r := 0) hi hh hres (one_le_ends_p2 _) x.p1_lt (Ne.symm hi1)
    refine ⟨_, T.answer_eq _ ?_⟩
    rw [Local.inbox, messageFrom_collect x.p1_lt (Ne.symm hi1), hm, got_offer T hs hh1 hm]
  obtain ⟨hends, haccept⟩ := ends_of_ne (two_le hi) hi1 (lagrangeCoeff_eq hi) hanswer
  obtain ⟨sig, hsig⟩ := hs.full (r := 2) hi hh hres
    (lt_of_lt_of_eq (Nat.lt_succ_self 2) hends.symm) x.p1_lt (Ne.symm hi1)
  have hfrom : messageFrom x.signers.1 ((s i).inbox x.n i 2) = some x.sig := by
    rw [Local.inbox, messageFrom_collect x.p1_lt (Ne.symm hi1), hsig, got_sig T hs hh1 hh2 hsig]
  rw [← hs.result hi hh hres]
  refine haccept.trans ?_
  unfold acceptSignature
  rw [hfrom]
  rfl

/-- **Honest signers** under any public key: every honest party that returns does so with what the
    last check makes of the signature. -/
theorem returned_underKey (H : Hash) (x : SignSession C) (hs : Reachable (x.underKey H Q corrupt) s)
    (hh1 : ¬ corrupt x.signers.1) (hh2 : ¬ corrupt x.signers.2) (hi : i < x.n) (hh : ¬ corrupt i)
    {res : Res SignError SignOutput} (hres : s.Returned i res) :
    res = checkSignature Q x.msgDigest x.sig := by
  obtain ⟨T⟩ := x.exists_transcript H
  by_cases hi1 : i = x.signers.1
  · subst hi1
    exact returned_p1 T hs.sound hh1 hh2 hres
  · exact returned_of_ne T hs.sound hh1 hh2 hi hh hi1 hres

end SignSession

end Govis.Lindell
