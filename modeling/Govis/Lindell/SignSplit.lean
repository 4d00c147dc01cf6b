import Govis.Lindell.SignAgreement

namespace Govis.Lindell

open Bytes Curve Rounds Shamir

/-!
# Lindell: a corrupt `P1` splits the parties

The last round of `run_sign` is no reliable broadcast, and the verifier does not prefer one of the
two signatures `(r, s)` and `(r, -s)`.

* `verifySignature_neg` — both verify, or neither;
* `follows_of_sigs` — everybody but `P1` goes along with any signature that verifies;
* `runSign_splits` — **in every session a corrupt `P1` makes any parties return one signature and
  the others the other one**.
-/

variable {C : Curve} {H : Hash}

/-! ### Two signatures -/

@[simp] theorem xOrZero_neg (P : C.Point) : xOrZero (-P) = xOrZero P := by
  unfold xOrZero
  cases hP : C.coords P with
  | none =>
    rw [(C.coords_eq_none P).mp hP, neg_zero, (C.coords_eq_none 0).mpr rfl]
  | some e =>
    rw [C.coords_neg P e.1 e.2 hP]

@[simp] theorem ecdsaPoint_neg (Q : C.Point) (z r s : C.Scalar) :
    ecdsaPoint Q z r (-s) = -ecdsaPoint Q z r s := by
  simp [ecdsaPoint, div_neg, neg_smul, add_comm]

/-- **Malleability.** The verifier takes `s` and `-s` for the same. -/
theorem verifySignature_neg (Q : C.Point) (msgDigest : Vector UInt8 32) (rBytes : List UInt8)
    (s : C.Scalar) :
    verifySignature Q msgDigest rBytes (toBeBytes (-s)) =
      verifySignature Q msgDigest rBytes (toBeBytes s) := by
  rw [Bool.eq_iff_iff, verifySignature_eq_true_iff, verifySignature_eq_true_iff,
    ofBE_toBeBytes_cast, ofBE_toBeBytes_cast]
  simp

/-- The two are different. -/
theorem neg_ne_self {s : C.Scalar} (hs : s ≠ 0) : -s ≠ s := by
  intro h
  have hq : C.q ≠ 2 := by
    have := C.two_pow_16_lt
    omega
  rcases (ZMod.neg_eq_self_iff s).mp h with h | h
  · exact hs h
  · have hodd := (C.q_prime.eq_two_or_odd).resolve_left hq
    omega

namespace SignSession

variable {x : SignSession C}

/-! ### The split -/

/-- What every party sends when `P1` is corrupt: in the last round `P1` sends `sig j` to party
    `j`. -/
noncomputable def splitMsgs (T : x.Transcript H) (sig : ℕ → Round3Msg) :
    (r : ℕ) → ℕ → ℕ → SignMsg C r
  | 0, i, j => T.msgs 0 i j
  | 1, i, j => T.msgs 1 i j
  | r + 2, i, j => if i = x.signers.1 then sig j else T.msgs (r + 2) i j

/-- **Everybody but `P1`** goes along with a signature that verifies. -/
theorem follows_of_sigs (T : x.Transcript H) {sig : ℕ → Round3Msg} {i : ℕ} (hi : i < x.n)
    (h1 : i ≠ x.signers.1)
    (hsig : verifySignature x.publicKey x.msgDigest (sig i).rBytes (sig i).sBytes = true) :
    Follows x.n i (splitMsgs T sig) 3 (.ok ((sig i).rBytes, (sig i).sBytes, (sig i).recId))
      ((x.setup H).prog i) := by
  have hend : acceptSignature x.signers.1 x.publicKey x.msgDigest
      (scriptInbox x.n i (splitMsgs T sig) 2) =
        .ok ((sig i).rBytes, (sig i).sBytes, (sig i).recId) := by
    unfold acceptSignature
    rw [messageFrom_scriptInbox _ _ x.p1_lt (Ne.symm h1)]
    show checkSignature _ _ (if x.signers.1 = x.signers.1 then sig i else _) = _
    rw [if_pos rfl]
    exact if_pos hsig
  -- the last round
  have hlast : Follows x.n i (splitMsgs T sig) 3
      (.ok ((sig i).rBytes, (sig i).sBytes, (sig i).recId))
      (.send (fun _ => some ⟨[], [], 0⟩) <| .recv fun (msgs3 : List (ℕ × Round3Msg)) =>
        .done (acceptSignature x.signers.1 x.publicKey x.msgDigest msgs3) :
        Proc (SignMsg C) (Res SignError SignOutput) 2) := by
    refine .round (fun j _ _ => ?_) ?_
    · show _ = some (if i = x.signers.1 then sig j else if i = x.signers.1 then _ else _)
      rw [if_neg h1, if_neg h1]
    · rw [← hend]
      exact .done
  show Follows x.n i (splitMsgs T sig) 3 _ (runSign H i x.n x.signers _ _ _ _ _)
  simp only [runSign, if_pos (two_le hi), orPanic_some, Proc.attempt_ok, lagrangeCoeff_eq hi,
    if_neg h1]
  refine .round (fun j _ _ => congrArg some (if_neg h1).symm) ?_
  by_cases h2 : i = x.signers.2
  · subst h2
    rw [if_pos rfl]
    show Follows _ _ _ _ _ (Proc.attempt (p2Answer H x.signers.1 (x.lambda x.signers.2) x.z
      (x.share x.signers.2) (x.p2Coins x.signers.2) (scriptInbox x.n x.signers.2 T.msgs 0)) _)
    rw [T.answer_eq _ (T.offer_from h1), Proc.attempt_ok]
    exact .round (fun j _ _ => congrArg some (if_pos rfl).symm) hlast
  · rw [if_neg h2, Proc.attempt_ok]
    exact .round (fun j _ _ => congrArg some (if_neg h2).symm) hlast

end SignSession

/-- **A corrupt `P1` splits the parties.**  In every session, whichever parties are chosen, there is a
    run in which `P1` is corrupt, the chosen parties return the signature `(r, s)` and all others
    the different signature `(r, -s)`. -/
theorem runSign_splits (H : Hash) (x : SignSession C) (hs : x.s ≠ 0) (chosen : ℕ → Prop) :
    toBeBytes (-x.s) ≠ toBeBytes x.s ∧
    ∃ s, Reachable (x.against H (· = x.signers.1)) s ∧ ∀ i < x.n, i ≠ x.signers.1 →
      (chosen i → s.Returned i (.ok (toBeBytes x.r, toBeBytes x.s, recoveryId x.rPoint))) ∧
      (¬ chosen i → s.Returned i (.ok (toBeBytes x.r, toBeBytes (-x.s), recoveryId x.rPoint))) := by
  classical
  obtain ⟨T⟩ := x.exists_transcript H
  set sig : ℕ → Round3Msg := fun i => ⟨toBeBytes x.r, toBeBytes (if chosen i then x.s else -x.s),
    recoveryId x.rPoint⟩ with hsig
  have hverify : ∀ i, verifySignature x.publicKey x.msgDigest (sig i).rBytes (sig i).sBytes =
      true := by
    intro i
    have h : verifySignature x.publicKey x.msgDigest (toBeBytes x.r) (toBeBytes x.s) = true :=
      verifySignature_sign x.msgDigest hs
    simp only [hsig]
    split
    · exact h
    · rw [verifySignature_neg]
      exact h
  obtain ⟨s, hreach, -, hret⟩ := exists_run (S := x.against H (· = x.signers.1))
    (fun _ _ _ hr => hr.elim) fun i hi hh => SignSession.follows_of_sigs T hi hh (hverify i)
  refine ⟨fun h => neg_ne_self hs ?_, s, hreach, fun i hi hh => ?_⟩
  · rw [← ofBE_toBeBytes_cast (-x.s), h, ofBE_toBeBytes_cast]
  · have h := hret i hi hh
    simp only [hsig] at h
    constructor
    · intro hc
      rwa [if_pos hc] at h
    · intro hc
      rwa [if_neg hc] at h

/-- The small session: the two other parties return different signatures. -/
theorem runSign_splits_smallSession :
    ∃ s, Reachable (smallSession.against lastBytes (· = 2)) s ∧
      s.Returned 0 (.ok (toBeBytes smallSession.r, toBeBytes smallSession.s,
        recoveryId smallSession.rPoint)) ∧
      s.Returned 1 (.ok (toBeBytes smallSession.r, toBeBytes (-smallSession.s),
        recoveryId smallSession.rPoint)) := by
  have hsne : smallSession.s ≠ 0 := by
    rw [smallSession_values.2]
    exact one_ne_zero
  obtain ⟨-, s, hs, hret⟩ := runSign_splits lastBytes smallSession hsne (· = 0)
  exact ⟨s, hs, (hret 0 (by decide) (by decide)).1 rfl, (hret 1 (by decide) (by decide)).2 (by decide)⟩

end Govis.Lindell
