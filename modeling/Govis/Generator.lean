import Govis.Cggmp21.PresignRuns
import Govis.Lindell.SignPanics

namespace Govis

open Arith Bytes Curve Rounds

/-!
# The base of the plaintexts

`g_pow` computes `1 + m * n` where `encrypt_with_rho` and `verify_consistency` raise the generator
of the key to the power `m`.  `run_keygen` sets the generator of a peer's key to `n + 1`; the two
signing protocols take it from the peer.

* `ReceivedKey` — the keys on which `run_sign` calls `verify_range` and `run_presign` calls
  `prove_range`;
* `gPow_eq_modpow_iff` — the condition on such a key under which the two agree;
* `gPow_ne_modpow` — an offer that breaks it and passes `verify_range`.
-/

variable {C : Curve} {pk : PaillierPublicKey}

/-! ### One key -/

/-- The fast path of the proofs is the power of the generator, for every plaintext. -/
def PaillierPublicKey.SameBase (pk : PaillierPublicKey) : Prop :=
  ∀ m : ℤ, 0 ≤ m → modpow pk.g m pk.nSq = some (gPow m pk.n pk.nSq)

/-- **One key.**  The plaintexts zero and one already decide it. -/
theorem PaillierPublicKey.sameBase_iff (hsq : pk.nSq = pk.n ^ 2) :
    pk.SameBase ↔ pk.n ≠ 0 ∧ pk.g ≡ pk.n + 1 [MOD pk.n ^ 2] := by
  have hcast : (pk.nSq : ℤ) = (pk.n : ℤ) ^ 2 := by rw [hsq, Nat.cast_pow]
  have hmodpow : ∀ m : ℕ, pk.n ≠ 0 →
      modpow pk.g m pk.nSq = some ((pk.g : ℤ) ^ m % (pk.n : ℤ) ^ 2) := by
    intro m hn
    rw [hcast, modpow_natCast _ _ (by positivity)]
  have hgPow : ∀ m : ℕ, gPow m pk.n pk.nSq = (1 + m * (pk.n : ℤ)) % (pk.n : ℤ) ^ 2 := by
    intro m
    rw [gPow, hcast, Int.tmod_eq_emod_of_nonneg (by positivity)]
  constructor
  · intro h
    have hn : pk.n ≠ 0 := by
      intro hzero
      have h0 := h 0 le_rfl
      rw [hcast, hzero] at h0
      simp [modpow] at h0
    refine ⟨hn, Int.natCast_modEq_iff.mp ?_⟩
    -- at the plaintext one
    have h1 := h (1 : ℕ) (by norm_num)
    rw [hmodpow 1 hn, hgPow] at h1
    have hmod := Option.some.inj h1
    rw [pow_one, Nat.cast_one, one_mul] at hmod
    push_cast
    rw [add_comm]
    exact hmod
  · rintro ⟨hn, hg⟩ m hm
    obtain ⟨k, rfl⟩ := Int.eq_ofNat_of_zero_le hm
    have hg' : (pk.g : ℤ) ≡ 1 + pk.n [ZMOD (pk.n : ℤ) ^ 2] := by
      have := Int.natCast_modEq_iff.mpr hg
      push_cast at this
      rwa [add_comm] at this
    rw [hmodpow k hn, hgPow]
    exact congrArg some ((hg'.pow k).trans (one_add_pow_modEq pk.n k))

/-- Encryption is then what the proofs take it for. -/
theorem PaillierPublicKey.SameBase.encryptWithRho_eq (h : pk.SameBase) {m : ℤ} (hm : 0 ≤ m)
    (rho : ℤ) : encryptWithRho pk m rho = commitWith pk (gPow m pk.n pk.nSq) rho := by
  rw [encryptWithRho, h m hm]
  rfl

/-- So is the equation of the consistency proof. -/
theorem PaillierPublicKey.SameBase.verifyConsistency_eq (h : pk.SameBase) (H : Hash) (c : ℤ)
    (rPoint : C.Point) (sid : List UInt8) {proof : ConsistencyProof C} (hz : 0 ≤ proof.z) :
    verifyConsistency H pk c rPoint sid proof =
      let e := consistencyChallenge H sid pk.n pk.g c rPoint proof.a proof.cAlpha
      if fromBeBytesModOrder C (magnitude proof.z) • rPoint ≠
          proof.a + fromBeBytesModOrder C (magnitude e) • C.generator then some false
      else checkEquation pk proof.cAlpha c e (gPow proof.z pk.n pk.nSq) proof.sResponse := by
  rw [verifyConsistency, verifyPoint, h _ hz]
  rfl

/-! ### The keys that peers send -/

/-- The keys on which `run_sign` at `P2` calls `verify_range`, and those on which `run_presign` calls
    `prove_range` once the nonce is encrypted; any messages may have come in round 0. -/
inductive ReceivedKey (C : Curve) : PaillierPublicKey → Prop
  | verifyRange {p1 : ℕ} {msgs1 : List (ℕ × Lindell.Round1Msg C)} {data : Lindell.P1Data C}
      (hfrom : messageFrom p1 msgs1 = some (.p1Data data)) : ReceivedKey C data.key
  | proveRange {localI m peer u : ℕ} {round0Msgs : List (ℕ × Cggmp21.PaillierPKMsg)}
      {pk : PaillierPublicKey} {k : C.Scalar} {rho cKEnc : ℤ} (hpeer : peer ∈ others m localI)
      (hkey : (Cggmp21.peerKeys localI m round0Msgs)[peer]? = some (some pk))
      (hrho : genBigintRange 1 pk.n u = some rho)
      (henc : encryptWithRho pk (scalarToBigint k) rho = some cKEnc) : ReceivedKey C pk

/-- Every key in the table of `run_presign` is made from a message. -/
theorem nSq_eq_of_mem_peerKeys {localI m : ℕ} {round0Msgs : List (ℕ × Cggmp21.PaillierPKMsg)} :
    ∀ pk, some pk ∈ Cggmp21.peerKeys localI m round0Msgs → pk.nSq = pk.n ^ 2 := by
  -- the invariant of the loop over the messages
  have hloop : ∀ (msgs : List (ℕ × Cggmp21.PaillierPKMsg)) (pks : List (Option PaillierPublicKey)),
      (∀ pk, some pk ∈ pks → pk.nSq = pk.n ^ 2) → ∀ pk, some pk ∈ msgs.foldl (fun pks e =>
        if e.1 ≠ localI then pks.set e.1 (some ⟨e.2.n, e.2.n ^ 2, e.2.g⟩) else pks) pks →
      pk.nSq = pk.n ^ 2 := by
    intro msgs
    induction msgs with
    | nil => exact fun pks h => h
    | cons e msgs ih =>
      intro pks h
      rw [List.foldl_cons]
      apply ih
      intro pk hpk
      split at hpk
      · rcases List.mem_or_eq_of_mem_set hpk with hold | hnew
        · exact h pk hold
        · rw [Option.some.inj hnew]
      · exact h pk hpk
  exact hloop round0Msgs _ fun pk hpk => by simp at hpk

theorem ReceivedKey.nSq_eq (h : ReceivedKey C pk) : pk.nSq = pk.n ^ 2 := by
  cases h with
  | verifyRange hfrom => rfl
  | proveRange hpeer hkey hrho henc =>
    exact nSq_eq_of_mem_peerKeys _ (List.mem_of_getElem? hkey)

/-- The offer of a modulus and a generator, with trivial proofs. -/
def trivialOffer (C : Curve) (n g : ℕ) : Lindell.P1Data C :=
  ⟨C.generator, 1, n, g, ⟨1, 0, 1⟩, ⟨1, 0, 0, 1⟩⟩

/-- Nothing is promised about the two numbers. -/
theorem receivedKey_mk (C : Curve) (n g : ℕ) : ReceivedKey C ⟨n, n ^ 2, g⟩ := by
  have hfrom : messageFrom 0 [(0, Lindell.Round1Msg.p1Data (trivialOffer C n g))] =
      some (.p1Data (trivialOffer C n g)) := rfl
  exact .verifyRange hfrom

/-- **The fast path and the generator.**  For a received key they agree on every plaintext exactly if
    the modulus is not zero and the generator is `n + 1` modulo `n ^ 2`.  The proofs then speak about
    the plaintext of `encrypt_with_rho` and of `verify_consistency`. -/
theorem gPow_eq_modpow_iff (h : ReceivedKey C pk) :
    ((∀ m : ℤ, 0 ≤ m → modpow pk.g m pk.nSq = some (gPow m pk.n pk.nSq)) ↔
      pk.n ≠ 0 ∧ pk.g ≡ pk.n + 1 [MOD pk.n ^ 2]) ∧
    (pk.n ≠ 0 ∧ pk.g ≡ pk.n + 1 [MOD pk.n ^ 2] →
      (∀ m rho : ℤ, 0 ≤ m →
        encryptWithRho pk m rho = commitWith pk (gPow m pk.n pk.nSq) rho) ∧
      ∀ (H : Hash) (c : ℤ) (rPoint : C.Point) (sid : List UInt8) (proof : ConsistencyProof C),
        0 ≤ proof.z → verifyConsistency H pk c rPoint sid proof =
          let e := consistencyChallenge H sid pk.n pk.g c rPoint proof.a proof.cAlpha
          if fromBeBytesModOrder C (magnitude proof.z) • rPoint ≠
              proof.a + fromBeBytesModOrder C (magnitude e) • C.generator then some false
          else checkEquation pk proof.cAlpha c e (gPow proof.z pk.n pk.nSq) proof.sResponse) := by
  have hiff := PaillierPublicKey.sameBase_iff h.nSq_eq
  refine ⟨hiff, fun hcond => ⟨fun m rho hm => ?_, fun H c rPoint sid proof hz => ?_⟩⟩
  · exact (hiff.mpr hcond).encryptWithRho_eq hm rho
  · exact (hiff.mpr hcond).verifyConsistency_eq H c rPoint sid hz

/-- The modulus `15` with the generator `16`. -/
theorem gPow_eq_modpow_iff_fifteen :
    (∀ m : ℤ, 0 ≤ m → modpow 16 m 225 = some (gPow m 15 225)) ↔
      15 ≠ 0 ∧ 16 ≡ 15 + 1 [MOD 15 ^ 2] :=
  (gPow_eq_modpow_iff (receivedKey_mk smallCurve 15 16)).1

/-- With the generator `1` every plaintext encrypts like zero, and `verify_range` does not notice. -/
theorem gPow_ne_modpow :
    ReceivedKey smallCurve ⟨15, 225, 1⟩ ∧
      verifyRange lastBytes ⟨15, 225, 1⟩ (trivialOffer smallCurve 15 1).cKInv Lindell.curveBits
        (ascii "sign") (trivialOffer smallCurve 15 1).rangeProof = some true ∧
      modpow 1 1 225 = some 1 ∧ gPow 1 15 225 = 16 ∧
      ¬ ∀ pk, ReceivedKey smallCurve pk →
        ∀ m : ℤ, 0 ≤ m → modpow pk.g m pk.nSq = some (gPow m pk.n pk.nSq) := by
  refine ⟨receivedKey_mk smallCurve 15 1, by decide +kernel, by decide, by decide, fun h => ?_⟩
  have h1 := h _ (receivedKey_mk smallCurve 15 1) 1 (by norm_num)
  revert h1
  decide

end Govis
