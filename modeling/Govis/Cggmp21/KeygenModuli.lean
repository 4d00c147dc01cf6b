import Govis.Cggmp21.KeygenShares

namespace Govis.Cggmp21

open Arith Bytes Curve Rounds Shamir Polynomial
open Lindell (degree_jointPoly_ownVector eval_zero_jointPoly_ownVector)

/-!
# CGGMP21: shares and moduli

A share is encrypted as a number below the order, under a modulus of any size.

* `KeygenFits` — what is encrypted in a state is below the modulus of the party it is for;
* `Interpolates` — the shares that the parties return lie on a polynomial over the public key;
* `not_sent_of_silent` — a key whose Blum proof is empty stops the protocol before any share is sent;
* `exists_wrapped_run` — with a modulus below the order an honest run returns at every party, and no
  polynomial has its shares;
* `keygenFits_iff`, `interpolates_iff` — **all runs fit**, and all runs that succeed share the key,
  exactly when no modulus is below the order.
-/

variable {C : Curve} {H : Hash}

variable {n t : ℕ} {sid : List UInt8} {keys : ℕ → ℕ × ℕ × PaillierKeypair}
  {coins : ℕ → KeygenCoins C} {s : Net (KeygenMsg C) (Res KeygenError (Cggmp21KeygenOutput C))}

/-- The parties draw the primes and keypairs `keys`. -/
def HasKeys (n : ℕ) (keys : ℕ → ℕ × ℕ × PaillierKeypair) (coins : ℕ → KeygenCoins C) : Prop :=
  ∀ i < n, ((coins i).p, (coins i).q, (coins i).keypair) = keys i

/-- What the parties draw to encrypt for each other is invertible. -/
def UnitDraws (n : ℕ) (coins : ℕ → KeygenCoins C) : Prop :=
  ∀ i < n, ∀ j < n, i ≠ j → ∀ rho,
    genBigintRange 1 (coins j).keypair.pk.n ((coins i).rho j) = some rho →
      IsCoprime rho (coins j).keypair.pk.n

/-- A Blum proof for the modulus can answer no challenge, and nobody accepts it. -/
def BlumSilent (H : Hash) (sid : List UInt8) (N : ℕ) : Prop := ∀ i < 128, ¬ IsAnswerable H N sid i

/-- Every share that a party has broadcast is encrypted under the key of the party it is for, and
    below the modulus of that key. -/
def KeygenFits (H : Hash) (n t : ℕ) (sid : List UInt8) (coins : ℕ → KeygenCoins C)
    (s : Net (KeygenMsg C) (Res KeygenError (Cggmp21KeygenOutput C))) : Prop :=
  ∀ d < n, ∀ k m, (s d).sent 2 k = some m → ∀ i < n, i ≠ d →
    (∃ enc, m.encryptedShares[if d < i then i - 1 else i]? = some enc ∧
      encryptShare H sid (keygenVector coins t d) (dealtShare coins t d i) (coins i).keypair.pk i
        ((coins d).rho i) ((coins d).logDraws i) = some enc) ∧
    (dealtShare coins t d i).val < (coins i).keypair.pk.n

/-- If all parties return, their shares are values of a polynomial of degree below `t` whose value
    at zero is the discrete logarithm of the public key. -/
def Interpolates (n t : ℕ) (s : Net (KeygenMsg C) (Res KeygenError (Cggmp21KeygenOutput C))) : Prop :=
  ∀ out : ℕ → Cggmp21KeygenOutput C, (∀ i < n, s.Returned i (.ok (out i))) →
    ∃ f : C.Scalar[X], f.degree < t ∧ ∀ i < n,
      (out i).ecShare = f.eval (node C i) ∧ (out i).publicKey = f.eval 0 • C.generator

/-- **Every honest run** returns shares that were reduced modulo the recipients' moduli. -/
theorem runKeygen_ecShare_eq (hs : Reachable (keygenSetup H n t sid coins fun _ => False) s)
    (hgen : ∀ i < n, Generated (coins i).p (coins i).q (coins i).keypair) (hunit : UnitDraws n coins)
    {i : ℕ} (hi : i < n) {out : Cggmp21KeygenOutput C} (hout : s.Returned i (.ok out)) :
    out.ecShare = dealtShare coins t i i + ∑ d ∈ (Finset.range n).erase i,
      (((dealtShare coins t d i).val % (coins i).keypair.pk.n : ℕ) : C.Scalar) := by
  obtain ⟨-, msg, hmsg⟩ := exists_keygen_row hs hi not_false hout
  rw [runKeygen_ecShare hs hi not_false hout]
  refine congrArg _ (Finset.sum_congr rfl fun d hd => ?_)
  obtain ⟨hdi, hd⟩ := Finset.mem_erase.mp hd
  have hdn := Finset.mem_range.mp hd
  have hgot := hmsg d hdn hdi
  simp only [receivedPlaintext, hgot]
  exact sharePlaintext_eq hs hi not_false (hgen i hi) hdn not_false hdi (hunit d hdn i hi hdi) hgot

/-- The secret that the parties deal. -/
theorem eval_zero_jointPoly_keygenVector :
    (jointPoly n (keygenVector coins t)).eval 0 = ∑ d ∈ Finset.range n, (coins d).ecSecret :=
  eval_zero_jointPoly_ownVector fun i => (coins i).dealer

theorem runKeygen_publicKey_eq (hs : Reachable (keygenSetup H n t sid coins fun _ => False) s)
    {i : ℕ} (hi : i < n) {out : Cggmp21KeygenOutput C} (hout : s.Returned i (.ok out)) :
    out.publicKey = (∑ d ∈ Finset.range n, (coins d).ecSecret) • C.generator := by
  have hrevealed : revealedPoints (fun _ => False) coins t s = keygenVector coins t :=
    funext fun d => if_neg not_false
  rw [runKeygen_publicKey hs hi not_false hout, hrevealed, eval_zero_jointPoly_keygenVector]

/-- **Above the order** every share fits. -/
theorem keygenFits_of_le (hs : Reachable (keygenSetup H n t sid coins fun _ => False) s)
    (hgen : ∀ i < n, Generated (coins i).p (coins i).q (coins i).keypair)
    (hle : ∀ i < n, C.q ≤ (coins i).keypair.pk.n) : KeygenFits H n t sid coins s :=
  fun _ hd _ _ hm i hi hid =>
    ⟨sent_share hs hi not_false (hgen i hi) hd not_false (Ne.symm hid) hm,
      lt_of_lt_of_le (ZMod.val_lt _) (hle i hi)⟩

/-- **Above the order** the shares are those of the public key. -/
theorem interpolates_of_le (hs : Reachable (keygenSetup H n t sid coins fun _ => False) s)
    (ht : 1 ≤ t) (hgen : ∀ i < n, Generated (coins i).p (coins i).q (coins i).keypair)
    (hunit : UnitDraws n coins) (hle : ∀ i < n, C.q ≤ (coins i).keypair.pk.n) : Interpolates n t s := by
  intro out hout
  refine ⟨jointPoly n (keygenVector coins t), degree_jointPoly_ownVector _ ht, fun i hi => ⟨?_, ?_⟩⟩
  · rw [runKeygen_ecShare_eq hs hgen hunit hi (hout i hi), ← sum_dealtShare,
      ← Finset.add_sum_erase _ (fun d => dealtShare coins t d i) (Finset.mem_range.mpr hi)]
    refine congrArg _ (Finset.sum_congr rfl fun d _ => ?_)
    rw [Nat.mod_eq_of_lt (lt_of_lt_of_le (ZMod.val_lt _) (hle i hi)), ZMod.natCast_zmod_val]
  · rw [runKeygen_publicKey_eq hs hi (hout i hi), eval_zero_jointPoly_keygenVector]

/-! ### Keys without Blum proof -/

/-- Nobody accepts a Blum proof without answers. -/
theorem verifyBlum_of_bits_nil (H : Hash) (N : ℕ) (sid : List UInt8) {proof : BlumProof}
    (hbits : proof.bits = []) : verifyBlum H N sid proof = false := by
  simp [verifyBlum, hbits]

/-- Recorded keys have been verified. -/
theorem verifyBlum_of_recordKeys {pks pks' : List (Option PaillierPublicKey)}
    {msgs : List (ℕ × Round1Msg)} (h : recordKeys H sid pks msgs = .ok pks') :
    ∀ e ∈ msgs, verifyBlum H (ofBE e.2.paillierN) sid e.2.blumProof = true := by
  induction msgs generalizing pks with
  | nil => exact fun e he => absurd he List.not_mem_nil
  | cons e msgs ih =>
    rw [recordKeys] at h
    split at h
    · cases h
    · rename_i hok
      rintro e' (_ | ⟨_, he'⟩)
      · exact not_not.mp hok
      · exact ih h e' he'

/-- What a party sends after round 0 it sends with recorded keys. -/
theorem runKeygen_sends_recorded {own : KeygenCoins C} {inb : Inbox (KeygenMsg C)} {i r j : ℕ}
    (hr : 0 < r) {m : KeygenMsg C r} (h : (runKeygen H i n t sid own).Sends inb r j m) :
    ∃ pks, recordKeys H sid ((List.replicate n none).set i (some own.keypair.pk)) (inb 0) =
      .ok pks := by
  unfold runKeygen at h
  obtain ⟨blum, -, h⟩ := Proc.sends_attempt_iff.mp h
  rw [Proc.sends_send_iff_of_lt inb hr, Proc.sends_recv_iff, Proc.sends_attempt_iff] at h
  obtain ⟨pks, hpks, -⟩ := h
  exact ⟨pks, hpks⟩

theorem runKeygen_sends_blum {own : KeygenCoins C} {inb : Inbox (KeygenMsg C)} {i j : ℕ}
    {m : Round1Msg} (h : (runKeygen H i n t sid own).Sends inb 0 j m) :
    proveBlum H own.p own.q own.keypair.pk.n sid = some m.blumProof := by
  unfold runKeygen at h
  obtain ⟨blum, hblum, h⟩ := Proc.sends_attempt_iff.mp h
  rw [Proc.sends_send_recv_iff, Option.some.injEq] at h
  rw [← h]
  exact orPanic_eq_ok.mp hblum

/-- **If a proof is silent**, nobody else sends after round 0, and so nobody sends in round 2. -/
theorem not_sent_of_silent (hs : Reachable (keygenSetup H n t sid coins fun _ => False) s)
    (hn : 2 ≤ n) {k : ℕ} (hk : k < n) (hgen : Generated (coins k).p (coins k).q (coins k).keypair)
    (hsilent : BlumSilent H sid (coins k).keypair.pk.n) {d j : ℕ} (hd : d < n) {m : Round3Msg C} :
    (s d).sent 2 j ≠ some m := by
  have hother : ∀ {d r j : ℕ} {m : KeygenMsg C r}, d < n → d ≠ k → 0 < r →
      (s d).sent r j ≠ some m := by
    intro d r j m hd hdk hr hm
    obtain ⟨m0, hm0⟩ := hs.full_of_sent hd not_false hm hr hk (Ne.symm hdk)
    obtain ⟨pks, hpks⟩ :=
      runKeygen_sends_recorded hr (hs.sound.sends_of_sent (S := keygenSetup H n t sid coins _)
        hd not_false hm)
    have hverify := verifyBlum_of_recordKeys hpks (k, m0)
      (mem_collect.mpr ⟨hk, Ne.symm hdk, hm0⟩)
    have hbits := (hgen.bits_eq_nil_iff
      (runKeygen_sends_blum (hs.sound.sends hk not_false hm0))).mpr hsilent
    rw [verifyBlum_of_bits_nil H _ sid hbits] at hverify
    cases hverify
  intro hm
  by_cases hdk : d = k
  · -- the party itself waits for the commitments of the others
    obtain ⟨e, he, hek⟩ := exists_other hn k
    obtain ⟨m1, hm1⟩ := hs.full_of_sent hd not_false hm Nat.one_lt_two he (hdk ▸ hek)
    exact hother he hek Nat.one_pos (hs.sound.wire d 1 e m1 hm1).2
  · exact hother hd hdk Nat.zero_lt_two hm

/-! ### Below the order -/

/-- Party `i` draws the keypair `keys i` and deals the polynomial `g i`. -/
noncomputable def dealCoins (keys : ℕ → ℕ × ℕ × PaillierKeypair) (g : ℕ → C.Scalar[X]) (i : ℕ) :
    KeygenCoins C where
  p := (keys i).1
  q := (keys i).2.1
  keypair := (keys i).2.2
  ecSecret := (g i).coeff 0
  draw k := (g i).coeff (k + 1)
  nonce := 0
  schnorrAlpha := 0
  rho _ := 0
  logDraws _ := ⟨0, 0⟩

theorem dealtShare_dealCoins {g : ℕ → C.Scalar[X]} (ht : 1 ≤ t) (hg : ∀ d, (g d).degree < t)
    (d i : ℕ) : dealtShare (dealCoins keys g) t d i = (g d).eval (node C i) :=
  evalAt_dealing_coeff ht (hg d) _

theorem unitDraws_dealCoins (g : ℕ → C.Scalar[X]) : UnitDraws n (dealCoins keys g) :=
  fun _ _ _ _ _ _ => coprime_of_genBigintRange_zero

/-- Parties whose proofs are not empty and whose draws are invertible run to the end. -/
theorem exists_honest_run (hgen : ∀ i < n, Generated (coins i).p (coins i).q (coins i).keypair)
    (hunit : UnitDraws n coins) (hblum : ∀ i < n, ¬ BlumSilent H sid (coins i).keypair.pk.n) :
    ∃ s, Reachable (keygenSetup H n t sid coins fun _ => False) s ∧ ∀ i < n,
      s.Returned i (.ok (receivedOutput n t coins i fun d => (dealtShare coins t d i).val)) := by
  have hdraws : KeygenDraws H n sid coins :=
    ⟨hgen, hunit, fun i hi _ hproof hbits =>
      hblum i hi (((hgen i hi).bits_eq_nil_iff hproof).mp hbits)⟩
  exact (hdraws.completes t).reaches _ .refl

/-- Dealer `d` alone deals the polynomial `f`. -/
noncomputable def soleDealer (f : C.Scalar[X]) (d : ℕ) : ℕ → C.Scalar[X] :=
  fun i => if i = d then f else 0

section SoleDealer

variable {f : C.Scalar[X]} {d i : ℕ}

theorem dealtShare_soleDealer (ht : 1 ≤ t) (hf : f.degree < t) (e : ℕ) :
    dealtShare (dealCoins keys (soleDealer f d)) t e i = if e = d then f.eval (node C i) else 0 := by
  have hdeg : ∀ e, (soleDealer f d e).degree < t := fun e => by
    rw [soleDealer]
    split
    · exact hf
    · rw [degree_zero]
      exact WithBot.bot_lt_coe t
  rw [dealtShare_dealCoins ht hdeg, soleDealer]
  split
  · rfl
  · exact eval_zero

theorem sum_ecSecret_soleDealer (hd : d < n) :
    ∑ e ∈ Finset.range n, (dealCoins keys (soleDealer f d) e).ecSecret = f.eval 0 := by
  have hsecret : ∀ e, (dealCoins keys (soleDealer f d) e).ecSecret = if e = d then f.eval 0 else 0 :=
    fun e => by
      show (soleDealer f d e).coeff 0 = _
      rw [soleDealer, coeff_zero_eq_eval_zero]
      split
      · rfl
      · exact eval_zero
  rw [Finset.sum_congr rfl fun e _ => hsecret e, Finset.sum_ite_eq', if_pos (Finset.mem_range.mpr hd)]

/-- A party for which the dealt value is zero modulo its modulus returns zero. -/
theorem ecShare_soleDealer (ht : 1 ≤ t) (hf : f.degree < t)
    (hi : (f.eval (node C i)).val % (keys i).2.2.pk.n = 0) (hid : i = d → f.eval (node C i) = 0) :
    (receivedOutput n t (dealCoins keys (soleDealer f d)) i fun e =>
      (dealtShare (dealCoins keys (soleDealer f d)) t e i).val).ecShare = 0 := by
  have hterm : ∀ e, (((dealtShare (dealCoins keys (soleDealer f d)) t e i).val %
      (keys i).2.2.pk.n : ℕ) : C.Scalar) = 0 := fun e => by
    rw [dealtShare_soleDealer ht hf]
    split
    · rw [hi, Nat.cast_zero]
    · rw [ZMod.val_zero, Nat.zero_mod, Nat.cast_zero]
  have hown : dealtShare (dealCoins keys (soleDealer f d)) t i i = 0 := by
    rw [dealtShare_soleDealer ht hf]
    split
    · exact hid ‹_›
    · rfl
  show dealtShare (dealCoins keys (soleDealer f d)) t i i +
    ∑ e ∈ (Finset.range n).erase i, _ = 0
  rw [hown, zero_add]
  exact Finset.sum_eq_zero fun e _ => hterm e

end SoleDealer

/-- A polynomial with a given value at one node that vanishes at `t - 1` others; its value at zero and
    its zeros determine it. -/
theorem exists_bump (hn : n < 2 ^ 16) (ht : 1 ≤ t) (htn : t ≤ n) {j : ℕ} (hj : j < n)
    (a : C.Scalar) : ∃ (S : Finset ℕ) (f : C.Scalar[X]), (∀ i ∈ S, i < n) ∧ f.degree < t ∧
      f.eval (node C j) = a ∧ (∀ i ∈ S, f.eval (node C i) = 0) ∧
      ∀ h : C.Scalar[X], h.degree < t → h.eval 0 = f.eval 0 → (∀ i ∈ S, h.eval (node C i) = 0) →
        h = f := by
  obtain ⟨S, hS, hcard⟩ : ∃ S ⊆ (Finset.range n).erase j, S.card = t - 1 := by
    apply Finset.exists_subset_card_eq
    rw [Finset.card_erase_of_mem (Finset.mem_range.mpr hj), Finset.card_range]
    omega
  have hjS : j ∉ S := fun h => (Finset.mem_erase.mp (hS h)).1 rfl
  have hSn : ∀ i ∈ S, i < n := fun i hi => Finset.mem_range.mp (Finset.mem_erase.mp (hS hi)).2
  have hnodes : Set.InjOn (node C) (insert j S : Finset ℕ) := by
    refine node_injOn.mono fun i hi => ?_
    have hin : i < n := by
      rcases Finset.mem_insert.mp hi with rfl | hi
      · exact hj
      · exact hSn i hi
    show i + 1 < 2 ^ 16
    omega
  obtain ⟨f, hdeg, hfj, hfS⟩ := exists_eval_eq hjS hnodes a
  have hcard' : S.card + 1 = t := by omega
  rw [hcard'] at hdeg
  refine ⟨S, f, hSn, hdeg, hfj, hfS, fun h hh hzero hvalues => ?_⟩
  refine eq_of_eval_zero_of_eval (hnodes.mono (Finset.coe_subset.mpr (Finset.subset_insert j S)))
    (fun i hi => node_ne_zero (by have := hSn i hi; omega)) (by rwa [hcard']) (by rwa [hcard']) hzero
    fun i hi => ?_
  rw [hvalues i hi, hfS i hi]

/-- **Below the order** a share can wrap around.  Dealer `d` deals the modulus of party `j` to it, and
    zero to `t - 1` others: all of these receive zero, and the polynomial through their shares and the
    public key is the dealt one, which is not zero at `j`. -/
theorem exists_wrapped_run (keys : ℕ → ℕ × ℕ × PaillierKeypair) (hn : n < 2 ^ 16) (ht : 1 ≤ t)
    (htn : t ≤ n) (hgen : ∀ i < n, Generated (keys i).1 (keys i).2.1 (keys i).2.2)
    (hblum : ∀ i < n, ¬ BlumSilent H sid (keys i).2.2.pk.n) {d j : ℕ} (hd : d < n) (hj : j < n) (hdj : d ≠ j)
    (hlt : (keys j).2.2.pk.n < C.q) :
    ∃ (g : ℕ → C.Scalar[X]) (s : Net (KeygenMsg C) (Res KeygenError (Cggmp21KeygenOutput C))),
      Reachable (keygenSetup H n t sid (dealCoins keys g) fun _ => False) s ∧
      (∃ out : ℕ → Cggmp21KeygenOutput C, ∀ i < n, s.Returned i (.ok (out i))) ∧
      ¬ KeygenFits H n t sid (dealCoins keys g) s ∧ ¬ Interpolates n t s := by
  have hpos : 0 < (keys j).2.2.pk.n := lt_trans one_pos (hgen j hj).valid.wellFormed.one_lt
  have hval : (((keys j).2.2.pk.n : ℕ) : C.Scalar).val = (keys j).2.2.pk.n := ZMod.val_cast_of_lt hlt
  obtain ⟨S, f, hSn, hdeg, hfj, hfS, hunique⟩ :=
    exists_bump hn ht htn hj (((keys j).2.2.pk.n : ℕ) : C.Scalar)
  have hunit : UnitDraws n (dealCoins keys (soleDealer f d)) := unitDraws_dealCoins _
  obtain ⟨s, hs, hret⟩ := exists_honest_run (t := t) hgen hunit hblum
  refine ⟨soleDealer f d, s, hs, ⟨_, hret⟩, fun hfits => ?_, fun hinter => ?_⟩
  · -- what `d` has sent to `j` does not fit
    obtain ⟨-, msg, hmsg⟩ := exists_keygen_row hs hj not_false (hret j hj)
    have hsent := (hs.sound.wire j 2 d _ (hmsg d hd hdj)).2
    obtain ⟨-, hfit⟩ := hfits d hd j _ hsent j hj (Ne.symm hdj)
    rw [dealtShare_soleDealer ht hdeg, if_pos rfl, hfj, hval] at hfit
    exact lt_irrefl _ hfit
  · obtain ⟨h, hhdeg, hvalues⟩ := hinter _ hret
    have hsecret : h.eval 0 = f.eval 0 := by
      have hpk := (hvalues d hd).2
      change (∑ e ∈ Finset.range n, (dealCoins keys (soleDealer f d) e).ecSecret) • C.generator = _
        at hpk
      rw [sum_ecSecret_soleDealer hd] at hpk
      exact (generator_smul_eq_iff.mp hpk).symm
    -- the polynomial of the shares is the dealt one
    have heq : h = f := hunique h hhdeg hsecret fun i hi => by
      rw [← (hvalues i (hSn i hi)).1, ecShare_soleDealer ht hdeg _ fun _ => hfS i hi]
      rw [hfS i hi, ZMod.val_zero, Nat.zero_mod]
    -- but `j` holds zero
    have hj0 := (hvalues j hj).1
    rw [ecShare_soleDealer ht hdeg (by rw [hfj, hval, Nat.mod_self])
      fun hjd => absurd hjd (Ne.symm hdj), heq, hfj] at hj0
    rw [← hj0, ZMod.val_zero] at hval
    exact absurd hval (ne_of_lt hpos)

/-! ### Every run -/

section Iff

variable (hn2 : 2 ≤ n) (hn : n < 2 ^ 16) (ht : 1 ≤ t)

theorem HasKeys.generated (h : HasKeys n keys coins)
    (hgen : ∀ i < n, Generated (keys i).1 (keys i).2.1 (keys i).2.2) :
    ∀ i < n, Generated (coins i).p (coins i).q (coins i).keypair := fun i hi => by
  have hi' := hgen i hi
  rwa [← h i hi] at hi'

theorem HasKeys.le (h : HasKeys n keys coins) (hle : ∀ i < n, C.q ≤ (keys i).2.2.pk.n) :
    ∀ i < n, C.q ≤ (coins i).keypair.pk.n := fun i hi => by
  have hi' := hle i hi
  rwa [← h i hi] at hi'

include hn2 hn ht

/-- Without the condition some honest run returns everywhere what does not fit. -/
theorem exists_wrapped_run_of_not (htn : t ≤ n)
    (hgen : ∀ i < n, Generated (keys i).1 (keys i).2.1 (keys i).2.2)
    (hnot : ¬ ((∃ i < n, BlumSilent H sid (keys i).2.2.pk.n) ∨
      ∀ i < n, C.q ≤ (keys i).2.2.pk.n)) :
    ∃ (g : ℕ → C.Scalar[X]) (s : Net (KeygenMsg C) (Res KeygenError (Cggmp21KeygenOutput C))),
      Reachable (keygenSetup H n t sid (dealCoins keys g) fun _ => False) s ∧
      ¬ KeygenFits H n t sid (dealCoins keys g) s ∧ ¬ Interpolates n t s := by
  push Not at hnot
  obtain ⟨hblum, j, hj, hlt⟩ := hnot
  obtain ⟨d, hd, hdj⟩ := exists_other hn2 j
  obtain ⟨g, s, hs, -, hboth⟩ := exists_wrapped_run keys hn ht htn hgen hblum hd hj hdj hlt
  exact ⟨g, s, hs, hboth⟩

/-- **When shares fit.**  For the keys of the parties, all shares of all honest runs are below the
    moduli they are encrypted under exactly if no modulus is below the order, or no share is sent
    because some Blum proof is empty. -/
theorem keygenFits_iff (htn : t ≤ n)
    (hgen : ∀ i < n, Generated (keys i).1 (keys i).2.1 (keys i).2.2) :
    (∀ coins : ℕ → KeygenCoins C, HasKeys n keys coins → ∀ s,
        Reachable (keygenSetup H n t sid coins fun _ => False) s → KeygenFits H n t sid coins s) ↔
      (∃ i < n, BlumSilent H sid (keys i).2.2.pk.n) ∨ ∀ i < n, C.q ≤ (keys i).2.2.pk.n := by
  constructor
  · intro h
    by_contra hnot
    obtain ⟨g, s, hs, hfits, -⟩ := exists_wrapped_run_of_not hn2 hn ht htn hgen hnot
    exact hfits (h _ (fun _ _ => rfl) s hs)
  · rintro (⟨k, hk, hsilent⟩ | hle) coins hkeys s hs
    · intro d hd j m hm
      rw [← hkeys k hk] at hsilent
      exact absurd hm (not_sent_of_silent hs hn2 hk (hkeys.generated hgen k hk) hsilent hd)
    · exact keygenFits_of_le hs (hkeys.generated hgen) (hkeys.le hle)

/-- **When shares are shares of the key.**  For the keys of the parties, all honest runs with
    invertible draws that return everywhere return shares of the public key under the same
    condition. -/
theorem interpolates_iff (htn : t ≤ n)
    (hgen : ∀ i < n, Generated (keys i).1 (keys i).2.1 (keys i).2.2) :
    (∀ coins : ℕ → KeygenCoins C, HasKeys n keys coins → UnitDraws n coins → ∀ s,
        Reachable (keygenSetup H n t sid coins fun _ => False) s → Interpolates n t s) ↔
      (∃ i < n, BlumSilent H sid (keys i).2.2.pk.n) ∨ ∀ i < n, C.q ≤ (keys i).2.2.pk.n := by
  constructor
  · intro h
    by_contra hnot
    obtain ⟨g, s, hs, -, hinter⟩ := exists_wrapped_run_of_not hn2 hn ht htn hgen hnot
    exact hinter (h _ (fun _ _ => rfl) (unitDraws_dealCoins g) s hs)
  · rintro (⟨k, hk, hsilent⟩ | hle) coins hkeys hunit s hs
    · -- not all parties return
      intro out hout
      rw [← hkeys k hk] at hsilent
      obtain ⟨d, hd, hdk⟩ := exists_other hn2 k
      obtain ⟨-, msg, hmsg⟩ := exists_keygen_row hs hk not_false (hout k hk)
      exact absurd (hs.sound.wire k 2 d _ (hmsg d hd hdk)).2
        (not_sent_of_silent hs hn2 hk (hkeys.generated hgen k hk) hsilent hd)
    · exact interpolates_of_le hs ht (hkeys.generated hgen) hunit (hkeys.le hle)

end Iff

end Govis.Cggmp21
