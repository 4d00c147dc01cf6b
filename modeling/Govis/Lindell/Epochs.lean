import Govis.Lindell.DkgRuns
import Govis.SmallCurve

namespace Govis.Lindell

open Curve Shamir Rounds Polynomial

/-!
# Lindell: honest key generation and refreshes

One honest run of `run_dkg`, and any number of honest runs of `run_refresh` after it.

* `IsSharing` — the outputs of the parties are a sharing of one secret;
* `runDkg_completes`, `runRefresh_completes` — honest runs succeed at every party, whatever
  the order of delivery, and end with such a sharing;
* `Refreshed` — the outputs after any number of refreshes;
* `runRefresh_preserves_secret` — they all share the secret of the key generation.
-/

variable {C : Curve} {H : Hash} {n t : ℕ} {sid : List UInt8}

/-- The outputs of the parties `0 .. n` are shares of `sk` with threshold `t`, under its public
    key. -/
structure IsSharing (n t : ℕ) (sk : C.Scalar) (out : ℕ → LindellDkgOutput C) : Prop where
  shares : ∃ f : C.Scalar[X], f.degree < t ∧ f.eval 0 = sk ∧
    ∀ i < n, (out i).secretShare = f.eval (node C i)
  publicKey : ∀ i < n, (out i).publicKey = sk • C.generator

/-- **Reconstruction.** Any `t` parties recover the secret. -/
theorem IsSharing.combine_eq {sk : C.Scalar} {out : ℕ → LindellDkgOutput C}
    (h : IsSharing n t sk out) (hn : n < 2 ^ 16) {signers : List ℕ} (hnd : signers.Nodup)
    (hs : ∀ i ∈ signers, i < n) (ht : t ≤ signers.length) :
    combine signers (fun i => (out i).secretShare) = some sk := by
  obtain ⟨f, hf, rfl, hshare⟩ := h.shares
  rw [combine_congr fun i hi => hshare i (hs i hi)]
  refine Govis.combine_eq (fun i hi => ?_) hnd (lt_of_lt_of_le hf (by exact_mod_cast ht))
  have := hs i hi
  omega

/-! ### One epoch -/

/-- The share honest dealer `d` hands to party `j`. -/
def ownShare (coins : ℕ → DealerCoins C) (t d j : ℕ) : C.Scalar :=
  evalAt (node C j) (dealing (coins d).intercept (coins d).draw t)

/-- **Honest runs of `run_vss`** return the value of the joint polynomial at every party. -/
theorem RunsVss.completes {R : Type} {coins : ℕ → DealerCoins C} {S : Setup (Msg C) R}
    {out : ℕ → Res DkgError (C.Scalar × C.Point) → R} (hS : RunsVss H t sid coins S out)
    (hh : ∀ i < S.n, ¬ S.corrupt i) :
    Completes S fun i => out i (.ok ((jointPoly S.n (ownVector coins t)).eval (node C i),
      jointAt S.n (ownVector coins t) 0)) := by
  refine completes_of_follows (M := vssScript H sid (ownVector coins t) (ownShare coins t)) (k := 3)
    hh fun i hi => ?_
  have hown : DealsHonestly coins S.n t (ownVector coins t) (ownShare coins t) i :=
    ⟨rfl, fun j _ => rfl⟩
  have hne : ∀ d < S.n, ownVector coins t d ≠ [] := fun d _ => List.cons_ne_nil _ _
  rw [hS.prog_eq, ← runVss_exec_script hi hown hne fun d _ _ => (evalAt_map_smul _ _ _).symm]
  exact (runVss_follows hown hne).map (out i)

/-- The polynomial dealt by honest dealers has degree below `t`. -/
theorem degree_jointPoly_ownVector (coins : ℕ → DealerCoins C) (ht : 1 ≤ t) :
    (jointPoly n (ownVector coins t)).degree < t := by
  apply degree_jointPoly_lt_of_length
  intro d _
  rw [ownVector, List.length_map, length_dealing _ _ ht]

/-- The secret dealt by honest dealers. -/
theorem eval_zero_jointPoly_ownVector (coins : ℕ → DealerCoins C) :
    (jointPoly n (ownVector coins t)).eval 0 = ∑ d ∈ Finset.range n, (coins d).intercept := by
  rw [eval_jointPoly]
  apply Finset.sum_congr rfl
  intro d _
  rw [map_dlog_ownVector, evalAt_zero_dealing]

/-- The values of a joint polynomial with two coefficients. -/
theorem eval_jointPoly_two (coins : ℕ → DealerCoins C) (n : ℕ) (x : C.Scalar) :
    (jointPoly n (ownVector coins 2)).eval x =
      ∑ d ∈ Finset.range n, (coins d).intercept + x * ∑ d ∈ Finset.range n, (coins d).draw 0 := by
  rw [eval_jointPoly, Finset.mul_sum, ← Finset.sum_add_distrib]
  refine Finset.sum_congr rfl fun d _ => ?_
  rw [map_dlog_ownVector]
  simp [dealing, List.range_succ]

/-- **Honest key generation** succeeds at every party and shares the sum of the intercepts. -/
theorem runDkg_completes (ht : 1 ≤ t) (coins : ℕ → DealerCoins C) :
    ∃ out, Completes (dkgSetup H n t sid coins fun _ => False) (fun i => .ok (out i)) ∧
      IsSharing n t (∑ d ∈ Finset.range n, (coins d).intercept) out := by
  refine ⟨fun i => ⟨(jointPoly n (ownVector coins t)).eval (node C i),
    jointAt n (ownVector coins t) 0⟩,
    (dkgSetup_runsVss H n t sid coins fun _ => False).completes fun _ _ => not_false, ?_, ?_⟩
  · exact ⟨_, degree_jointPoly_ownVector coins ht, eval_zero_jointPoly_ownVector coins,
      fun _ _ => rfl⟩
  · intro i _
    rw [← eval_zero_jointPoly_ownVector (t := t), eval_jointPoly_smul]

/-- **Honest refresh** succeeds at every party and keeps the secret. -/
theorem runRefresh_completes (ht : 1 ≤ t) {sk : C.Scalar} {old : ℕ → LindellDkgOutput C}
    (hold : IsSharing n t sk old) (draw : ℕ → ℕ → C.Scalar) :
    ∃ out, Completes (refreshSetup H n t sid old draw fun _ => False) (fun i => .ok (out i)) ∧
      IsSharing n t sk out := by
  set coins : ℕ → DealerCoins C := fun i => ⟨0, draw i⟩ with hcoins
  refine ⟨fun i => ⟨(old i).secretShare + (jointPoly n (ownVector coins t)).eval (node C i),
    (old i).publicKey⟩,
    (refreshSetup_runsVss H n t sid old draw fun _ => False).completes fun _ _ => not_false,
    ?_, hold.publicKey⟩
  -- the dealings of a refresh have no constant term
  obtain ⟨f, hf, hsk, hshare⟩ := hold.shares
  refine ⟨f + jointPoly n (ownVector coins t), ?_, ?_, fun i hi => ?_⟩
  · exact lt_of_le_of_lt (degree_add_le _ _) (max_lt hf (degree_jointPoly_ownVector coins ht))
  · rw [eval_add, hsk, eval_zero_jointPoly_ownVector, hcoins]
    simp
  · rw [eval_add, ← hshare i hi]

/-! ### Any number of epochs -/

/-- `Refreshed H n t out out'`: honest parties that hold `out` can come to hold `out'` by
    honest refreshes. -/
inductive Refreshed (H : Hash) (n t : ℕ) (out : ℕ → LindellDkgOutput C) :
    (ℕ → LindellDkgOutput C) → Prop where
  | refl : Refreshed H n t out out
  | step {old new : ℕ → LindellDkgOutput C} (h : Refreshed H n t out old) {sid : List UInt8}
      {draw : ℕ → ℕ → C.Scalar} {s : Net (Msg C) (Res DkgError (LindellDkgOutput C))}
      (hs : Reachable (refreshSetup H n t sid old draw fun _ => False) s)
      (hret : ∀ i < n, s.Returned i (.ok (new i))) : Refreshed H n t out new

/-- Equal outputs at the parties `0 .. n` are equal sharings. -/
theorem IsSharing.congr {sk : C.Scalar} {out out' : ℕ → LindellDkgOutput C}
    (h : IsSharing n t sk out) (heq : ∀ i < n, out' i = out i) : IsSharing n t sk out' := by
  obtain ⟨f, hf, hsk, hshare⟩ := h.shares
  exact ⟨⟨f, hf, hsk, fun i hi => by rw [heq i hi, hshare i hi]⟩,
    fun i hi => by rw [heq i hi, h.publicKey i hi]⟩

/-- **Run lemma.** Every refresh keeps the sharing. -/
theorem Refreshed.isSharing (ht : 1 ≤ t) {sk : C.Scalar} {out out' : ℕ → LindellDkgOutput C}
    (h : Refreshed H n t out out') (hout : IsSharing n t sk out) : IsSharing n t sk out' := by
  induction h with
  | refl => exact hout
  | step _ hs hret ih =>
    -- what the run returned is what every honest run returns
    obtain ⟨new, hcompletes, hnew⟩ := runRefresh_completes (H := H) ht ih _
    exact hnew.congr fun i hi => Except.ok.inj (hcompletes.returns _ hs i hi _ (hret i hi))

/-- **Honest key generation followed by honest refreshes.**  The key generation succeeds at
    every party, every refresh of what any number of refreshes has made of its outputs succeeds
    at every party, and all the while the parties hold one public key, and any `t` of them
    recover its secret. -/
theorem runRefresh_preserves_secret (H : Hash) (n t : ℕ) (ht : 1 ≤ t) (hn : n < 2 ^ 16)
    (sid : List UInt8) (coins : ℕ → DealerCoins C) :
    ∃ (sk : C.Scalar) (out : ℕ → LindellDkgOutput C),
      Completes (dkgSetup H n t sid coins fun _ => False) (fun i => .ok (out i)) ∧
      ∀ out', Refreshed H n t out out' →
        (∀ i < n, (out' i).publicKey = sk • C.generator) ∧
        (∀ signers : List ℕ, signers.Nodup → (∀ i ∈ signers, i < n) → t ≤ signers.length →
          combine signers (fun i => (out' i).secretShare) = some sk) ∧
        ∀ (sid' : List UInt8) (draw : ℕ → ℕ → C.Scalar), ∃ new : ℕ → LindellDkgOutput C,
          Completes (refreshSetup H n t sid' out' draw fun _ => False) fun i => .ok (new i) := by
  obtain ⟨out, hcompletes, hout⟩ := runDkg_completes (H := H) (n := n) ht coins
  refine ⟨∑ d ∈ Finset.range n, (coins d).intercept, out, hcompletes, fun out' hout' => ?_⟩
  have hsharing := hout'.isSharing ht hout
  refine ⟨hsharing.publicKey, fun signers hnd hs hts => hsharing.combine_eq hn hnd hs hts,
    fun sid' draw => ?_⟩
  obtain ⟨new, hnew, -⟩ := runRefresh_completes ht hsharing draw
  exact ⟨new, hnew⟩

/-- Two of three parties. -/
theorem runRefresh_preserves_secret_two_of_three :
    ∃ (sk : smallCurve.Scalar) (out : ℕ → LindellDkgOutput smallCurve),
      Completes (dkgSetup lastBytes 3 2 [] (fun _ => ⟨1, fun _ => 1⟩) fun _ => False)
        (fun i => .ok (out i)) ∧
      ∀ out', Refreshed lastBytes 3 2 out out' →
        combine [2, 0] (fun i => (out' i).secretShare) = some sk := by
  obtain ⟨sk, out, hcompletes, hall⟩ := runRefresh_preserves_secret (C := smallCurve) lastBytes 3 2
    (by decide) (by decide) [] (fun _ => ⟨1, fun _ => 1⟩)
  exact ⟨sk, out, hcompletes, fun out' hout' =>
    (hall out' hout').2.1 [2, 0] (by decide) (by decide) (by decide)⟩

end Govis.Lindell
