import Govis.Cggmp21.EndToEnd
import Govis.Lindell.DkgAdversary
import Govis.Lindell.Epochs

namespace Govis

open Curve Rounds Lindell Cggmp21

/-!
# The threshold of the two key generations

Neither `run_dkg` nor `run_keygen` looks at the length of a revealed vector.  A longer one raises
the degree of the joint polynomial, so that the threshold number of parties no longer holds the
key.

* `threshold_met_iff` — the condition on the revealed vectors under which it does;
* `runDkg_raises_degree` — a corrupt dealer that breaks it.
-/

variable {C : Curve} {n t : ℕ} {corrupt : ℕ → Prop}

open Classical in
/-- The honest parties. -/
noncomputable def honestParties (n : ℕ) (corrupt : ℕ → Prop) : Finset ℕ :=
  (Finset.range n).filter (¬ corrupt ·)

theorem mem_honestParties {i : ℕ} : i ∈ honestParties n corrupt ↔ i < n ∧ ¬ corrupt i := by
  simp [honestParties]

theorem honestParties_lt (hn : n < 2 ^ 16) : ∀ j ∈ honestParties n corrupt, j + 1 < 2 ^ 16 :=
  fun j hj => by
    have := (mem_honestParties.mp hj).1
    omega

/-- **When the threshold is met.**  All honest parties, at least `t` of them, succeed.  If the
    revealed points at every position from `t` on cancel, every set of at least `t` honest parties
    recovers the discrete logarithm of the public key that party `i` returns: from the shares that
    `run_dkg` returns, and from the shares that the points accepted by `run_keygen` prescribe.
    If no vector is longer than the number of honest parties plus one, this condition is also
    necessary. -/
theorem threshold_met_iff (hn : n < 2 ^ 16) (ht : t ≤ (honestParties n corrupt).card) {i : ℕ}
    (hi : i ∈ honestParties n corrupt) :
    (∀ (H : Hash) (sid : List UInt8) (coins : ℕ → DealerCoins C)
        (s : Net (Msg C) (Res DkgError (LindellDkgOutput C))) (out : ℕ → LindellDkgOutput C),
      Reachable (dkgSetup H n t sid coins corrupt) s →
      (∀ j ∈ honestParties n corrupt, s.Returned j (.ok (out j))) →
      (PointsCancel n t (revealed corrupt coins t s) →
        Recovers t (honestParties n corrupt) (fun j => (out j).secretShare)
          (dlog (out i).publicKey)) ∧
      ((∀ d < n, (revealed corrupt coins t s d).length ≤ (honestParties n corrupt).card + 1) →
        Recovers t (honestParties n corrupt) (fun j => (out j).secretShare)
          (dlog (out i).publicKey) →
        PointsCancel n t (revealed corrupt coins t s))) ∧
    ∀ (H : Hash) (sid : List UInt8) (coins : ℕ → KeygenCoins C)
        (s : Net (KeygenMsg C) (Res KeygenError (Cggmp21KeygenOutput C)))
        (out : ℕ → Cggmp21KeygenOutput C),
      Reachable (keygenSetup H n t sid coins corrupt) s →
      (∀ j ∈ honestParties n corrupt, s.Returned j (.ok (out j))) →
      (PointsCancel n t (revealedPoints corrupt coins t s) →
        Recovers t (honestParties n corrupt)
          (fun j => dlog (jointAt n (revealedPoints corrupt coins t s) (node C j)))
          (dlog (out i).publicKey)) ∧
      ((∀ d < n, (revealedPoints corrupt coins t s d).length ≤
          (honestParties n corrupt).card + 1) →
        Recovers t (honestParties n corrupt)
          (fun j => dlog (jointAt n (revealedPoints corrupt coins t s) (node C j)))
          (dlog (out i).publicKey) →
        PointsCancel n t (revealedPoints corrupt coins t s)) := by
  have hP : ∀ j ∈ honestParties n corrupt, j + 1 < 2 ^ 16 := honestParties_lt hn
  obtain ⟨hin, hih⟩ := mem_honestParties.mp hi
  constructor
  -- the returned shares are the values of the joint polynomial
  · intro H sid coins s out hs hout
    have hshare : ∀ j ∈ honestParties n corrupt, (out j).secretShare =
        (jointPoly n (revealed corrupt coins t s)).eval (node C j) := fun j hj =>
      (runDkg_shares hs (mem_honestParties.mp hj).1 (mem_honestParties.mp hj).2 (hout j hj)).1
    rw [(runDkg_shares hs hin hih (hout i hi)).2, dlog_generator_smul]
    exact ⟨fun h => (h.recovers hP).congr hshare,
      fun hlen h => (h.congr fun j hj => (hshare j hj).symm).pointsCancel hP ht hlen⟩
  · intro H sid coins s out hs hout
    -- the prescribed shares are those values by definition
    have hpoint : ∀ j, dlog (jointAt n (revealedPoints corrupt coins t s) (node C j)) =
        (jointPoly n (revealedPoints corrupt coins t s)).eval (node C j) := fun j => by
      rw [← eval_jointPoly_smul, dlog_generator_smul]
    rw [runKeygen_publicKey hs hin hih (hout i hi), dlog_generator_smul]
    simp only [hpoint]
    exact ⟨fun h => h.recovers hP, fun hlen h => h.pointsCancel hP ht hlen⟩

/-- **A raised degree.**  With threshold one, dealer 1 reveals the line `1 + x`; the share of the
    honest party 0 is not the discrete logarithm of the public key it returns. -/
theorem runDkg_raises_degree :
    ∃ s out, Reachable (dkgSetup lastBytes 2 1 [] lineDealers (· = 1)) s ∧
      s.Returned 0 (.ok out) ∧
      combine [0] (fun _ => out.secretShare) ≠ some (dlog out.publicKey) := by
  have hS := dkgSetup_runsVss lastBytes 2 1 [] lineDealers (· = 1)
  obtain ⟨s, hs, -, hret⟩ := hS.exists_run_corrupt (fun _ => Iff.rfl) (by decide)
    (v := [smallCurve.generator, smallCurve.generator]) (by simp) fun j => 1 + node smallCurve j
  have hok := hret 0 (by decide) (by decide)
  rw [if_pos (by decide)] at hok
  change s.Returned 0 (.ok ⟨(jointPoly 2 _).eval (node smallCurve 0), jointAt 2 _ 0⟩) at hok
  refine ⟨s, _, hs, hok, ?_⟩
  have hown : ownVector lineDealers 1 0 = [smallCurve.generator] := by
    simp [ownVector, dealing, lineDealers]
  have hdlog : dlog smallCurve.generator = 1 := by
    rw [← one_smul smallCurve.Scalar smallCurve.generator, dlog_generator_smul]
  -- the joint polynomial is `2 + x`
  have heval : ∀ x, (jointPoly 2 (vecWith lineDealers 1 1
      [smallCurve.generator, smallCurve.generator])).eval x = 2 + x := by
    intro x
    rw [eval_jointPoly]
    simp [Finset.sum_range_succ, vecWith, hown, hdlog]
    ring
  rw [combine_singleton]
  simp only [← eval_jointPoly_smul, heval, dlog_generator_smul]
  decide

/-- Two honest parties and a corrupt dealer that deals a line, in both key generations. -/
theorem threshold_met_iff_two_of_three :
    (∃ (s : Net (Msg smallCurve) (Res DkgError (LindellDkgOutput smallCurve)))
        (out : ℕ → LindellDkgOutput smallCurve),
      Reachable (dkgSetup lastBytes 3 2 [] lineDealers (· = 2)) s ∧
      s.Returned 0 (.ok (out 0)) ∧ s.Returned 1 (.ok (out 1)) ∧
      Recovers 2 (honestParties 3 (· = 2)) (fun j => (out j).secretShare)
        (dlog (out 0).publicKey)) ∧
    ∃ (s : Net (KeygenMsg smallCurve) (Res KeygenError (Cggmp21KeygenOutput smallCurve)))
        (out : ℕ → Cggmp21KeygenOutput smallCurve),
      Reachable (keygenSetup oneHash 3 2 [] smallKeygen.coins (· = 2)) s ∧
      s.Returned 0 (.ok (out 0)) ∧ s.Returned 1 (.ok (out 1)) ∧
      Recovers 2 (honestParties 3 (· = 2))
        (fun j => dlog (jointAt 3 (revealedPoints (· = 2) smallKeygen.coins 2 s)
          (node smallCurve j)))
        (dlog (out 0).publicKey) := by
  have hmem : ∀ i < 2, i ∈ honestParties 3 (· = 2) := fun i hi =>
    mem_honestParties.mpr ⟨by omega, by omega⟩
  have hcard : 2 ≤ (honestParties 3 (· = 2)).card := by
    have hsub : Finset.range 2 ⊆ honestParties 3 (· = 2) := fun i hi =>
      hmem i (Finset.mem_range.mp hi)
    exact Finset.card_le_card hsub
  obtain ⟨hdkg, hkeygen⟩ := threshold_met_iff (C := smallCurve) (t := 2) (by decide) hcard
    (hmem 0 (by decide))
  constructor
  · have hS := dkgSetup_runsVss lastBytes 3 2 [] lineDealers (· = 2)
    obtain ⟨s, hs, hrev, hret⟩ := hS.exists_run_corrupt (fun _ => Iff.rfl) (show 2 < 3 by decide)
      (v := [smallCurve.generator, (3 : smallCurve.Scalar) • smallCurve.generator]) (by simp)
      fun j => 1 + 3 * node smallCurve j
    have hret' : ∀ j < 3, j ≠ 2 → s.Returned j (.ok ⟨(jointPoly 3 lineVectors).eval
        (node smallCurve j), jointAt 3 lineVectors 0⟩) := by
      intro j hj hj2
      have h := hret j hj hj2
      obtain rfl | rfl : j = 0 ∨ j = 1 := by omega
      · rw [if_pos (by decide)] at h
        exact h
      · rw [if_pos (by decide)] at h
        exact h
    refine ⟨s, fun j => ⟨(jointPoly 3 lineVectors).eval (node smallCurve j), jointAt 3 lineVectors 0⟩,
      hs, hret' 0 (by decide) (by decide), hret' 1 (by decide) (by decide),
      (hdkg lastBytes [] lineDealers s _ hs fun j hj => ?_).1 ?_⟩
    · obtain ⟨hj3, hj2⟩ := mem_honestParties.mp hj
      exact hret' j hj3 hj2
    -- every vector has two points
    · refine pointsCancel_of_length fun d hd => ?_
      obtain ⟨k, hk, hkd⟩ := exists_other (show 1 < 3 by decide) d
      rw [show revealed (· = 2) lineDealers 2 s d = lineVectors d from hrev d hd k hk hkd]
      obtain rfl | rfl | rfl : d = 0 ∨ d = 1 ∨ d = 2 := by omega
      all_goals decide
  · obtain ⟨s, hs, hret, hsent⟩ := KeygenSession.exists_run_corrupt (x := smallKeygen) (c := 2)
      (by decide)
    refine ⟨s, smallKeygen.output, hs, hret 0 (by decide) (by decide), hret 1 (by decide) (by decide),
      (hkeygen oneHash [] smallKeygen.coins s smallKeygen.output hs fun j hj => ?_).1 ?_⟩
    · obtain ⟨hj3, hj2⟩ := mem_honestParties.mp hj
      exact hret j hj3 hj2
    · refine pointsCancel_of_length fun d _ => ?_
      by_cases hd2 : d = 2
      · subst hd2
        obtain ⟨m, hm, hpoints, -⟩ := (hsent 0 (by decide) (by decide)).2
        have hrevealed : revealedPoints (· = 2) smallKeygen.coins 2 s 2 = smallKeygen.vec 2 :=
          (sent_points hs.sound (show 2 < 3 by decide) hm).symm.trans hpoints
        rw [hrevealed]
        exact le_of_eq rfl
      · rw [revealedPoints, if_neg hd2]
        exact le_of_eq rfl

end Govis
