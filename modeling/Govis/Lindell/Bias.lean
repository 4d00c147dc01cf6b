import Govis.Lindell.DkgAdversary

namespace Govis.Lindell

open Curve Shamir Rounds Polynomial

/-!
# Lindell: the corrupt dealers cannot bias the key

The corrupt dealers of `run_dkg` see the vectors of the honest ones before they reveal their
own.  The commitments of round 0 keep them from using that.

* `RunsVss.revealed_eq` — two runs in which a corrupt dealer has sent the same commitment show
  the same vector of it;
* `sum_sub_of_agree` — sums over the dealers differ by the honest ones;
* `runDkg_unbiased` — the keys and the shares of two such runs differ by what the honest
  dealers have drawn.
-/

variable {C : Curve} {R : Type} {H : Hash} {n t : ℕ} {sid : List UInt8}
  {coins coins' : ℕ → DealerCoins C} {corrupt : ℕ → Prop}

/-- The hash inputs of the vectors that are on the wire lie in `A`. -/
def SentIn (sid : List UInt8) (n : ℕ) (A : Set (List UInt8)) (s : Net (Msg C) R) : Prop :=
  ∀ d < n, ∀ j v, (s d).sent 1 j = some (⟨v⟩ : RevealMsg C) → commitmentInput sid d v ∈ A

/-- The corrupt dealers have sent the same commitments in the two states, as far as they have
    arrived at the honest parties. -/
def SameCommitments (n : ℕ) (corrupt : ℕ → Prop) (s s' : Net (Msg C) R) : Prop :=
  ∀ d < n, corrupt d → ∀ i < n, ¬ corrupt i → ∀ j < n, ¬ corrupt j → ∀ m m' : CommitMsg,
    (s i).got 0 d = some m → (s' j).got 0 d = some m' → m = m'

/-- **One commitment, one vector.** -/
theorem RunsVss.revealed_eq {S S' : Setup (Msg C) R}
    {out out' : ℕ → Res DkgError (C.Scalar × C.Point) → R} (hS : RunsVss H t sid coins S out)
    (hS' : RunsVss H t sid coins' S' out') (hn : S'.n = S.n)
    {s s' : Net (Msg C) R} (hs : Sound S s) (hs' : Sound S' s') {A : Set (List UInt8)}
    (hA : Set.InjOn H A) (hsent : SentIn sid S.n A s) (hsent' : SentIn sid S.n A s') {i j : ℕ}
    (hi : i < S.n) (hh : ¬ S.corrupt i) (hj : j < S.n) (hhj : ¬ S'.corrupt j) {res res' : R}
    (hres : s.Returned i res) (hres' : s'.Returned j res') {x x' : C.Scalar} {pk pk' : C.Point}
    (hok : vssResult H t sid coins S s i = .ok (x, pk))
    (hok' : vssResult H t sid coins' S' s' j = .ok (x', pk')) {d : ℕ} (hd : d < S.n)
    (hdi : d ≠ i) (hdj : d ≠ j)
    (hsame : ∀ m m' : CommitMsg, (s i).got 0 d = some m → (s' j).got 0 d = some m' → m = m') :
    revealed S.corrupt coins t s d = revealed S'.corrupt coins' t s' d := by
  obtain ⟨commit, share, hdealers, -, -⟩ := hS.accepts hs hi hh hres hok
  obtain ⟨commit', share', hdealers', -, -⟩ := hS'.accepts hs' (hn ▸ hj) hhj hres' hok'
  obtain ⟨h0, h1, -, hacc⟩ := hdealers d hd hdi
  obtain ⟨h0', h1', -, hacc'⟩ := hdealers' d (hn ▸ hd) hdj
  -- both vectors open the same commitment, and their inputs lie in `A`
  have hin := hsent d hd i _ (hs.wire i 1 d _ h1).2
  have hin' := hsent' d hd j _ (hs'.wire j 1 d _ h1').2
  have hhash : H (commitmentInput sid d (revealed S.corrupt coins t s d)) =
      H (commitmentInput sid d (revealed S'.corrupt coins' t s' d)) := by
    calc H (commitmentInput sid d (revealed S.corrupt coins t s d))
        = (commit d).commitment := hacc.opens
      _ = (commit' d).commitment := congrArg _ (hsame _ _ h0 h0')
      _ = H (commitmentInput sid d (revealed S'.corrupt coins' t s' d)) := hacc'.opens.symm
  exact commitmentInput_injective sid d (hA hin hin' hhash)

open Classical in
/-- Sums over the dealers in which the corrupt ones agree differ by the honest ones. -/
theorem sum_sub_of_agree {M : Type} [AddCommGroup M] {f g : ℕ → M}
    (hfg : ∀ d < n, corrupt d → f d = g d) :
    ∑ d ∈ Finset.range n, f d - ∑ d ∈ Finset.range n, g d =
      ∑ d ∈ (Finset.range n).filter (¬ corrupt ·), (f d - g d) := by
  rw [← Finset.sum_sub_distrib, Finset.sum_filter]
  refine Finset.sum_congr rfl fun d hd => ?_
  by_cases hc : corrupt d
  · rw [if_neg (not_not.mpr hc), hfg d (Finset.mem_range.mp hd) hc, sub_self]
  · rw [if_pos hc]

/-- The result of `run_vss` behind a successful result of `run_dkg`. -/
theorem runDkg_vssResult {s : Net (Msg C) (Res DkgError (LindellDkgOutput C))}
    (hs : Reachable (dkgSetup H n t sid coins corrupt) s) {i : ℕ} (hi : i < n) (hh : ¬ corrupt i)
    {out : LindellDkgOutput C} (hout : s.Returned i (.ok out)) :
    vssResult H t sid coins (dkgSetup H n t sid coins corrupt) s i =
      .ok (out.secretShare, out.publicKey) := by
  have hres := (dkgSetup_runsVss H n t sid coins corrupt).returned_eq hs.sound hi hh hout
  cases hvss : vssResult H t sid coins (dkgSetup H n t sid coins corrupt) s i with
  | error e =>
    rw [hvss] at hres
    cases hres
  | ok res =>
    rw [hvss] at hres
    cases hres
    rfl

open Classical in
/-- **No bias.**  Two runs of the key generation in which the honest dealers draw different
    coins, and in which the corrupt ones send the same commitments and whatever else they like.
    The hash has no collisions on the set `A`, which contains the input of every vector that is
    sent.  Then the public keys of honest parties that succeed differ by the constants of the
    honest dealers, and their shares by the values of the honest dealers' polynomials. -/
theorem runDkg_unbiased {s s' : Net (Msg C) (Res DkgError (LindellDkgOutput C))}
    (hs : Reachable (dkgSetup H n t sid coins corrupt) s)
    (hs' : Reachable (dkgSetup H n t sid coins' corrupt) s') {A : Set (List UInt8)}
    (hA : Set.InjOn H A) (hsent : SentIn sid n A s) (hsent' : SentIn sid n A s')
    (hsame : SameCommitments n corrupt s s') {i j : ℕ} (hi : i < n) (hh : ¬ corrupt i) (hj : j < n)
    (hhj : ¬ corrupt j) {out out' : LindellDkgOutput C} (hout : s.Returned i (.ok out))
    (hout' : s'.Returned j (.ok out')) :
    out'.publicKey - out.publicKey =
        (∑ d ∈ (Finset.range n).filter (¬ corrupt ·), ((coins' d).intercept - (coins d).intercept)) •
          C.generator ∧
      (i = j → out'.secretShare - out.secretShare =
        ∑ d ∈ (Finset.range n).filter (¬ corrupt ·),
          (evalAt (node C i) (dealing (coins' d).intercept (coins' d).draw t) -
            evalAt (node C i) (dealing (coins d).intercept (coins d).draw t))) := by
  have hS := dkgSetup_runsVss H n t sid coins corrupt
  have hS' := dkgSetup_runsVss H n t sid coins' corrupt
  -- the corrupt dealers reveal the same vectors
  have hvec : ∀ d < n, corrupt d →
      revealed corrupt coins' t s' d = revealed corrupt coins t s d := by
    intro d hd hc
    exact (hS.revealed_eq hS' rfl hs.sound hs'.sound hA hsent hsent' hi hh hj hhj hout hout'
      (runDkg_vssResult hs hi hh hout) (runDkg_vssResult hs' hj hhj hout') hd
      (fun h => hh (h ▸ hc)) (fun h => hhj (h ▸ hc))
      (hsame d hd hc i hi hh j hj hhj)).symm
  have hown : ∀ {coins : ℕ → DealerCoins C}
      {s : Net (Msg C) (Res DkgError (LindellDkgOutput C))} {d : ℕ}, ¬ corrupt d →
      revealed corrupt coins t s d = ownVector coins t d := fun hc => if_neg hc
  obtain ⟨hshare, hpk⟩ := runDkg_shares hs hi hh hout
  obtain ⟨hshare', hpk'⟩ := runDkg_shares hs' hj hhj hout'
  constructor
  · rw [hpk, hpk', eval_jointPoly_smul, eval_jointPoly_smul, jointAt_zero, jointAt_zero,
      sum_sub_of_agree fun d hd hc => congrArg (List.headD · 0) (hvec d hd hc), Finset.sum_smul]
    refine Finset.sum_congr rfl fun d hd => ?_
    have hc := (Finset.mem_filter.mp hd).2
    rw [hown hc, hown hc, headD_ownVector, headD_ownVector, sub_smul]
  · rintro rfl
    rw [hshare, hshare', eval_jointPoly, eval_jointPoly,
      sum_sub_of_agree fun d hd hc => congrArg (fun v => evalAt (node C i) (v.map dlog))
        (hvec d hd hc)]
    refine Finset.sum_congr rfl fun d hd => ?_
    have hc := (Finset.mem_filter.mp hd).2
    rw [hown hc, hown hc, map_dlog_ownVector, map_dlog_ownVector]

/-! ### Two runs -/

/-- The honest dealers deal the constant `a`. -/
def constantCoins (C : Curve) (a : C.Scalar) (_ : ℕ) : DealerCoins C := ⟨a, fun _ => 1⟩

theorem ownVector_constantCoins (a : C.Scalar) (d : ℕ) :
    ownVector (constantCoins C a) 1 d = [a • C.generator] := by
  simp [ownVector, dealing, constantCoins]

/-- A run of two parties in which the honest dealer 0 deals `a` and the corrupt dealer 1 the
    constant three. -/
theorem exists_constant_run (a : smallCurve.Scalar) :
    ∃ s, Reachable (dkgSetup lastBytes 2 1 [] (constantCoins smallCurve a) (· = 1)) s ∧
      (∃ out, s.Returned 0 (.ok out)) ∧
      (∀ d < 2, ∀ j v, (s d).sent 1 j = some (⟨v⟩ : RevealMsg smallCurve) →
        v = if d = 0 then [a • smallCurve.generator] else [(3 : smallCurve.Scalar) • smallCurve.generator]) ∧
      ∀ m : CommitMsg, (s 0).got 0 1 = some m → m.commitment =
        computeCommitment lastBytes [] 1 [(3 : smallCurve.Scalar) • smallCurve.generator] := by
  have hS := dkgSetup_runsVss lastBytes 2 1 [] (constantCoins smallCurve a) (· = 1)
  have h0n : 0 < 2 := by decide
  have h1n : 1 < 2 := by decide
  have h01 : 0 ≠ 1 := by decide
  obtain ⟨s, hs, hrev, hret⟩ := hS.exists_run_corrupt (fun _ => Iff.rfl) h1n
    (v := [(3 : smallCurve.Scalar) • smallCurve.generator]) (by simp) (fun _ => 3)
  have hok := hret 0 h0n h01
  rw [if_pos (by simp)] at hok
  have hrev0 := hrev 0 h0n 1 h1n h01.symm
  have hrev1 := hrev 1 h1n 0 h0n h01
  rw [vecWith, if_neg (by decide), ownVector_constantCoins] at hrev0
  rw [vecWith, if_pos rfl] at hrev1
  refine ⟨s, hs, ⟨_, hok⟩, fun d hd j v hsent => ?_, fun m hm => ?_⟩
  · have hv := congrArg RevealMsg.publicCoeffs (hS.sent_reveal hs.sound hd hsent)
    obtain rfl | rfl : d = 0 ∨ d = 1 := by omega
    · exact hv.trans hrev0
    · exact hv.trans hrev1
  -- the party has opened the commitment
  · obtain ⟨commit, share, hdealers, -, -⟩ := hS.accepts hs.sound h0n h01 hok
      (runDkg_vssResult hs h0n h01 hok)
    obtain ⟨h0, -, -, hacc⟩ := hdealers 1 h1n h01.symm
    rw [Option.some.inj (hm.symm.trans h0), ← hacc.opens]
    exact congrArg (computeCommitment lastBytes [] 1) hrev1

/-- The honest dealer deals one in one run and two in the other. -/
theorem runDkg_unbiased_two :
    ∃ s s' out out',
      Reachable (dkgSetup lastBytes 2 1 [] (constantCoins smallCurve 1) (· = 1)) s ∧
      Reachable (dkgSetup lastBytes 2 1 [] (constantCoins smallCurve 2) (· = 1)) s' ∧
      s.Returned 0 (.ok out) ∧ s'.Returned 0 (.ok out') ∧
      out'.publicKey - out.publicKey = smallCurve.generator := by
  obtain ⟨s, hs, ⟨out, hout⟩, hsent, hcommit⟩ := exists_constant_run 1
  obtain ⟨s', hs', ⟨out', hout'⟩, hsent', hcommit'⟩ := exists_constant_run 2
  -- the three inputs that are hashed
  have hA : Set.InjOn lastBytes
      ({commitmentInput [] 0 [(1 : smallCurve.Scalar) • smallCurve.generator],
        commitmentInput [] 0 [(2 : smallCurve.Scalar) • smallCurve.generator],
        commitmentInput [] 1 [(3 : smallCurve.Scalar) • smallCurve.generator]} :
          Set (List UInt8)) := by
    have h01 : lastBytes (commitmentInput [] 0 [(1 : smallCurve.Scalar) • smallCurve.generator]) ≠
        lastBytes (commitmentInput [] 0 [(2 : smallCurve.Scalar) • smallCurve.generator]) := by
      decide
    have h02 : lastBytes (commitmentInput [] 0 [(1 : smallCurve.Scalar) • smallCurve.generator]) ≠
        lastBytes (commitmentInput [] 1 [(3 : smallCurve.Scalar) • smallCurve.generator]) := by
      decide
    have h12 : lastBytes (commitmentInput [] 0 [(2 : smallCurve.Scalar) • smallCurve.generator]) ≠
        lastBytes (commitmentInput [] 1 [(3 : smallCurve.Scalar) • smallCurve.generator]) := by
      decide
    rintro a (rfl | rfl | rfl) b (rfl | rfl | rfl) hab
    · rfl
    · exact absurd hab h01
    · exact absurd hab h02
    · exact absurd hab.symm h01
    · rfl
    · exact absurd hab h12
    · exact absurd hab.symm h02
    · exact absurd hab.symm h12
    · rfl
  refine ⟨s, s', out, out', hs, hs', hout, hout', ?_⟩
  have h := (runDkg_unbiased hs hs' hA (fun d hd j v hv => ?_) (fun d hd j v hv => ?_)
    (fun d hd hc i hi hi1 j hj hj1 m m' hm hm' => ?_) (by decide) (by decide) (by decide) (by decide)
    hout hout').1
  · have hdiff : (2 : smallCurve.Scalar) - 1 = 1 := by norm_num
    rw [h, Finset.sum_filter, Finset.sum_range_succ, Finset.sum_range_one]
    simp [constantCoins, hdiff]
  · rw [hsent d hd j v hv]
    obtain rfl | rfl : d = 0 ∨ d = 1 := by omega
    · exact .inl rfl
    · exact .inr (.inr rfl)
  · rw [hsent' d hd j v hv]
    obtain rfl | rfl : d = 0 ∨ d = 1 := by omega
    · exact .inr (.inl rfl)
    · exact .inr (.inr rfl)
  · obtain rfl : d = 1 := hc
    obtain rfl : i = 0 := by omega
    obtain rfl : j = 0 := by omega
    obtain ⟨c⟩ := m
    obtain ⟨c'⟩ := m'
    exact congrArg CommitMsg.mk ((hcommit _ hm).trans (hcommit' _ hm').symm)

end Govis.Lindell
