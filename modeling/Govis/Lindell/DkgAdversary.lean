import Govis.Lindell.Epochs
import Govis.Rounds.Receive
import Govis.Rounds.Solo
import Govis.SmallCurve

namespace Govis.Lindell

open Curve Shamir Rounds Polynomial

/-!
# Lindell: the DKG and the refresh against corrupt parties

What the honest parties of `run_vss`, `run_dkg` and `run_refresh` are left with, whatever the
corrupt ones send.

* `runVss_binding` — all honest parties that succeed hold shares of one polynomial, fixed by
  the commitments of the first round;
* `runDkg_shares` — the same for the outputs of `run_dkg`;
* `runRefresh_combine_iff` — the refreshed shares keep the key exactly if the constant points
  that the corrupt dealers reveal cancel;
* `runRefresh_mixture` — where a refresh ends with some honest parties refreshed and others not,
  waiting for a round that cannot be completed included.
-/

variable {C : Curve} {H : Hash} {n t : ℕ} {sid : List UInt8} {coins : ℕ → DealerCoins C}
  {corrupt : ℕ → Prop}

/-! ### Binding -/

/-- What an honest party that has returned has committed to and revealed. -/
theorem sent_own {s : Net (Msg C) (Res DkgError (C.Scalar × C.Point))}
    (hs : Reachable (vssSetup H n t sid coins corrupt) s) {i : ℕ} (hi : i < n) (hh : ¬ corrupt i)
    {res : Res DkgError (C.Scalar × C.Point)} (hres : s.Returned i res) (j : ℕ) :
    (s i).sent 0 j =
        some (⟨computeCommitment H sid i (revealed corrupt coins t s i)⟩ : CommitMsg) ∧
      (s i).sent 1 j = some (⟨revealed corrupt coins t s i⟩ : RevealMsg C) := by
  have hown : revealed corrupt coins t s i = ownVector coins t i := if_neg hh
  rw [hown]
  constructor
  · obtain ⟨m, hm, hsends⟩ := hs.sent_of_returned (S := vssSetup H n t sid coins corrupt) hi hh hres
      (runVss_sends_commit (j := j).mpr rfl)
    rw [hm, runVss_sends_commit.mp hsends]
    rfl
  · obtain ⟨m, hm, hsends⟩ := hs.sent_of_returned (S := vssSetup H n t sid coins corrupt) hi hh hres
      (runVss_sends_reveal (j := j).mpr rfl)
    rw [hm, runVss_sends_reveal.mp hsends]
    rfl

/-- **Binding and agreement.**  The hash has no collisions on the set `A` of inputs, which
    contains the input of every vector that is sent.  Then one polynomial, the sum of those with
    the revealed coefficients, accounts for what every honest party returns.  The vectors are those
    that all dealers, the party itself included, have sent in the round of the reveals, and every one
    of them is the only one that opens what its dealer has sent in the round of the commitments. -/
theorem runVss_binding {s : Net (Msg C) (Res DkgError (C.Scalar × C.Point))}
    (hs : Reachable (vssSetup H n t sid coins corrupt) s) {A : Set (List UInt8)}
    (hA : Set.InjOn H A)
    (hsent : ∀ d < n, ∀ j v, (s d).sent 1 j = some (⟨v⟩ : RevealMsg C) →
      commitmentInput sid d v ∈ A) :
    ∃ vec : ℕ → List C.Point,
      (∀ i < n, ¬ corrupt i → ∀ x pk, s.Returned i (.ok (x, pk)) →
        x = (jointPoly n vec).eval (node C i) ∧
        pk = (jointPoly n vec).eval 0 • C.generator ∧
        ∀ d < n, (s d).sent 1 i = some ⟨vec d⟩ ∧ (d ≠ i → (s i).got 1 d = some ⟨vec d⟩) ∧
          ∃ commit : CommitMsg, (s d).sent 0 i = some commit ∧
            (d ≠ i → (s i).got 0 d = some commit) ∧
            computeCommitment H sid d (vec d) = commit.commitment ∧
            ∀ w, commitmentInput sid d w ∈ A →
              computeCommitment H sid d w = commit.commitment → w = vec d) ∧
      ∀ i < n, ¬ corrupt i → ∀ j < n, ¬ corrupt j → ∀ x pk x' pk',
        s.Returned i (.ok (x, pk)) → s.Returned j (.ok (x', pk')) → pk = pk' := by
  have hS := vssSetup_runsVss H n t sid coins corrupt
  have hsound := hs.sound
  have hok : ∀ i < n, ¬ corrupt i → ∀ x pk, s.Returned i (.ok (x, pk)) →
      vssResult H t sid coins (vssSetup H n t sid coins corrupt) s i = .ok (x, pk) :=
    fun i hi hh x pk hres => (hS.returned_eq hsound hi hh hres).symm
  have hpoly : ∀ i < n, ¬ corrupt i → ∀ x pk, s.Returned i (.ok (x, pk)) → _ :=
    fun i hi hh x pk hres => hS.joint hsound hi hh hres (hok i hi hh x pk hres)
  -- a vector that has been sent is the only one in `A` with its hash
  have hunique : ∀ d < n, ∀ j, (s d).sent 1 j = some ⟨revealed corrupt coins t s d⟩ →
      ∀ commit : CommitMsg, computeCommitment H sid d (revealed corrupt coins t s d) =
        commit.commitment → ∀ w, commitmentInput sid d w ∈ A →
          computeCommitment H sid d w = commit.commitment → w = revealed corrupt coins t s d := by
    intro d hd j hj commit hopens w hw hopen
    exact commitmentInput_injective sid d (hA hw (hsent d hd j _ hj) (hopen.trans hopens.symm))
  refine ⟨revealed corrupt coins t s, fun i hi hh x pk hres => ⟨(hpoly i hi hh x pk hres).1,
    (hpoly i hi hh x pk hres).2, fun d hd => ?_⟩, fun i hi hh j hj hhj x pk x' pk' hres hres' => ?_⟩
  · by_cases hdi : d = i
    · subst hdi
      obtain ⟨hcommit, hreveal⟩ := sent_own hs hd hh hres d
      exact ⟨hreveal, fun hne => absurd rfl hne, _, hcommit, fun hne => absurd rfl hne, rfl,
        hunique d hd d hreveal _ rfl⟩
    · obtain ⟨commit, share, hdealers, -, -⟩ :=
        hS.accepts hsound hi hh hres (hok i hi hh x pk hres)
      obtain ⟨hcommit, hreveal, -, hacc⟩ := hdealers d hd hdi
      have hwire := (hsound.wire i 1 d _ hreveal).2
      exact ⟨hwire, fun _ => hreveal, commit d, (hsound.wire i 0 d _ hcommit).2, fun _ => hcommit,
        hacc.opens, hunique d hd i hwire _ hacc.opens⟩
  · rw [(hpoly i hi hh x pk hres).2, (hpoly j hj hhj x' pk' hres').2]

/-- The honest dealers of the concrete run deal the lines `1 + x` and `1 + 2 x`. -/
def lineDealers (d : ℕ) : DealerCoins smallCurve := ⟨1, fun _ => (d + 1 : ℕ)⟩

/-- The corrupt dealer reveals the line `1 + 3 x`. -/
def lineVectors (d : ℕ) : List smallCurve.Point :=
  vecWith lineDealers 2 2 [smallCurve.generator, (3 : smallCurve.Scalar) • smallCurve.generator] d

/-- Two honest parties and the corrupt dealer 2, which sends both of them the shares of its line. -/
theorem runVss_binding_run :
    ∃ s, Reachable (vssSetup lastBytes 3 2 [] lineDealers (· = 2)) s ∧ ∃ x y pk,
      s.Returned 0 (.ok (x, pk)) ∧ s.Returned 1 (.ok (y, pk)) ∧
      ∃ vec : ℕ → List smallCurve.Point, (∀ d < 3, (s d).sent 1 0 = some ⟨vec d⟩) ∧
        x = (jointPoly 3 vec).eval (node smallCurve 0) ∧
        y = (jointPoly 3 vec).eval (node smallCurve 1) ∧
        pk = (jointPoly 3 vec).eval 0 • smallCurve.generator := by
  have hS := vssSetup_runsVss lastBytes 3 2 [] lineDealers (· = 2)
  obtain ⟨s, hs, hrev, hret⟩ := hS.exists_run_corrupt (fun _ => Iff.rfl) (show 2 < 3 by decide)
    (v := [smallCurve.generator, (3 : smallCurve.Scalar) • smallCurve.generator]) (by simp)
    fun j => 1 + 3 * node smallCurve j
  have h0 := hret 0 (show 0 < 3 by decide) (by decide)
  have h1 := hret 1 (show 1 < 3 by decide) (by decide)
  rw [if_pos (by decide)] at h0 h1
  -- the hashes of the three vectors differ
  have hhash : ∀ d < 3, ∀ e < 3, lastBytes (commitmentInput [] d (lineVectors d)) =
      lastBytes (commitmentInput [] e (lineVectors e)) → d = e := by
    decide +kernel
  have hA : Set.InjOn lastBytes {a | ∃ d < 3, a = commitmentInput [] d (lineVectors d)} := by
    rintro a ⟨d, hd, rfl⟩ b ⟨e, he, rfl⟩ hab
    rw [hhash d hd e he hab]
  obtain ⟨vec, hvec, -⟩ := runVss_binding hs hA fun d hd j v hsent => by
    have hv := congrArg RevealMsg.publicCoeffs (hS.sent_reveal hs.sound hd hsent)
    obtain ⟨k, hk, hkd⟩ := exists_other (show 1 < 3 by decide) d
    exact ⟨d, hd, by rw [show v = lineVectors d from hv.trans (hrev d hd k hk hkd)]⟩
  obtain ⟨hx, hpk, hsent⟩ := hvec 0 (by decide) (by decide) _ _ h0
  obtain ⟨hy, -, -⟩ := hvec 1 (by decide) (by decide) _ _ h1
  exact ⟨s, hs, _, _, _, h0, h1, vec, fun d hd => (hsent d hd).1, hx, hy, hpk⟩

/-! ### Key generation -/

/-- **Outputs of the DKG.** Every honest party that succeeds holds the value of the joint
    polynomial at its node, and its value at zero in the exponent. -/
theorem runDkg_shares {s : Net (Msg C) (Res DkgError (LindellDkgOutput C))}
    (hs : Reachable (dkgSetup H n t sid coins corrupt) s) {i : ℕ} (hi : i < n) (hh : ¬ corrupt i)
    {out : LindellDkgOutput C} (hout : s.Returned i (.ok out)) :
    out.secretShare = (jointPoly n (revealed corrupt coins t s)).eval (node C i) ∧
      out.publicKey = (jointPoly n (revealed corrupt coins t s)).eval 0 • C.generator := by
  have hS := dkgSetup_runsVss H n t sid coins corrupt
  have hres := hS.returned_eq hs.sound hi hh hout
  cases hvss : vssResult H t sid coins (dkgSetup H n t sid coins corrupt) s i with
  | error e =>
    rw [hvss] at hres
    cases hres
  | ok res =>
    rw [hvss] at hres
    cases hres
    exact hS.joint hs.sound hi hh hout hvss

/-! ### Refresh -/

section Refresh

variable {old : ℕ → LindellDkgOutput C} {draw : ℕ → ℕ → C.Scalar}
  {s : Net (Msg C) (Res DkgError (LindellDkgOutput C))}

/-- The vectors of a refresh. -/
noncomputable abbrev revealedRefresh (corrupt : ℕ → Prop) (draw : ℕ → ℕ → C.Scalar) (t : ℕ)
    (s : Net (Msg C) (Res DkgError (LindellDkgOutput C))) (d : ℕ) : List C.Point :=
  revealed corrupt (fun i => ⟨0, draw i⟩) t s d

/-- **Outputs of the refresh.** The new share is the old one plus the value of the joint
    polynomial; the public key is the old one. -/
theorem runRefresh_shares (hs : Reachable (refreshSetup H n t sid old draw corrupt) s) {i : ℕ}
    (hi : i < n) (hh : ¬ corrupt i) {out : LindellDkgOutput C} (hout : s.Returned i (.ok out)) :
    out.secretShare = (old i).secretShare +
        (jointPoly n (revealedRefresh corrupt draw t s)).eval (node C i) ∧
      out.publicKey = (old i).publicKey := by
  have hS := refreshSetup_runsVss H n t sid old draw corrupt
  have hres := hS.returned_eq hs.sound hi hh hout
  cases hvss : vssResult H t sid (fun i => ⟨0, draw i⟩) (refreshSetup H n t sid old draw corrupt) s i with
  | error e =>
    rw [hvss] at hres
    cases hres
  | ok res =>
    rw [hvss] at hres
    cases hres
    exact ⟨congrArg _ (hS.joint hs.sound hi hh hout hvss).1, rfl⟩

/-- An honest dealer's vector has nothing from position `t` on. -/
theorem getD_ownVector_zero {k : ℕ} (hk : t ≤ k) (d : ℕ) :
    (ownVector (fun i => (⟨0, draw i⟩ : DealerCoins C)) t d).getD k 0 = 0 := by
  rcases Nat.eq_zero_or_pos k with rfl | hpos
  · simp [ownVector, dealing]
  · rw [List.getD_eq_getElem?_getD, List.getElem?_eq_none, Option.getD_none]
    simp only [ownVector, dealing, List.length_map, List.length_cons, List.length_range]
    omega

open Classical in
/-- Only corrupt dealers can move the constant point. -/
theorem sum_headD_revealedRefresh :
    ∑ d ∈ Finset.range n, (revealedRefresh corrupt draw t s d).headD 0 =
      ∑ d ∈ (Finset.range n).filter corrupt, (revealedRefresh corrupt draw t s d).headD 0 := by
  rw [Finset.sum_filter]
  apply Finset.sum_congr rfl
  intro d _
  by_cases hc : corrupt d
  · rw [if_pos hc]
  · rw [if_neg hc, revealedRefresh, revealed, if_neg hc, headD_ownVector, zero_smul]

/-- The vectors of a refresh deal a polynomial of degree below `t` if those of the corrupt
    dealers have length `t`. -/
theorem degree_jointPoly_refresh
    (hlen : ∀ d < n, corrupt d → ∀ j v, (s d).sent 1 j = some (⟨v⟩ : RevealMsg C) → v.length = t) :
    (jointPoly n (revealedRefresh corrupt draw t s)).degree < t := by
  refine (degree_jointPoly_lt_iff _ _ _).mpr fun k hk => Finset.sum_eq_zero fun d hd => ?_
  by_cases hc : corrupt d
  · rw [revealedRefresh, revealed, if_pos hc]
    -- the vector is the one on the wire, or empty if there is none
    split
    · rename_i hex
      obtain ⟨j, hj⟩ := hex.choose_spec
      rw [List.getD_eq_getElem?_getD, List.getElem?_eq_none, Option.getD_none]
      rw [hlen d (Finset.mem_range.mp hd) hc j _ hj]
      exact hk
    · rfl
  · rw [revealedRefresh, revealed, if_neg hc]
    exact getD_ownVector_zero hk d

open Classical in
/-- **When a refresh keeps the key.**  All honest parties hold shares of `f`, the secret of
    `masterPk`, and return from a refresh in which every corrupt dealer reveals a vector of
    length `t`.  The new shares of any `t` of them combine to the secret of the public key they
    return exactly if the constant points of the corrupt dealers cancel. -/
theorem runRefresh_combine_iff (hn : n < 2 ^ 16)
    (hs : Reachable (refreshSetup H n t sid old draw corrupt) s) {f : C.Scalar[X]}
    (hf : f.degree < t) {masterPk : C.Point} (hpk : masterPk = f.eval 0 • C.generator)
    (hold : ∀ i < n, ¬ corrupt i →
      (old i).secretShare = f.eval (node C i) ∧ (old i).publicKey = masterPk)
    (hlen : ∀ d < n, corrupt d → ∀ j v, (s d).sent 1 j = some (⟨v⟩ : RevealMsg C) → v.length = t)
    {out : ℕ → LindellDkgOutput C} (hout : ∀ i < n, ¬ corrupt i → s.Returned i (.ok (out i)))
    {signers : List ℕ} (hnd : signers.Nodup) (hsig : ∀ i ∈ signers, i < n ∧ ¬ corrupt i)
    (ht : t ≤ signers.length) {i : ℕ} (hi : i < n) (hh : ¬ corrupt i) :
    combine signers (fun j => (out j).secretShare) = some (dlog (out i).publicKey) ↔
      ∑ d ∈ (Finset.range n).filter corrupt, (revealedRefresh corrupt draw t s d).headD 0 = 0 := by
  set g := jointPoly n (revealedRefresh corrupt draw t s) with hg
  have hdeg : (f + g).degree < signers.length :=
    lt_of_lt_of_le (lt_of_le_of_lt (degree_add_le f g)
      (max_lt hf (degree_jointPoly_refresh hlen))) (by exact_mod_cast ht)
  -- the new shares lie on `f + g`
  have hshare : ∀ j ∈ signers, (out j).secretShare = (f + g).eval (node C j) := by
    intro j hj
    obtain ⟨hjn, hjh⟩ := hsig j hj
    rw [(runRefresh_shares hs hjn hjh (hout j hjn hjh)).1, (hold j hjn hjh).1, eval_add]
  have hnodes : ∀ j ∈ signers, j + 1 < 2 ^ 16 := fun j hj => by
    have := (hsig j hj).1
    omega
  rw [combine_congr hshare, combine_eq hnodes hnd hdeg, Option.some.injEq,
    (runRefresh_shares hs hi hh (hout i hi hh)).2, (hold i hi hh).2, hpk, dlog_generator_smul,
    eval_add, add_eq_left, ← sum_headD_revealedRefresh, ← jointAt_zero, ← eval_jointPoly_smul]
  constructor
  · intro h
    rw [h, zero_smul]
  · intro h
    exact generator_smul_eq_iff.mp (by rw [h, zero_smul])

/-- What the honest dealers of the refreshes below draw. -/
def refreshCoins (C : Curve) (_ : ℕ) : DealerCoins C := ⟨0, fun _ => 1⟩

/-- With threshold one they reveal the constant zero. -/
theorem ownVector_refreshCoins (d : ℕ) : ownVector (refreshCoins C) 1 d = [0] := by
  simp [ownVector, dealing, refreshCoins]

/-- A sharing with threshold one of the secret one. -/
def oneOld (C : Curve) (_ : ℕ) : LindellDkgOutput C := ⟨1, C.generator⟩

/-- A refresh by two parties with threshold one, in which dealer 1 is corrupt and deals the
    constant `c`. -/
theorem exists_refresh_run (H : Hash) (c : C.Scalar) :
    ∃ s, Reachable (refreshSetup H 2 1 [] (oneOld C) (fun _ _ => 1) (· = 1)) s ∧
      (∀ d < 2, ∀ j v, (s d).sent 1 j = some (⟨v⟩ : RevealMsg C) → v.length = 1) ∧
      s.Returned 0 (.ok ⟨1 + c, C.generator⟩) := by
  have hS := refreshSetup_runsVss H 2 1 [] (oneOld C) (fun _ _ => 1) (· = 1)
  obtain ⟨s, hs, hrev, hret⟩ := hS.exists_run_corrupt (fun _ => Iff.rfl) Nat.one_lt_two
    (v := [c • C.generator]) (by simp) (fun _ => c)
  have hvec : ∀ d, vecWith (refreshCoins C) 1 1 [c • C.generator] d =
      if d = 1 then [c • C.generator] else [0] := by
    intro d
    rw [vecWith, ownVector_refreshCoins]
  have hpoly : (jointPoly 2 (vecWith (refreshCoins C) 1 1 [c • C.generator])).eval (node C 0) = c := by
    rw [eval_jointPoly]
    simp [Finset.sum_range_succ, hvec]
  refine ⟨s, hs, fun d hd j v hsent => ?_, ?_⟩
  · have hv := congrArg RevealMsg.publicCoeffs (hS.sent_reveal hs.sound hd hsent)
    have hlen : (vecWith (refreshCoins C) 1 1 [c • C.generator] d).length = 1 := by
      rw [hvec]
      split <;> rfl
    rw [show v = vecWith (refreshCoins C) 1 1 [c • C.generator] d from
      hv.trans (hrev d hd (1 - d) (by show 1 - d < 2; omega) (by omega)), hlen]
  · have hok := hret 0 Nat.zero_lt_two Nat.zero_ne_one
    rw [if_pos (by simp)] at hok
    rw [← hpoly]
    exact hok

/-- **A refresh that moves the key.**  The corrupt dealer deals a constant other than zero; the
    new share of the honest party is no longer the secret of the public key it returns. -/
theorem runRefresh_moves_key :
    ∃ s out, Reachable (refreshSetup lastBytes 2 1 [] (oneOld smallCurve) (fun _ _ => 1) (· = 1)) s ∧
      (∀ d < 2, ∀ j v, (s d).sent 1 j = some (⟨v⟩ : RevealMsg smallCurve) → v.length = 1) ∧
      s.Returned 0 (.ok out) ∧
      combine [0] (fun _ => out.secretShare) ≠ some (dlog out.publicKey) := by
  obtain ⟨s, hs, hlen, hret⟩ := exists_refresh_run (C := smallCurve) lastBytes 1
  refine ⟨s, _, hs, hlen, hret, ?_⟩
  have hdlog : dlog smallCurve.generator = 1 := by
    rw [← one_smul smallCurve.Scalar smallCurve.generator, dlog_generator_smul]
  rw [combine_singleton, hdlog]
  decide

/-- The refresh in which the corrupt dealer deals zero. -/
theorem runRefresh_combine_iff_run :
    ∃ s, ∃ out : ℕ → LindellDkgOutput smallCurve,
      Reachable (refreshSetup lastBytes 2 1 [] (oneOld smallCurve) (fun _ _ => 1) (· = 1)) s ∧
      s.Returned 0 (.ok (out 0)) ∧
      (combine [0] (fun j => (out j).secretShare) = some (dlog (out 0).publicKey) ↔
        ∑ d ∈ (Finset.range 2).filter (· = 1),
          (revealedRefresh (· = 1) (fun _ _ => 1) 1 s d).headD 0 = 0) := by
  obtain ⟨s, hs, hlen, hret⟩ := exists_refresh_run (C := smallCurve) lastBytes 0
  refine ⟨s, fun _ => ⟨1 + 0, smallCurve.generator⟩, hs, hret, ?_⟩
  have hout : ∀ i < 2, ¬ i = 1 → s.Returned i (.ok ⟨1 + 0, smallCurve.generator⟩) := by
    intro i hi hi1
    obtain rfl : i = 0 := by omega
    exact hret
  have h := runRefresh_combine_iff (by norm_num) hs (f := 1)
    (by rw [degree_one]; exact_mod_cast Nat.zero_lt_one)
    (show smallCurve.generator = (1 : smallCurve.Scalar[X]).eval 0 • smallCurve.generator by
      rw [eval_one, one_smul]) (fun i _ _ => ⟨by rw [eval_one]; rfl, rfl⟩)
    (fun d hd _ j v hsent => hlen d hd j v hsent) hout (List.nodup_singleton 0) (by simp) (by simp)
    Nat.zero_lt_two (i := 0) Nat.zero_ne_one
  convert h

/-! ### Mixed outcomes -/

/-- The result of `run_refresh` is the result of its `run_vss`. -/
theorem runRefresh_result (hs : Reachable (refreshSetup H n t sid old draw corrupt) s) {i : ℕ}
    (hi : i < n) (hh : ¬ corrupt i) {res : Res DkgError (LindellDkgOutput C)}
    (hres : s.Returned i res) :
    (∀ out, res = .ok out → ∃ x pk, vssResult H t sid (fun i => ⟨0, draw i⟩)
      (refreshSetup H n t sid old draw corrupt) s i = .ok (x, pk)) ∧
    ((∀ out, res ≠ .ok out) → ∃ e, res = .error e ∧ vssResult H t sid (fun i => ⟨0, draw i⟩)
      (refreshSetup H n t sid old draw corrupt) s i = .error e) := by
  have hval := (refreshSetup_runsVss H n t sid old draw corrupt).returned_eq hs.sound hi hh hres
  cases hvss : vssResult H t sid (fun i => ⟨0, draw i⟩) (refreshSetup H n t sid old draw corrupt) s i with
  | ok out =>
    rw [hvss] at hval
    exact ⟨fun _ _ => ⟨out.1, out.2, rfl⟩, fun hno => absurd hval (hno _)⟩
  | error e =>
    rw [hvss] at hval
    refine ⟨fun out hout => ?_, fun _ => ⟨e, hval, rfl⟩⟩
    rw [hout] at hval
    cases hval

/-- Beside a party that succeeds, one that returns an error was sent a bad share by a corrupt dealer. -/
theorem runRefresh_mismatch (hs : Reachable (refreshSetup H n t sid old draw corrupt) s) {i j : ℕ}
    (hi : i < n) (hh : ¬ corrupt i) {out : LindellDkgOutput C} (hout : s.Returned i (.ok out))
    (hj : j < n) (hhj : ¬ corrupt j) {e : Fault DkgError} (herr : s.Returned j (.error e)) :
    ∃ d < n, corrupt d ∧ e = .err (.shareVerificationFailed d) ∧
      ∃ share : ShareMsg C, (s j).got 2 d = some share ∧
        share.share • C.generator ≠ evalAt (node C j) (revealedRefresh corrupt draw t s d) := by
  obtain ⟨x, pk, hok⟩ := (runRefresh_result hs hi hh hout).1 out rfl
  obtain ⟨e', he, hfail⟩ := (runRefresh_result hs hj hhj herr).2 fun out h => by cases h
  obtain rfl := Except.error.inj he
  -- one party succeeds, so every vector opens for everybody
  exact (refreshSetup_runsVss H n t sid old draw corrupt).mismatch hs.sound hi hh hout hok hj hhj herr
    hfail

/-- A party that succeeds has a share from every other one. -/
theorem runRefresh_got_share (hs : Reachable (refreshSetup H n t sid old draw corrupt) s) {i j : ℕ}
    (hi : i < n) (hh : ¬ corrupt i) {out : LindellDkgOutput C} (hout : s.Returned i (.ok out))
    (hj : j < n) (hji : j ≠ i) : ∃ share : ShareMsg C, (s i).got 2 j = some share := by
  obtain ⟨x, pk, hok⟩ := (runRefresh_result hs hi hh hout).1 out rfl
  obtain ⟨commit, share, hdealers, -, -⟩ :=
    (refreshSetup_runsVss H n t sid old draw corrupt).accepts hs.sound hi hh hout hok
  exact ⟨share j, (hdealers j hj hji).2.2.1⟩

/-- A refresh by three parties with threshold two, in which dealer 2 deals the polynomial `x`
    and sends party 1 the share zero. -/
theorem exists_mixed_run (C : Curve) (H : Hash) :
    ∃ s, Reachable (refreshSetup H 3 2 [] (oneOld C) (fun _ _ => 1) (· = 2)) s ∧
      (∃ out, s.Returned 0 (.ok out)) ∧
      s.Returned 1 (.error (.err (.shareVerificationFailed 2))) := by
  have hS := refreshSetup_runsVss H 3 2 [] (oneOld C) (fun _ _ => 1) (· = 2)
  obtain ⟨s, hs, -, hret⟩ := hS.exists_run_corrupt (fun _ => Iff.rfl)
    (show 2 < 3 by decide) (v := [0, C.generator]) (by simp) (fun j => if j = 0 then 1 else 0)
  have h0 := hret 0 (show 0 < 3 by decide) (by decide)
  have h1 := hret 1 (show 1 < 3 by decide) (by decide)
  rw [if_pos (by simp [node])] at h0
  rw [if_neg] at h1
  · exact ⟨s, hs, ⟨_, h0⟩, h1⟩
  · intro h
    simp only [evalAt_cons, evalAt_nil, smul_zero, add_zero, zero_add, if_neg Nat.one_ne_zero,
      zero_smul] at h
    have hnode : node C 1 = 0 := generator_smul_eq_iff.mp (by rw [zero_smul]; exact h.symm)
    exact node_ne_zero (by norm_num) hnode

end Refresh

end Govis.Lindell
