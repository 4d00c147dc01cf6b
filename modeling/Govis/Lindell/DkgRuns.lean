import Govis.Feldman
import Govis.Lindell.DkgChecks

namespace Govis.Lindell

open Curve Shamir Rounds Polynomial

/-!
# Lindell: runs of the DKG

Networks whose parties run `run_vss`, some of them corrupt.

* `RunsVss` — the key generation and the refresh are such networks;
* `revealed` — the one vector every dealer shows the others;
* `RunsVss.joint` — an honest party that succeeds holds the value of the joint polynomial of
  the revealed vectors at its node, and its value at zero in the exponent;
* `RunsVss.mismatch` — an honest party that rejects a share was sent a share that does not
  match the dealer's vector;
* `runVss_follows` — the script of a run.
-/

variable {C : Curve} {R : Type}

/-- The vector an honest dealer reveals. -/
def ownVector (coins : ℕ → DealerCoins C) (t d : ℕ) : List C.Point :=
  (dealing (coins d).intercept (coins d).draw t).map (· • C.generator)

/-- In the network `S` party `i` runs `run_vss` and ends with `out i` of its result. -/
structure RunsVss (H : Hash) (t : ℕ) (sid : List UInt8) (coins : ℕ → DealerCoins C)
    (S : Setup (Msg C) R) (out : ℕ → Res DkgError (C.Scalar × C.Point) → R) : Prop where
  prog_eq : ∀ i, S.prog i = (runVss H i S.n t sid (coins i).intercept (coins i).draw).map (out i)
  reliable_iff : ∀ r, S.reliable r ↔ r < 2

theorem vssSetup_runsVss (H : Hash) (n t : ℕ) (sid : List UInt8) (coins : ℕ → DealerCoins C)
    (corrupt : ℕ → Prop) :
    RunsVss H t sid coins (vssSetup H n t sid coins corrupt) fun _ => id where
  prog_eq _ := (Proc.map_id _).symm
  reliable_iff _ := Iff.rfl

theorem dkgSetup_runsVss (H : Hash) (n t : ℕ) (sid : List UInt8) (coins : ℕ → DealerCoins C)
    (corrupt : ℕ → Prop) :
    RunsVss H t sid coins (dkgSetup H n t sid coins corrupt) fun _ res => res.map fun out =>
      { secretShare := out.1, publicKey := out.2 } where
  prog_eq _ := rfl
  reliable_iff _ := Iff.rfl

theorem refreshSetup_runsVss (H : Hash) (n t : ℕ) (sid : List UInt8) (old : ℕ → LindellDkgOutput C)
    (draw : ℕ → ℕ → C.Scalar) (corrupt : ℕ → Prop) :
    RunsVss H t sid (fun i => ⟨0, draw i⟩) (refreshSetup H n t sid old draw corrupt)
      fun i res => res.map fun out =>
        { secretShare := (old i).secretShare + out.1, publicKey := (old i).publicKey } where
  prog_eq _ := rfl
  reliable_iff _ := Iff.rfl

/-! ### What the dealers reveal -/

open Classical in
/-- The vector of dealer `d`: its own commitments when it is honest, and what it has put on the
    wire in round 1 when it is corrupt. -/
noncomputable def revealed (corrupt : ℕ → Prop) (coins : ℕ → DealerCoins C) (t : ℕ)
    (s : Net (Msg C) R) (d : ℕ) : List C.Point :=
  if corrupt d then
    if h : ∃ v j, (s d).sent 1 j = some (⟨v⟩ : RevealMsg C) then h.choose else []
  else ownVector coins t d

section Runs

variable {H : Hash} {t : ℕ} {sid : List UInt8} {coins : ℕ → DealerCoins C} {S : Setup (Msg C) R}
  {out : ℕ → Res DkgError (C.Scalar × C.Point) → R} {s : Net (Msg C) R} {i : ℕ}

/-- The result of `run_vss` at party `i`, on what has arrived. -/
def vssResult (H : Hash) (t : ℕ) (sid : List UInt8) (coins : ℕ → DealerCoins C)
    (S : Setup (Msg C) R) (s : Net (Msg C) R) (i : ℕ) : Res DkgError (C.Scalar × C.Point) :=
  (runVss H i S.n t sid (coins i).intercept (coins i).draw).exec ((s i).inbox S.n i)

theorem RunsVss.returned_eq (hS : RunsVss H t sid coins S out) (hs : Sound S s) (hi : i < S.n)
    (hh : ¬ S.corrupt i) {res : R} (hres : s.Returned i res) :
    res = out i (vssResult H t sid coins S s i) := by
  rw [← hs.result hi hh hres, hS.prog_eq, Proc.exec_map]
  rfl

/-- **Agreement on the vectors.** Every dealer has put one vector on the wire only. -/
theorem RunsVss.sent_reveal (hS : RunsVss H t sid coins S out) (hs : Sound S s) {d j : ℕ}
    {m : RevealMsg C} (hd : d < S.n) (hsent : (s d).sent 1 j = some m) :
    m = ⟨revealed S.corrupt coins t s d⟩ := by
  -- by reliable broadcast if the dealer is corrupt, by its program if it is honest
  by_cases hc : S.corrupt d
  · have hex : ∃ v j, (s d).sent 1 j = some (⟨v⟩ : RevealMsg C) := ⟨m.publicCoeffs, j, hsent⟩
    obtain ⟨j', hj'⟩ := hex.choose_spec
    rw [revealed, if_pos hc, dif_pos hex]
    exact hs.reliable d hc 1 ((hS.reliable_iff 1).mpr Nat.one_lt_two) j j' _ _ hsent hj'
  · rw [revealed, if_neg hc]
    have hsends := (hs.honest d hd hc).sent _ (fun _ _ => rfl) 1 j m hsent
    rw [hS.prog_eq, Proc.sends_map_iff] at hsends
    exact runVss_sends_reveal.mp hsends

/-- The vector that arrives from a dealer is the revealed one. -/
theorem RunsVss.got_reveal (hS : RunsVss H t sid coins S out) (hs : Sound S s) {d : ℕ}
    {m : RevealMsg C} (hm : (s i).got 1 d = some m) :
    m = ⟨revealed S.corrupt coins t s d⟩ := by
  obtain ⟨hd, hsent⟩ := hs.wire i 1 d m hm
  exact hS.sent_reveal hs hd hsent

/-- The share an honest dealer has sent is on its dealing. -/
theorem RunsVss.got_share (hS : RunsVss H t sid coins S out) (hs : Sound S s) {d : ℕ}
    {m : ShareMsg C} (hi : i < S.n) (hc : ¬ S.corrupt d) (hm : (s i).got 2 d = some m) :
    m.share • C.generator = evalAt (node C i) (revealed S.corrupt coins t s d) := by
  have hsends := hs.sends (hs.wire i 2 d m hm).1 hc hm
  rw [hS.prog_eq, Proc.sends_map_iff] at hsends
  rw [runVss_sends_share hi hsends, revealed, if_neg hc, ownVector, evalAt_map_smul]

/-- The commitment an honest dealer has sent opens to its vector. -/
theorem RunsVss.got_commit (hS : RunsVss H t sid coins S out) (hs : Sound S s) {d : ℕ}
    {m : CommitMsg} (hc : ¬ S.corrupt d) (hm : (s i).got 0 d = some m) :
    computeCommitment H sid d (revealed S.corrupt coins t s d) = m.commitment := by
  have hsends := hs.sends (hs.wire i 0 d m hm).1 hc hm
  rw [hS.prog_eq, Proc.sends_map_iff] at hsends
  rw [runVss_sends_commit.mp hsends, revealed, if_neg hc, ownVector]

/-- Reliable broadcast shows two parties the same commitment. -/
theorem RunsVss.commit_eq (hS : RunsVss H t sid coins S out) (hs : Sound S s) {j d : ℕ}
    {m m' : CommitMsg} (hc : S.corrupt d) (hm : (s i).got 0 d = some m)
    (hm' : (s j).got 0 d = some m') : m = m' :=
  hs.reliable_eq hc ((hS.reliable_iff 0).mpr Nat.zero_lt_two) hm hm'

/-! ### Results -/

/-- There are three rounds. -/
theorem RunsVss.ends_le (hS : RunsVss H t sid coins S out) {inb : Inbox (Msg C)} (i : ℕ) :
    (S.prog i).ends inb ≤ 3 := by
  rw [hS.prog_eq, Proc.ends_map]
  exact runVss_ends_le

/-- A party that has returned has completed the first two rounds. -/
theorem RunsVss.first_rounds (hS : RunsVss H t sid coins S out) (hs : Sound S s) (hi : i < S.n)
    (hh : ¬ S.corrupt i) {res : R} (hres : s.Returned i res) :
    ∃ commit : ℕ → CommitMsg, ∀ d < S.n, d ≠ i → (s i).got 0 d = some (commit d) ∧
      (s i).got 1 d = some ⟨revealed S.corrupt coins t s d⟩ := by
  have hends : 2 ≤ (S.prog i).ends ((s i).inbox S.n i) := by
    rw [hS.prog_eq, Proc.ends_map]
    exact runVss_two_le_ends
  obtain ⟨commit, hcommit⟩ := exists_row fun d hd hdi =>
    hs.full hi hh hres (lt_of_lt_of_le Nat.zero_lt_two hends) hd hdi
  refine ⟨commit, fun d hd hdi => ⟨hcommit d hd hdi, ?_⟩⟩
  obtain ⟨m, hm⟩ := hs.full hi hh hres (lt_of_lt_of_le Nat.one_lt_two hends) hd hdi
  rw [hm, hS.got_reveal hs hm]

/-- What an honest party that succeeds has checked about every other dealer, and the result it
    computed. -/
theorem RunsVss.accepts (hS : RunsVss H t sid coins S out) (hs : Sound S s) (hi : i < S.n)
    (hh : ¬ S.corrupt i) {res : R} (hres : s.Returned i res) {x : C.Scalar} {pk : C.Point}
    (hok : vssResult H t sid coins S s i = .ok (x, pk)) :
    ∃ (commit : ℕ → CommitMsg) (share : ℕ → ShareMsg C),
      (∀ d < S.n, d ≠ i → (s i).got 0 d = some (commit d) ∧
        (s i).got 1 d = some ⟨revealed S.corrupt coins t s d⟩ ∧ (s i).got 2 d = some (share d) ∧
        Accepts H sid i d (commit d) ⟨revealed S.corrupt coins t s d⟩ (share d)) ∧
      x = evalAt (node C i) (dealing (coins i).intercept (coins i).draw t) +
        ∑ d ∈ (Finset.range S.n).erase i, (share d).share ∧
      pk = (coins i).intercept • C.generator +
        ∑ d ∈ (Finset.range S.n).erase i, (revealed S.corrupt coins t s d).headD 0 := by
  obtain ⟨commit, hfirst⟩ := hS.first_rounds hs hi hh hres
  have hends : (S.prog i).ends ((s i).inbox S.n i) = 3 := by
    rw [hS.prog_eq, Proc.ends_map]
    exact runVss_ends_of_ok hok
  obtain ⟨share, hshare⟩ := exists_row fun d hd hdi =>
    hs.full (r := 2) hi hh hres (by rw [hends]; exact Nat.lt_succ_self 2) hd hdi
  have hres := (runVss_exec_ok hi (collect_eq_map_others fun d hd hdi => (hfirst d hd hdi).1)
    (collect_eq_map_others fun d hd hdi => (hfirst d hd hdi).2)
    (collect_eq_map_others fun d hd hdi => hshare d hd hdi)).mp hok
  exact ⟨commit, share, fun d hd hdi => ⟨(hfirst d hd hdi).1, (hfirst d hd hdi).2,
    hshare d hd hdi, hres.1 d hd hdi⟩, hres.2⟩

/-- The dealer's own polynomial, read off its vector. -/
theorem map_dlog_ownVector (d : ℕ) :
    (ownVector coins t d).map dlog = dealing (coins d).intercept (coins d).draw t :=
  map_smul_dlog _

theorem headD_ownVector (d : ℕ) : (ownVector coins t d).headD 0 = (coins d).intercept • C.generator :=
  rfl

/-- **The joint polynomial.** An honest party that succeeds holds the value of the joint
    polynomial at its node, and its value at zero in the exponent. -/
theorem RunsVss.joint (hS : RunsVss H t sid coins S out) (hs : Sound S s) (hi : i < S.n)
    (hh : ¬ S.corrupt i) {res : R} (hres : s.Returned i res) {x : C.Scalar} {pk : C.Point}
    (hok : vssResult H t sid coins S s i = .ok (x, pk)) :
    x = (jointPoly S.n (revealed S.corrupt coins t s)).eval (node C i) ∧
      pk = (jointPoly S.n (revealed S.corrupt coins t s)).eval 0 • C.generator := by
  obtain ⟨commit, share, hdealers, hx, hpk⟩ := hS.accepts hs hi hh hres hok
  have hown : revealed S.corrupt coins t s i = ownVector coins t i := if_neg hh
  have hmem : i ∈ Finset.range S.n := Finset.mem_range.mpr hi
  constructor
  -- every received share is the value of its dealer's polynomial
  · rw [hx, eval_jointPoly, ← Finset.add_sum_erase _ _ hmem, hown, map_dlog_ownVector]
    refine congrArg _ (Finset.sum_congr rfl fun d hd => ?_)
    obtain ⟨hdi, hd⟩ := Finset.mem_erase.mp hd
    have hshare := (hdealers d (Finset.mem_range.mp hd) hdi).2.2.2.share_eq
    rw [← evalAt_dlog] at hshare
    exact generator_smul_eq_iff.mp hshare
  · rw [hpk, eval_jointPoly_smul, jointAt_zero, ← Finset.add_sum_erase _ _ hmem, hown,
      headD_ownVector]

/-- **Failures.** If one honest party succeeds, every other honest party that has returned
    without success was sent a share by a corrupt dealer that does not match its vector. -/
theorem RunsVss.mismatch (hS : RunsVss H t sid coins S out) (hs : Sound S s) (hi : i < S.n)
    (hh : ¬ S.corrupt i) {res : R} (hres : s.Returned i res) {x : C.Scalar} {pk : C.Point}
    (hok : vssResult H t sid coins S s i = .ok (x, pk)) {j : ℕ} (hj : j < S.n)
    (hhj : ¬ S.corrupt j) {res' : R} (hres' : s.Returned j res') {e : Fault DkgError}
    (herr : vssResult H t sid coins S s j = .error e) :
    ∃ d < S.n, S.corrupt d ∧ e = .err (.shareVerificationFailed d) ∧
      ∃ share : ShareMsg C, (s j).got 2 d = some share ∧
        share.share • C.generator ≠ evalAt (node C j) (revealed S.corrupt coins t s d) := by
  obtain ⟨commit, share, hdealers, -, -⟩ := hS.accepts hs hi hh hres hok
  obtain ⟨commit', hfirst⟩ := hS.first_rounds hs hj hhj hres'
  have hin0 := collect_eq_map_others fun d hd hdj => (hfirst d hd hdj).1
  have hin1 := collect_eq_map_others fun d hd hdj => (hfirst d hd hdj).2
  -- what opens for `i` opens for `j`, and what an honest dealer reveals opens anyway
  have hopens : ∀ d < S.n, d ≠ j → computeCommitment H sid d (revealed S.corrupt coins t s d) =
      (commit' d).commitment ∧ revealed S.corrupt coins t s d ≠ [] := by
    intro d hd hdj
    by_cases hc : S.corrupt d
    · have hdi : d ≠ i := by
        rintro rfl
        exact hh hc
      obtain ⟨hgot, -, -, hacc⟩ := hdealers d hd hdi
      rw [← hS.commit_eq hs hc hgot (hfirst d hd hdj).1]
      exact ⟨hacc.opens, hacc.nonempty⟩
    · refine ⟨hS.got_commit hs hc (hfirst d hd hdj).1, ?_⟩
      rw [revealed, if_neg hc]
      exact List.cons_ne_nil _ _
  have hends : (S.prog j).ends ((s j).inbox S.n j) = 3 := by
    rw [hS.prog_eq, Proc.ends_map]
    exact (runVss_of_opens hj hin0 hin1 hopens).1
  obtain ⟨share', hshare'⟩ := exists_row fun d hd hdj =>
    hs.full (r := 2) hj hhj hres' (by rw [hends]; exact Nat.lt_succ_self 2) hd hdj
  obtain ⟨d, hd, hdj, he, hne⟩ := runVss_error_of_opens hj hin0 hin1
    (collect_eq_map_others fun d hd hdj => hshare' d hd hdj) hopens herr
  -- an honest dealer's share would match
  have hc : S.corrupt d := by
    by_contra hc
    exact hne (hS.got_share hs hj hc (hshare' d hd hdj))
  exact ⟨d, hd, hc, he, share' d, hshare' d hd hdj, hne⟩

end Runs

/-! ### Scripts -/

/-- The script in which dealer `d` commits to `vec d`, reveals it, and sends the share
    `share d j` to party `j`. -/
def vssScript (H : Hash) (sid : List UInt8) (vec : ℕ → List C.Point) (share : ℕ → ℕ → C.Scalar) :
    (r : ℕ) → ℕ → ℕ → Msg C r
  | 0, d, _ => (⟨computeCommitment H sid d (vec d)⟩ : CommitMsg)
  | 1, d, _ => (⟨vec d⟩ : RevealMsg C)
  | _ + 2, d, j => (⟨share d j⟩ : ShareMsg C)

section Scripts

variable {H : Hash} {n t : ℕ} {sid : List UInt8} {coins : ℕ → DealerCoins C}
  {vec : ℕ → List C.Point} {share : ℕ → ℕ → C.Scalar} {i : ℕ}

/-- Party `i` deals honestly in the script. -/
structure DealsHonestly (coins : ℕ → DealerCoins C) (n t : ℕ) (vec : ℕ → List C.Point)
    (share : ℕ → ℕ → C.Scalar) (i : ℕ) : Prop where
  vec_eq : vec i = ownVector coins t i
  share_eq : ∀ j < n, share i j = evalAt (node C j) (dealing (coins i).intercept (coins i).draw t)

/-- A party that deals honestly follows the script. -/
theorem runVss_follows (hown : DealsHonestly coins n t vec share i)
    (hne : ∀ d < n, vec d ≠ []) :
    Follows n i (vssScript H sid vec share) 3
      ((runVss H i n t sid (coins i).intercept (coins i).draw).exec
        (scriptInbox n i (vssScript H sid vec share)))
      (runVss H i n t sid (coins i).intercept (coins i).draw) := by
  suffices h : ∃ res, Follows n i (vssScript H sid vec share) 3 res
      (runVss H i n t sid (coins i).intercept (coins i).draw) by
    obtain ⟨res, h⟩ := h
    rwa [h.exec_eq]
  have h0 := scriptInbox_eq n i (vssScript H sid vec share) 0
  have h1 := scriptInbox_eq n i (vssScript H sid vec share) 1
  refine exists_follows_round (fun j hj hji => ?_) (exists_follows_round (fun j hj hji => ?_)
    (exists_follows_attempt ?_ fun opened => exists_follows_round (fun j hj hji => ?_)
      (exists_follows_attempt_done _ _)))
  · rw [vssScript, hown.vec_eq]
    rfl
  · rw [vssScript, hown.vec_eq]
    rfl
  · rw [h0, h1]
    exact ⟨_, openReveals_others fun d hd hdi => ⟨rfl, hne d hd⟩⟩
  · rw [if_neg hji, evaluatePolynomial_share _ _ hj, vssScript, hown.share_eq j hj]
    rfl

/-- **Success on a script.** When every share to party `i` matches its vector, the party returns
    the value of the joint polynomial. -/
theorem runVss_exec_script (hi : i < n) (hown : DealsHonestly coins n t vec share i)
    (hne : ∀ d < n, vec d ≠ [])
    (hmatch : ∀ d < n, d ≠ i → share d i • C.generator = evalAt (node C i) (vec d)) :
    (runVss H i n t sid (coins i).intercept (coins i).draw).exec
        (scriptInbox n i (vssScript H sid vec share)) =
      .ok ((jointPoly n vec).eval (node C i), jointAt n vec 0) := by
  have hmem : i ∈ Finset.range n := Finset.mem_range.mpr hi
  refine (runVss_exec_ok hi (scriptInbox_eq n i _ 0) (scriptInbox_eq n i _ 1)
    (scriptInbox_eq n i _ 2)).mpr ⟨fun d hd hdi => ⟨rfl, hne d hd, hmatch d hd hdi⟩, ?_, ?_⟩
  · rw [eval_jointPoly, ← Finset.add_sum_erase _ _ hmem, hown.vec_eq, map_dlog_ownVector]
    refine congrArg _ (Finset.sum_congr rfl fun d hd => ?_)
    obtain ⟨hdi, hd⟩ := Finset.mem_erase.mp hd
    refine generator_smul_eq_iff.mp ?_
    rw [evalAt_dlog]
    exact (hmatch d (Finset.mem_range.mp hd) hdi).symm
  · rw [jointAt_zero, ← Finset.add_sum_erase _ _ hmem, hown.vec_eq, headD_ownVector]
    rfl

/-- **Failure on a script.** When only the share of dealer `d` does not match, the party blames
    dealer `d`. -/
theorem runVss_exec_script_error (hi : i < n) (hne : ∀ d < n, vec d ≠ []) {d : ℕ} (hd : d < n)
    (hdi : d ≠ i) (hbad : share d i • C.generator ≠ evalAt (node C i) (vec d))
    (hmatch : ∀ d' < n, d' ≠ i → d' ≠ d → share d' i • C.generator = evalAt (node C i) (vec d')) :
    (runVss H i n t sid (coins i).intercept (coins i).draw).exec
        (scriptInbox n i (vssScript H sid vec share)) =
      .error (.err (.shareVerificationFailed d)) := by
  have h0 := scriptInbox_eq n i (vssScript H sid vec share) 0
  have h1 := scriptInbox_eq n i (vssScript H sid vec share) 1
  have h2 := scriptInbox_eq n i (vssScript H sid vec share) 2
  cases hres : (runVss H i n t sid (coins i).intercept (coins i).draw).exec
      (scriptInbox n i (vssScript H sid vec share)) with
  | ok out => exact absurd (((runVss_exec_ok hi h0 h1 h2).mp hres).1 d hd hdi).share_eq hbad
  | error e =>
    obtain ⟨d', hd', hdi', rfl, hne'⟩ := runVss_error_of_opens hi h0 h1 h2
      (fun d hd hdi => ⟨rfl, hne d hd⟩) hres
    by_cases hdd : d' = d
    · rw [hdd]
    · exact absurd (hmatch d' hd' hdi' hdd) hne'

/-- **A script is a run.** If the honest parties deal as the script says, some run carries it
    out. -/
theorem RunsVss.exists_run {S : Setup (Msg C) R} {out : ℕ → Res DkgError (C.Scalar × C.Point) → R}
    (hS : RunsVss H t sid coins S out)
    (hown : ∀ i < S.n, ¬ S.corrupt i → DealsHonestly coins S.n t vec share i)
    (hne : ∀ d < S.n, vec d ≠ []) :
    ∃ s, Reachable S s ∧ (∀ d < S.n, ∀ j < S.n, j ≠ d → revealed S.corrupt coins t s d = vec d) ∧
      ∀ i < S.n, ¬ S.corrupt i →
        s.Returned i (out i ((runVss H i S.n t sid (coins i).intercept (coins i).draw).exec
          (scriptInbox S.n i (vssScript H sid vec share)))) := by
  -- the first two rounds of the script do not depend on the receiver
  have hrel : ∀ r, S.reliable r → ∀ c j j',
      vssScript H sid vec share r c j = vssScript H sid vec share r c j' := by
    intro r hr c j j'
    match r, (hS.reliable_iff r).mp hr with
    | 0, _ => rfl
    | 1, _ => rfl
  obtain ⟨s, hs, hon, hret⟩ := Rounds.exists_run (S := S) (M := vssScript H sid vec share)
    (fun c _ r hr => hrel r hr c) fun i hi hh => by
      rw [hS.prog_eq]
      exact (runVss_follows (hown i hi hh) hne).map (out i)
  refine ⟨s, hs, fun d hd j hj hjd => ?_, hret⟩
  by_cases hc : S.corrupt d
  · have hsent := hon.corrupt d hd hc 1 (by omega) j hj hjd
    have heq := hS.sent_reveal hs.sound hd hsent
    exact (congrArg RevealMsg.publicCoeffs heq).symm
  · rw [revealed, if_neg hc, (hown d hd hc).vec_eq]

/-- The vectors when dealer `c` reveals `v` and everybody else is honest. -/
def vecWith (coins : ℕ → DealerCoins C) (t c : ℕ) (v : List C.Point) (d : ℕ) : List C.Point :=
  if d = c then v else ownVector coins t d

/-- **One corrupt dealer.** Some run has dealer `c` reveal the vector `v` and send the shares
    `sh j`; a party whose share matches succeeds, and every other one blames `c`. -/
theorem RunsVss.exists_run_corrupt {S : Setup (Msg C) R}
    {out : ℕ → Res DkgError (C.Scalar × C.Point) → R} (hS : RunsVss H t sid coins S out) {c : ℕ}
    (hc : ∀ d, S.corrupt d ↔ d = c) (hcn : c < S.n) {v : List C.Point} (hv : v ≠ [])
    (sh : ℕ → C.Scalar) :
    ∃ s, Reachable S s ∧
      (∀ d < S.n, ∀ j < S.n, j ≠ d → revealed S.corrupt coins t s d = vecWith coins t c v d) ∧
      ∀ i < S.n, i ≠ c → s.Returned i (out i
        (if sh i • C.generator = evalAt (node C i) v then
          .ok ((jointPoly S.n (vecWith coins t c v)).eval (node C i),
            jointAt S.n (vecWith coins t c v) 0)
        else .error (.err (.shareVerificationFailed c)))) := by
  set share : ℕ → ℕ → C.Scalar := fun d j => if d = c then sh j
    else evalAt (node C j) (dealing (coins d).intercept (coins d).draw t) with hshare
  have hown : ∀ i < S.n, i ≠ c → DealsHonestly coins S.n t (vecWith coins t c v) share i :=
    fun i _ hi => ⟨if_neg hi, fun j _ => if_neg hi⟩
  have hne : ∀ d < S.n, vecWith coins t c v d ≠ [] := by
    intro d _
    unfold vecWith
    split
    · exact hv
    · exact List.cons_ne_nil _ _
  -- honest dealers always send matching shares
  have hmatch : ∀ i d, d ≠ c →
      share d i • C.generator = evalAt (node C i) (vecWith coins t c v d) := by
    intro i d hd
    rw [hshare, vecWith, if_neg hd, ownVector, evalAt_map_smul]
    simp only [if_neg hd]
  obtain ⟨s, hs, hrev, hret⟩ := hS.exists_run (fun i hi hh => hown i hi fun h => hh ((hc i).mpr h)) hne
  refine ⟨s, hs, hrev, fun i hi hic => ?_⟩
  have hres := hret i hi fun h => hic ((hc i).mp h)
  have hci : share c i = sh i := if_pos rfl
  have hvc : vecWith coins t c v c = v := if_pos rfl
  split
  · rename_i heq
    rwa [runVss_exec_script hi (hown i hi hic) hne] at hres
    intro d hd hdi
    by_cases hdc : d = c
    · rw [hdc, hci, hvc, heq]
    · exact hmatch i d hdc
  · rename_i hne'
    rwa [runVss_exec_script_error hi hne hcn (Ne.symm hic) (by rwa [hci, hvc])
      fun d hd hdi hdc => hmatch i d hdc] at hres

end Scripts

end Govis.Lindell
