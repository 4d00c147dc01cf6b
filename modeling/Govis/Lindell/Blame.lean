import Govis.Lindell.DkgAdversary

namespace Govis.Lindell

open Curve Shamir Rounds

/-!
# Lindell: who is to blame when a key generation or a refresh fails

An honest party of `run_vss` returns an error only for what a corrupt dealer has sent.

* `revealFault` — what the loop over the revealed vectors finds wrong with one dealer, and
  `openReveals_eq_error`: the loop ends with the first fault;
* `Evidence` — the messages of a dealer that prove an error right;
* `RunsVss.blames` — behind every error stands the evidence against a corrupt dealer;
* `RunsVss.unanimous` — an error of the reveal loop is the error of every honest party;
* `runVss_accountable` — the two, for the key generation and the refresh.
-/

variable {C : Curve} {R : Type} {H : Hash} {sid : List UInt8}

/-- What the reveal loop finds wrong with dealer `d`. -/
def revealFault (H : Hash) (sid : List UInt8) (d : ℕ) (commit : CommitMsg) (reveal : RevealMsg C) :
    Option (Fault DkgError) :=
  if computeCommitment H sid d reveal.publicCoeffs ≠ commit.commitment then
    some (.err (.commitmentMismatch d))
  else if reveal.publicCoeffs = [] then some .panic
  else none

theorem revealFault_eq_none_iff {d : ℕ} {commit : CommitMsg} {reveal : RevealMsg C} :
    revealFault H sid d commit reveal = none ↔
      computeCommitment H sid d reveal.publicCoeffs = commit.commitment ∧
        reveal.publicCoeffs ≠ [] := by
  rw [revealFault]
  by_cases hc : computeCommitment H sid d reveal.publicCoeffs = commit.commitment
  · rw [if_neg (not_not.mpr hc)]
    by_cases hv : reveal.publicCoeffs = []
    · rw [if_pos hv]
      simp [hv]
    · rw [if_neg hv]
      simp [hc, hv]
  · simp [hc]

/-- The fault of a dealer names the dealer, or is the panic of the indexing. -/
theorem eq_of_revealFault {d : ℕ} {commit : CommitMsg} {reveal : RevealMsg C} {e : Fault DkgError}
    (h : revealFault H sid d commit reveal = some e) :
    (e = .err (.commitmentMismatch d) ∧
        computeCommitment H sid d reveal.publicCoeffs ≠ commit.commitment) ∨
      (e = .panic ∧ reveal.publicCoeffs = []) := by
  rw [revealFault] at h
  split at h
  · rename_i hne
    exact .inl ⟨(Option.some.inj h).symm, hne⟩
  · split at h
    · rename_i hv
      exact .inr ⟨(Option.some.inj h).symm, hv⟩
    · cases h

/-- **The reveal loop ends with the first fault.** -/
theorem openReveals_eq_error {l : List ((ℕ × CommitMsg) × (ℕ × RevealMsg C))} {pk : C.Point}
    {seen : List (ℕ × RevealMsg C)} {e : Fault DkgError} :
    openReveals H sid pk seen l = .error e ↔
      l.findSome? (fun m => revealFault H sid m.1.1 m.1.2 m.2.2) = some e := by
  induction l generalizing pk seen with
  | nil => simp [openReveals]
  | cons m rest ih =>
    obtain ⟨⟨sender, commit⟩, ⟨sender', reveal⟩⟩ := m
    rw [openReveals, List.findSome?_cons, revealFault]
    by_cases hc : computeCommitment H sid sender reveal.publicCoeffs = commit.commitment
    · rw [if_neg (not_not.mpr hc), if_neg (not_not.mpr hc)]
      -- an empty vector panics
      cases hv : reveal.publicCoeffs with
      | nil => simp
      | cons c cs =>
        rw [if_neg (List.cons_ne_nil _ _)]
        exact ih
    · rw [if_pos hc, if_pos hc]
      simp

/-! ### One party -/

section Party

variable {i n t : ℕ} {intercept : C.Scalar} {draw : ℕ → C.Scalar} {inb : Inbox (Msg C)}
  {commit : ℕ → CommitMsg} {reveal : ℕ → RevealMsg C}

/-- **A party that finds a fault** in the reveal loop returns it. -/
theorem runVss_of_fault (h0 : inb 0 = (others n i).map fun d => (d, commit d))
    (h1 : inb 1 = (others n i).map fun d => (d, reveal d)) {e : Fault DkgError}
    (he : (others n i).findSome? (fun d => revealFault H sid d (commit d) (reveal d)) = some e) :
    (runVss H i n t sid intercept draw).exec inb = .error e := by
  have hown : (evaluatePolynomial intercept draw t n).1.head? = some (intercept • C.generator) := rfl
  have hopen : openReveals H sid (intercept • C.generator) []
      (((others n i).map fun d => (d, commit d)).zip ((others n i).map fun d => (d, reveal d))) =
        .error e := by
    rw [openReveals_eq_error, List.zip_map', List.findSome?_map]
    exact he
  simp only [runVss, Proc.exec_send, Proc.exec_recv, h0, h1, hown, orPanic_some]
  simp only [bind, Except.bind, hopen, Proc.attempt_error, Proc.exec_done]

/-- A loop that finds no fault opens every vector. -/
theorem opens_of_findSome?_eq_none
    (h : (others n i).findSome? (fun d => revealFault H sid d (commit d) (reveal d)) = none) :
    ∀ d < n, d ≠ i → computeCommitment H sid d (reveal d).publicCoeffs = (commit d).commitment ∧
      (reveal d).publicCoeffs ≠ [] := by
  intro d hd hdi
  exact revealFault_eq_none_iff.mp (List.findSome?_eq_none_iff.mp h d (mem_others.mpr ⟨hd, hdi⟩))

/-- A search among the other parties is a search among all that skips the own index. -/
theorem findSome?_others {β : Type} (f : ℕ → Option β) (hi : f i = none) :
    (others n i).findSome? f = (List.range n).findSome? f := by
  rw [others, ← List.head?_filterMap, ← List.head?_filterMap, List.filterMap_filter]
  refine congrArg _ (List.filterMap_congr fun d _ => ?_)
  by_cases hd : d = i
  · rw [hd, hi]
    simp
  · simp [hd]

end Party

/-! ### Runs -/

/-- **Evidence.** The messages of dealer `d` that party `i` holds do not pass the check whose
    error is `e`. -/
inductive Evidence (H : Hash) (sid : List UInt8) (i d : ℕ) (l : Local (Msg C) R) :
    Fault DkgError → Prop where
  /-- The vector does not match its commitment. -/
  | commitment {commit : CommitMsg} {reveal : RevealMsg C} (h0 : l.got 0 d = some commit)
      (h1 : l.got 1 d = some reveal)
      (hne : computeCommitment H sid d reveal.publicCoeffs ≠ commit.commitment) :
      Evidence H sid i d l (.err (.commitmentMismatch d))
  /-- The vector has no constant point. -/
  | empty (h1 : l.got 1 d = some (⟨[]⟩ : RevealMsg C)) : Evidence H sid i d l .panic
  /-- The share is not on the vector. -/
  | share {reveal : RevealMsg C} {share : ShareMsg C} (h1 : l.got 1 d = some reveal)
      (h2 : l.got 2 d = some share)
      (hne : share.share • C.generator ≠ evalAt (node C i) reveal.publicCoeffs) :
      Evidence H sid i d l (.err (.shareVerificationFailed d))

section Runs

variable {t : ℕ} {coins : ℕ → DealerCoins C} {S : Setup (Msg C) R}
  {out : ℕ → Res DkgError (C.Scalar × C.Point) → R} {s : Net (Msg C) R} {i j : ℕ}

/-- Nothing is wrong with an honest dealer. -/
theorem RunsVss.revealFault_honest (hS : RunsVss H t sid coins S out) (hs : Sound S s) {d : ℕ}
    (hc : ¬ S.corrupt d) {commit : CommitMsg} (h0 : (s i).got 0 d = some commit) :
    revealFault H sid d commit ⟨revealed S.corrupt coins t s d⟩ = none := by
  refine revealFault_eq_none_iff.mpr ⟨hS.got_commit hs hc h0, ?_⟩
  rw [revealed, if_neg hc]
  exact List.cons_ne_nil _ _

/-- **Blame.** Behind the error of an honest party stands a corrupt dealer, and the party holds
    the evidence. -/
theorem RunsVss.blames (hS : RunsVss H t sid coins S out) (hs : Sound S s) (hi : i < S.n)
    (hh : ¬ S.corrupt i) {res : R} (hres : s.Returned i res) {e : Fault DkgError}
    (herr : vssResult H t sid coins S s i = .error e) :
    ∃ d < S.n, S.corrupt d ∧ Evidence H sid i d (s i) e := by
  obtain ⟨commit, hfirst⟩ := hS.first_rounds hs hi hh hres
  have hin0 := collect_eq_map_others fun d hd hdi => (hfirst d hd hdi).1
  have hin1 := collect_eq_map_others fun d hd hdi => (hfirst d hd hdi).2
  cases hfault : (others S.n i).findSome? fun d =>
      revealFault H sid d (commit d) ⟨revealed S.corrupt coins t s d⟩ with
  -- the reveal loop has ended the run
  | some e' =>
    obtain rfl : e' = e := Except.error.inj ((runVss_of_fault hin0 hin1 hfault).symm.trans herr)
    obtain ⟨d, hd, hde⟩ := List.exists_of_findSome?_eq_some hfault
    obtain ⟨hdn, hdi⟩ := mem_others.mp hd
    obtain ⟨h0, h1⟩ := hfirst d hdn hdi
    have hc : S.corrupt d := by
      by_contra hc
      rw [hS.revealFault_honest hs hc h0] at hde
      cases hde
    refine ⟨d, hdn, hc, ?_⟩
    rcases eq_of_revealFault hde with ⟨rfl, hne⟩ | ⟨rfl, hv⟩
    · exact .commitment h0 h1 hne
    · exact .empty (by rw [h1, ← hv])
  -- every vector opens, and a share does not match
  | none =>
    have hopens := opens_of_findSome?_eq_none hfault
    have hends : (S.prog i).ends ((s i).inbox S.n i) = 3 := by
      rw [hS.prog_eq, Proc.ends_map]
      exact (runVss_of_opens hi hin0 hin1 hopens).1
    obtain ⟨share, hshare⟩ := exists_row fun d hd hdi =>
      hs.full (r := 2) hi hh hres (by rw [hends]; exact Nat.lt_succ_self 2) hd hdi
    obtain ⟨d, hd, hdi, rfl, hne⟩ := runVss_error_of_opens hi hin0 hin1
      (collect_eq_map_others fun d hd hdi => hshare d hd hdi) hopens herr
    have hc : S.corrupt d := by
      by_contra hc
      exact hne (hS.got_share hs hi hc (hshare d hd hdi))
    exact ⟨d, hd, hc, .share (hfirst d hd hdi).2 (hshare d hd hdi) hne⟩

/-- The reveal loops of two honest parties find the same fault first. -/
theorem RunsVss.findSome?_eq (hS : RunsVss H t sid coins S out) (hs : Sound S s)
    (hh : ¬ S.corrupt i) (hhj : ¬ S.corrupt j) {commit commit' : ℕ → CommitMsg}
    (h0 : ∀ d < S.n, d ≠ i → (s i).got 0 d = some (commit d))
    (h0' : ∀ d < S.n, d ≠ j → (s j).got 0 d = some (commit' d)) :
    (others S.n i).findSome? (fun d =>
        revealFault H sid d (commit d) ⟨revealed S.corrupt coins t s d⟩) =
      (others S.n j).findSome? fun d =>
        revealFault H sid d (commit' d) ⟨revealed S.corrupt coins t s d⟩ := by
  classical
  -- only corrupt dealers can be at fault, and of these both hold the same commitment
  have honly : ∀ {k : ℕ} {c : ℕ → CommitMsg}, ¬ S.corrupt k →
      (∀ d < S.n, d ≠ k → (s k).got 0 d = some (c d)) →
      (others S.n k).findSome? (fun d =>
          revealFault H sid d (c d) ⟨revealed S.corrupt coins t s d⟩) =
        (List.range S.n).findSome? fun d => if S.corrupt d then
          revealFault H sid d (c d) ⟨revealed S.corrupt coins t s d⟩ else none := by
    intro k c hk hc
    rw [← findSome?_others (i := k) _ (if_neg hk), ← List.head?_filterMap, ← List.head?_filterMap]
    refine congrArg _ (List.filterMap_congr fun d hd => ?_)
    obtain ⟨hdn, hdk⟩ := mem_others.mp hd
    by_cases hcd : S.corrupt d
    · rw [if_pos hcd]
    · rw [if_neg hcd, hS.revealFault_honest hs hcd (hc d hdn hdk)]
  rw [honly hh h0, honly hhj h0', ← List.head?_filterMap, ← List.head?_filterMap]
  refine congrArg _ (List.filterMap_congr fun d hd => ?_)
  by_cases hcd : S.corrupt d
  · have hdn := List.mem_range.mp hd
    have hdi : d ≠ i := fun h => hh (h ▸ hcd)
    have hdj : d ≠ j := fun h => hhj (h ▸ hcd)
    rw [hS.commit_eq hs hcd (h0 d hdn hdi) (h0' d hdn hdj)]
  · rw [if_neg hcd, if_neg hcd]

/-- **Unanimity.** When the reveal loop of one honest party fails, every honest party that
    returns has the same error. -/
theorem RunsVss.unanimous (hS : RunsVss H t sid coins S out) (hs : Sound S s) (hi : i < S.n)
    (hh : ¬ S.corrupt i) {res : R} (hres : s.Returned i res) (hj : j < S.n) (hhj : ¬ S.corrupt j)
    {res' : R} (hres' : s.Returned j res') {e : Fault DkgError}
    (herr : vssResult H t sid coins S s i = .error e)
    (he : ∀ d, e ≠ .err (.shareVerificationFailed d)) :
    vssResult H t sid coins S s j = .error e := by
  obtain ⟨commit, hfirst⟩ := hS.first_rounds hs hi hh hres
  obtain ⟨commit', hfirst'⟩ := hS.first_rounds hs hj hhj hres'
  have hin0 := collect_eq_map_others fun d hd hdi => (hfirst d hd hdi).1
  have hin1 := collect_eq_map_others fun d hd hdi => (hfirst d hd hdi).2
  have heq := hS.findSome?_eq hs hh hhj (fun d hd hdi => (hfirst d hd hdi).1)
    fun d hd hdj => (hfirst' d hd hdj).1
  cases hfault : (others S.n i).findSome? fun d =>
      revealFault H sid d (commit d) ⟨revealed S.corrupt coins t s d⟩ with
  | some e' =>
    obtain rfl : e' = e := Except.error.inj ((runVss_of_fault hin0 hin1 hfault).symm.trans herr)
    exact runVss_of_fault (collect_eq_map_others fun d hd hdj => (hfirst' d hd hdj).1)
      (collect_eq_map_others fun d hd hdj => (hfirst' d hd hdj).2) (heq.symm.trans hfault)
  -- an error of the share loop names a bad share
  | none =>
    have hopens := opens_of_findSome?_eq_none hfault
    have hends : (S.prog i).ends ((s i).inbox S.n i) = 3 := by
      rw [hS.prog_eq, Proc.ends_map]
      exact (runVss_of_opens hi hin0 hin1 hopens).1
    obtain ⟨share, hshare⟩ := exists_row fun d hd hdi =>
      hs.full (r := 2) hi hh hres (by rw [hends]; exact Nat.lt_succ_self 2) hd hdi
    obtain ⟨d, -, -, hed, -⟩ := runVss_error_of_opens hi hin0 hin1
      (collect_eq_map_others fun d hd hdi => hshare d hd hdi) hopens herr
    exact absurd hed (he d)

end Runs

/-- What holds of the failures in a state of the network. -/
structure Accountable (H : Hash) (sid : List UInt8) (n : ℕ) (corrupt : ℕ → Prop)
    (s : Receiving (Msg C) (Res DkgError (LindellDkgOutput C))) : Prop where
  /-- An honest party that returns an error of a check holds the evidence against a corrupt dealer. -/
  blames : ∀ i < n, ¬ corrupt i → ∀ e, s.Ended i (.result (.error e)) →
    ∃ d < n, corrupt d ∧ Evidence H sid i d (s.net i) e
  /-- A check that fails before the shares fails at every honest party that does not fail to complete a
      round. -/
  unanimous : ∀ i < n, ¬ corrupt i → ∀ j < n, ¬ corrupt j → ∀ e, s.Ended i (.result (.error e)) →
    (∀ d, e ≠ .err (.shareVerificationFailed d)) → ∀ o, s.Ended j o →
    o = .result (.error e) ∨ ∃ r, o = .receiveError r
  /-- A round is not completed only if another party is corrupt. -/
  disturbed : ∀ i r, s.Ended i (.receiveError r) → ∃ d < n, d ≠ i ∧ corrupt d

/-- Networks that pass the errors of `run_vss` on are accountable. -/
theorem RunsVss.accountable {t : ℕ} {coins : ℕ → DealerCoins C}
    {S : Setup (Msg C) (Res DkgError (LindellDkgOutput C))}
    {f : ℕ → C.Scalar × C.Point → LindellDkgOutput C}
    (hS : RunsVss H t sid coins S fun i res => res.map (f i))
    {s : Receiving (Msg C) (Res DkgError (LindellDkgOutput C))} (hs : RecvReachable S s) :
    Accountable H sid S.n S.corrupt s := by
  have hsound := hs.net.sound
  have herr : ∀ i < S.n, ¬ S.corrupt i → ∀ e, s.net.Returned i (.error e) →
      vssResult H t sid coins S s.net i = .error e := by
    intro i hi hh e hret
    have hres := hS.returned_eq hsound hi hh hret
    cases hvss : vssResult H t sid coins S s.net i with
    | ok x =>
      rw [hvss] at hres
      cases hres
    | error e' =>
      rw [hvss] at hres
      cases hres
      rfl
  refine ⟨fun i hi hh e hret => hS.blames hsound hi hh hret (herr i hi hh e hret),
    fun i hi hh j hj hhj e hret he o ho => ?_,
    fun i r hf => hs.exists_corrupt (fun hall => (hS.completes hall).serves hall) hf⟩
  cases o with
  | result res =>
    have hret' : s.net.Returned j res := ho
    rw [hS.returned_eq hsound hj hhj hret',
      hS.unanimous hsound hi hh hret hj hhj hret' (herr i hi hh e hret) he]
    exact .inl rfl
  | receiveError r => exact .inr ⟨r, rfl⟩

end Govis.Lindell
