import Govis.Lindell.Dkg

namespace Govis.Lindell

open Curve Shamir Rounds

/-!
# Lindell: what one party of the DKG checks

The result of `runVss` at one party, as a function of what arrived:

* `openReveals_eq_ok`, `addShares_eq_ok` — when the two loops succeed, and with what;
* `Accepts` — what a party has checked about one dealer;
* `runVss_exec_ok` — `runVss` succeeds exactly if every other dealer is accepted, and then
  returns its own share plus the received ones;
* `runVss_sends_reveal`, `runVss_sends_share` — what an honest dealer sends.
-/

variable {C : Curve} {H : Hash} {sid : List UInt8}

/-- The reveal loop succeeds exactly if every revealed vector is non-empty and matches its
    commitment. -/
theorem openReveals_eq_ok {l : List ((ℕ × CommitMsg) × (ℕ × RevealMsg C))} {pk pk' : C.Point}
    {seen seen' : List (ℕ × RevealMsg C)} :
    openReveals H sid pk seen l = .ok (pk', seen') ↔
      (∀ e ∈ l, computeCommitment H sid e.1.1 e.2.2.publicCoeffs = e.1.2.commitment ∧
        e.2.2.publicCoeffs ≠ []) ∧
      pk' = pk + (l.map fun e => e.2.2.publicCoeffs.headD 0).sum ∧
      seen' = seen ++ l.map fun e => (e.1.1, e.2.2) := by
  induction l generalizing pk seen with
  | nil =>
    simp only [openReveals, Except.ok.injEq, Prod.mk.injEq, List.not_mem_nil, false_imp_iff,
      implies_true, true_and, List.map_nil, List.sum_nil, add_zero, List.append_nil]
    constructor
    · rintro ⟨rfl, rfl⟩
      exact ⟨rfl, rfl⟩
    · rintro ⟨rfl, rfl⟩
      exact ⟨rfl, rfl⟩
  | cons e rest ih =>
    obtain ⟨⟨sender, commit⟩, ⟨sender', reveal⟩⟩ := e
    rw [openReveals]
    by_cases hc : computeCommitment H sid sender reveal.publicCoeffs = commit.commitment
    · rw [if_neg (not_not.mpr hc)]
      -- an empty vector panics
      cases hv : reveal.publicCoeffs with
      | nil => simp [hv]
      | cons c cs =>
        rw [hv] at hc
        simp only [ih, List.forall_mem_cons, List.map_cons, List.sum_cons, hv, List.headD_cons, hc,
          ne_eq, reduceCtorEq, not_false_eq_true, and_self, true_and, add_assoc, List.append_assoc,
          List.singleton_append]
    · rw [if_pos hc]
      simp [hc]

/-- The share loop succeeds exactly if every share matches its dealer's vector. -/
theorem addShares_eq_ok {i : ℕ} {seen : List (ℕ × RevealMsg C)} {l : List (ℕ × ShareMsg C)}
    {s s' : C.Scalar} :
    addShares i seen s l = .ok s' ↔
      (∀ e ∈ l, ∃ d reveal, seen.find? (fun e' => decide (e'.1 = e.1)) = some (d, reveal) ∧
        e.2.share • C.generator = pointAt reveal.publicCoeffs (node C i)) ∧
      s' = s + (l.map fun e => e.2.share).sum := by
  induction l generalizing s with
  | nil => simp [addShares, eq_comm]
  | cons e rest ih =>
    obtain ⟨sender, msg⟩ := e
    rw [addShares, List.forall_mem_cons, List.map_cons, List.sum_cons, ← add_assoc]
    cases hf : seen.find? (fun e' => decide (e'.1 = sender)) with
    | none => simp
    | some found =>
      obtain ⟨d, reveal⟩ := found
      by_cases hs : msg.share • C.generator = pointAt reveal.publicCoeffs (node C i)
      · simp [hs, ih]
      · simp [hs]

/-- The share loop fails only at a sender it does not know or whose share does not match. -/
theorem addShares_eq_error {i : ℕ} {seen : List (ℕ × RevealMsg C)} {l : List (ℕ × ShareMsg C)}
    {s : C.Scalar} {e : Fault DkgError} (h : addShares i seen s l = .error e) :
    ∃ msg ∈ l, e = .err (.shareVerificationFailed msg.1) ∧
      ∀ d reveal, seen.find? (fun e' => decide (e'.1 = msg.1)) = some (d, reveal) →
        msg.2.share • C.generator ≠ pointAt reveal.publicCoeffs (node C i) := by
  induction l generalizing s with
  | nil => cases h
  | cons msg rest ih =>
    rw [addShares] at h
    split at h
    -- the sender revealed nothing
    · rename_i hnone
      cases h
      exact ⟨msg, List.mem_cons_self, rfl, fun d reveal hf => by rw [hnone] at hf; cases hf⟩
    · rename_i d reveal hfound
      split at h
      · rename_i hne
        cases h
        refine ⟨msg, List.mem_cons_self, rfl, fun d' reveal' hf => ?_⟩
        cases hfound.symm.trans hf
        exact hne
      · obtain ⟨msg', hmem, hrest⟩ := ih h
        exact ⟨msg', List.mem_cons_of_mem _ hmem, hrest⟩

/-! ### One dealer -/

/-- What party `i` has checked about dealer `d`, from its three messages. -/
structure Accepts (H : Hash) (sid : List UInt8) (i d : ℕ) (commit : CommitMsg)
    (reveal : RevealMsg C) (share : ShareMsg C) : Prop where
  opens : computeCommitment H sid d reveal.publicCoeffs = commit.commitment
  nonempty : reveal.publicCoeffs ≠ []
  share_eq : share.share • C.generator = evalAt (node C i) reveal.publicCoeffs

section Party

variable {i n t : ℕ} {intercept : C.Scalar} {draw : ℕ → C.Scalar} {inb : Inbox (Msg C)}

/-- **Result of one party.** On full rounds, `runVss` succeeds exactly if every other dealer is
    accepted; the share adds the received shares to the own one, and the public key the
    constant coefficients. -/
theorem runVss_exec_ok (hi : i < n) {commit : ℕ → CommitMsg} {reveal : ℕ → RevealMsg C}
    {share : ℕ → ShareMsg C} (h0 : inb 0 = (others n i).map fun d => (d, commit d))
    (h1 : inb 1 = (others n i).map fun d => (d, reveal d))
    (h2 : inb 2 = (others n i).map fun d => (d, share d)) {x : C.Scalar} {pk : C.Point} :
    (runVss H i n t sid intercept draw).exec inb = .ok (x, pk) ↔
      (∀ d < n, d ≠ i → Accepts H sid i d (commit d) (reveal d) (share d)) ∧
      x = evalAt (node C i) (dealing intercept draw t) +
        ∑ d ∈ (Finset.range n).erase i, (share d).share ∧
      pk = intercept • C.generator +
        ∑ d ∈ (Finset.range n).erase i, (reveal d).publicCoeffs.headD 0 := by
  have hown : (evaluatePolynomial intercept draw t n).1.head? = some (intercept • C.generator) := rfl
  simp only [runVss, Proc.exec_send, Proc.exec_recv, Proc.exec_attempt_eq_ok, Proc.exec_done, h0, h1,
    h2, List.zip_map', hown, evaluatePolynomial_share intercept draw hi, orPanic_some]
  constructor
  -- what the two loops have checked, dealer by dealer
  · rintro ⟨⟨pk', seen⟩, hopen, x', hadd, hres⟩
    cases hres
    obtain ⟨hall, hpk, hseen⟩ := openReveals_eq_ok.mp hopen
    obtain ⟨hshares, hx⟩ := addShares_eq_ok.mp hadd
    simp only [List.map_map, Function.comp_def, List.nil_append] at hpk hseen hx
    refine ⟨fun d hd hdi => ?_, by rw [hx, sum_map_others], by rw [hpk, sum_map_others]⟩
    have hmem : d ∈ others n i := mem_others.mpr ⟨hd, hdi⟩
    obtain ⟨hc, hne⟩ := hall _ (List.mem_map_of_mem hmem)
    obtain ⟨d', rev, hfind, hs⟩ := hshares _ (List.mem_map_of_mem hmem)
    rw [hseen, find?_map_others reveal hd hdi] at hfind
    cases hfind
    exact ⟨hc, hne, by rw [hs, pointAt_eq]⟩
  -- accepted dealers make both loops succeed
  · rintro ⟨hacc, rfl, rfl⟩
    refine ⟨_, openReveals_eq_ok.mpr ⟨fun e he => ?_, rfl, rfl⟩, _,
      addShares_eq_ok.mpr ⟨fun e he => ?_, rfl⟩, ?_⟩
    · obtain ⟨d, hd, rfl⟩ := List.mem_map.mp he
      obtain ⟨hdn, hdi⟩ := mem_others.mp hd
      exact ⟨(hacc d hdn hdi).opens, (hacc d hdn hdi).nonempty⟩
    · obtain ⟨d, hd, rfl⟩ := List.mem_map.mp he
      obtain ⟨hdn, hdi⟩ := mem_others.mp hd
      simp only [List.map_map, Function.comp_def, List.nil_append]
      exact ⟨d, reveal d, find?_map_others reveal hdn hdi,
        by rw [(hacc d hdn hdi).share_eq, pointAt_eq]⟩
    · simp only [List.map_map, Function.comp_def, sum_map_others]

/-- A party that succeeds has completed all three rounds. -/
theorem runVss_ends_of_ok {out : C.Scalar × C.Point}
    (h : (runVss H i n t sid intercept draw).exec inb = .ok out) :
    (runVss H i n t sid intercept draw).ends inb = 3 := by
  simp only [runVss, Proc.exec_send, Proc.exec_recv, Proc.exec_attempt_eq_ok] at h
  obtain ⟨opened, hopen, x, hadd, -⟩ := h
  simp only [runVss, Proc.ends_send, Proc.ends_recv, hopen, Proc.attempt_ok, hadd, Proc.ends_done]

/-- There are three rounds. -/
theorem runVss_ends_le : (runVss H i n t sid intercept draw).ends inb ≤ 3 := by
  simp only [runVss, Proc.ends_send, Proc.ends_recv]
  refine Proc.ends_attempt_le (by decide) fun opened => ?_
  rw [Proc.ends_send, Proc.ends_recv]
  exact Proc.ends_attempt_le (le_refl 3) fun x => le_refl 3

/-- Every party completes the first two rounds. -/
theorem runVss_two_le_ends : 2 ≤ (runVss H i n t sid intercept draw).ends inb := by
  simp only [runVss, Proc.ends_send, Proc.ends_recv]
  exact Proc.le_ends _ _

/-- The reveal loop on full rounds in which every vector opens. -/
theorem openReveals_others {commit : ℕ → CommitMsg} {reveal : ℕ → RevealMsg C} {pk : C.Point}
    (hopens : ∀ d < n, d ≠ i → computeCommitment H sid d (reveal d).publicCoeffs =
      (commit d).commitment ∧ (reveal d).publicCoeffs ≠ []) :
    openReveals H sid pk []
        (((others n i).map fun d => (d, commit d)).zip ((others n i).map fun d => (d, reveal d))) =
      .ok (pk + ∑ d ∈ (Finset.range n).erase i, (reveal d).publicCoeffs.headD 0,
        (others n i).map fun d => (d, reveal d)) := by
  rw [List.zip_map']
  refine openReveals_eq_ok.mpr ⟨fun e he => ?_, ?_, ?_⟩
  · obtain ⟨d, hd, rfl⟩ := List.mem_map.mp he
    exact hopens d (mem_others.mp hd).1 (mem_others.mp hd).2
  · rw [List.map_map, ← sum_map_others]
    rfl
  · rw [List.map_map, List.nil_append]
    rfl

/-- **A party that opens every vector** completes the last round, and its result is that of the
    share loop. -/
theorem runVss_of_opens (hi : i < n) {commit : ℕ → CommitMsg} {reveal : ℕ → RevealMsg C}
    (h0 : inb 0 = (others n i).map fun d => (d, commit d))
    (h1 : inb 1 = (others n i).map fun d => (d, reveal d))
    (hopens : ∀ d < n, d ≠ i → computeCommitment H sid d (reveal d).publicCoeffs =
      (commit d).commitment ∧ (reveal d).publicCoeffs ≠ []) :
    (runVss H i n t sid intercept draw).ends inb = 3 ∧
      (runVss H i n t sid intercept draw).exec inb =
        (addShares i ((others n i).map fun d => (d, reveal d))
          (evalAt (node C i) (dealing intercept draw t)) (inb 2)).map fun x =>
            (x, intercept • C.generator +
              ∑ d ∈ (Finset.range n).erase i, (reveal d).publicCoeffs.headD 0) := by
  have hown : (evaluatePolynomial intercept draw t n).1.head? = some (intercept • C.generator) := rfl
  simp only [runVss, Proc.ends_send, Proc.ends_recv, Proc.exec_send, Proc.exec_recv, h0, h1, hown,
    orPanic_some, evaluatePolynomial_share intercept draw hi]
  simp only [bind, Except.bind, openReveals_others hopens, Proc.attempt_ok, Proc.ends_send,
    Proc.ends_recv, Proc.exec_send, Proc.exec_recv]
  cases addShares i ((others n i).map fun d => (d, reveal d)) _ (inb 2) with
  | ok x => exact ⟨rfl, rfl⟩
  | error e => exact ⟨rfl, rfl⟩

/-- It fails only at a share that does not match. -/
theorem runVss_error_of_opens (hi : i < n) {commit : ℕ → CommitMsg} {reveal : ℕ → RevealMsg C}
    {share : ℕ → ShareMsg C} (h0 : inb 0 = (others n i).map fun d => (d, commit d))
    (h1 : inb 1 = (others n i).map fun d => (d, reveal d))
    (h2 : inb 2 = (others n i).map fun d => (d, share d))
    (hopens : ∀ d < n, d ≠ i → computeCommitment H sid d (reveal d).publicCoeffs =
      (commit d).commitment ∧ (reveal d).publicCoeffs ≠ []) {e : Fault DkgError}
    (he : (runVss H i n t sid intercept draw).exec inb = .error e) :
    ∃ d < n, d ≠ i ∧ e = .err (.shareVerificationFailed d) ∧
      (share d).share • C.generator ≠ evalAt (node C i) (reveal d).publicCoeffs := by
  rw [(runVss_of_opens hi h0 h1 hopens).2] at he
  cases hadd : addShares i ((others n i).map fun d => (d, reveal d))
      (evalAt (node C i) (dealing intercept draw t)) (inb 2) with
  | ok x =>
    rw [hadd] at he
    cases he
  | error e' =>
    rw [hadd] at he
    cases he
    obtain ⟨msg, hmem, rfl, hne⟩ := addShares_eq_error hadd
    rw [h2] at hmem
    obtain ⟨d, hd, rfl⟩ := List.mem_map.mp hmem
    obtain ⟨hdn, hdi⟩ := mem_others.mp hd
    exact ⟨d, hdn, hdi, rfl, by
      rw [← pointAt_eq]
      exact hne d (reveal d) (find?_map_others reveal hdn hdi)⟩

/-- **What an honest dealer commits to.** -/
theorem runVss_sends_commit {j : ℕ} {m : CommitMsg} :
    (runVss H i n t sid intercept draw).Sends inb 0 j m ↔
      m = ⟨computeCommitment H sid i ((dealing intercept draw t).map (· • C.generator))⟩ := by
  rw [runVss, Proc.sends_send_recv_iff, Option.some.injEq, eq_comm]
  rfl

/-- **What an honest dealer reveals.** -/
theorem runVss_sends_reveal {j : ℕ} {m : RevealMsg C} :
    (runVss H i n t sid intercept draw).Sends inb 1 j m ↔
      m = ⟨(dealing intercept draw t).map (· • C.generator)⟩ := by
  rw [runVss, Proc.sends_send_iff_of_lt inb Nat.zero_lt_one, Proc.sends_recv_iff,
    Proc.sends_send_recv_iff, Option.some.injEq, eq_comm]
  rfl

/-- **The shares an honest dealer hands out** are those of its dealing. -/
theorem runVss_sends_share {j : ℕ} (hj : j < n) {m : ShareMsg C}
    (h : (runVss H i n t sid intercept draw).Sends inb 2 j m) :
    m = ⟨evalAt (node C j) (dealing intercept draw t)⟩ := by
  -- the share follows the two broadcasts and the reveal loop
  rw [runVss, Proc.sends_send_iff_of_lt inb Nat.zero_lt_two, Proc.sends_recv_iff,
    Proc.sends_send_iff_of_lt inb Nat.one_lt_two, Proc.sends_recv_iff, Proc.sends_attempt_iff] at h
  obtain ⟨opened, -, h⟩ := h
  rw [Proc.sends_send_recv_iff, evaluatePolynomial_share intercept draw hj] at h
  split at h
  · cases h
  · exact (Option.some.inj h).symm

end Party

end Govis.Lindell
