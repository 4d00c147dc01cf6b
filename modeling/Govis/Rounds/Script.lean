import Govis.Rounds.Net
import Mathlib.Algebra.Order.BigOperators.Group.Finset
import Mathlib.Data.Finset.Prod

namespace Rounds

/-!
# Runs that follow a script

A script fixes what every party sends to every other one: `M r i j` is the message from
`i` to `j` in round `r`.  `Follows` says that a program, handed the messages of the script,
sends what the script says in every round and ends with a given value.

* `Completes` — what a run of honest parties that follow a script amounts to: no run gets
  stuck before every party has returned, no run goes on for ever, and every party returns
  its value whatever the order of delivery;
* `exists_run` — a script of an adversary is carried out by some run.
-/

variable {Msg : ℕ → Type} {R : Type}

/-- `Follows n i M k res p`: handed the messages of the script `M`, the program `p` of party
    `i` sends its messages of the script in every round before `k` and then returns `res`. -/
inductive Follows (n i : ℕ) (M : (r : ℕ) → ℕ → ℕ → Msg r) (k : ℕ) (res : R) :
    {r : ℕ} → Proc Msg R r → Prop where
  | done : Follows n i M k res (.done res : Proc Msg R k)
  | round {r : ℕ} {out : ℕ → Option (Msg r)} {next : List (ℕ × Msg r) → Proc Msg R (r + 1)}
      (hout : ∀ j < n, j ≠ i → out j = some (M r i j))
      (hnext : Follows n i M k res (next (collect n i fun j => some (M r j i)))) :
      Follows n i M k res (.send out (.recv next))

theorem Follows.le {n i : ℕ} {M : (r : ℕ) → ℕ → ℕ → Msg r} {k : ℕ} {res : R} {r : ℕ}
    {p : Proc Msg R r} (h : Follows n i M k res p) : r ≤ k := by
  induction h with
  | done => exact Nat.le_refl _
  | round _ _ ih => omega

theorem Follows.map {R' : Type} (f : R → R') {n i : ℕ} {M : (r : ℕ) → ℕ → ℕ → Msg r} {k : ℕ}
    {res : R} {r : ℕ} {p : Proc Msg R r} (h : Follows n i M k res p) :
    Follows n i M k (f res) (p.map f) := by
  induction h with
  | done => exact .done
  | round hout _ ih => exact .round hout ih

/-- Only the messages from and to the party matter. -/
theorem Follows.congr {n i : ℕ} {M M' : (r : ℕ) → ℕ → ℕ → Msg r} {k : ℕ} {res : R} {r : ℕ}
    {p : Proc Msg R r} (hM : ∀ r < k, ∀ j < n, j ≠ i → M r i j = M' r i j ∧ M r j i = M' r j i)
    (h : Follows n i M k res p) : Follows n i M' k res p := by
  induction h with
  | done => exact .done
  | @round r out next hout hnext ih =>
    have hr : r < k := hnext.le
    refine .round (fun j hj hji => ?_) ?_
    · rw [hout j hj hji, (hM r hr j hj hji).1]
    · have hlist : collect n i (fun j => some (M r j i)) = collect n i fun j => some (M' r j i) :=
        collect_congr fun j hj hji => congrArg some (hM r hr j hj hji).2
      rw [← hlist]
      exact ih

/-- What the rounds of the script hand to party `i`. -/
def scriptInbox (n i : ℕ) (M : (r : ℕ) → ℕ → ℕ → Msg r) : Inbox Msg := fun r =>
  collect n i fun j => some (M r j i)

/-- The value of the script is the value of the program on it. -/
theorem Follows.exec_eq {n i : ℕ} {M : (r : ℕ) → ℕ → ℕ → Msg r} {k : ℕ} {res : R} {r : ℕ}
    {p : Proc Msg R r} (h : Follows n i M k res p) : p.exec (scriptInbox n i M) = res := by
  induction h with
  | done => rfl
  | round _ _ ih => exact ih

/-- A full round of the script. -/
theorem scriptInbox_eq (n i : ℕ) (M : (r : ℕ) → ℕ → ℕ → Msg r) (r : ℕ) :
    scriptInbox n i M r = (others n i).map fun d => (d, M r d i) :=
  collect_eq_map_others fun _ _ _ => rfl

/-- Looking a sender up in a round of the script finds its message. -/
theorem messageFrom_scriptInbox {n i : ℕ} (M : (r : ℕ) → ℕ → ℕ → Msg r) (r : ℕ) {d : ℕ}
    (hd : d < n) (hdi : d ≠ i) : messageFrom d (scriptInbox n i M r) = some (M r d i) := by
  rw [scriptInbox_eq]
  exact messageFrom_map_others (fun d => M r d i) hd hdi

section Build

variable {E α β : Type} {n i : ℕ} {M : (r : ℕ) → ℕ → ℕ → Msg r} {k r : ℕ}

theorem exists_follows_round {out : ℕ → Option (Msg r)}
    {next : List (ℕ × Msg r) → Proc Msg R (r + 1)}
    (hout : ∀ j < n, j ≠ i → out j = some (M r i j))
    (hnext : ∃ res, Follows n i M k res (next (scriptInbox n i M r))) :
    ∃ res, Follows n i M k res (.send out (.recv next)) := by
  obtain ⟨res, h⟩ := hnext
  exact ⟨res, .round hout h⟩

theorem exists_follows_attempt {x : Except E α} {next : α → Proc Msg (Except E β) r}
    (hx : ∃ a, x = .ok a) (hnext : ∀ a, ∃ res, Follows n i M k res (next a)) :
    ∃ res, Follows n i M k res (Proc.attempt x next) := by
  obtain ⟨a, rfl⟩ := hx
  exact hnext a

theorem exists_follows_attempt_done (x : Except E α) (f : α → Except E β) :
    ∃ res, Follows n i M k res (Proc.attempt x fun a => .done (f a) : Proc Msg (Except E β) k) := by
  cases x with
  | ok a => exact ⟨_, .done⟩
  | error e => exact ⟨_, .done⟩

end Build

section OnTrack

variable (S : Setup Msg R) (M : (r : ℕ) → ℕ → ℕ → Msg r) (k : ℕ) (res : ℕ → R)

/-- Where an honest party that follows the script can be. -/
inductive OnScript (i : ℕ) (l : Local Msg R) : Prop where
  /-- About to start round `r`, or finished. -/
  | ready {r : ℕ} {p : Proc Msg R r} (hc : l.code = ⟨r, p⟩)
      (hf : Follows S.n i M k (res i) p)
      (hsent : ∀ r' < r, ∀ j < S.n, j ≠ i → l.sent r' j = some (M r' i j))
      (hnone : ∀ r' ≥ r, ∀ j, l.sent r' j = none)
  /-- Waiting for the messages of round `r`. -/
  | waiting {r : ℕ} {next : List (ℕ × Msg r) → Proc Msg R (r + 1)} (hc : l.code = ⟨r, .recv next⟩)
      (hf : Follows S.n i M k (res i) (next (collect S.n i fun j => some (M r j i))))
      (hsent : ∀ r' ≤ r, ∀ j < S.n, j ≠ i → l.sent r' j = some (M r' i j))
      (hnone : ∀ r' > r, ∀ j, l.sent r' j = none)

/-- Every honest party is on the script, and the corrupt ones have sent theirs. -/
structure OnTrack (s : Net Msg R) : Prop where
  sound : Sound S s
  honest : ∀ i < S.n, ¬ S.corrupt i → OnScript S M k res i (s i)
  corrupt : ∀ i < S.n, S.corrupt i → ∀ r < k, ∀ j < S.n, j ≠ i → (s i).sent r j = some (M r i j)

variable {S M k res} {s : Net Msg R} {i : ℕ}

/-- What an honest party on the script has sent is the script's. -/
theorem OnScript.sent_eq {l : Local Msg R} (h : OnScript S M k res i l) {r j : ℕ} {m : Msg r}
    (hj : j < S.n) (hji : j ≠ i) (hm : l.sent r j = some m) : m = M r i j := by
  -- before the current round everything is on the wire, after it nothing
  cases h with
  | @ready r₀ p hc hf hsent hnone =>
    rcases Nat.lt_or_ge r r₀ with hr | hr
    · exact Option.some.inj (hm.symm.trans (hsent r hr j hj hji))
    · rw [hnone r hr j] at hm
      cases hm
  | @waiting r₀ next hc hf hsent hnone =>
    rcases Nat.lt_or_ge r₀ r with hr | hr
    · rw [hnone r hr j] at hm
      cases hm
    · exact Option.some.inj (hm.symm.trans (hsent r hr j hj hji))

/-- What arrives in the rounds of the script is the script's. -/
theorem OnTrack.got_eq (h : OnTrack S M k res s) {r j : ℕ} {m : Msg r} (hi : i < S.n)
    (hji : j ≠ i) (hr : r < k) (hm : (s i).got r j = some m) : m = M r j i := by
  obtain ⟨hj, hsent⟩ := h.sound.wire i r j m hm
  by_cases hc : S.corrupt j
  · exact Option.some.inj (hsent.symm.trans (h.corrupt j hj hc r hr i hi (Ne.symm hji)))
  · exact (h.honest j hj hc).sent_eq hi (Ne.symm hji) hsent

/-- A full round of the script hands over the script's list. -/
theorem OnTrack.collect_eq (h : OnTrack S M k res s) {r : ℕ} (hi : i < S.n) (hr : r < k)
    (hfull : ∀ j < S.n, j ≠ i → ((s i).got r j).isSome) :
    collect S.n i ((s i).got r) = collect S.n i fun j => some (M r j i) := by
  apply collect_congr
  intro j hj hji
  obtain ⟨m, hm⟩ := Option.isSome_iff_exists.mp (hfull j hj hji)
  rw [hm, h.got_eq hi hji hr hm]

/-- **Step lemma.** A party on the script stays on it. -/
theorem OnTrack.local_step (h : OnTrack S M k res s) {l : Local Msg R} (hi : i < S.n)
    (hh : ¬ S.corrupt i) (hl : LocalStep S s i l) : OnScript S M k res i l := by
  have hold := h.honest i hi hh
  cases hl with
  | @send r out next _ _ hc =>
    cases hold with
    | @ready r₀ p hc' hf hsent hnone =>
      cases hc.symm.trans hc'
      cases hf with
      | round hout hnext =>
        refine .waiting rfl hnext (fun r' hr' j hj hji => ?_) fun r' hr' j => ?_
        · rcases Nat.lt_or_eq_of_le hr' with hr' | rfl
          · rw [Local.put_sent_of_ne _ _ _ (Nat.ne_of_lt hr')]
            exact hsent r' hr' j hj hji
          · rw [Local.put_sent_self, hnone _ (Nat.le_refl _), Option.none_or]
            exact hout j hj hji
        · rw [Local.put_sent_of_ne _ _ _ (Nat.ne_of_gt hr')]
          exact hnone r' (Nat.le_of_lt hr') j
    | waiting hc' => cases hc.symm.trans hc'
  | @complete r next _ _ hc hfull =>
    -- a full round hands over the list of the script
    cases hold with
    | ready hc' hf =>
      cases hc.symm.trans hc'
      cases hf
    | @waiting r₀ next' hc' hf hsent hnone =>
      cases hc.symm.trans hc'
      have hrk : r < k := hf.le
      rw [h.collect_eq hi hrk hfull]
      exact .ready rfl hf (fun r' hr' => hsent r' (Nat.le_of_lt_succ hr')) hnone
  | deliver =>
    cases hold with
    | ready hc hf hsent hnone => exact .ready hc hf hsent hnone
    | waiting hc hf hsent hnone => exact .waiting hc hf hsent hnone
  | inject _ hcor => exact absurd hcor hh

/-- **Step lemma.** A run on the script stays on it, whoever moves. -/
theorem OnTrack.step {s' : Net Msg R} (h : OnTrack S M k res s) (hs : Step S s s') :
    OnTrack S M k res s' := by
  refine ⟨h.sound.step hs, ?_, ?_⟩
  · obtain ⟨i, l, hl, rfl⟩ := hs
    intro j hj hjc
    by_cases hji : j = i
    · subst hji
      rw [Function.update_self]
      exact h.local_step hj hjc hl
    · rw [Function.update_of_ne hji]
      exact h.honest j hj hjc
  · obtain ⟨i, l, hl, rfl⟩ := hs
    intro j hj hjc r hr j' hj' hne
    by_cases hji : j = i
    · subst hji
      rw [Function.update_self]
      exact hl.sent_mono (h.corrupt j hj hjc r hr j' hj' hne)
    · rw [Function.update_of_ne hji]
      exact h.corrupt j hj hjc r hr j' hj' hne

/-- A run on the script returns the script's values. -/
theorem OnTrack.returned_eq (h : OnTrack S M k res s) {x : R} (hi : i < S.n)
    (hh : ¬ S.corrupt i) (hx : s.Returned i x) : x = res i := by
  obtain ⟨r, hc⟩ := hx
  cases h.honest i hi hh with
  | ready hc' hf =>
    cases hc.symm.trans hc'
    cases hf
    rfl
  | waiting hc' => cases hc.symm.trans hc'

/-- A party that has returned has sent its messages of the script. -/
theorem OnTrack.sent_of_returned (h : OnTrack S M k res s) {x : R} (hi : i < S.n)
    (hh : ¬ S.corrupt i) (hx : s.Returned i x) {r j : ℕ} (hr : r < k) (hj : j < S.n) (hji : j ≠ i) :
    (s i).sent r j = some (M r i j) := by
  obtain ⟨r', hc⟩ := hx
  cases h.honest i hi hh with
  | ready hc' hf hsent =>
    cases hc.symm.trans hc'
    cases hf
    exact hsent r hr j hj hji
  | waiting hc' => cases hc.symm.trans hc'

/-! ### Progress -/

/-- One for a program that is about to send. -/
def pending : (r : ℕ) × Proc Msg R r → ℕ
  | ⟨_, .send _ _⟩ => 1
  | _ => 0

theorem pending_le (c : (r : ℕ) × Proc Msg R r) : pending c ≤ 1 := by
  unfold pending
  split <;> omega

/-- The places of the script where nothing has arrived. -/
def missing (n k : ℕ) (got : (r : ℕ) → ℕ → Option (Msg r)) : Finset (ℕ × ℕ) :=
  (Finset.range k ×ˢ Finset.range n).filter fun e => got e.1 e.2 = none

/-- How much of the script is left to a party. -/
def weight (n k : ℕ) (l : Local Msg R) : ℕ :=
  2 * (k - l.code.1) + pending l.code + (missing n k l.got).card

/-- The whole network's weight. -/
def total (S : Setup Msg R) (k : ℕ) (s : Net Msg R) : ℕ :=
  ∑ i ∈ Finset.range S.n, weight S.n k (s i)

theorem total_update_lt {l : Local Msg R} (hi : i < S.n)
    (hw : weight S.n k l < weight S.n k (s i)) : total S k (Function.update s i l) < total S k s := by
  refine Finset.sum_lt_sum (fun j _ => ?_) ⟨i, Finset.mem_range.mpr hi, ?_⟩
  · by_cases hji : j = i
    · subst hji
      rw [Function.update_self]
      exact hw.le
    · rw [Function.update_of_ne hji]
  · rw [Function.update_self]
    exact hw

/-- Sending and completing a round use the script up. -/
theorem OnTrack.weight_act (h : OnTrack S M k res s) {l : Local Msg R} (hi : i < S.n)
    (hh : ¬ S.corrupt i) (hl : LocalStep S s i l) (hgot : l.got = (s i).got) :
    weight S.n k l < weight S.n k (s i) := by
  have hold := h.honest i hi hh
  cases hl with
  | @send r out next _ _ hc =>
    -- the program goes from sending to waiting
    cases hold with
    | ready hc' hf =>
      cases hc.symm.trans hc'
      cases hf
      simp only [weight, hc, Local.put, pending]
      omega
    | waiting hc' => cases hc.symm.trans hc'
  | @complete r next _ _ hc hfull =>
    -- a round counts twice, so the next send is paid for
    cases hold with
    | ready hc' hf =>
      cases hc.symm.trans hc'
      cases hf
    | waiting hc' hf =>
      cases hc.symm.trans hc'
      have hrk := hf.le
      have hp := pending_le (⟨r + 1, next (collect S.n i ((s i).got r))⟩ : (r : ℕ) × Proc Msg R r)
      simp only [weight, hc, show pending ⟨r, .recv next⟩ = 0 from rfl]
      omega
  | deliver _ _ _ hne => exact absurd hgot hne
  | inject _ hcor => exact absurd hcor hh

/-- A message of the script that arrives uses the script up. -/
theorem weight_deliver {l : Local Msg R} {got' : (r : ℕ) → ℕ → Option (Msg r)} {n r j : ℕ}
    (hext : ∀ r j m, l.got r j = some m → got' r j = some m) (hr : r < k) (hj : j < n)
    (hold : l.got r j = none) (hnew : (got' r j).isSome) :
    weight n k { l with got := got' } < weight n k l := by
  refine Nat.add_lt_add_left (Finset.card_lt_card (Finset.ssubset_iff_subset_ne.mpr
    ⟨fun e he => ?_, fun heq => ?_⟩)) _
  -- what is missing afterwards was missing before
  · obtain ⟨hin, hnone⟩ := Finset.mem_filter.mp he
    refine Finset.mem_filter.mpr ⟨hin, ?_⟩
    by_contra hsome
    obtain ⟨m, hm⟩ := Option.ne_none_iff_exists'.mp hsome
    exact Option.some_ne_none m ((hext e.1 e.2 m hm).symm.trans hnone)
  · have hmem : (r, j) ∈ missing n k l.got :=
      Finset.mem_filter.mpr ⟨Finset.mk_mem_product (Finset.mem_range.mpr hr)
        (Finset.mem_range.mpr hj), hold⟩
    rw [← heq] at hmem
    have hnone : got' r j = none := (Finset.mem_filter.mp hmem).2
    rw [hnone] at hnew
    cases hnew

/-- The message in flight from `j` to `i` in round `r` arrives. -/
def pull (s : Net Msg R) (i r j : ℕ) : (r' : ℕ) → ℕ → Option (Msg r') := fun r' j' =>
  if r' = r ∧ j' = j then (s j').sent r' i else (s i).got r' j'

theorem pull_extends {r j : ℕ} (hold : (s i).got r j = none) (r' j' : ℕ) (m : Msg r')
    (hm : (s i).got r' j' = some m) : pull s i r j r' j' = some m := by
  unfold pull
  rw [if_neg, hm]
  rintro ⟨rfl, rfl⟩
  rw [hold] at hm
  cases hm

theorem pull_step {r j : ℕ} (hi : i < S.n) (hj : j < S.n)
    (hold : (s i).got r j = none) (hnew : ((s j).sent r i).isSome) :
    LocalStep S s i { s i with got := pull s i r j } := by
  refine .deliver hi (pull_extends hold) (fun r' j' m hm => ?_) fun heq => ?_
  · unfold pull at hm
    split at hm
    · rename_i hrj
      exact .inr ⟨by rw [hrj.2]; exact hj, hm⟩
    · exact .inl hm
  · have hat : pull s i r j r j = (s j).sent r i := if_pos ⟨rfl, rfl⟩
    rw [← hat, heq, hold] at hnew
    cases hnew

/-- An honest party that has not returned is waiting, or it can send. -/
theorem OnTrack.waiting_or_step (h : OnTrack S M k res s) (hi : i < S.n) (hh : ¬ S.corrupt i)
    (hret : ¬ s.Returned i (res i)) :
    (∃ l, LocalStep S s i l ∧ l.got = (s i).got) ∨
      ∃ r, ∃ next : List (ℕ × Msg r) → Proc Msg R (r + 1),
        (s i).code = ⟨r, .recv next⟩ ∧ r < k := by
  cases h.honest i hi hh with
  | ready hc hf =>
    cases hf with
    | done => exact absurd ⟨_, hc⟩ hret
    | round hout hnext => exact .inl ⟨_, .send hi hh hc, rfl⟩
  | waiting hc hf => exact .inr ⟨_, _, hc, hf.le⟩

/-- In a round before the first one anybody waits in, everything has been sent. -/
theorem OnTrack.sent_of_min (h : OnTrack S M k res s) {r j : ℕ} (hi : i < S.n) (hj : j < S.n)
    (hji : j ≠ i) (hr : r < k)
    (hmin : ¬ S.corrupt j → s.Returned j (res j) ∨ ∃ r₀ ≥ r,
      ∃ next : List (ℕ × Msg r₀) → Proc Msg R (r₀ + 1), (s j).code = ⟨r₀, .recv next⟩) :
    (s j).sent r i = some (M r j i) := by
  by_cases hc : S.corrupt j
  · exact h.corrupt j hj hc r hr i hi (Ne.symm hji)
  · cases h.honest j hj hc with
    | @ready r₁ p hc' hf hsent hnone =>
      rcases hmin hc with ⟨r₂, hd⟩ | ⟨r₀, hr₀, next, hw⟩
      · cases hd.symm.trans hc'
        cases hf
        exact hsent r hr i hi (Ne.symm hji)
      · cases hw.symm.trans hc'
        cases hf
    | @waiting r₁ next' hc' hf hsent hnone =>
      rcases hmin hc with ⟨r₂, hd⟩ | ⟨r₀, hr₀, next, hw⟩
      · cases hd.symm.trans hc'
      · cases hw.symm.trans hc'
        exact hsent r hr₀ i hi (Ne.symm hji)

/-- **Progress.** A run on the script in which some honest party has not returned has a next
    step that uses the script up. -/
theorem OnTrack.progress (h : OnTrack S M k res s)
    (hnot : ∃ i < S.n, ¬ S.corrupt i ∧ ¬ s.Returned i (res i)) :
    ∃ s', Step S s s' ∧ total S k s' < total S k s := by
  classical
  -- somebody can send
  by_cases hsend : ∃ i < S.n, ¬ S.corrupt i ∧ ∃ l, LocalStep S s i l ∧ l.got = (s i).got
  · obtain ⟨i, hi, hh, l, hl, hgot⟩ := hsend
    exact ⟨_, ⟨i, l, hl, rfl⟩, total_update_lt hi (h.weight_act hi hh hl hgot)⟩
  -- otherwise look at a party that waits in the earliest round
  · have hwait : ∀ i < S.n, ¬ S.corrupt i → ¬ s.Returned i (res i) → ∃ r,
        ∃ next : List (ℕ × Msg r) → Proc Msg R (r + 1), (s i).code = ⟨r, .recv next⟩ ∧ r < k := by
      intro i hi hh hret
      rcases h.waiting_or_step hi hh hret with hl | hw
      · exact absurd ⟨i, hi, hh, hl⟩ hsend
      · exact hw
    have hex : ∃ r, ∃ i < S.n, ¬ S.corrupt i ∧ ∃ next : List (ℕ × Msg r) → Proc Msg R (r + 1),
        (s i).code = ⟨r, .recv next⟩ ∧ r < k := by
      obtain ⟨i, hi, hh, hret⟩ := hnot
      obtain ⟨r, next, hc, hr⟩ := hwait i hi hh hret
      exact ⟨r, i, hi, hh, next, hc, hr⟩
    obtain ⟨i, hi, hh, next, hc, hr⟩ := Nat.find_spec hex
    have hall : ∀ j < S.n, j ≠ i → (s j).sent (Nat.find hex) i = some (M (Nat.find hex) j i) := by
      intro j hj hji
      apply h.sent_of_min hi hj hji hr
      intro hjc
      by_cases hret : s.Returned j (res j)
      · exact .inl hret
      · obtain ⟨r₀, next₀, hc₀, hr₀⟩ := hwait j hj hjc hret
        exact .inr ⟨r₀, Nat.find_min' hex ⟨j, hj, hjc, next₀, hc₀, hr₀⟩, next₀, hc₀⟩
    by_cases hfull : ∀ j < S.n, j ≠ i → ((s i).got (Nat.find hex) j).isSome
    · -- its round is full
      exact absurd ⟨i, hi, hh, _, .complete hi hh hc hfull, rfl⟩ hsend
    · -- a message to it is still in flight
      push Not at hfull
      obtain ⟨j, hj, hji, hnone⟩ := hfull
      have hold : (s i).got (Nat.find hex) j = none := by
        simpa using hnone
      have hnew : ((s j).sent (Nat.find hex) i).isSome := by
        rw [hall j hj hji]
        rfl
      have hat : pull s i (Nat.find hex) j (Nat.find hex) j = (s j).sent (Nat.find hex) i :=
        if_pos ⟨rfl, rfl⟩
      exact ⟨_, ⟨i, _, pull_step hi hj hold hnew, rfl⟩, total_update_lt hi
        (weight_deliver (pull_extends hold) hr hj hold (by rw [hat]; exact hnew))⟩

/-- **A run on the script can be completed.** -/
theorem OnTrack.finish (h : OnTrack S M k res s) :
    ∃ s', Relation.ReflTransGen (Step S) s s' ∧ OnTrack S M k res s' ∧
      ∀ i < S.n, ¬ S.corrupt i → s'.Returned i (res i) := by
  induction hμ : total S k s using Nat.strong_induction_on generalizing s with
  | _ μ ih =>
    by_cases hall : ∀ i < S.n, ¬ S.corrupt i → s.Returned i (res i)
    · exact ⟨s, .refl, h, hall⟩
    · push Not at hall
      obtain ⟨s₁, hs₁, hlt⟩ := h.progress hall
      obtain ⟨s₂, hs₂, hon, hret⟩ := ih _ (hμ ▸ hlt) (h.step hs₁) rfl
      exact ⟨s₂, .head hs₁ hs₂, hon, hret⟩

end OnTrack

/-! ### Networks of honest parties -/

/-- What a protocol run by honest parties guarantees: whatever the order of delivery, party
    `i` returns `res i`. -/
structure Completes (S : Setup Msg R) (res : ℕ → R) : Prop where
  /-- A party that returns does so with its value. -/
  returns : ∀ s, Reachable S s → ∀ i < S.n, ∀ x, s.Returned i x → x = res i
  /-- A run that cannot go on has returned everywhere. -/
  maximal : ∀ s, Reachable S s → (∀ s', ¬ Step S s s') → ∀ i < S.n, s.Returned i (res i)
  /-- Every run can be continued to such an end. -/
  reaches : ∀ s, Reachable S s → ∃ s', Relation.ReflTransGen (Step S) s s' ∧
    ∀ i < S.n, s'.Returned i (res i)
  /-- No run goes on for ever. -/
  terminates : ∀ f : ℕ → Net Msg R, f 0 = S.init → ¬ ∀ t, Step S (f t) (f (t + 1))

theorem Completes.congr {S : Setup Msg R} {res res' : ℕ → R} (h : Completes S res)
    (heq : ∀ i < S.n, res i = res' i) : Completes S res' where
  returns s hs i hi x hx := (h.returns s hs i hi x hx).trans (heq i hi)
  maximal s hs hstuck i hi := heq i hi ▸ h.maximal s hs hstuck i hi
  reaches s hs := by
    obtain ⟨s', hrun, hret⟩ := h.reaches s hs
    exact ⟨s', hrun, fun i hi => heq i hi ▸ hret i hi⟩
  terminates := h.terminates

section Honest

variable {S : Setup Msg R} {M : (r : ℕ) → ℕ → ℕ → Msg r} {k : ℕ} {res : ℕ → R} {s : Net Msg R}

theorem OnTrack.init (hh : ∀ i < S.n, ¬ S.corrupt i)
    (hf : ∀ i < S.n, Follows S.n i M k (res i) (S.prog i)) : OnTrack S M k res S.init where
  sound := Reachable.sound .refl
  honest i hi _ := .ready rfl (hf i hi) (fun r' hr' => absurd hr' (Nat.not_lt_zero r'))
    fun _ _ _ => rfl
  corrupt i hi hc := absurd hc (hh i hi)

/-- An honest party sends nothing after the last round of the script. -/
theorem OnScript.sent_lt {i : ℕ} {l : Local Msg R} (h : OnScript S M k res i l) {r j : ℕ}
    {m : Msg r} (hm : l.sent r j = some m) : r < k := by
  by_contra hr
  cases h with
  | ready hc hf hsent hnone =>
    rw [hnone r (le_trans hf.le (not_lt.mp hr)) j] at hm
    cases hm
  | waiting hc hf hsent hnone =>
    rw [hnone r (lt_of_lt_of_le hf.le (not_lt.mp hr)) j] at hm
    cases hm

/-- Among honest parties every step uses the script up. -/
theorem OnTrack.total_lt (h : OnTrack S M k res s) (hh : ∀ i < S.n, ¬ S.corrupt i) {s' : Net Msg R}
    (hs : Step S s s') : total S k s' < total S k s := by
  obtain ⟨i, l, hl, rfl⟩ := hs
  cases hl with
  | send hi hhi hc => exact total_update_lt hi (h.weight_act hi hhi (.send hi hhi hc) rfl)
  | complete hi hhi hc hfull =>
    exact total_update_lt hi (h.weight_act hi hhi (.complete hi hhi hc hfull) rfl)
  | inject hi hcor => exact absurd hcor (hh i hi)
  | @deliver got' hi hext hwire hne =>
    -- something arrives that had not arrived before, and it belongs to the script
    obtain ⟨r, j, hrj⟩ : ∃ r j, got' r j ≠ (s i).got r j := by
      by_contra hno
      push Not at hno
      exact hne (funext fun r => funext fun j => hno r j)
    have hold : (s i).got r j = none := by
      by_contra hsome
      obtain ⟨m, hm⟩ := Option.ne_none_iff_exists'.mp hsome
      exact hrj (by rw [hm, hext r j m hm])
    obtain ⟨m, hm⟩ := Option.ne_none_iff_exists'.mp (hold ▸ hrj)
    have hsent : j < S.n ∧ (s j).sent r i = some m := by
      rcases hwire r j m hm with hm' | hm'
      · rw [hold] at hm'
        cases hm'
      · exact hm'
    have hr : r < k := (h.honest j hsent.1 (hh j hsent.1)).sent_lt hsent.2
    refine total_update_lt hi (weight_deliver (l := s i) hext hr hsent.1 hold ?_)
    rw [hm]
    rfl

/-- **Honest runs.** If every party follows the script, every run returns the script's
    values. -/
theorem completes_of_follows (hh : ∀ i < S.n, ¬ S.corrupt i)
    (hf : ∀ i < S.n, Follows S.n i M k (res i) (S.prog i)) : Completes S res := by
  have hon : ∀ s, Reachable S s → OnTrack S M k res s := fun s hs =>
    hs.rec_on (OnTrack.init hh hf) fun _ _ h hstep => h.step hstep
  refine ⟨fun s hs i hi x hx => (hon s hs).returned_eq hi (hh i hi) hx, fun s hs hstuck => ?_,
    fun s hs => ?_, fun f h0 hf => ?_⟩
  · by_contra hnot
    push Not at hnot
    obtain ⟨i, hi, hret⟩ := hnot
    obtain ⟨s', hs', -⟩ := (hon s hs).progress ⟨i, hi, hh i hi, hret⟩
    exact hstuck s' hs'
  · obtain ⟨s', hs', -, hret⟩ := (hon s hs).finish
    exact ⟨s', hs', fun i hi => hret i hi (hh i hi)⟩
  -- an endless run would lower the weight for ever
  · have hreach : ∀ t, Reachable S (f t) := by
      intro t
      induction t with
      | zero => rw [h0]; exact .refl
      | succ t ih => exact ih.tail (hf t)
    have hdrop : ∀ t, total S k (f t) + t ≤ total S k (f 0) := by
      intro t
      induction t with
      | zero => exact Nat.le_refl _
      | succ t ih =>
        have := (hon _ (hreach t)).total_lt hh (hf t)
        omega
    have := hdrop (total S k (f 0) + 1)
    omega

end Honest

/-! ### Scripts of an adversary -/

section Adversary

variable {S : Setup Msg R} {M : (r : ℕ) → ℕ → ℕ → Msg r} {k : ℕ} {res : ℕ → R}

open Classical in
/-- The state in which the corrupt parties below `m` have sent their whole script. -/
noncomputable def injected (S : Setup Msg R) (M : (r : ℕ) → ℕ → ℕ → Msg r) (m : ℕ) : Net Msg R :=
  fun i => if i < m ∧ S.corrupt i then { S.init i with sent := fun r j => some (M r i j) }
    else S.init i

theorem injected_reachable
    (hrel : ∀ c, S.corrupt c → ∀ r, S.reliable r → ∀ j j', M r c j = M r c j') :
    ∀ m ≤ S.n, Reachable S (injected S M m) := by
  intro m
  induction m with
  | zero =>
    intro _
    have h0 : injected S M 0 = S.init := by
      funext i
      exact if_neg fun h => Nat.not_lt_zero i h.1
    rw [h0]
    exact .refl
  | succ m ih =>
    intro hm
    have hprev := ih (by omega)
    have hm0 : injected S M m m = S.init m := if_neg fun h => lt_irrefl m h.1
    -- party `m` sends its whole script in one step, if it is corrupt
    by_cases hc : S.corrupt m
    · have hnext : injected S M (m + 1) = Function.update (injected S M m) m
          { S.init m with sent := fun r j => some (M r m j) } := by
        funext i
        by_cases him : i = m
        · subst him
          rw [Function.update_self]
          exact if_pos ⟨Nat.lt_succ_self i, hc⟩
        · rw [Function.update_of_ne him]
          unfold injected
          by_cases hi : i < m ∧ S.corrupt i
          · rw [if_pos hi, if_pos ⟨Nat.lt_succ_of_lt hi.1, hi.2⟩]
          · rw [if_neg hi, if_neg fun h => hi ⟨by omega, h.2⟩]
      rw [hnext]
      refine hprev.tail ⟨m, _, ?_, rfl⟩
      rw [← hm0]
      refine .inject (by omega) hc (fun r j x hx => ?_) (fun r hr j j' x x' hx hx' => ?_)
        fun heq => ?_
      · rw [hm0] at hx
        cases hx
      · exact (Option.some.inj hx).symm.trans ((hrel m hc r hr j j').trans (Option.some.inj hx'))
      · rw [hm0] at heq
        cases congrFun (congrFun heq 0) 0
    · have hnext : injected S M (m + 1) = injected S M m := by
        funext i
        unfold injected
        by_cases hi : i < m ∧ S.corrupt i
        · rw [if_pos hi, if_pos ⟨Nat.lt_succ_of_lt hi.1, hi.2⟩]
        · rw [if_neg hi, if_neg]
          rintro ⟨him, hci⟩
          rcases Nat.lt_succ_iff_lt_or_eq.mp him with him | rfl
          · exact hi ⟨him, hci⟩
          · exact hc hci
      rw [hnext]
      exact hprev

/-- **A script is carried out by some run.**  The corrupt parties send what the script says
    and every honest party returns its value of the script. -/
theorem exists_run
    (hrel : ∀ c, S.corrupt c → ∀ r, S.reliable r → ∀ j j', M r c j = M r c j')
    (hf : ∀ i < S.n, ¬ S.corrupt i → Follows S.n i M k (res i) (S.prog i)) :
    ∃ s, Reachable S s ∧ OnTrack S M k res s ∧
      ∀ i < S.n, ¬ S.corrupt i → s.Returned i (res i) := by
  have hreach := injected_reachable hrel S.n (Nat.le_refl _)
  have hon : OnTrack S M k res (injected S M S.n) := by
    refine ⟨hreach.sound, fun i hi hh => ?_, fun i hi hc r _ j _ _ => ?_⟩
    · rw [show injected S M S.n i = S.init i from if_neg fun h => hh h.2]
      exact .ready rfl (hf i hi hh) (fun r' hr' => absurd hr' (Nat.not_lt_zero r')) fun _ _ _ => rfl
    · rw [show injected S M S.n i = { S.init i with sent := fun r j => some (M r i j) } from
        if_pos ⟨hi, hc⟩]
  obtain ⟨s, hs, hon', hret⟩ := hon.finish
  exact ⟨s, hreach.trans hs, hon', hret⟩

end Adversary

end Rounds
