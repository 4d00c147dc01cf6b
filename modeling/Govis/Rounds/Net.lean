import Govis.Rounds.Proc

namespace Rounds

/-!
# Asynchronous runs of a round-based protocol

`n` parties run their programs over a network that delivers messages in any order.  A
state gives every party's remaining program, what it has put on the wire and what has
arrived at it; one step lets one party act:

* an honest party puts the next messages of its program on the wire, or completes its
  current round once it holds one message from every other party;
* any of the messages in flight to a party arrive;
* a corrupt party puts any messages on the wire it has not sent yet.  In a round declared
  `reliable` what it sends to different parties agrees (reliable broadcast).

`Sound` collects what every reachable state satisfies: an honest party's program, what it
sent and what it returned are those of `Proc.exec` and `Proc.Sends` on the messages that
arrived, and nothing arrives that was not sent.
-/

variable {Msg : ℕ → Type} {R : Type}

/-- The parties of a network, their programs and who is corrupt. -/
structure Setup (Msg : ℕ → Type) (R : Type) where
  n : ℕ
  prog : ℕ → Proc Msg R 0
  corrupt : ℕ → Prop
  reliable : ℕ → Prop

/-- One party's part of the state: `sent r j` is what it has sent to `j` in round `r`, and
    `got r j` what has arrived from `j`. -/
structure Local (Msg : ℕ → Type) (R : Type) where
  code : (r : ℕ) × Proc Msg R r
  sent : (r : ℕ) → ℕ → Option (Msg r)
  got : (r : ℕ) → ℕ → Option (Msg r)

/-- The lists the rounds of party `i` hand to its program. -/
def Local.inbox (l : Local Msg R) (n i : ℕ) : Inbox Msg := fun r => collect n i (l.got r)

/-- Put `out` on the wire in round `r` and go on with `next`; the first message to a party
    stands. -/
def Local.put (l : Local Msg R) {r : ℕ} (out : ℕ → Option (Msg r)) (next : Proc Msg R r) :
    Local Msg R where
  code := ⟨r, next⟩
  sent := Function.update l.sent r fun j => (l.sent r j).or (out j)
  got := l.got

theorem Local.put_sent_self (l : Local Msg R) {r : ℕ} (out : ℕ → Option (Msg r))
    (next : Proc Msg R r) (j : ℕ) : (l.put out next).sent r j = (l.sent r j).or (out j) := by
  simp [Local.put]

theorem Local.put_sent_of_ne (l : Local Msg R) {r r' : ℕ} (out : ℕ → Option (Msg r))
    (next : Proc Msg R r) (hr : r' ≠ r) (j : ℕ) : (l.put out next).sent r' j = l.sent r' j := by
  simp [Local.put, Function.update_of_ne hr]

/-- A state of the network. -/
abbrev Net (Msg : ℕ → Type) (R : Type) := ℕ → Local Msg R

/-- The party `i` has returned `res`. -/
def Net.Returned (s : Net Msg R) (i : ℕ) (res : R) : Prop :=
  ∃ r, (s i).code = ⟨r, .done res⟩

/-- Nothing is sent yet. -/
def Setup.init (S : Setup Msg R) : Net Msg R := fun i =>
  { code := ⟨0, S.prog i⟩, sent := fun _ _ => none, got := fun _ _ => none }

/-- `LocalStep S s i l`: in state `s`, party `i` may move to `l`. -/
inductive LocalStep (S : Setup Msg R) (s : Net Msg R) (i : ℕ) : Local Msg R → Prop where
  | send {r : ℕ} {out : ℕ → Option (Msg r)} {next : Proc Msg R r}
      (hi : i < S.n) (hh : ¬ S.corrupt i) (hc : (s i).code = ⟨r, .send out next⟩) :
      LocalStep S s i ((s i).put out next)
  | complete {r : ℕ} {next : List (ℕ × Msg r) → Proc Msg R (r + 1)}
      (hi : i < S.n) (hh : ¬ S.corrupt i) (hc : (s i).code = ⟨r, .recv next⟩)
      (hfull : ∀ j < S.n, j ≠ i → ((s i).got r j).isSome) :
      LocalStep S s i { s i with code := ⟨r + 1, next (collect S.n i ((s i).got r))⟩ }
  | deliver {got' : (r : ℕ) → ℕ → Option (Msg r)} (hi : i < S.n)
      (hext : ∀ r j m, (s i).got r j = some m → got' r j = some m)
      (hwire : ∀ r j m, got' r j = some m →
        (s i).got r j = some m ∨ j < S.n ∧ (s j).sent r i = some m)
      (hne : got' ≠ (s i).got) :
      LocalStep S s i { s i with got := got' }
  | inject {sent' : (r : ℕ) → ℕ → Option (Msg r)} (hi : i < S.n) (hcor : S.corrupt i)
      (hext : ∀ r j m, (s i).sent r j = some m → sent' r j = some m)
      (hrel : ∀ r, S.reliable r → ∀ j j' m m',
        sent' r j = some m → sent' r j' = some m' → m = m')
      (hne : sent' ≠ (s i).sent) :
      LocalStep S s i { s i with sent := sent' }

/-- One step of the network: one party moves, every other one stays. -/
def Step (S : Setup Msg R) (s s' : Net Msg R) : Prop :=
  ∃ i l, LocalStep S s i l ∧ s' = Function.update s i l

/-- The states a run can reach. -/
def Reachable (S : Setup Msg R) (s : Net Msg R) : Prop :=
  Relation.ReflTransGen (Step S) S.init s

/-- **Induction over runs.** What holds initially and is preserved by every step of a
    reachable state holds in every reachable state. -/
theorem Reachable.rec_on {S : Setup Msg R} {P : Net Msg R → Prop} (h0 : P S.init)
    (hstep : ∀ s s', P s → Step S s s' → P s') {s : Net Msg R} (h : Reachable S s) : P s := by
  induction h with
  | refl => exact h0
  | tail _ hs ih => exact hstep _ _ ih hs

/-! ### The invariant of every run -/

/-- The list family `inb` hands over what `l` has in every round its program has completed. -/
def Local.Agrees (l : Local Msg R) (n i : ℕ) (inb : Inbox Msg) : Prop :=
  ∀ r < l.code.1, inb r = l.inbox n i r

/-- What holds of one honest party's part of the state. -/
structure Local.Honest (S : Setup Msg R) (i : ℕ) (l : Local Msg R) : Prop where
  /-- Completed rounds were full. -/
  full : ∀ r < l.code.1, ∀ j < S.n, j ≠ i → (l.got r j).isSome
  /-- The rest of the program computes what the whole program does. -/
  exec : ∀ inb, l.Agrees S.n i inb → (S.prog i).exec inb = l.code.2.exec inb
  /-- The rest of the program ends in the round the whole program ends in. -/
  ends : ∀ inb, l.Agrees S.n i inb → (S.prog i).ends inb = l.code.2.ends inb
  /-- What the rest of the program will send, the program sends. -/
  code : ∀ inb, l.Agrees S.n i inb → ∀ r j m, l.code.2.Sends inb r j m → (S.prog i).Sends inb r j m
  /-- What has been sent, the program sends. -/
  sent : ∀ inb, l.Agrees S.n i inb → ∀ r j m, l.sent r j = some m → (S.prog i).Sends inb r j m

/-- The invariant of every run. -/
structure Sound (S : Setup Msg R) (s : Net Msg R) : Prop where
  honest : ∀ i < S.n, ¬ S.corrupt i → (s i).Honest S i
  /-- Only what was sent arrives. -/
  wire : ∀ i r j m, (s i).got r j = some m → j < S.n ∧ (s j).sent r i = some m
  /-- Reliable rounds show every receiver the same. -/
  reliable : ∀ i, S.corrupt i → ∀ r, S.reliable r → ∀ j j' m m',
    (s i).sent r j = some m → (s i).sent r j' = some m' → m = m'

/-- A completed round keeps its list when more messages arrive. -/
theorem inbox_eq_of_extends {S : Setup Msg R} {i : ℕ} {l l' : Local Msg R} {r : ℕ}
    (hfull : ∀ j < S.n, j ≠ i → (l.got r j).isSome)
    (hext : ∀ j m, l.got r j = some m → l'.got r j = some m) :
    l'.inbox S.n i r = l.inbox S.n i r := by
  apply collect_congr
  intro j hj hji
  obtain ⟨m, hm⟩ := Option.isSome_iff_exists.mp (hfull j hj hji)
  rw [hm, hext j m hm]

section Steps

variable {S : Setup Msg R} {s : Net Msg R} {i : ℕ}

theorem Local.Honest.init : (S.init i).Honest S i where
  full r hr := absurd hr (Nat.not_lt_zero r)
  exec _ _ := rfl
  ends _ _ := rfl
  code _ _ _ _ _ h := h
  sent _ _ r j m h := by simp [Setup.init] at h

/-- Putting messages on the wire. -/
theorem Local.Honest.send {l : Local Msg R} {r : ℕ} {out : ℕ → Option (Msg r)}
    {next : Proc Msg R r} (h : l.Honest S i) (hc : l.code = ⟨r, .send out next⟩) :
    (l.put out next).Honest S i := by
  obtain ⟨code, sent, got⟩ := l
  cases hc
  refine ⟨h.full, fun inb hin => h.exec inb hin, fun inb hin => h.ends inb hin,
    fun inb hin r' j m hs => h.code inb hin r' j m (.later hs), fun inb hin r' j m hs => ?_⟩
  -- what is new was sent in the current round
  by_cases hr : r' = r
  · subst hr
    rw [Local.put_sent_self, Option.or_eq_some_iff] at hs
    rcases hs with hs | ⟨-, hs⟩
    · exact h.sent inb hin _ j m hs
    · exact h.code inb hin _ j m (.here hs)
  · rw [Local.put_sent_of_ne _ _ _ hr] at hs
    exact h.sent inb hin r' j m hs

/-- Completing a round. -/
theorem Local.Honest.complete {l : Local Msg R} {r : ℕ}
    {next : List (ℕ × Msg r) → Proc Msg R (r + 1)} (h : l.Honest S i)
    (hc : l.code = ⟨r, .recv next⟩) (hfull : ∀ j < S.n, j ≠ i → (l.got r j).isSome) :
    Local.Honest S i { l with code := ⟨r + 1, next (collect S.n i (l.got r))⟩ } := by
  obtain ⟨code, sent, got⟩ := l
  cases hc
  -- the lists that agree with the completed round agree with the earlier ones
  have hag : ∀ inb, Local.Agrees (R := R) ⟨⟨r + 1, next (collect S.n i (got r))⟩, sent, got⟩ S.n i inb →
      Local.Agrees (R := R) ⟨⟨r, .recv next⟩, sent, got⟩ S.n i inb ∧ inb r = collect S.n i (got r) :=
    fun inb hin => ⟨fun r' hr' => hin r' (Nat.lt_succ_of_lt hr'), hin r (Nat.lt_succ_self r)⟩
  refine ⟨fun r' hr' => ?_, fun inb hin => ?_, fun inb hin => ?_, fun inb hin r' j m hs => ?_,
    fun inb hin r' j m hs => ?_⟩
  · rcases Nat.lt_succ_iff_lt_or_eq.mp hr' with hr' | rfl
    · exact h.full r' hr'
    · exact hfull
  · obtain ⟨hold, hr⟩ := hag inb hin
    rw [h.exec inb hold, Proc.exec_recv, hr]
  · obtain ⟨hold, hr⟩ := hag inb hin
    rw [h.ends inb hold, Proc.ends_recv, hr]
  · obtain ⟨hold, hr⟩ := hag inb hin
    exact h.code inb hold r' j m (.round (by rw [hr]; exact hs))
  · exact h.sent inb (hag inb hin).1 r' j m hs

/-- Messages arriving. -/
theorem Local.Honest.deliver {l : Local Msg R} {got' : (r : ℕ) → ℕ → Option (Msg r)}
    (h : l.Honest S i) (hext : ∀ r j m, l.got r j = some m → got' r j = some m) :
    Local.Honest S i { l with got := got' } := by
  have hag : ∀ inb, Local.Agrees { l with got := got' } S.n i inb → l.Agrees S.n i inb := by
    intro inb hin r hr
    rw [hin r hr]
    exact inbox_eq_of_extends (h.full r hr) (hext r)
  refine ⟨fun r hr j hj hji => ?_, fun inb hin => h.exec inb (hag inb hin),
    fun inb hin => h.ends inb (hag inb hin), fun inb hin => h.code inb (hag inb hin), fun inb hin => h.sent inb (hag inb hin)⟩
  obtain ⟨m, hm⟩ := Option.isSome_iff_exists.mp (h.full r hr j hj hji)
  exact Option.isSome_iff_exists.mpr ⟨m, hext r j m hm⟩

/-- What a party has sent stays sent. -/
theorem LocalStep.sent_mono {l : Local Msg R} (h : LocalStep S s i l) {r j : ℕ} {m : Msg r}
    (hm : (s i).sent r j = some m) : l.sent r j = some m := by
  cases h with
  | @send r' out next hi hh hc =>
    by_cases hr : r = r'
    · subst hr
      rw [Local.put_sent_self, hm, Option.some_or]
    · rw [Local.put_sent_of_ne _ _ _ hr, hm]
  | complete => exact hm
  | deliver => exact hm
  | inject _ _ hext => exact hext r j m hm

/-- **Step lemma.** Every step preserves the invariant. -/
theorem Sound.step {s' : Net Msg R} (h : Sound S s) (hs : Step S s s') : Sound S s' := by
  obtain ⟨i, l, hl, rfl⟩ := hs
  refine ⟨fun k hk hkc => ?_, fun k r j m hm => ?_, fun k hk r hr j j' m m' hm hm' => ?_⟩
  -- only the party that moves can change
  · by_cases hki : k = i
    · subst hki
      rw [Function.update_self]
      have hold := h.honest k hk hkc
      cases hl with
      | send _ _ hc => exact hold.send hc
      | complete _ _ hc hfull => exact hold.complete hc hfull
      | deliver _ hext => exact hold.deliver hext
      | inject _ hcor => exact absurd hcor hkc
    · rw [Function.update_of_ne hki]
      exact h.honest k hk hkc
  · -- what had arrived was sent, and what arrives now is on the wire
    have hold : j < S.n ∧ (s j).sent r k = some m := by
      by_cases hki : k = i
      · subst hki
        rw [Function.update_self] at hm
        cases hl with
        | send => exact h.wire k r j m hm
        | complete => exact h.wire k r j m hm
        | inject => exact h.wire k r j m hm
        | deliver _ _ hwire =>
          rcases hwire r j m hm with hm | hm
          · exact h.wire k r j m hm
          · exact hm
      · rw [Function.update_of_ne hki] at hm
        exact h.wire k r j m hm
    refine ⟨hold.1, ?_⟩
    by_cases hji : j = i
    · subst hji
      rw [Function.update_self]
      exact hl.sent_mono hold.2
    · rw [Function.update_of_ne hji]
      exact hold.2
  · by_cases hki : k = i
    · subst hki
      rw [Function.update_self] at hm hm'
      cases hl with
      | send _ hh => exact absurd hk hh
      | complete _ hh => exact absurd hk hh
      | deliver => exact h.reliable k hk r hr j j' m m' hm hm'
      | inject _ _ _ hrel => exact hrel r hr j j' m m' hm hm'
    · rw [Function.update_of_ne hki] at hm hm'
      exact h.reliable k hk r hr j j' m m' hm hm'

end Steps

/-- **Run lemma.** Every reachable state is sound. -/
theorem Reachable.sound {S : Setup Msg R} {s : Net Msg R} (h : Reachable S s) : Sound S s := by
  refine h.rec_on ⟨fun i _ _ => Local.Honest.init, ?_, ?_⟩ fun s s' hs hstep => hs.step hstep
  · intro i r j m hm
    simp [Setup.init] at hm
  · intro i _ r _ j j' m m' hm
    simp [Setup.init] at hm

/-! ### Reading results off a reachable state -/

section Results

variable {S : Setup Msg R} {s : Net Msg R} {i j : ℕ} {res : R}

/-- What an honest party returned is what its program computes from what arrived. -/
theorem Sound.result (h : Sound S s) (hi : i < S.n) (hh : ¬ S.corrupt i)
    (hres : s.Returned i res) : (S.prog i).exec ((s i).inbox S.n i) = res := by
  obtain ⟨r, hc⟩ := hres
  rw [(h.honest i hi hh).exec _ fun _ _ => rfl, hc, Proc.exec_done]

/-- The rounds a returned program has completed were full. -/
theorem Sound.full (h : Sound S s) (hi : i < S.n) (hh : ¬ S.corrupt i) (hres : s.Returned i res)
    {r : ℕ} (hr : r < (S.prog i).ends ((s i).inbox S.n i)) (hj : j < S.n) (hji : j ≠ i) :
    ∃ m, (s i).got r j = some m := by
  obtain ⟨r', hc⟩ := hres
  rw [(h.honest i hi hh).ends _ fun _ _ => rfl, hc, Proc.ends_done] at hr
  exact Option.isSome_iff_exists.mp ((h.honest i hi hh).full r (by rw [hc]; exact hr) j hj hji)

/-- What an honest party has sent, its program sends. -/
theorem Sound.sends_of_sent (h : Sound S s) {r : ℕ} {m : Msg r} (hj : j < S.n) (hh : ¬ S.corrupt j)
    (hm : (s j).sent r i = some m) : (S.prog j).Sends ((s j).inbox S.n j) r i m :=
  (h.honest j hj hh).sent _ (fun _ _ => rfl) r i m hm

/-- What has arrived from an honest party, that party's program sent. -/
theorem Sound.sends (h : Sound S s) {r : ℕ} {m : Msg r} (hj : j < S.n) (hh : ¬ S.corrupt j)
    (hm : (s i).got r j = some m) : (S.prog j).Sends ((s j).inbox S.n j) r i m :=
  h.sends_of_sent hj hh (h.wire i r j m hm).2

/-- **Rounds in order.** An honest party that has sent in a round has completed the earlier ones. -/
theorem Reachable.sent_le (h : Reachable S s) (hh : ¬ S.corrupt i) {r : ℕ} {m : Msg r}
    (hm : (s i).sent r j = some m) : r ≤ (s i).code.1 := by
  refine Reachable.rec_on
    (P := fun s => ∀ (r : ℕ) (m : Msg r), (s i).sent r j = some m → r ≤ (s i).code.1)
    (fun r m hm => ?_) (fun s s' ih hs r m hm => ?_) h r m hm
  · cases hm
  · obtain ⟨k, l, hl, rfl⟩ := hs
    by_cases hik : i = k
    · subst hik
      rw [Function.update_self] at hm ⊢
      cases hl with
      | @send r' out next _ _ hc =>
        -- what is new is sent in the current round
        show r ≤ r'
        by_cases hr : r = r'
        · exact le_of_eq hr
        · rw [Local.put_sent_of_ne _ _ _ hr] at hm
          have hle := ih r m hm
          rwa [hc] at hle
      | complete _ _ hc =>
        have hle := ih r m hm
        rw [hc] at hle
        exact Nat.le_succ_of_le hle
      | deliver => exact ih r m hm
      | inject _ hcor => exact absurd hcor hh
    · rw [Function.update_of_ne hik] at hm ⊢
      exact ih r m hm

/-- The rounds before one in which an honest party has sent were full. -/
theorem Reachable.full_of_sent (h : Reachable S s) (hi : i < S.n) (hh : ¬ S.corrupt i) {r r' k : ℕ}
    {m : Msg r} (hm : (s i).sent r k = some m) (hr : r' < r) (hj : j < S.n) (hji : j ≠ i) :
    ∃ m', (s i).got r' j = some m' :=
  Option.isSome_iff_exists.mp ((h.sound.honest i hi hh).full r'
    (lt_of_lt_of_le hr (h.sent_le hh hm)) j hj hji)

/-- Two parties see the same message of a corrupt party in a reliable round. -/
theorem Sound.reliable_eq (h : Sound S s) {r k : ℕ} {m m' : Msg r} (hk : S.corrupt k)
    (hr : S.reliable r) (hm : (s i).got r k = some m) (hm' : (s j).got r k = some m') : m = m' :=
  h.reliable k hk r hr i j m m' (h.wire i r k m hm).2 (h.wire j r k m' hm').2

end Results

end Rounds
