import Govis.Rounds.Script

namespace Rounds

/-!
# Parties in lockstep

In lockstep every party sends its messages of a round, and then all of them receive those of that
round.  Nothing is left to chance: what a party receives follows from the programs.

* `Proc.outAt` — the message that a program has on the wire for a party in a round;
* `Setup.lockstep`, `Setup.lockstepInbox` — what is sent and what is received in lockstep;
* `Reachable.got_eq_lockstep`, `Reachable.result_eq_lockstep` — if nobody is corrupt, a run in any
  order of delivery shows every party what it sees in lockstep, and returns the same;
* `Proc.Tidy` — programs that send once in a round, the same to everybody where the round is a
  broadcast.
-/

variable {Msg : ℕ → Type} {R : Type}

/-! ### What a program sends -/

namespace Proc

/-- The message that a program puts on the wire for party `j` in round `r'`; the first one stands. -/
def outAt (inb : Inbox Msg) : {r : ℕ} → Proc Msg R r → (r' : ℕ) → ℕ → Option (Msg r')
  | _, .done _, _, _ => none
  | r, .send out next, r', j =>
    if h : r = r' then (h ▸ out j : Option (Msg r')).or (outAt inb next r' j)
    else outAt inb next r' j
  | r, .recv next, r', j => outAt inb (next (inb r)) r' j

variable {inb inb' : Inbox Msg} {r r' j : ℕ}

@[simp] theorem outAt_done (res : R) : outAt inb (.done res : Proc Msg R r) r' j = none := rfl

@[simp] theorem outAt_recv (next : List (ℕ × Msg r) → Proc Msg R (r + 1)) :
    outAt inb (.recv next) r' j = outAt inb (next (inb r)) r' j := rfl

@[simp] theorem outAt_send_self (out : ℕ → Option (Msg r)) (next : Proc Msg R r) :
    outAt inb (.send out next) r j = (out j).or (outAt inb next r j) := dif_pos rfl

theorem outAt_send_of_ne (out : ℕ → Option (Msg r)) (next : Proc Msg R r) (hr : r ≠ r') :
    outAt inb (.send out next) r' j = outAt inb next r' j := dif_neg hr

/-- Nothing is sent in rounds that are over. -/
theorem outAt_of_lt (p : Proc Msg R r) (hr : r' < r) : outAt inb p r' j = none := by
  induction p with
  | done res => rfl
  | send out next ih =>
    rw [outAt_send_of_ne _ _ (Nat.ne_of_gt hr)]
    exact ih hr
  | recv next ih => exact ih _ (Nat.lt_succ_of_lt hr)

/-- What is sent in a round depends on the earlier ones. -/
theorem outAt_congr (p : Proc Msg R r) (h : ∀ r'' < r', inb r'' = inb' r'') :
    outAt inb p r' j = outAt inb' p r' j := by
  induction p with
  | done res => rfl
  | @send r out next ih =>
    by_cases hr : r = r'
    · subst hr
      rw [outAt_send_self, outAt_send_self, ih]
    · rw [outAt_send_of_ne _ _ hr, outAt_send_of_ne _ _ hr, ih]
  | @recv r next ih =>
    rw [outAt_recv, outAt_recv]
    rcases Nat.lt_or_ge r r' with hr | hr
    · rw [← h r hr]
      exact ih _
    -- the round that is received is not before the one that is asked for
    · rw [outAt_of_lt _ (Nat.lt_succ_of_le hr), outAt_of_lt _ (Nat.lt_succ_of_le hr)]

/-- The value a program ends with depends on the rounds that it completes. -/
theorem exec_congr (p : Proc Msg R r) (h : ∀ r'' < p.ends inb, inb r'' = inb' r'') :
    exec inb p = exec inb' p := by
  induction p with
  | done res => rfl
  | send out next ih => exact ih h
  | @recv r next ih =>
    have hr : inb r = inb' r := h r (le_ends inb (next (inb r)))
    rw [exec_recv, exec_recv, ← hr]
    exact ih _ h

end Proc

/-! ### Programs that send once in a round -/

namespace Proc

variable {E α β : Type} {broadcast : ℕ → Prop} {r : ℕ}

/-- The program is not about to send. -/
def Quiet : {r : ℕ} → Proc Msg R r → Prop
  | _, .send _ _ => False
  | _, .done _ => True
  | _, .recv _ => True

/-- The program sends once in a round, and in a broadcast the same to everybody. -/
def Tidy (broadcast : ℕ → Prop) : {r : ℕ} → Proc Msg R r → Prop
  | _, .done _ => True
  | r, .send out next => (broadcast r → ∀ j j', out j = out j') ∧ next.Quiet ∧ Tidy broadcast next
  | _, .recv next => ∀ msgs, Tidy broadcast (next msgs)

/-- Sending and waiting. -/
theorem tidy_send_recv {out : ℕ → Option (Msg r)} {next : List (ℕ × Msg r) → Proc Msg R (r + 1)}
    (hout : broadcast r → ∀ j j', out j = out j') (hnext : ∀ msgs, (next msgs).Tidy broadcast) :
    Tidy broadcast (.send out (.recv next)) := ⟨hout, trivial, hnext⟩

theorem quiet_attempt {x : Except E α} {next : α → Proc Msg (Except E β) r}
    (hnext : ∀ a, (next a).Quiet) : (attempt x next).Quiet := by
  cases x with
  | ok a => exact hnext a
  | error e => trivial

theorem tidy_attempt {x : Except E α} {next : α → Proc Msg (Except E β) r}
    (hnext : ∀ a, (next a).Tidy broadcast) : (attempt x next).Tidy broadcast := by
  cases x with
  | ok a => exact hnext a
  | error e => trivial

theorem Quiet.map {R' : Type} (f : R → R') {p : Proc Msg R r} (h : p.Quiet) :
    (Proc.map f p).Quiet := by
  cases p with
  | send out next => exact h
  | done res => trivial
  | recv next => trivial

theorem Tidy.map {R' : Type} (f : R → R') {p : Proc Msg R r} (h : p.Tidy broadcast) :
    (Proc.map f p).Tidy broadcast := by
  induction p with
  | done res => trivial
  | send out next ih => exact ⟨h.1, h.2.1.map f, ih h.2.2⟩
  | recv next ih => exact fun msgs => ih msgs (h msgs)

end Proc

/-! ### Lockstep -/

/-- What the parties have received after `k` rounds of lockstep. -/
def Setup.lockInbox (S : Setup Msg R) : ℕ → ℕ → Inbox Msg
  | 0, _ => fun _ => []
  | k + 1, i => fun r => collect S.n i fun j => (S.prog j).outAt (S.lockInbox k j) r i

/-- What party `i` sends to party `j` in round `r`, in lockstep. -/
def Setup.lockstep (S : Setup Msg R) (r i j : ℕ) : Option (Msg r) :=
  (S.prog i).outAt (S.lockInbox r i) r j

/-- What the rounds hand to party `i` in lockstep. -/
def Setup.lockstepInbox (S : Setup Msg R) (i : ℕ) : Inbox Msg := fun r =>
  collect S.n i fun j => S.lockstep r j i

variable {S : Setup Msg R}

/-- A round does not change any more once it is over. -/
theorem Setup.lockInbox_eq {k r : ℕ} (hr : r < k) (i : ℕ) :
    S.lockInbox k i r = S.lockstepInbox i r := by
  induction r using Nat.strong_induction_on generalizing k i with
  | _ r ih =>
    obtain _ | k := k
    · cases hr
    refine collect_congr fun j _ _ => (S.prog j).outAt_congr fun r' hr' => ?_
    rw [ih r' hr' (lt_of_lt_of_le hr' (Nat.le_of_lt_succ hr)), ih r' hr' hr']

/-- **Lockstep** is what the programs send when they receive what they send. -/
theorem Setup.outAt_lockstepInbox (r i j : ℕ) :
    (S.prog i).outAt (S.lockstepInbox i) r j = S.lockstep r i j :=
  (S.prog i).outAt_congr fun _ hr => (S.lockInbox_eq hr i).symm

/-! ### Runs in any order -/

/-- What a party has sent and what its program will send. -/
def Local.Emits (S : Setup Msg R) (i : ℕ) (l : Local Msg R) : Prop :=
  ∀ inb, l.Agrees S.n i inb → ∀ r j,
    (S.prog i).outAt inb r j = (l.sent r j).or (l.code.2.outAt inb r j)

theorem Local.Emits.init (i : ℕ) : (S.init i).Emits S i := fun _ _ _ _ => rfl

theorem Local.Emits.send {i : ℕ} {l : Local Msg R} {r : ℕ} {out : ℕ → Option (Msg r)}
    {next : Proc Msg R r} (h : l.Emits S i) (hc : l.code = ⟨r, .send out next⟩) :
    (l.put out next).Emits S i := by
  obtain ⟨code, sent, got⟩ := l
  cases hc
  intro inb hin r' j
  rw [h inb hin r' j]
  by_cases hr : r' = r
  · subst hr
    rw [Local.put_sent_self, Proc.outAt_send_self, Option.or_assoc]
    rfl
  · rw [Local.put_sent_of_ne _ _ _ hr, Proc.outAt_send_of_ne _ _ (Ne.symm hr)]
    rfl

theorem Local.Emits.complete {i : ℕ} {l : Local Msg R} {r : ℕ}
    {next : List (ℕ × Msg r) → Proc Msg R (r + 1)} (h : l.Emits S i)
    (hc : l.code = ⟨r, .recv next⟩) :
    Local.Emits S i { l with code := ⟨r + 1, next (collect S.n i (l.got r))⟩ } := by
  obtain ⟨code, sent, got⟩ := l
  cases hc
  intro inb hin r' j
  have hr : inb r = collect S.n i (got r) := hin r (Nat.lt_succ_self r)
  rw [h inb (fun r'' hr'' => hin r'' (Nat.lt_succ_of_lt hr'')) r' j, Proc.outAt_recv, hr]

theorem Local.Emits.deliver {i : ℕ} {l : Local Msg R} {got' : (r : ℕ) → ℕ → Option (Msg r)}
    (h : l.Emits S i) (hon : l.Honest S i)
    (hext : ∀ r j m, l.got r j = some m → got' r j = some m) :
    Local.Emits S i { l with got := got' } := by
  intro inb hin r j
  refine h inb (fun r' hr' => ?_) r j
  rw [hin r' hr']
  exact inbox_eq_of_extends (hon.full r' hr') (hext r')

/-- **Step lemma.** -/
theorem LocalStep.emits {s : Net Msg R} {i : ℕ} {l : Local Msg R} (hl : LocalStep S s i l)
    (hon : (s i).Honest S i) (hh : ¬ S.corrupt i) (h : (s i).Emits S i) : l.Emits S i := by
  cases hl with
  | send _ _ hc => exact h.send hc
  | complete _ _ hc => exact h.complete hc
  | deliver _ hext => exact h.deliver hon hext
  | inject _ hcor => exact absurd hcor hh

/-- **Run lemma.** -/
theorem Reachable.emits {s : Net Msg R} (h : Reachable S s) {i : ℕ} (hi : i < S.n)
    (hh : ¬ S.corrupt i) : (s i).Emits S i := by
  induction h with
  | refl => exact Local.Emits.init i
  | @tail s s' hs hstep ih =>
    obtain ⟨k, l, hl, rfl⟩ := hstep
    by_cases hik : i = k
    · subst hik
      rw [Function.update_self]
      exact hl.emits (Reachable.sound hs |>.honest i hi hh) hh ih
    · rw [Function.update_of_ne hik]
      exact ih

variable {s : Net Msg R} {i : ℕ}

/-- A party whose rounds before `r` were those of lockstep sends the message of lockstep in round
    `r`. -/
theorem Local.Emits.sent_eq {l : Local Msg R} (h : l.Emits S i) {r j : ℕ} {m : Msg r}
    (hinbox : ∀ r' < r, l.inbox S.n i r' = S.lockstepInbox i r') (hm : l.sent r j = some m) :
    S.lockstep r i j = some m := by
  have hout := h (l.inbox S.n i) (fun _ _ => rfl) r j
  rw [hm, Option.some_or] at hout
  rw [← hout, ← S.outAt_lockstepInbox]
  exact ((S.prog i).outAt_congr hinbox).symm

/-- A full round of the messages of lockstep hands over the list of lockstep. -/
theorem Local.inbox_eq_lockstep {l : Local Msg R} {r : ℕ}
    (hfull : ∀ j < S.n, j ≠ i → ∃ m, l.got r j = some m)
    (hgot : ∀ j < S.n, j ≠ i → ∀ m, l.got r j = some m → S.lockstep r j i = some m) :
    l.inbox S.n i r = S.lockstepInbox i r := by
  refine collect_congr fun j hj hji => ?_
  obtain ⟨m, hm⟩ := hfull j hj hji
  rw [hm, hgot j hj hji m hm]

/-- **Any order of delivery** shows every party what it sees in lockstep. -/
theorem Reachable.got_eq_lockstep (h : Reachable S s) (hh : ∀ j < S.n, ¬ S.corrupt j) {r j : ℕ}
    {m : Msg r} (hm : (s i).got r j = some m) : S.lockstep r j i = some m := by
  induction r using Nat.strong_induction_on generalizing i j with
  | _ r ih =>
    obtain ⟨hj, hsent⟩ := h.sound.wire i r j m hm
    -- the sender had completed the rounds before this one
    refine (h.emits hj (hh j hj)).sent_eq (fun r' hr' => ?_) hsent
    exact Local.inbox_eq_lockstep (fun j' hj' hne => h.full_of_sent hj (hh j hj) hsent hr' hj' hne)
      fun j' _ _ m' hm' => ih r' hr' hm'

/-- **Any order of delivery** returns what lockstep does. -/
theorem Reachable.result_eq_lockstep (h : Reachable S s) (hh : ∀ j < S.n, ¬ S.corrupt j)
    (hi : i < S.n) {res : R} (hres : s.Returned i res) :
    (S.prog i).exec (S.lockstepInbox i) = res := by
  have hexec := h.sound.result hi (hh i hi) hres
  rw [← hexec]
  refine ((S.prog i).exec_congr fun r hr => ?_).symm
  exact Local.inbox_eq_lockstep (fun j hj hji => h.sound.full hi (hh i hi) hres hr hj hji)
    fun j _ _ m hm => h.got_eq_lockstep hh hm

/-- **Lockstep** ends as every run does. -/
theorem Completes.exec_lockstepInbox {res : ℕ → R} (h : Completes S res)
    (hh : ∀ j < S.n, ¬ S.corrupt j) (hi : i < S.n) : (S.prog i).exec (S.lockstepInbox i) = res i := by
  obtain ⟨s, hs, hret⟩ := h.reaches S.init .refl
  exact Reachable.result_eq_lockstep hs hh hi (hret i hi)

end Rounds
