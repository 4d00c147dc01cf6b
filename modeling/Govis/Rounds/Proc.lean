import Mathlib.Algebra.BigOperators.Group.Finset.Basic
import Mathlib.Logic.Relation

namespace Rounds

/-!
# Round-based parties

A party of a round-based protocol is a program that alternates between putting messages
on the wire and waiting for one message from every other party.  `Proc Msg R r` is the
rest of such a program while it is in round `r`, where round `r` carries messages of type
`Msg r` and the program ends with a value of type `R`.

* `Proc.exec` — the value a program ends with, as a function of the messages it is given,
  and `Proc.ends`, the round it ends in;
* `Proc.Sends` — the messages it puts on the wire, as a relation on the same messages;
* `collect` — the list a completed round hands to the program: one entry for every other
  party, in increasing order of the sender.
-/

/-- The rest of a party's program in round `r`. -/
inductive Proc (Msg : ℕ → Type) (R : Type) : ℕ → Type where
  /-- The party has returned. -/
  | done {r : ℕ} (res : R) : Proc Msg R r
  /-- Put `out j` on the wire for every party `j` it is defined at. -/
  | send {r : ℕ} (out : ℕ → Option (Msg r)) (next : Proc Msg R r) : Proc Msg R r
  /-- Wait for the messages of round `r`. -/
  | recv {r : ℕ} (next : List (ℕ × Msg r) → Proc Msg R (r + 1)) : Proc Msg R r

/-- The messages of every round, as one party receives them. -/
abbrev Inbox (Msg : ℕ → Type) := (r : ℕ) → List (ℕ × Msg r)

variable {Msg : ℕ → Type} {R E α β : Type}

namespace Proc

/-- The value a program ends with when the rounds hand it the lists of `inb`. -/
def exec (inb : Inbox Msg) : {r : ℕ} → Proc Msg R r → R
  | _, .done res => res
  | _, .send _ next => exec inb next
  | r, .recv next => exec inb (next (inb r))

@[simp] theorem exec_done (inb : Inbox Msg) {r : ℕ} (res : R) :
    exec inb (.done res : Proc Msg R r) = res := rfl

@[simp] theorem exec_send (inb : Inbox Msg) {r : ℕ} (out : ℕ → Option (Msg r))
    (next : Proc Msg R r) : exec inb (.send out next) = exec inb next := rfl

@[simp] theorem exec_recv (inb : Inbox Msg) {r : ℕ}
    (next : List (ℕ × Msg r) → Proc Msg R (r + 1)) :
    exec inb (.recv next) = exec inb (next (inb r)) := rfl

/-- The round a program ends in: it has completed all earlier ones. -/
def ends (inb : Inbox Msg) : {r : ℕ} → Proc Msg R r → ℕ
  | r, .done _ => r
  | _, .send _ next => ends inb next
  | r, .recv next => ends inb (next (inb r))

@[simp] theorem ends_done (inb : Inbox Msg) {r : ℕ} (res : R) :
    ends inb (.done res : Proc Msg R r) = r := rfl

@[simp] theorem ends_send (inb : Inbox Msg) {r : ℕ} (out : ℕ → Option (Msg r))
    (next : Proc Msg R r) : ends inb (.send out next) = ends inb next := rfl

@[simp] theorem ends_recv (inb : Inbox Msg) {r : ℕ}
    (next : List (ℕ × Msg r) → Proc Msg R (r + 1)) :
    ends inb (.recv next) = ends inb (next (inb r)) := rfl

theorem le_ends (inb : Inbox Msg) {r : ℕ} (p : Proc Msg R r) : r ≤ ends inb p := by
  induction p with
  | done res => exact Nat.le_refl _
  | send out next ih => exact ih
  | recv next ih => exact le_trans (Nat.le_succ _) (ih (inb _))

/-- `Sends inb p r j m`: given the lists of `inb`, the program `p` puts `m` on the wire
    for party `j` in round `r`. -/
inductive Sends (inb : Inbox Msg) : {r : ℕ} → Proc Msg R r → (r' : ℕ) → ℕ → Msg r' → Prop where
  | here {r : ℕ} {out : ℕ → Option (Msg r)} {next : Proc Msg R r} {j : ℕ} {m : Msg r} :
      out j = some m → Sends inb (.send out next) r j m
  | later {r : ℕ} {out : ℕ → Option (Msg r)} {next : Proc Msg R r} {r' j : ℕ} {m : Msg r'} :
      Sends inb next r' j m → Sends inb (.send out next) r' j m
  | round {r : ℕ} {next : List (ℕ × Msg r) → Proc Msg R (r + 1)} {r' j : ℕ} {m : Msg r'} :
      Sends inb (next (inb r)) r' j m → Sends inb (.recv next) r' j m

@[simp] theorem not_sends_done (inb : Inbox Msg) {r r' j : ℕ} (res : R) (m : Msg r') :
    ¬ Sends inb (.done res : Proc Msg R r) r' j m := by
  intro h
  cases h

theorem sends_recv_iff (inb : Inbox Msg) {r r' j : ℕ} {m : Msg r'}
    (next : List (ℕ × Msg r) → Proc Msg R (r + 1)) :
    Sends inb (.recv next) r' j m ↔ Sends inb (next (inb r)) r' j m := by
  constructor
  · intro h
    cases h with
    | round h => exact h
  · exact .round

/-- What a program sends belongs to its current round or a later one. -/
theorem Sends.le {inb : Inbox Msg} {r r' j : ℕ} {p : Proc Msg R r} {m : Msg r'}
    (h : Sends inb p r' j m) : r ≤ r' := by
  induction h with
  | here _ => exact Nat.le_refl _
  | later _ ih => exact ih
  | round _ ih => omega

theorem sends_send_iff_of_lt (inb : Inbox Msg) {r r' j : ℕ} (hr : r < r') {m : Msg r'}
    (out : ℕ → Option (Msg r)) (next : Proc Msg R r) :
    Sends inb (.send out next) r' j m ↔ Sends inb next r' j m := by
  constructor
  · intro h
    cases h with
    | here _ => exact absurd hr (Nat.lt_irrefl _)
    | later h => exact h
  · exact .later

/-- A program that sends once in its current round sends exactly that. -/
theorem sends_send_recv_iff (inb : Inbox Msg) {r j : ℕ} {m : Msg r}
    (out : ℕ → Option (Msg r)) (next : List (ℕ × Msg r) → Proc Msg R (r + 1)) :
    Sends inb (.send out (.recv next)) r j m ↔ out j = some m := by
  constructor
  · intro h
    cases h with
    | here h => exact h
    | later h =>
      have := ((sends_recv_iff inb next).mp h).le
      omega
  · exact .here

/-- Pass the value a program ends with through `f`. -/
def map {R' : Type} (f : R → R') : {r : ℕ} → Proc Msg R r → Proc Msg R' r
  | _, .done res => .done (f res)
  | _, .send out next => .send out (map f next)
  | _, .recv next => .recv fun msgs => map f (next msgs)

section Map

variable {R' : Type} (f : R → R')

@[simp] theorem map_done {r : ℕ} (res : R) :
    map f (.done res : Proc Msg R r) = .done (f res) := rfl

@[simp] theorem map_send {r : ℕ} (out : ℕ → Option (Msg r)) (next : Proc Msg R r) :
    map f (.send out next) = .send out (map f next) := rfl

@[simp] theorem map_recv {r : ℕ} (next : List (ℕ × Msg r) → Proc Msg R (r + 1)) :
    map f (.recv next) = .recv fun msgs => map f (next msgs) := rfl

@[simp] theorem exec_map (inb : Inbox Msg) {r : ℕ} (p : Proc Msg R r) :
    exec inb (map f p) = f (exec inb p) := by
  induction p with
  | done res => rfl
  | send out next ih => exact ih
  | recv next ih => exact ih (inb _)

@[simp] theorem ends_map (inb : Inbox Msg) {r : ℕ} (p : Proc Msg R r) :
    ends inb (map f p) = ends inb p := by
  induction p with
  | done res => rfl
  | send out next ih => exact ih
  | recv next ih => exact ih (inb _)

theorem map_id {r : ℕ} (p : Proc Msg R r) : map id p = p := by
  induction p with
  | done res => rfl
  | send out next ih => rw [map_send, ih]
  | recv next ih => rw [map_recv, funext ih]

theorem sends_map_iff (inb : Inbox Msg) {r r' j : ℕ} {m : Msg r'} (p : Proc Msg R r) :
    Sends inb (map f p) r' j m ↔ Sends inb p r' j m := by
  induction p with
  | done res => simp
  | send out next ih =>
    constructor
    · intro h
      cases h with
      | here h => exact .here h
      | later h => exact .later (ih.mp h)
    · intro h
      cases h with
      | here h => exact .here h
      | later h => exact .later (ih.mpr h)
  | recv next ih =>
    rw [map_recv, sends_recv_iff, sends_recv_iff]
    exact ih (inb _)

end Map

/-- Continue with the value of a computation that may fail, and return its error otherwise. -/
def attempt {r : ℕ} (x : Except E α) (next : α → Proc Msg (Except E β) r) :
    Proc Msg (Except E β) r :=
  match x with
  | .ok a => next a
  | .error e => .done (.error e)

@[simp] theorem attempt_ok {r : ℕ} (a : α) (next : α → Proc Msg (Except E β) r) :
    attempt (.ok a) next = next a := rfl

@[simp] theorem attempt_error {r : ℕ} (e : E) (next : α → Proc Msg (Except E β) r) :
    attempt (.error e) next = .done (.error e) := rfl

/-- **Inversion.** A program that starts with `attempt x` returns `ok` only if `x` succeeded. -/
theorem exec_attempt_eq_ok {inb : Inbox Msg} {r : ℕ} {x : Except E α}
    {next : α → Proc Msg (Except E β) r} {b : β} :
    exec inb (attempt x next) = .ok b ↔ ∃ a, x = .ok a ∧ exec inb (next a) = .ok b := by
  cases x with
  | ok a => simp
  | error e => simp

/-- It returns an error only if `x` failed with it or the rest of the program does. -/
theorem exec_attempt_eq_error {inb : Inbox Msg} {r : ℕ} {x : Except E α}
    {next : α → Proc Msg (Except E β) r} {e : E} :
    exec inb (attempt x next) = .error e ↔
      x = .error e ∨ ∃ a, x = .ok a ∧ exec inb (next a) = .error e := by
  cases x with
  | ok a => simp
  | error e => simp

/-- A bound on the round in which a program that starts with `attempt x` ends. -/
theorem ends_attempt_le {inb : Inbox Msg} {r k : ℕ} {x : Except E α}
    {next : α → Proc Msg (Except E β) r} (hr : r ≤ k) (hnext : ∀ a, ends inb (next a) ≤ k) :
    ends inb (attempt x next) ≤ k := by
  cases x with
  | ok a => exact hnext a
  | error e => exact hr

/-- A program that starts with `attempt x` sends only if `x` succeeded. -/
theorem sends_attempt_iff {inb : Inbox Msg} {r r' j : ℕ} {m : Msg r'} {x : Except E α}
    {next : α → Proc Msg (Except E β) r} :
    Sends inb (attempt x next) r' j m ↔ ∃ a, x = .ok a ∧ Sends inb (next a) r' j m := by
  cases x with
  | ok a => simp
  | error e => simp

end Proc

/-! ### The list a completed round hands over -/

/-- The messages of one round at party `i`: `row j` is what has arrived from party `j`. -/
def collect {M : Type} (n i : ℕ) (row : ℕ → Option M) : List (ℕ × M) :=
  (List.range n).filterMap fun j => if j = i then none else (row j).map (Prod.mk j)

section Collect

variable {M : Type} {n i : ℕ} {row row' : ℕ → Option M}

theorem mem_collect {j : ℕ} {m : M} :
    (j, m) ∈ collect n i row ↔ j < n ∧ j ≠ i ∧ row j = some m := by
  simp only [collect, List.mem_filterMap, List.mem_range]
  constructor
  · rintro ⟨k, hk, h⟩
    split at h
    · cases h
    · rename_i hki
      obtain ⟨m', hm', heq⟩ := Option.map_eq_some_iff.mp h
      cases heq
      exact ⟨hk, hki, hm'⟩
  · rintro ⟨hj, hji, hm⟩
    exact ⟨j, hj, by rw [if_neg hji, hm]; rfl⟩

/-- A round depends only on what the other parties sent. -/
theorem collect_congr (h : ∀ j < n, j ≠ i → row j = row' j) :
    collect n i row = collect n i row' := by
  apply List.filterMap_congr
  intro j hj
  by_cases hji : j = i
  · rw [if_pos hji, if_pos hji]
  · rw [if_neg hji, if_neg hji, h j (List.mem_range.mp hj) hji]

/-- The other parties, in increasing order. -/
def others (n i : ℕ) : List ℕ := (List.range n).filter (· ≠ i)

theorem mem_others {d : ℕ} : d ∈ others n i ↔ d < n ∧ d ≠ i := by
  simp [others]

theorem exists_other (hn : 1 < n) (i : ℕ) : ∃ j < n, j ≠ i := by
  by_cases hi : i = 0
  · exact ⟨1, hn, by omega⟩
  · exact ⟨0, by omega, Ne.symm hi⟩

theorem nodup_others : (others n i).Nodup := List.nodup_range.filter _

/-- The parties before `i` keep their position among the others, and those after it move down
    by one. -/
theorem others_eq_append (hi : i < n) :
    others n i = List.range i ++ (List.range (n - 1 - i)).map (i + 1 + ·) := by
  have hn : n = i + (n - 1 - i + 1) := by omega
  -- cut the range at `i` and drop `i` itself
  rw [others, hn, List.range_add, List.filter_append, ← hn, List.range_succ_eq_map]
  congr 1
  · exact List.filter_eq_self.mpr fun d hd => by
      have := List.mem_range.mp hd
      simp only [ne_eq, decide_eq_true_eq]
      omega
  · simp only [List.map_cons, List.map_map, Nat.add_zero]
    rw [List.filter_cons_of_neg (by simp), List.filter_eq_self.mpr]
    · exact List.map_congr_left fun d _ => by
        simp only [Function.comp_apply]
        omega
    · intro d hd
      obtain ⟨k, -, rfl⟩ := List.mem_map.mp hd
      simp only [Function.comp_apply, ne_eq, decide_eq_true_eq]
      omega

/-- The position of party `j` among the others of `i`. -/
theorem getElem?_others {j : ℕ} (hi : i < n) (hj : j < n) (hji : j ≠ i) :
    (others n i)[if i < j then j - 1 else j]? = some j := by
  rw [others_eq_append hi]
  split
  · rename_i hlt
    rw [List.getElem?_append_right (by rw [List.length_range]; omega), List.length_range,
      List.getElem?_map, List.getElem?_range (by omega), Option.map_some, Option.some.injEq]
    omega
  · rename_i hge
    rw [List.getElem?_append_left (by rw [List.length_range]; omega), List.getElem?_range (by omega)]

/-- A sum over the other parties. -/
theorem sum_map_others {A : Type} [AddCommMonoid A] (n i : ℕ) (f : ℕ → A) :
    ((others n i).map f).sum = ∑ d ∈ (Finset.range n).erase i, f d := by
  rw [← List.sum_toFinset f nodup_others]
  refine Finset.sum_congr (Finset.ext fun d => ?_) fun _ _ => rfl
  simp [others, and_comm]

open Classical in
/-- The other parties of an honest one are the corrupt ones and the other honest ones. -/
theorem sum_erase_eq_corrupt {A : Type} [AddCommMonoid A] {corrupt : ℕ → Prop} (hi : ¬ corrupt i)
    (f : ℕ → A) :
    ∑ d ∈ (Finset.range n).erase i, f d = ∑ d ∈ (Finset.range n).filter corrupt, f d +
      ∑ d ∈ ((Finset.range n).erase i).filter (¬ corrupt ·), f d := by
  rw [← Finset.sum_filter_add_sum_filter_not ((Finset.range n).erase i) corrupt f]
  refine congrArg₂ (· + ·) (Finset.sum_congr (Finset.ext fun d => ?_) fun _ _ => rfl) rfl
  simp only [Finset.mem_filter, Finset.mem_erase]
  constructor
  · exact fun h => ⟨h.1.2, h.2⟩
  · exact fun h => ⟨⟨fun hdi => hi (hdi ▸ h.2), h.1⟩, h.2⟩

/-- **A full round** is a map over the other parties. -/
theorem collect_eq_map_others {f : ℕ → M} (h : ∀ d < n, d ≠ i → row d = some (f d)) :
    collect n i row = (others n i).map fun d => (d, f d) := by
  have hrow : collect n i row = collect n i fun d => some (f d) := collect_congr h
  rw [hrow, collect, others]
  induction List.range n with
  | nil => rfl
  | cons d l ih =>
    by_cases hdi : d = i
    · simpa [hdi] using ih
    · simpa [hdi] using ih

/-- The messages of a full round, as a function of the sender. -/
theorem exists_row [Nonempty M] (h : ∀ j < n, j ≠ i → ∃ m, row j = some m) :
    ∃ f : ℕ → M, ∀ j < n, j ≠ i → row j = some (f j) := by
  refine ⟨fun j => (row j).getD (Classical.arbitrary M), fun j hj hji => ?_⟩
  obtain ⟨m, hm⟩ := h j hj hji
  simp only [hm, Option.getD_some]

/-- Looking a sender up in a full round finds what it sent. -/
theorem find?_map_others (f : ℕ → M) {d : ℕ} (hd : d < n) (hdi : d ≠ i) :
    ((others n i).map fun d => (d, f d)).find? (fun e => decide (e.1 = d)) = some (d, f d) := by
  have hmem : (d, f d) ∈ (others n i).map fun d => (d, f d) :=
    List.mem_map_of_mem (mem_others.mpr ⟨hd, hdi⟩)
  -- some entry is for `d`, and the entry of `d` is the only such
  cases hf : ((others n i).map fun d => (d, f d)).find? (fun e => decide (e.1 = d)) with
  | none =>
    have := List.find?_eq_none.mp hf _ hmem
    simp at this
  | some e =>
    have hed : e.1 = d := by simpa using List.find?_some hf
    obtain ⟨d', -, rfl⟩ := List.mem_map.mp (List.mem_of_find?_eq_some hf)
    cases hed
    rfl

/-- The message of a sender in the list of a round. -/
def messageFrom (sender : ℕ) (msgs : List (ℕ × M)) : Option M :=
  (msgs.find? fun e => decide (e.1 = sender)).map Prod.snd

theorem mem_of_messageFrom {sender : ℕ} {msgs : List (ℕ × M)} {m : M}
    (h : messageFrom sender msgs = some m) : (sender, m) ∈ msgs := by
  obtain ⟨e, he, rfl⟩ := Option.map_eq_some_iff.mp h
  have hsender : e.1 = sender := by simpa using List.find?_some he
  rw [← hsender]
  exact List.mem_of_find?_eq_some he

/-- What is found has arrived. -/
theorem arrived_of_messageFrom {j : ℕ} {m : M} (h : messageFrom j (collect n i row) = some m) :
    row j = some m :=
  (mem_collect.mp (mem_of_messageFrom h)).2.2

/-- In the list of a round every other party's message is found. -/
theorem messageFrom_collect {j : ℕ} (hj : j < n) (hji : j ≠ i) :
    messageFrom j (collect n i row) = row j := by
  cases hf : messageFrom j (collect n i row) with
  | some m => exact (arrived_of_messageFrom hf).symm
  | none =>
    cases hrow : row j with
    | none => rfl
    | some m =>
      rw [messageFrom, Option.map_eq_none_iff, List.find?_eq_none] at hf
      exact absurd (decide_eq_true rfl) (hf (j, m) (mem_collect.mpr ⟨hj, hji, hrow⟩))

/-- In a full round every other party's message is found. -/
theorem messageFrom_map_others (f : ℕ → M) {d : ℕ} (hd : d < n) (hdi : d ≠ i) :
    messageFrom d ((others n i).map fun d => (d, f d)) = some (f d) := by
  rw [messageFrom, find?_map_others f hd hdi]
  rfl

/-- Recording one value for every sender of a round. -/
theorem getElem?_foldl_set {A : Type} (f : ℕ → A) (senders : List ℕ) (l : List A)
    (hlt : ∀ d ∈ senders, d < l.length) (j : ℕ) :
    (senders.foldl (fun l d => l.set d (f d)) l)[j]? = if j ∈ senders then some (f j) else l[j]? := by
  induction senders generalizing l with
  | nil => exact (if_neg List.not_mem_nil).symm
  | cons d senders ih =>
    rw [List.foldl_cons, ih (l.set d (f d)) fun e he => by
      rw [List.length_set]
      exact hlt e (List.mem_cons_of_mem _ he)]
    -- a later value for `j` overwrites an earlier one
    by_cases hj : j ∈ senders
    · rw [if_pos hj, if_pos (List.mem_cons_of_mem _ hj)]
    · rw [if_neg hj]
      by_cases hjd : j = d
      · subst hjd
        rw [if_pos List.mem_cons_self, List.getElem?_set_self (hlt j List.mem_cons_self)]
      · rw [List.getElem?_set_ne (Ne.symm hjd), if_neg]
        exact fun h => (List.mem_cons.mp h).elim hjd hj

end Collect

end Rounds
