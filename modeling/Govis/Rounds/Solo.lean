import Govis.Rounds.Net

namespace Rounds

/-!
# One honest party

What an honest party puts on the wire, and runs in which all the others are corrupt.

* `Reachable.sent_of_returned` — a party that has returned has sent what its program sends;
* `exists_solo_run` — against corrupt parties only, an honest party can be handed any messages,
  and its program runs to its end on them;
* `exists_second_round` — among honest parties that begin with a full round, each can get to send
  in the second one.
-/

variable {Msg : ℕ → Type} {R : Type} {S : Setup Msg R} {s : Net Msg R} {i : ℕ}

/-! ### What has been sent -/

/-- What the program of an honest party sends, it has sent or still has before it. -/
theorem Reachable.sent_or_sends (h : Reachable S s) (hh : ¬ S.corrupt i) (hi : i < S.n) :
    ∀ inb, (s i).Agrees S.n i inb → ∀ (r j : ℕ) (m : Msg r), (S.prog i).Sends inb r j m →
      ((s i).sent r j).isSome ∨ (s i).code.2.Sends inb r j m := by
  induction h with
  | refl => exact fun inb _ r j m hm => .inr hm
  | @tail s s' hs hstep ih =>
    obtain ⟨k, l, hl, rfl⟩ := hstep
    by_cases hik : i = k
    · subst hik
      rw [Function.update_self]
      have hfull := (Reachable.sound hs).honest i hi hh |>.full
      intro inb hin r j m hm
      cases hl with
      | @send r' out next _ _ hc =>
        have hold := ih inb (fun r₀ hr₀ => hin r₀ (by rw [hc] at hr₀; exact hr₀)) r j m hm
        rw [hc] at hold
        rcases hold with hsent | hsends
        · refine .inl ?_
          obtain ⟨m', hm'⟩ := Option.isSome_iff_exists.mp hsent
          rw [LocalStep.sent_mono (.send hi hh hc) hm']
          rfl
        · cases hsends with
          | here hout =>
            refine .inl ?_
            rw [Local.put_sent_self, hout, Option.isSome_or]
            exact Bool.or_true _
          | later hnext => exact .inr hnext
      | @complete r' next _ _ hc hround =>
        have hold := ih inb (fun r₀ hr₀ => hin r₀ (by
          rw [hc] at hr₀
          exact Nat.lt_succ_of_lt hr₀)) r j m hm
        rw [hc] at hold
        rcases hold with hsent | hsends
        · exact .inl hsent
        · refine .inr ?_
          rw [Proc.sends_recv_iff, hin r' (Nat.lt_succ_self r')] at hsends
          exact hsends
      | deliver _ hext =>
        -- the completed rounds keep their lists
        refine ih inb (fun r₀ hr₀ => ?_) r j m hm
        rw [hin r₀ hr₀]
        exact inbox_eq_of_extends (hfull r₀ hr₀) (hext r₀)
      | inject _ hcor => exact absurd hcor hh
    · rw [Function.update_of_ne hik]
      exact ih

/-- **A returned party** has sent everything its program sends on what has arrived. -/
theorem Reachable.sent_of_returned (h : Reachable S s) (hi : i < S.n) (hh : ¬ S.corrupt i) {res : R}
    (hres : s.Returned i res) {r j : ℕ} {m : Msg r}
    (hm : (S.prog i).Sends ((s i).inbox S.n i) r j m) :
    ∃ m', (s i).sent r j = some m' ∧ (S.prog i).Sends ((s i).inbox S.n i) r j m' := by
  obtain ⟨r', hc⟩ := hres
  rcases h.sent_or_sends hh hi _ (fun _ _ => rfl) r j m hm with hsent | hsends
  · obtain ⟨m', hm'⟩ := Option.isSome_iff_exists.mp hsent
    exact ⟨m', hm', (h.sound.honest i hi hh).sent _ (fun _ _ => rfl) r j m' hm'⟩
  · rw [hc] at hsends
    exact absurd hsends (Proc.not_sends_done _ _ _)

/-! ### Runs against corrupt parties -/

section Solo

variable {M : (r : ℕ) → ℕ → Msg r}

/-- The honest party `i` has everything that the corrupt ones are to send it. -/
def Served (S : Setup Msg R) (i : ℕ) (M : (r : ℕ) → ℕ → Msg r) (s : Net Msg R) : Prop :=
  ∀ r, ∀ j < S.n, j ≠ i → (s i).got r j = some (M r j)

/-- A served party runs to its end. -/
theorem exists_finish (hi : i < S.n) (hh : ¬ S.corrupt i) {r : ℕ} (p : Proc Msg R r)
    (hs : Reachable S s) (hserved : Served S i M s) (hc : (s i).code = ⟨r, p⟩) :
    ∃ s' res, Reachable S s' ∧ Served S i M s' ∧ s'.Returned i res := by
  induction p generalizing s with
  | done res => exact ⟨s, res, hs, hserved, _, hc⟩
  | send out next ih =>
    refine ih (s := Function.update s i ((s i).put out next))
      (hs.tail ⟨i, _, .send hi hh hc, rfl⟩) (fun r' j hj hji => ?_) ?_
    · rw [Function.update_self]
      exact hserved r' j hj hji
    · rw [Function.update_self]
      rfl
  | @recv r next ih =>
    have hfull : ∀ j < S.n, j ≠ i → ((s i).got r j).isSome := by
      intro j hj hji
      rw [hserved r j hj hji]
      rfl
    refine ih (collect S.n i ((s i).got r)) (s := Function.update s i { s i with
      code := ⟨r + 1, next (collect S.n i ((s i).got r))⟩ })
      (hs.tail ⟨i, _, .complete hi hh hc hfull, rfl⟩) (fun r' j hj hji => ?_) ?_
    · rw [Function.update_self]
      exact hserved r' j hj hji
    · rw [Function.update_self]

/-- The corrupt parties can put all their messages to `i` on the wire. -/
theorem exists_injected (hcor : ∀ j < S.n, j ≠ i → S.corrupt j) (b : ℕ) (hb : b ≤ S.n) :
    ∃ s, Reachable S s ∧ s i = S.init i ∧
      (∀ j < b, j ≠ i → ∀ r, (s j).sent r i = some (M r j)) ∧
      ∀ j < S.n, b ≤ j → s j = S.init j := by
  induction b with
  | zero =>
    exact ⟨S.init, .refl, rfl, fun j hj => absurd hj (Nat.not_lt_zero j), fun j _ _ => rfl⟩
  | succ b ih =>
    obtain ⟨s, hs, hsi, hsent, hrest⟩ := ih (Nat.le_of_succ_le hb)
    by_cases hbi : b = i
    · refine ⟨s, hs, hsi, fun j hj hji => ?_, fun j hj hbj => hrest j hj (Nat.le_of_succ_le hbj)⟩
      exact hsent j (by omega) hji
    · set sent' : (r : ℕ) → ℕ → Option (Msg r) := fun r j => if j = i then some (M r b) else none
        with hsent'
      have hinit := hrest b hb (Nat.le_refl b)
      have hstep : LocalStep S s b { s b with sent := sent' } := by
        refine .inject hb (hcor b hb hbi) (fun r j m hm => ?_) (fun r _ j j' m m' hm hm' => ?_) ?_
        · rw [hinit] at hm
          cases hm
        -- there is one receiver only
        · simp only [hsent', Option.ite_none_right_eq_some, Option.some.injEq] at hm hm'
          exact hm.2.symm.trans hm'.2
        · intro heq
          have hat := congrFun (congrFun heq 0) i
          rw [hinit] at hat
          simp [hsent', Setup.init] at hat
      refine ⟨Function.update s b { s b with sent := sent' }, hs.tail ⟨b, _, hstep, rfl⟩, ?_, ?_, ?_⟩
      · rw [Function.update_of_ne (Ne.symm hbi)]
        exact hsi
      · intro j hj hji r
        by_cases hjb : j = b
        · subst hjb
          rw [Function.update_self]
          exact if_pos rfl
        · rw [Function.update_of_ne hjb]
          exact hsent j (by omega) hji r
      · intro j hj hbj
        rw [Function.update_of_ne (by omega)]
        exact hrest j hj (Nat.le_of_succ_le hbj)

/-- **Any messages.**  If all the others are corrupt, the honest party `i` can receive any messages
    `M`, and returns what its program computes from them. -/
theorem exists_solo_run (hn : 1 < S.n) (hi : i < S.n) (hh : ¬ S.corrupt i)
    (hcor : ∀ j < S.n, j ≠ i → S.corrupt j) (M : (r : ℕ) → ℕ → Msg r) :
    ∃ s, Reachable S s ∧ (∀ r, ∀ j < S.n, j ≠ i → (s i).got r j = some (M r j)) ∧
      s.Returned i ((S.prog i).exec fun r => collect S.n i fun j => some (M r j)) := by
  obtain ⟨s, hs, hsi, hsent, -⟩ := exists_injected (M := M) hcor S.n (Nat.le_refl _)
  set got' : (r : ℕ) → ℕ → Option (Msg r) := fun r j =>
    if j < S.n ∧ j ≠ i then some (M r j) else none with hgot'
  have hserve : LocalStep S s i { s i with got := got' } := by
    refine .deliver hi (fun r j m hm => ?_) (fun r j m hm => .inr ?_) fun heq => ?_
    · rw [hsi] at hm
      cases hm
    · simp only [hgot', Option.ite_none_right_eq_some] at hm
      obtain ⟨⟨hj, hji⟩, hm⟩ := hm
      exact ⟨hj, (hsent j hj hji r).trans hm⟩
    · -- some other party has sent something
      obtain ⟨j, hj, hji⟩ := exists_other hn i
      have hat := congrFun (congrFun heq 0) j
      rw [hsi] at hat
      simp [hgot', hj, hji, Setup.init] at hat
  obtain ⟨s', res, hs', hserved', hret⟩ := exists_finish (M := M) hi hh (S.prog i)
    (s := Function.update s i { s i with got := got' }) (hs.tail ⟨i, _, hserve, rfl⟩)
    (fun r j hj hji => by
      rw [Function.update_self]
      exact if_pos ⟨hj, hji⟩)
    (by rw [Function.update_self, hsi]; rfl)
  refine ⟨s', hs', hserved', ?_⟩
  have hres := hs'.sound.result hi hh hret
  have hin : (s' i).inbox S.n i = fun r => collect S.n i fun j => some (M r j) :=
    funext fun r => collect_congr fun j hj hji => hserved' r j hj hji
  rw [← hin, hres]
  exact hret

end Solo

/-! ### The second round -/

section Second

variable {out : ℕ → ℕ → Option (Msg 0)}

/-- Honest parties that begin by sending can all have sent. -/
theorem exists_sent_first {rest : ℕ → Proc Msg R 0} (hh : ∀ i, ¬ S.corrupt i)
    (hprog : ∀ i < S.n, S.prog i = .send (out i) (rest i)) (b : ℕ) (hb : b ≤ S.n) :
    ∃ s, Reachable S s ∧ (∀ j < b, s j = (S.init j).put (out j) (rest j)) ∧
      ∀ j < S.n, b ≤ j → s j = S.init j := by
  induction b with
  | zero => exact ⟨S.init, .refl, fun j hj => absurd hj (Nat.not_lt_zero j), fun j _ _ => rfl⟩
  | succ b ih =>
    obtain ⟨s, hs, hsent, hrest⟩ := ih (Nat.le_of_succ_le hb)
    have hinit := hrest b hb (Nat.le_refl b)
    have hcode : (s b).code = ⟨0, .send (out b) (rest b)⟩ := by
      rw [hinit, Setup.init, hprog b hb]
    refine ⟨Function.update s b ((s b).put (out b) (rest b)),
      hs.tail ⟨b, _, .send hb (hh b) hcode, rfl⟩, fun j hj => ?_, fun j hj hbj => ?_⟩
    · by_cases hjb : j = b
      · subst hjb
        rw [Function.update_self, hinit]
      · rw [Function.update_of_ne hjb]
        exact hsent j (by omega)
    · rw [Function.update_of_ne (by omega)]
      exact hrest j hj (Nat.le_of_succ_le hbj)

/-- **The second round.**  Party `i` can get all messages of the first round and then send its
    messages of the second one. -/
theorem exists_second_round (hh : ∀ i, ¬ S.corrupt i)
    (hprog : ∀ j < S.n, ∃ rest, S.prog j = .send (out j) rest) (hn : 1 < S.n) (hi : i < S.n)
    {next : List (ℕ × Msg 0) → Proc Msg R 1} (hown : S.prog i = .send (out i) (.recv next))
    {msg : ℕ → Msg 0} (hout : ∀ j < S.n, j ≠ i → out j i = some (msg j))
    {out' : ℕ → Option (Msg 1)} {rest' : Proc Msg R 1}
    (hnext : next (collect S.n i fun j => some (msg j)) = .send out' rest') :
    ∃ s, Reachable S s ∧ ∀ j, (s i).sent 1 j = out' j := by
  have : Nonempty (Proc Msg R 0) := ⟨S.prog 0⟩
  choose! rest hrest using hprog
  obtain ⟨s, hs, hsent, -⟩ := exists_sent_first hh hrest S.n (Nat.le_refl _)
  have hrecv : rest i = .recv next := (Proc.send.inj ((hrest i hi).symm.trans hown)).2
  have hsi := hsent i hi
  rw [hrecv] at hsi
  set got' : (r : ℕ) → ℕ → Option (Msg r) := fun r j =>
    if r = 0 ∧ j < S.n ∧ j ≠ i then (s j).sent r i else none with hgot'
  have hrow : ∀ j < S.n, j ≠ i → got' 0 j = some (msg j) := fun j hj hji => by
    rw [hgot']
    simp only [if_pos (And.intro trivial (And.intro hj hji)), hsent j hj, Local.put_sent_self]
    exact hout j hj hji
  -- all messages of the first round at once
  have hdeliver : LocalStep S s i { s i with got := got' } := by
    refine .deliver hi (fun r j m hm => ?_) (fun r j m hm => .inr ?_) fun heq => ?_
    · rw [hsi] at hm
      cases hm
    · simp only [hgot', Option.ite_none_right_eq_some] at hm
      exact ⟨hm.1.2.1, hm.2⟩
    · obtain ⟨j, hj, hji⟩ := exists_other hn i
      have hat := congrFun (congrFun heq 0) j
      rw [hrow j hj hji, hsi] at hat
      cases hat
  set s1 := Function.update s i { s i with got := got' } with hs1
  have hs1i : s1 i = { s i with got := got' } := Function.update_self ..
  have hcode1 : (s1 i).code = ⟨0, .recv next⟩ := by rw [hs1i, hsi]; rfl
  have hlist : collect S.n i ((s1 i).got 0) = collect S.n i fun j => some (msg j) := by
    rw [hs1i]
    exact collect_congr hrow
  have hcomplete : LocalStep S s1 i _ := .complete hi (hh i) hcode1 fun j hj hji => by
    rw [hs1i]
    show (got' 0 j).isSome = true
    rw [hrow j hj hji]
    rfl
  rw [hlist, hnext] at hcomplete
  set s2 := Function.update s1 i { s1 i with code := ⟨0 + 1, .send out' rest'⟩ } with hs2
  have hs2i : s2 i = { s1 i with code := ⟨0 + 1, .send out' rest'⟩ } := Function.update_self ..
  have hsend : LocalStep S s2 i ((s2 i).put out' rest') := .send hi (hh i) (by rw [hs2i])
  refine ⟨Function.update s2 i ((s2 i).put out' rest'),
    ((hs.tail ⟨i, _, hdeliver, rfl⟩).tail ⟨i, _, hcomplete, rfl⟩).tail ⟨i, _, hsend, rfl⟩,
    fun j => ?_⟩
  -- nothing had been sent in the second round before
  have hnone : (s2 i).sent 1 j = none := by
    rw [hs2i, hs1i, hsi]
    show ((S.init i).put (out i) (.recv next)).sent 1 j = none
    rw [Local.put_sent_of_ne _ _ _ Nat.one_ne_zero]
    rfl
  rw [Function.update_self, Local.put_sent_self, hnone, Option.none_or]

end Second

end Rounds
