import Govis.Rounds.Lockstep
import Govis.Tcp.Parties

namespace Govis.Tcp

open Framing Transition Rounds

/-!
# The transport: honest parties keep in step

Parties that all follow their programs, connected by the program's own transport.  Whatever the
order in which programs, tasks and the network move, and wherever the bytes are cut, every party sees
what it would see if all of them moved in lockstep.

* `Orderly` — programs that send once in a round, and broadcast the same to everybody;
* `Posting`, `WorldReached.posting` — what is on the wires is what the programs have sent;
* `WorldReached.result_eq_lockstep` — what a party returns is what it returns in lockstep.
-/

variable {Msg : ℕ → Type} {R : Type} {D : Deployment Msg R} {w w' : World Msg R} {i : ℕ}

/-- The programs send once in a round, and in a round of broadcasts the same to everybody. -/
def Deployment.Orderly (D : Deployment Msg R) : Prop :=
  ∀ i < D.setup.n, (D.setup.prog i).Tidy fun r => ∃ reliable, D.kind r = .broadcast reliable

/-- What a message says that is sent to a party: the value of the program for that party. -/
theorem outgoing_reaches {kind : MessageType} {n i h r : ℕ} {out : ℕ → Option (Msg r)}
    {item : Outgoing (AnyMsg Msg)} (hitem : item ∈ outgoing kind n i out)
    (hbc : (∃ reliable, kind = .broadcast reliable) → ∀ j j', out j = out j')
    (hreach : item.recipient.reaches h) : ∃ m, out h = some m ∧ item.msg = ⟨r, m⟩ := by
  cases kind with
  | broadcast reliable =>
    obtain ⟨j, m, -, hout, hmsg⟩ := mem_outgoing hitem
    exact ⟨m, (hbc ⟨reliable, rfl⟩ h j).trans hout, hmsg⟩
  | p2p =>
    obtain ⟨j, -, hj⟩ := List.mem_filterMap.mp hitem
    obtain ⟨m, hm, rfl⟩ := Option.map_eq_some_iff.mp hj
    obtain rfl : j = h := of_decide_eq_true hreach
    exact ⟨m, hm, rfl⟩

/-- What has been sent by an honest party, and what it has to send. -/
structure Posting (D : Deployment Msg R) (w : World Msg R) (i : ℕ) : Prop where
  tidy : (w.party i).code.2.Tidy fun r => ∃ reliable, D.kind r = .broadcast reliable
  /-- Nothing is sent ahead of time. -/
  later : ∀ r > (w.party i).code.1, ∀ j, (w.party i).sent r j = none
  /-- A round is sent once. -/
  once : (w.party i).code.2.Quiet ∨ ∀ j, (w.party i).sent (w.party i).code.1 j = none
  /-- What has gone out to a party is what the program has sent to it. -/
  posted : ∀ item ∈ w.sys.sent i, ∀ h, item.recipient.reaches h →
    (w.party i).sent item.msg.1 h = some item.msg.2
  emits : (w.party i).Emits D.setup i

theorem Posting.init (hD : D.Orderly) (hi : i < D.setup.n) : Posting D D.init i where
  tidy := hD i hi
  later _ _ _ := rfl
  once := .inr fun _ => rfl
  posted _ h := by cases h
  emits := Local.Emits.init i

/-- Somebody else moves. -/
theorem Posting.of_same (h : Posting D w i) (hparty : w'.party i = w.party i)
    (hsent : w'.sys.sent i = w.sys.sent i) : Posting D w' i where
  tidy := by
    rw [hparty]
    exact h.tidy
  later := by
    rw [hparty]
    exact h.later
  once := by
    rw [hparty]
    exact h.once
  posted := by
    rw [hparty, hsent]
    exact h.posted
  emits := by
    rw [hparty]
    exact h.emits

/-- The party sends. -/
theorem Posting.emit (h : Posting D w i) (hs : emit D i w = some w') : Posting D w' i := by
  obtain ⟨r, out, next, hc, hsend, hparty⟩ := emit_eq_some hs
  obtain ⟨hsent, -, -⟩ := sendAll_spec hsend
  have hself : w'.party i = (w.party i).put out next := by rw [hparty, Function.update_self]
  have hround : (w.party i).code.1 = r := by rw [hc]
  obtain ⟨hbc, hquiet, htidy⟩ : (Proc.send out next).Tidy fun r =>
      ∃ reliable, D.kind r = .broadcast reliable := by
    have := h.tidy
    rwa [hc] at this
  have hnone : ∀ j, (w.party i).sent r j = none := by
    rcases h.once with hq | hnone
    · rw [hc] at hq
      exact hq.elim
    · rwa [hround] at hnone
  refine ⟨?_, fun r' hr' j => ?_, .inl ?_, fun item hitem k hreach => ?_, ?_⟩
  · rw [hself]
    exact htidy
  · rw [hself] at hr' ⊢
    have hr : r < r' := hr'
    rw [Local.put_sent_of_ne _ _ _ (Nat.ne_of_gt hr)]
    exact h.later r' (by rw [hround]; exact hr) j
  · rw [hself]
    exact hquiet
  · rw [hsent, List.mem_append] at hitem
    rw [hself]
    rcases hitem with hitem | hitem
    -- what was sent before stays
    · have hold := h.posted item hitem k hreach
      by_cases hr : item.msg.1 = r
      · rw [← hr] at hnone
        rw [hnone k] at hold
        cases hold
      · rwa [Local.put_sent_of_ne _ _ _ hr]
    · obtain ⟨m, hm, hmsg⟩ := outgoing_reaches hitem hbc hreach
      rw [hmsg, Local.put_sent_self, hnone k, Option.none_or]
      exact hm
  · rw [hself]
    exact h.emits.send hc

/-- The party completes a round. -/
theorem Posting.complete (h : Posting D w i) (hsound : PartySound D w i)
    (hs : completeRound D i w = some w') : Posting D w' i := by
  obtain ⟨r, next, got, hc, hsys, hdone, hother, -, -⟩ := completeRound_got hs
  have hround : (w.party i).code.1 = r := by rw [hc]
  have hext : ∀ r' j m, (w.party i).got r' j = some m → got r' j = some m := by
    intro r' j m hm
    by_cases hr : r' = r
    · rw [hsound.fresh r' (by omega) j] at hm
      cases hm
    · rw [hother r' hr]
      exact hm
  refine ⟨?_, fun r' hr' j => ?_, .inr fun j => ?_, fun item hitem k hreach => ?_, ?_⟩
  · have htidy := h.tidy
    rw [hc] at htidy
    rw [hdone]
    exact htidy _
  · rw [hdone] at hr' ⊢
    exact h.later r' (by rw [hround]; exact lt_trans (Nat.lt_succ_self r) hr') j
  · rw [hdone]
    exact h.later (r + 1) (by rw [hround]; exact Nat.lt_succ_self r) j
  · rw [hsys] at hitem
    rw [hdone]
    exact h.posted item hitem k hreach
  · rw [hdone]
    exact (h.emits.deliver hsound.honest hext).complete hc

/-- **Run lemma.** -/
theorem WorldReached.posting (h : WorldReached D w) (hD : D.Orderly) (hi : i < D.setup.n) :
    Posting D w i := by
  have hboth : PartySound D w i ∧ Posting D w i := by
    refine ⟨h.party i, ?_⟩
    induction h with
    | refl => exact Posting.init hD hi
    | @tail w w' hw hstep ih =>
      obtain ⟨a, ha, hs⟩ := hstep
      cases a with
      | net a =>
        obtain ⟨s, hstep, rfl⟩ := Option.map_eq_some_iff.mp hs
        refine ih.of_same rfl ?_
        -- only programs send
        rcases step_sent hstep i with hsame | ⟨item, rfl, -⟩
        · exact hsame
        · exact ha.elim
      | emit k =>
        by_cases hk : i = k
        · subst hk
          exact ih.emit hs
        · obtain ⟨r, out, next, -, hsend, hparty⟩ := emit_eq_some hs
          exact ih.of_same (by rw [hparty, Function.update_of_ne hk]) ((sendAll_spec hsend).2.1 i hk)
      | complete k =>
        by_cases hk : i = k
        · subst hk
          exact ih.complete (WorldReached.party hw i) hs
        · obtain ⟨r, next, msgs, -, -, hsys, hparty⟩ := completeRound_eq_some hs
          exact ih.of_same (by rw [hparty, Function.update_of_ne hk]) (by rw [hsys])
  exact hboth.2

/-- What a round has handed over was sent by the program of the party it names. -/
theorem WorldReached.sent_of_got (h : WorldReached D w) (hD : D.Orderly)
    (hh : ∀ j < D.setup.n, ¬ D.setup.corrupt j) {r j : ℕ} {m : Msg r}
    (hm : (w.party i).got r j = some m) : j < D.setup.n ∧ (w.party j).sent r i = some m := by
  obtain ⟨g, id, hyield⟩ := (h.party i).yielded r j m hm
  have hl := h.net.linked (List.mem_append_left _ hyield)
  have hno : ∀ bytes, ¬ D.AllowsNet (.inject g i bytes) := fun bytes hall =>
    hh g hl.1 (hall g i bytes rfl)
  obtain ⟨item, hitem, hreach, hsender, -, hmsg⟩ := h.net.exists_sent hno (List.mem_append_left _ hyield)
  -- on an honest connection the name is right
  obtain rfl : j = g := hsender
  have hposted := (h.posting hD hl.1).posted item hitem i hreach
  rw [← hmsg] at hposted
  exact ⟨hl.1, hposted⟩

/-- **Over the transport** every party sees what it sees in lockstep. -/
theorem WorldReached.got_eq_lockstep (h : WorldReached D w) (hD : D.Orderly)
    (hh : ∀ j < D.setup.n, ¬ D.setup.corrupt j) {r j : ℕ} {m : Msg r}
    (hm : (w.party i).got r j = some m) : D.setup.lockstep r j i = some m := by
  induction r using Nat.strong_induction_on generalizing i j with
  | _ r ih =>
    obtain ⟨hj, hsent⟩ := h.sent_of_got hD hh hm
    have hpost := h.posting hD hj
    -- the sender had completed the rounds before this one
    have hround : r ≤ (w.party j).code.1 := by
      by_contra hlt
      rw [hpost.later r (not_le.mp hlt) i] at hsent
      cases hsent
    refine hpost.emits.sent_eq (fun r' hr' => ?_) hsent
    refine Local.inbox_eq_lockstep (fun j' hj' hne => ?_) fun j' _ _ m' hm' => ih r' hr' hm'
    exact Option.isSome_iff_exists.mp
      ((h.party j).honest.full r' (lt_of_lt_of_le hr' hround) j' hj' hne)

/-- **Over the transport** a party returns what it returns in lockstep. -/
theorem WorldReached.result_eq_lockstep (h : WorldReached D w) (hD : D.Orderly)
    (hh : ∀ j < D.setup.n, ¬ D.setup.corrupt j) {res : R} (hres : w.Returned i res) :
    (D.setup.prog i).exec (D.setup.lockstepInbox i) = res := by
  have hexec := (h.party i).result hres
  rw [← hexec]
  refine ((D.setup.prog i).exec_congr fun r hr => ?_).symm
  exact Local.inbox_eq_lockstep (fun j hj hji => (h.party i).full hres hr hj hji)
    fun j _ _ m hm => h.got_eq_lockstep hD hh hm

end Govis.Tcp
