import Govis.Tcp.Protocols
import Govis.Tcp.Stages

namespace Govis.Tcp

open Framing Transition Rounds Curve Lindell Cggmp21

/-!
# The transport: processes that end

`main` ends when its program has returned, and the write tasks of its connections end with it, whatever
is left in their queues.  A peer reads what had been written before, and then the end of the stream: if
a round of it is not complete by then, it ends with an error of that round.  Its successes are those
of the runs in which it goes on waiting.

* `Hosts.Step` — steps of the processes that are left, one of which may end;
* `Hosts.Steps.frozen`, `Hosts.Reached.sound` — what has ended stays as it was, and has returned;
* `Scripted.exists_left_behind` — a party can end with all of its last round in its queues;
* `exit_strands_iff` — **who still succeeds**: exactly those for whom nothing was left in a queue.
-/

variable {Msg : ℕ → Type} {R : Type} {D : Deployment Msg R} {M : (r : ℕ) → ℕ → ℕ → Msg r} {k : ℕ}
  {res : ℕ → R} {w w' : World Msg R} {g h i p r : ℕ}

/-! ### Processes that end -/

/-- The parties, and those whose processes have ended. -/
structure Hosts (Msg : ℕ → Type) (R : Type) where
  world : World Msg R
  exited : Finset ℕ

namespace Hosts

variable {H H' : Hosts Msg R}

/-- A step of a process that is left, or the end of one: its program has returned, and has flushed what
    it sent. -/
inductive Step (D : Deployment Msg R) : Hosts Msg R → Hosts Msg R → Prop where
  | act {H : Hosts Msg R} {a : WorldAct Msg} {w' : World Msg R} : a.party ∉ H.exited → D.Open a →
      worldStep D a H.world = some w' → Step D H ⟨w', H.exited⟩
  | exit {H : Hosts Msg R} {i : ℕ} {x : R} : i < D.setup.n → H.world.Returned i x →
      (H.world.sys.delivery i).pending = [] → Step D H ⟨H.world, insert i H.exited⟩

/-- What the processes can do from then on. -/
def Steps (D : Deployment Msg R) : Hosts Msg R → Hosts Msg R → Prop := Relation.ReflTransGen (Step D)

def Reached (D : Deployment Msg R) (H : Hosts Msg R) : Prop := Steps D ⟨D.init, ∅⟩ H

/-- Runs of the processes that are left. -/
theorem steps_of_run {E : Finset ℕ}
    (hrun : Run (worldStep D) (fun a => D.Open a ∧ a.party ∉ E) w w') : Steps D ⟨w, E⟩ ⟨w', E⟩ := by
  induction hrun with
  | refl => exact .refl
  | tail _ hs ih =>
    obtain ⟨a, ⟨ha, hE⟩, hs⟩ := hs
    exact ih.tail (.act hE ha hs)

/-- What has ended stays as it was. -/
theorem worldStep_elsewhere {a : WorldAct Msg} (hs : worldStep D a w = some w') (hp : p ≠ a.party) :
    w'.party p = w.party p ∧ w'.sys.delivery p = w.sys.delivery p := by
  cases a with
  | net a =>
    obtain ⟨s, hstep, rfl⟩ := Option.map_eq_some_iff.mp hs
    exact ⟨rfl, (step_elsewhere hstep hp).1⟩
  | emit i =>
    have hpi : p ≠ i := hp
    obtain ⟨r, out, next, -, hsend, hparty⟩ := emit_eq_some hs
    refine ⟨by rw [hparty, Function.update_of_ne hpi], ?_⟩
    have hrun : Run (step D.codec D.setup.n) (fun a => a.party = i) w.sys w'.sys :=
      sendAll_run (fun _ => rfl) hsend
    refine hrun.invariant (P := fun s => s.delivery p = w.sys.delivery p) (fun a s s' ha hs hP => ?_) rfl
    exact (step_elsewhere hs (ha ▸ hpi)).1.trans hP
  | complete i =>
    have hpi : p ≠ i := hp
    obtain ⟨r, next, msgs, -, -, hsys, hparty⟩ := completeRound_eq_some hs
    rw [hsys, hparty, Function.update_of_ne hpi]
    exact ⟨rfl, rfl⟩

theorem Steps.frozen (h : Steps D H H') (hp : p ∈ H.exited) : p ∈ H'.exited ∧
    H'.world.party p = H.world.party p ∧ H'.world.sys.delivery p = H.world.sys.delivery p := by
  induction h with
  | refl => exact ⟨hp, rfl, rfl⟩
  | tail _ hs ih =>
    obtain ⟨hp', hparty, hdelivery⟩ := ih
    cases hs with
    | act hE _ hs =>
      obtain ⟨hparty', hdelivery'⟩ := worldStep_elsewhere hs fun heq => hE (heq ▸ hp')
      exact ⟨hp', hparty'.trans hparty, hdelivery'.trans hdelivery⟩
    | exit => exact ⟨Finset.mem_insert_of_mem hp', hparty, hdelivery⟩

/-- Whoever has ended has returned. -/
structure Sound (D : Deployment Msg R) (H : Hosts Msg R) : Prop where
  reached : OpenReached D H.world
  returned : ∀ p ∈ H.exited, p < D.setup.n ∧ ∃ x, H.world.Returned p x

/-- **Step lemma.** -/
theorem Sound.step (h : Sound D H) (hs : Step D H H') : Sound D H' := by
  cases hs with
  | act hE ha hs =>
    refine ⟨h.reached.tail ha hs, fun p hp => ?_⟩
    obtain ⟨hpn, x, r, hc⟩ := h.returned p hp
    refine ⟨hpn, x, r, ?_⟩
    rw [(worldStep_elsewhere hs fun heq => hE (heq ▸ hp)).1, hc]
  | exit hi hret =>
    refine ⟨h.reached, fun p hp => ?_⟩
    rcases Finset.mem_insert.mp hp with rfl | hp
    · exact ⟨hi, _, hret⟩
    · exact h.returned p hp

/-- **Run lemma.** -/
theorem Sound.steps (h : Sound D H) (hs : Steps D H H') : Sound D H' := by
  induction hs with
  | refl => exact h
  | tail _ hs ih => exact ih.step hs

theorem Reached.sound (h : Reached D H) : Sound D H :=
  have hinit : Sound D ⟨D.init, ∅⟩ := ⟨Run.refl _, fun p hp => absurd hp (Finset.notMem_empty p)⟩
  hinit.steps h

end Hosts

namespace Scripted

variable (hD : Scripted D M k res) {H H' : Hosts Msg R}

include hD

/-- **What a process leaves in a queue** nobody gets, and whoever it was for does not return. -/
theorem idle_of_steps (hH : Hosts.Reached D H) (hs : Hosts.Steps D H H') (hh : h < D.setup.n) {x : R}
    (hret : H'.world.Returned h x) (hp : p ∈ H.exited) (hph : p ≠ h) :
    Idle (H.world.sys.delivery p) h := by
  rw [← (hs.frozen hp).2.2]
  exact hD.idle_of_returned (hH.sound.steps hs).reached hh hret ⟨(hH.sound.returned p hp).1, hh, hph⟩

/-- Where some party has returned, the others have as well or wait in the last round. -/
theorem waitsIn_of_returned (hw : OpenReached D w) (hp : p < D.setup.n) {x : R} (hret : w.Returned p x)
    (hi : i < D.setup.n) : w.Returned i (res i) ∨ ∃ r, k = r + 1 ∧ WaitsIn D M k res r w i := by
  by_cases hip : i = p
  · subst hip
    exact .inl ⟨k, hD.code_of_returned hw hp hret⟩
  cases (hD.onStage hw).honest i hi (hD.honest i) with
  | @ready r q hc hf hsent =>
    obtain rfl : k = r := Nat.le_antisymm (hD.le_of_returned hw hp hret hi hip hsent) hf.le
    cases hf with
    | done => exact .inl ⟨k, hc⟩
    | round _ hnext => exact absurd hnext.le (Nat.not_succ_le_self k)
  | @waiting r next hc hf hsent =>
    obtain rfl : k = r + 1 := Nat.le_antisymm (hD.le_of_returned hw hp hret hi hip hsent) hf.le
    exact .inr ⟨r, rfl, next, hc, hf, hsent⟩

/-- **Everybody else returns.** -/
theorem exists_steps (hH : Hosts.Reached D H) : ∃ H', Hosts.Steps D H H' ∧ ∀ h < D.setup.n,
    h ∉ H.exited → (∀ p ∈ H.exited, Idle (H.world.sys.delivery p) h) → H'.world.Returned h (res h) := by
  classical
  obtain ⟨w, E⟩ := H
  have hsound := hH.sound
  rcases E.eq_empty_or_nonempty with rfl | ⟨p, hp⟩
  · obtain ⟨w', hrun, hret⟩ := hD.exists_returned hsound.reached
    exact ⟨⟨w', ∅⟩, Hosts.steps_of_run (hrun.mono fun a ha => ⟨ha, Finset.notMem_empty _⟩),
      fun h hh _ _ => hret h hh⟩
  · obtain ⟨hpn, x, hret⟩ := hsound.returned p hp
    have hcases := fun i hi => hD.waitsIn_of_returned hsound.reached hpn hret (i := i) hi
    cases k with
    | zero =>
      refine ⟨⟨w, E⟩, .refl, fun h hh _ _ => (hcases h hh).resolve_right ?_⟩
      rintro ⟨r, heq, -⟩
      cases heq
    | succ r =>
      -- the network comes to rest, but for the processes that have ended
      obtain ⟨s, hrun, hsent, hset, hidle, -⟩ :=
        exists_at_rest D.codec D.setup.n (· ∉ E) (· ∉ E) w.sys
      have hnet : Run (worldStep D) (fun a => D.Open a ∧ a.party ∉ E) w { w with sys := s } :=
        run_internal (A := (· ∉ E)) (hrun.mono fun _ ha => ⟨ha.1, ha.2.elim id id⟩)
      have hw₂ : OpenReached D { w with sys := s } := hsound.reached.trans (hnet.mono fun _ ha => ha.1)
      have hfrozen := fun p hp => ((Hosts.steps_of_run hnet).frozen (p := p) hp).2.2
      set S : Finset ℕ := (Finset.range D.setup.n).filter fun h => h ∉ E ∧
        (∀ p ∈ E, Idle (w.sys.delivery p) h) ∧ WaitsIn D M (r + 1) res r w h
      have hS : ∀ h ∈ S, h < D.setup.n ∧ WaitsIn D M (r + 1) res r { w with sys := s } h ∧
          SettledAt D.codec D.setup.n h s ∧ ∀ g, Linked D.setup.n g h → Idle (s.delivery g) h := by
        intro h hmem
        obtain ⟨hh, hE, hended, hwaits⟩ := Finset.mem_filter.mp hmem
        rw [Finset.mem_range] at hh
        refine ⟨hh, hwaits.of_same rfl (congrFun hsent h), hset h hh hE, fun g hl => ?_⟩
        by_cases hg : g ∈ E
        · rw [hfrozen g hg]
          exact hended g hg
        · exact hidle g h hl hg
      have hall : ∀ j < D.setup.n, ∃ r' ≤ r + 1, r < r' ∧ s.sent j = scriptSends D M j r' :=
        fun j hj => ⟨r + 1, Nat.le_refl _, Nat.lt_succ_self r,
          (congrFun hsent j).trans (hD.sent_of_returned hsound.reached hpn hret hj)⟩
      obtain ⟨w₃, hrun₃, -, hready, hother⟩ := hD.exists_completed hw₂ S hS hall
      refine ⟨⟨w₃, E⟩, Hosts.steps_of_run (hnet.trans (hrun₃.mono fun a ha =>
        ⟨ha.1, (Finset.mem_filter.mp ha.2).2.1⟩)), fun h hh hE hidle => ?_⟩
      rcases hcases h hh with ⟨r', hc⟩ | ⟨r', heq, hwaits⟩
      · -- whoever has returned stays where it is
        refine ⟨r', ?_⟩
        rw [hother h fun hmem => ?_]
        · exact hc
        · obtain ⟨next, hc', -⟩ := (Finset.mem_filter.mp hmem).2.2.2
          cases hc.symm.trans hc'
      · cases heq
        have hmem : h ∈ S := Finset.mem_filter.mpr ⟨Finset.mem_range.mpr hh, hE, hidle, hwaits⟩
        obtain ⟨q, hc, hf, -⟩ := hready h hmem
        cases hf with
        | done => exact ⟨r + 1, hc⟩
        | round _ hnext => exact absurd hnext.le (Nat.not_succ_le_self _)

/-- **A process that ends early.**  It has returned, and nothing of its last round is written. -/
theorem exists_left_behind (hk : 0 < k) (hp : p < D.setup.n) : ∃ w, OpenReached D w ∧
    w.Returned p (res p) ∧ (w.sys.delivery p).pending = [] ∧
      ∀ h, Linked D.setup.n p h → ¬ Idle (w.sys.delivery p) h := by
  obtain ⟨r, rfl⟩ : ∃ r, k = r + 1 := ⟨k - 1, by omega⟩
  -- everybody sends in the last round, and everybody but `p` writes
  obtain ⟨w, hw, hready⟩ := hD.exists_readyIn (Nat.le_succ r)
  obtain ⟨w₁, hrun₁, hconn, hwaits, -⟩ := hD.exists_emitted hw (Nat.lt_succ_self r)
    (Finset.range D.setup.n) fun i hi => ⟨Finset.mem_range.mp hi, hready i (Finset.mem_range.mp hi)⟩
  obtain ⟨s, hrun, hsent, hset, hidle, hwritten⟩ :=
    exists_at_rest D.codec D.setup.n (· ≠ p) (fun _ => True) w₁.sys
  have hw₁ := hw.trans hrun₁
  have hrun₂ : Run (worldStep D) D.Open w₁ { w₁ with sys := s } :=
    (run_internal (A := fun _ => True) (hrun.mono fun _ ha => ⟨ha.1, trivial⟩)).mono fun _ ha => ha.1
  have hwaits₂ : ∀ i < D.setup.n, WaitsIn D M (r + 1) res r { w₁ with sys := s } i := fun i hi =>
    (hwaits i (Finset.mem_range.mpr hi)).of_same rfl (congrFun hsent i)
  have hsent₂ : ∀ j < D.setup.n, s.sent j = scriptSends D M j (r + 1) := fun j hj =>
    (hwaits₂ j hj).choose_spec.2.2
  -- `p` completes the round, and flushes
  obtain ⟨w₃, hrun₃, hsys, hdone, -⟩ := hD.exists_completed (hw₁.trans hrun₂) {p}
    (fun i hi => by
      obtain rfl := Finset.mem_singleton.mp hi
      exact ⟨hp, hwaits₂ i hp, hset i hp trivial, fun g hl => hidle g i hl hl.2.2⟩)
    fun j hj => ⟨r + 1, Nat.le_refl _, Nat.lt_succ_self r, hsent₂ j hj⟩
  have hw₃ := (hw₁.trans hrun₂).trans (hrun₃.mono fun _ ha => ha.1)
  have hstep : worldStep D (.net (.flush p)) w₃ =
      some { w₃ with sys := w₃.sys.withDelivery p (pollFlush (w₃.sys.delivery p)) } := by
    rw [worldStep, step, if_pos hp]
    rfl
  have hopen : D.Open (.net (.flush p)) := ⟨trivial, fun g heq => by cases heq⟩
  have hw₄ : OpenReached D _ := Run.tail hw₃ hopen hstep
  refine ⟨_, hw₄, ?_, ?_, fun h hl => ?_⟩
  · obtain ⟨q, hc, hf, -⟩ := hdone p (Finset.mem_singleton_self p)
    cases hf with
    | done => exact ⟨r + 1, hc⟩
    | round _ hnext => exact absurd hnext.le (Nat.not_succ_le_self _)
  · rw [withDelivery_self]
    rfl
  · -- what `p` has written is what it had written before the round
    refine Reached.not_idle hw.reached.net hw₄.reached.net hl (hD.no_inject p h)
      (hD.carries_sent hw₄ hp) ?_ ?_
    · rw [withDelivery_conn, hsys, hwritten p h fun hne => hne rfl, hconn]
    · obtain ⟨q, -, -, hbefore⟩ := hready p hp
      obtain ⟨item, hitem, hreach⟩ := (outgoing_script (hD.broadcasts p) hl.2.1 (Ne.symm hl.2.2) (r := r)).2
      obtain ⟨id, hid⟩ := exists_mem_delivered (g := p) hitem hreach
      have hpos := List.length_pos_of_mem hid
      rw [withDelivery_sent, hsys, hsent₂ p hp, hbefore, scriptSends_succ, length_delivered_append]
      omega

end Scripted

/-- **Who still succeeds when processes end.**  Two or more parties of a protocol succeed if all are left
    to run it.  A process ends when its program has returned and flushed, and its write tasks end with it.  In
    every reached state the other parties can still succeed exactly if no process that has ended had left
    something for them in a queue.  And every party can end so early that nobody else ever succeeds. -/
theorem exit_strands_iff {E A : Type} {D : Deployment Msg (Res E A)} {out : ℕ → A}
    (hD : Scripted D M k fun i => .ok (out i)) (_hn : 2 ≤ D.setup.n) :
    (∀ H, Hosts.Reached D H →
      (∀ H', Hosts.Steps D H H' → ∀ h < D.setup.n, ∀ x, H'.world.Returned h (.ok x) →
        ∀ p ∈ H.exited, p ≠ h → Idle (H.world.sys.delivery p) h) ∧
      ∃ H', Hosts.Steps D H H' ∧ ∀ h < D.setup.n, h ∉ H.exited →
        (∀ p ∈ H.exited, Idle (H.world.sys.delivery p) h) → H'.world.Returned h (.ok (out h))) ∧
    (0 < k → ∀ p < D.setup.n, ∃ H, Hosts.Reached D H ∧ H.exited = {p} ∧
      H.world.Returned p (.ok (out p)) ∧
      ∀ H', Hosts.Steps D H H' → ∀ h < D.setup.n, h ≠ p → ∀ x, ¬ H'.world.Returned h (.ok x)) := by
  refine ⟨fun H hH => ⟨fun H' hs h hh x hret p hp hph => hD.idle_of_steps hH hs hh hret hp hph,
    hD.exists_steps hH⟩, fun hk p hp => ?_⟩
  obtain ⟨w, hw, hret, hpending, hnot⟩ := hD.exists_left_behind hk hp
  have hrun : Hosts.Reached D ⟨w, ∅⟩ :=
    Hosts.steps_of_run (hw.mono fun _ ha => ⟨ha, Finset.notMem_empty _⟩)
  have hH : Hosts.Reached D ⟨w, insert p ∅⟩ := hrun.tail (.exit hp hret hpending)
  have hmem : p ∈ insert p (∅ : Finset ℕ) := Finset.mem_insert_self p ∅
  refine ⟨_, hH, rfl, hret, fun H' hs h hh hne x hx => ?_⟩
  exact hnot h ⟨hp, hh, Ne.symm hne⟩ (hD.idle_of_steps hH hs hh hx hmem (Ne.symm hne))

/-- Three parties generate a key, and one of them ends too early. -/
theorem exit_strands_iff_three :
    ∃ D H, D = dkgDeployment (dkgCodec smallCurve) firstInput oneHash 3 2 [] oneCoins (fun _ => False) ∧
      Hosts.Reached D H ∧ H.exited = {0} ∧
      ∀ H', Hosts.Steps D H H' → ∀ x, ¬ H'.world.Returned 1 (.ok x) := by
  have hruns := dkgSetup_runsVss (C := smallCurve) oneHash 3 2 [] oneCoins fun _ => False
  have hdkg := RunsVss.scripted hruns (fun _ => not_false) (hruns.completes fun _ _ => not_false)
    (show 2 ≤ 3 by decide) (show 3 < 2 ^ 16 by decide) rfl
  obtain ⟨H, hH, hexited, -, hnever⟩ :=
    (exit_strands_iff hdkg (show 2 ≤ 3 by decide)).2 (show 0 < 3 by decide) 0 (show 0 < 3 by decide)
  exact ⟨_, H, rfl, hH, hexited, fun H' hs x => hnever H' hs 1 (show 1 < 3 by decide) one_ne_zero x⟩

end Govis.Tcp
