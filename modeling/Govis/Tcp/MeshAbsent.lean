import Govis.Tcp.MeshProgress

namespace Govis.Tcp

open Rounds

/-!
# The transport: parties that do not come back

A party whose protocol has failed does not call `connect_tcp` again.  The lower parties dial it in
vain.

* `Mesh.Sequential` — a party calls again when it has returned;
* `Mesh.Absent` — a party that does not come back, and a lower one that dials it;
* `Mesh.Absent.steps` — **nobody below it is connected again**.
-/

variable {P : ℕ → Protocol} {n K : ℕ} {w w' : Mesh P} {k i j : ℕ} {c : Call}

namespace Mesh

/-! ### One call after the other -/

/-- The calls of a party come one after the other, each when the protocol before has returned, and
    only connected parties move in a protocol. -/
structure Sequential (w : Mesh P) : Prop where
  fresh : ∀ k i, (w.call k i).stage = .fresh → w.call k i = .fresh
  prev : ∀ k i, (w.call (k + 1) i).stage ≠ .fresh → (w.call k i).Connected ∧ ∃ s, (P k).returned s i
  net : ∀ k, (P k).ReachedBy (fun i => (w.call k i).Connected) (w.net k)

/-- A call changes, and is not a new one. -/
theorem Sequential.setCall (h : w.Sequential) (hc : c.stage ≠ .fresh)
    (hconn : (w.call k i).Connected → c.Connected)
    (hprev : ∀ k', k' + 1 = k → (w.call k' i).Connected ∧ ∃ s, (P k').returned s i) :
    (w.setCall k i c).Sequential := by
  have hkeep : ∀ k' i', (w.call k' i').Connected → ((w.setCall k i c).call k' i').Connected := by
    intro k' i' hold
    rw [setCall_call]
    split
    · rename_i heq
      exact hconn (by rw [← heq.1, ← heq.2]; exact hold)
    · exact hold
  refine ⟨fun k' i' hf => ?_, fun k' i' hf => ?_, fun k' => (h.net k').mono (hkeep k')⟩
  · rw [setCall_call] at hf ⊢
    split
    · rename_i heq
      rw [if_pos heq] at hf
      exact absurd hf hc
    · rename_i hne
      rw [if_neg hne] at hf
      exact h.fresh k' i' hf
  · have hold : (w.call k' i').Connected ∧ ∃ s, (P k').returned s i' := by
      rw [setCall_call] at hf
      split at hf
      · rename_i heq
        rw [heq.2]
        exact hprev k' heq.1
      · exact h.prev k' i' hf
    exact ⟨hkeep k' i' hold.1, hold.2⟩

/-- The same for a call that has begun before. -/
theorem Sequential.change (h : w.Sequential) (hold : (w.call k i).stage ≠ .fresh)
    (hstage : c.stage = (w.call k i).stage) : (w.setCall k i c).Sequential := by
  refine h.setCall (by rwa [hstage]) ?_ fun k' hk' => ?_
  · rintro ⟨peers, hpeers⟩
    exact ⟨peers, hstage.trans hpeers⟩
  · subst hk'
    exact h.prev k' i hold

/-- **Step lemma.** -/
theorem Sequential.step (h : w.Sequential) (hs : Step n K P w w') : w'.Sequential := by
  have hconnecting : ∀ {k i}, (w.call k i).stage = .connecting → (w.call k i).stage ≠ .fresh :=
    fun hc => by rw [hc]; exact Stage.noConfusion
  cases hs with
  | @begin k i hk hi hc hprev =>
    refine h.setCall Stage.noConfusion (fun hconn => ?_) fun k' hk' => ⟨(hprev k' hk').1, _, (hprev k' hk').2⟩
    obtain ⟨peers, hpeers⟩ := hconn
    cases hc.symm.trans hpeers
  | @dial k j i k' hc hj hd hl hroom =>
    have hset := h.change (c := (w.call k j).setDial i (.connected ⟨j, k, i, k'⟩)) (hconnecting hc) rfl
    have hstage := stage_setCall_of_eq (w := w) (c := (w.call k j).setDial i (.connected ⟨j, k, i, k'⟩))
      (k := k) (i := j) rfl k' i
    refine hset.change ?_ hstage.symm
    rw [hstage]
    exact hconnecting hl.1
  | @write k j i l hd =>
    have hnot : (w.call k j).stage ≠ .fresh := by
      intro hf
      rw [h.fresh k j hf] at hd
      cases hd
    have hset := h.change (c := (w.call k j).setDial i (.named l)) hnot rfl
    exact ⟨hset.fresh, hset.prev, hset.net⟩
  | accept hc ha hb => exact h.change (hconnecting hc) rfl
  | read hc ha hx => exact h.change (hconnecting hc) rfl
  | @finish k i got dialed hc hacc hdial =>
    refine h.setCall ?_ (fun hconn => ?_) fun k' hk' => ?_
    · show Call.outcome n i got dialed ≠ .fresh
      rcases Call.outcome_cases n i got dialed with ⟨peers, hover⟩ | hover
      · rw [hover]
        exact Stage.noConfusion
      · rw [hover]
        exact Stage.noConfusion
    · obtain ⟨peers, hpeers⟩ := hconn
      cases hc.symm.trans hpeers
    · subst hk'
      exact h.prev k' i (hconnecting hc)
  | @run k i s hc hs =>
    refine ⟨h.fresh, h.prev, fun k' => ?_⟩
    by_cases hk : k' = k
    · subst hk
      show (P k').ReachedBy _ (Function.update w.net k' s k')
      rw [Function.update_self]
      exact Relation.ReflTransGen.tail (h.net k') ⟨i, hc, hs⟩
    · show (P k').ReachedBy _ (Function.update w.net k s k')
      rw [Function.update_of_ne hk]
      exact h.net k'

/-- **Run lemma.** -/
theorem Reached.sequential (hw : Reached n K w) : w.Sequential := by
  induction hw with
  | refl => exact ⟨fun _ _ _ => rfl, fun _ _ hf => absurd rfl hf, fun _ => .refl⟩
  | tail _ hs ih => exact ih.step hs

/-! ### A party that does not come back -/

/-- Party `j` has been connected for session `k` and no further, and party `i` dials it for the next
    one. -/
structure Absent (k i j : ℕ) (w : Mesh P) : Prop where
  before : ∀ k' ≤ k, (w.call k' j).Connected
  after : ∀ k', k < k' → (w.call k' j).stage = .fresh
  dial : (w.call (k + 1) i).dials j = .retrying
  waits : ¬ (w.call (k + 1) i).Connected

/-- It does not listen. -/
theorem Absent.not_connecting (h : w.Absent k i j) (k' : ℕ) : (w.call k' j).stage ≠ .connecting := by
  intro hc
  rcases Nat.lt_or_ge k k' with hlt | hle
  · rw [h.after k' hlt] at hc
    cases hc
  · obtain ⟨peers, hpeers⟩ := h.before k' hle
    rw [hc] at hpeers
    cases hpeers

/-- Other parties get on, and do not reach it. -/
theorem Absent.setCall (h : w.Absent k i j) {k' i' : ℕ}
    (hj : i' = j → c.stage = (w.call k' i').stage)
    (hdial : (k', i') = (k + 1, i) → c.dials j = .retrying ∧ ¬ c.Connected) :
    (w.setCall k' i' c).Absent k i j := by
  have hstage : ∀ k₀, ((w.setCall k' i' c).call k₀ j).stage = (w.call k₀ j).stage := by
    intro k₀
    rw [setCall_call]
    split
    · rename_i heq
      rw [hj heq.2.symm, heq.1, heq.2]
    · rfl
  refine ⟨fun k₀ hk₀ => ?_, fun k₀ hk₀ => ?_, ?_, ?_⟩
  · obtain ⟨peers, hpeers⟩ := h.before k₀ hk₀
    exact ⟨peers, (hstage k₀).trans hpeers⟩
  · rw [hstage]
    exact h.after k₀ hk₀
  · rw [setCall_call]
    split
    · rename_i heq
      exact (hdial (Prod.ext heq.1.symm heq.2.symm)).1
    · exact h.dial
  · rw [setCall_call]
    split
    · rename_i heq
      exact (hdial (Prod.ext heq.1.symm heq.2.symm)).2
    · exact h.waits

/-- **Step lemma.** -/
theorem Absent.step (h : w.Absent k i j) (hmiss : ∀ s, ¬ (P k).returned s j) (hij : i < j) (hj : j < n)
    (hs : Step n K P w w') : w'.Absent k i j := by
  have hne : ∀ {k' i'}, (w.call k' i').stage = .connecting → i' ≠ j := by
    rintro k' i' hc rfl
    exact h.not_connecting k' hc
  have hjoin : ∀ {k' i'} {c : Call}, (w.call k' i').stage = .connecting → i' = j →
      c.stage = (w.call k' i').stage := fun hc heq => absurd heq (hne hc)
  have hkeep : ∀ {k' i' : ℕ} {c : Call}, c.dials j = (w.call k' i').dials j →
      c.stage = (w.call k' i').stage → (k', i') = (k + 1, i) → c.dials j = .retrying ∧ ¬ c.Connected := by
    intro k' i' c hdials hstage heq
    cases heq
    refine ⟨hdials.trans h.dial, ?_⟩
    rintro ⟨peers, hpeers⟩
    exact h.waits ⟨peers, hstage.symm.trans hpeers⟩
  cases hs with
  | @begin k' i' hk hi hc hprev =>
    have hij' : i' ≠ j := by
      rintro rfl
      rcases Nat.lt_or_ge k k' with hlt | hle
      · -- it has not returned from session `k`, and called for none after it
        obtain ⟨k₀, rfl⟩ : ∃ k₀, k' = k₀ + 1 := ⟨k' - 1, by omega⟩
        obtain ⟨hconn, hret⟩ := hprev k₀ rfl
        rcases Nat.lt_or_ge k k₀ with hlt' | hle'
        · obtain ⟨peers, hpeers⟩ := hconn
          rw [h.after k₀ hlt'] at hpeers
          cases hpeers
        · obtain rfl : k₀ = k := by omega
          exact hmiss _ hret
      · obtain ⟨peers, hpeers⟩ := h.before k' hle
        rw [hc] at hpeers
        cases hpeers
    refine h.setCall (fun heq => absurd heq hij') fun _ => ⟨rfl, ?_⟩
    rintro ⟨peers, hpeers⟩
    cases hpeers
  | @dial k₁ j₁ i₁ k₂ hc hdialed hd hl hroom =>
    have hi₁ : i₁ ≠ j := hne hl.1
    have h₁ : (w.setCall k₁ j₁ ((w.call k₁ j₁).setDial i₁ (.connected ⟨j₁, k₁, i₁, k₂⟩))).Absent k i j :=
      h.setCall (hjoin hc) (hkeep (Function.update_of_ne (Ne.symm hi₁) _ _) rfl)
    exact h₁.setCall (fun heq => absurd heq hi₁) (hkeep rfl rfl)
  | @write k₁ j₁ i₁ l hd =>
    have h₁ : (w.setCall k₁ j₁ ((w.call k₁ j₁).setDial i₁ (.named l))).Absent k i j := by
      refine h.setCall (fun _ => rfl) fun heq => ?_
      cases heq
      have hi₁ : j ≠ i₁ := by
        rintro rfl
        cases h.dial.symm.trans hd
      exact hkeep (Function.update_of_ne hi₁ _ _) rfl rfl
    exact ⟨h₁.before, h₁.after, h₁.dial, h₁.waits⟩
  | accept hc ha hb => exact h.setCall (hjoin hc) (hkeep rfl rfl)
  | read hc ha hx => exact h.setCall (hjoin hc) (hkeep rfl rfl)
  | @finish k₁ i₁ got dialed hc hacc hdial =>
    refine h.setCall (hjoin hc) fun heq => ?_
    cases heq
    -- the dial task for the party is not done
    have hmem : Dial.retrying ∈ dialed.map Dial.named := by
      rw [← hdial, ← h.dial]
      exact List.mem_map_of_mem (mem_dialedPeers.mpr ⟨hij, hj⟩)
    obtain ⟨l, -, hl⟩ := List.mem_map.mp hmem
    cases hl
  | run hc hs => exact ⟨h.before, h.after, h.dial, h.waits⟩

/-- **Run lemma.**  Nobody below it is connected again. -/
theorem Absent.steps (h : w.Absent k i j) (hmiss : ∀ s, ¬ (P k).returned s j) (hij : i < j) (hj : j < n)
    (hrun : Relation.ReflTransGen (Step n K P) w w') : w'.Absent k i j := by
  induction hrun with
  | refl => exact h
  | tail _ hs ih => exact ih.step hmiss hij hj hs

/-- A party that has been connected for the session that it fails in is absent from then on. -/
theorem Reached.absent (hw : Reached n K w) (hmiss : ∀ s, ¬ (P k).returned s j)
    (hconn : (w.call k j).Connected) (hfresh : (w.call (k + 1) i).stage = .fresh) : w.Absent k i j := by
  have hseq := hw.sequential
  have hbefore : ∀ d ≤ k, (w.call (k - d) j).Connected := by
    intro d hd
    induction d with
    | zero => exact hconn
    | succ d ih =>
      obtain ⟨peers, hpeers⟩ := ih (Nat.le_of_succ_le hd)
      have hprev := hseq.prev (k - (d + 1)) j
      rw [show k - (d + 1) + 1 = k - d by omega, hpeers] at hprev
      exact (hprev Stage.noConfusion).1
  have hafter : ∀ d, (w.call (k + 1 + d) j).stage = .fresh := by
    intro d
    by_contra hne
    induction d with
    | zero =>
      obtain ⟨-, s, hret⟩ := hseq.prev k j hne
      exact hmiss s hret
    | succ d ih =>
      obtain ⟨⟨peers, hpeers⟩, -⟩ := hseq.prev (k + 1 + d) j hne
      refine ih ?_
      rw [hpeers]
      exact Stage.noConfusion
  refine ⟨fun k' hk' => ?_, fun k' hk' => ?_, ?_, ?_⟩
  · rw [show k' = k - (k - k') by omega]
    exact hbefore (k - k') (Nat.sub_le k k')
  · rw [show k' = k + 1 + (k' - (k + 1)) by omega]
    exact hafter _
  · rw [hseq.fresh _ _ hfresh]
    rfl
  · rintro ⟨peers, hpeers⟩
    cases hfresh.symm.trans hpeers

/-- Fewer sessions are a part of more. -/
theorem Reached.mono {L : ℕ} (hKL : K ≤ L) (hw : Reached n K w) : Reached n L w := by
  refine Relation.ReflTransGen.mono (fun _ _ hs => ?_) _ _ hw
  cases hs with
  | begin hk hi hc hprev => exact .begin (lt_of_lt_of_le hk hKL) hi hc hprev
  | dial hc hj hd hl hroom => exact .dial hc hj hd hl hroom
  | write hd => exact .write hd
  | accept hc ha hb => exact .accept hc ha hb
  | read hc ha hx => exact .read hc ha hx
  | finish hc hacc hdial => exact .finish hc hacc hdial
  | run hc hs => exact .run hc hs

end Mesh

end Govis.Tcp
