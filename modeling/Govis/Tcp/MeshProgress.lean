import Govis.Tcp.MeshRuns
import Mathlib.Data.Nat.Cast.Basic
import Mathlib.Data.Set.List

namespace Govis.Tcp

open Rounds Transition

/-!
# The transport: all sessions get through

However far the parties have come, they can connect for the next session, run its protocol to the end
and go on.

* `Call.weight` — what the tasks of a call have to do;
* `Mesh.Sound.exists_step` — while somebody is not connected, somebody can do something;
* `Mesh.Reached.exists_done` — so **all sessions can be run to the end**.
-/

variable {P : ℕ → Protocol} {n K : ℕ} {w w' : Mesh P} {k i j : ℕ} {c : Call} {l : Link}

/-! ### What is left to do -/

def Accept.weight : Accept → ℕ
  | .waiting => 2
  | .accepted _ => 1
  | .named _ _ => 0

def Dial.weight : Dial → ℕ
  | .retrying => 2
  | .connected _ => 1
  | .named _ => 0

namespace Call

/-- What the tasks of a call have to do. -/
def taskWeight (n : ℕ) (c : Call) : ℕ :=
  (c.accepts.map Accept.weight).sum + ∑ i ∈ Finset.range n, (c.dials i).weight

/-- What a call at party `i` has to do. -/
def weight (n i : ℕ) (c : Call) : ℕ :=
  match c.stage with
  | .fresh => 2 * i + 2 * n + 2
  | .connecting => c.taskWeight n + 1
  | _ => 0

theorem weight_begun (n i : ℕ) : (begun i).weight n i < fresh.weight n i := by
  simp only [weight, begun, fresh, taskWeight, List.map_replicate, Accept.weight, Dial.weight,
    List.sum_replicate, Finset.sum_const, Finset.card_range, nsmul_eq_mul, Nat.cast_id]
  omega

theorem weight_connecting (hc : c.stage = .connecting) : c.weight n i = c.taskWeight n + 1 := by
  rw [weight, hc]

/-- A call ends connected, or with a panic. -/
theorem outcome_cases (n i : ℕ) (got : List (Link × UInt16)) (dialed : List Link) :
    (∃ peers, outcome n i got dialed = .connected peers) ∨ outcome n i got dialed = .panicked := by
  unfold outcome
  split
  · exact .inl ⟨_, rfl⟩
  · rename_i e _
    exact e.elim
  · exact .inr rfl

/-- A call that is over has nothing to do. -/
theorem weight_outcome {got : List (Link × UInt16)} {dialed : List Link} :
    Call.weight n i { c with stage := outcome n i got dialed } = 0 := by
  rcases outcome_cases n i got dialed with ⟨peers, hover⟩ | hover
  · rw [weight, hover]
  · rw [weight, hover]

/-- An accept task that gets on. -/
theorem taskWeight_set {d : Call} {a : ℕ} {x y : Accept} (ha : c.accepts[a]? = some x)
    (haccepts : d.accepts = c.accepts.set a y) (hdials : d.dials = c.dials)
    (hxy : y.weight < x.weight) : d.taskWeight n < c.taskWeight n := by
  obtain ⟨pre, post, hpre, hset⟩ := exists_split_set ha y
  unfold taskWeight
  rw [haccepts, hdials, hset, hpre]
  simp only [List.map_append, List.map_cons, List.sum_append, List.sum_cons]
  omega

/-- A dial task that gets on. -/
theorem taskWeight_setDial {d : Dial} (hj : j < n) (hd : d.weight < (c.dials j).weight) :
    (c.setDial j d).taskWeight n < c.taskWeight n := by
  unfold taskWeight
  refine Nat.add_lt_add_left (sum_lt_of_change (Finset.mem_range.mpr hj) (fun i _ hij => ?_) ?_) _
  · simp [setDial, Function.update_of_ne hij]
  · simpa [setDial] using hd

end Call

namespace Mesh

/-- What a session has to do to be connected. -/
def weight (n k : ℕ) (w : Mesh P) : ℕ := ∑ i ∈ Finset.range n, (w.call k i).weight n i

theorem weight_setCall (hi : i < n) (hc : c.weight n i < (w.call k i).weight n i) :
    (w.setCall k i c).weight n k < w.weight n k := by
  refine sum_lt_of_change (Finset.mem_range.mpr hi) (fun j _ hji => ?_) ?_
  · rw [setCall_call, if_neg fun h => hji h.2]
  · rwa [setCall_self]

/-- The sessions before session `k` are over. -/
def Done (n k : ℕ) (w : Mesh P) : Prop :=
  ∀ k' < k, ∀ i < n, (w.call k' i).Connected ∧ (P k').returned (w.net k') i

/-! ### Connecting -/

/-- Whoever is connected stays so. -/
theorem Step.connected (hs : Step n K P w w') (hi : (w.call k i).Connected) :
    (w'.call k i).Connected := by
  -- a call that changes was not connected, or keeps its stage
  have hset : ∀ {w : Mesh P} {k' i' : ℕ} {c : Call}, (w.call k i).Connected →
      (∀ peers, (w.call k' i').stage = .connected peers → c.stage = .connected peers) →
      ((w.setCall k' i' c).call k i).Connected := by
    intro w k' i' c hi hc
    rw [setCall_call]
    split
    · rename_i heq
      obtain ⟨rfl, rfl⟩ := heq
      obtain ⟨peers, hpeers⟩ := hi
      exact ⟨peers, hc peers hpeers⟩
    · exact hi
  cases hs with
  | begin hk hi' hc hprev => exact hset hi fun peers hp => by cases hc.symm.trans hp
  | @dial k₁ j₁ i₁ k₂ hc hj hd hl hroom =>
    refine hset (hset hi fun peers hp => by cases hc.symm.trans hp) fun peers hp => ?_
    rw [setCall_call] at hp
    split at hp
    · cases hc.symm.trans hp
    · cases hl.1.symm.trans hp
  | write hd => exact hset hi fun peers hp => hp
  | accept hc ha hb => exact hset hi fun peers hp => hp
  | read hc ha hx => exact hset hi fun peers hp => hp
  | finish hc hacc hdial => exact hset hi fun peers hp => by cases hc.symm.trans hp
  | run hc hs => exact hi

theorem Step.done (hs : Step n K P w w') (hnet : w'.net = w.net) (hdone : w.Done n k) :
    w'.Done n k := by
  intro k' hk' i hi
  rw [hnet]
  exact ⟨hs.connected (hdone k' hk' i hi).1, (hdone k' hk' i hi).2⟩

/-- Tasks that are all done. -/
theorem exists_named {as : List Accept} (h : ∀ a ∈ as, ¬ a.Running) :
    ∃ got : List (Link × UInt16), as = got.map fun e => .named e.1 e.2 := by
  have hrange : as ∈ Set.range (List.map fun e : Link × UInt16 => Accept.named e.1 e.2) := by
    rw [Set.range_list_map]
    intro a ha
    cases a with
    | waiting => exact absurd trivial (h _ ha)
    | accepted l => exact absurd trivial (h _ ha)
    | named l x => exact ⟨(l, x), rfl⟩
  obtain ⟨got, hgot⟩ := hrange
  exact ⟨got, hgot.symm⟩

/-- Everybody has called `connect_tcp`. -/
structure Connecting (n k : ℕ) (w : Mesh P) : Prop where
  stage : ∀ i < n, (w.call k i).stage = .connecting ∨ (w.call k i).Connected
  length : ∀ i < n, (w.call k i).accepts.length = i

theorem Sound.connecting (h : w.Sound n K) (hall : ∀ i < n, (w.call k i).stage ≠ .fresh) :
    w.Connecting n k where
  stage i hi := by
    cases hc : (w.call k i).stage with
    | fresh => exact absurd hc (hall i hi)
    | connecting => exact .inl rfl
    | connected peers => exact .inr ⟨peers, hc⟩
    | panicked => exact absurd hc (h.tasks.calls k i).not_panicked
  length i hi := (h.tasks.calls k i).length (hall i hi)

/-- A task takes a connection. -/
theorem exists_accept (hi : i < n) (hc : (w.call k i).stage = .connecting)
    (hb : (w.call k i).backlog ≠ []) (hmem : Accept.waiting ∈ (w.call k i).accepts) :
    ∃ w', Step n K P w w' ∧ w'.net = w.net ∧ w'.weight n k < w.weight n k := by
  obtain ⟨l, rest, hrest⟩ := List.exists_cons_of_ne_nil hb
  obtain ⟨a, ha⟩ := List.mem_iff_getElem?.mp hmem
  refine ⟨_, .accept hc ha hrest, rfl, weight_setCall hi ?_⟩
  rw [Call.weight_connecting hc, Call.weight_connecting (c := (w.call k i).accept a l rest) hc]
  refine Nat.add_lt_add_right (Call.taskWeight_set (d := (w.call k i).accept a l rest) ha rfl rfl ?_) 1
  exact Nat.lt_succ_self 1

/-- A handshake is written. -/
theorem Sound.exists_write (h : w.Sound n K) (hall : w.Connecting n k)
    (hd : (w.call k j).dials i = .connected l) :
    ∃ w', Step n K P w w' ∧ w'.net = w.net ∧ w'.weight n k < w.weight n k := by
  have hlink : w.link? k j i = some l := by
    rw [link?, hd]
    rfl
  obtain ⟨⟨hji, hi⟩, -⟩ := h.paired.link k j i l hlink
  have hj : j < n := lt_trans hji hi
  have hc : (w.call k j).stage = .connecting := by
    rcases hall.stage j hj with hc | hc
    · exact hc
    · obtain ⟨l', hl'⟩ := ((h.tasks.calls k j).settled hc).2 i (mem_dialedPeers.mpr ⟨hji, hi⟩)
      rw [hd] at hl'
      cases hl'
  refine ⟨_, .write hd, rfl, weight_setCall hj ?_⟩
  rw [Call.weight_connecting hc, Call.weight_connecting (c := (w.call k j).setDial i (.named l)) hc]
  refine Nat.add_lt_add_right (Call.taskWeight_setDial hi ?_) 1
  rw [hd]
  exact Nat.zero_lt_one

/-- A handshake is read: whoever has dialled has written it. -/
theorem Sound.exists_read (h : w.Sound n K) (hi : i < n) (hc : (w.call k i).stage = .connecting)
    (hwritten : ∀ j l, (w.call k j).dials i ≠ .connected l)
    (hmem : .accepted l ∈ (w.call k i).accepts) :
    ∃ w', Step n K P w w' ∧ w'.net = w.net ∧ w'.weight n k < w.weight n k := by
  obtain ⟨a, ha⟩ := List.mem_iff_getElem?.mp hmem
  have hpending : l ∈ w.pending k i :=
    List.mem_append_right _ (List.mem_filterMap.mpr ⟨_, hmem, rfl⟩)
  obtain ⟨j, hj⟩ := (h.paired.mem k i l).mp hpending
  obtain ⟨x, hx⟩ : ∃ x, w.wire l = some x := by
    unfold link? at hj
    cases hd : (w.call k j).dials i with
    | retrying =>
      rw [hd] at hj
      cases hj
    | connected l' => exact absurd hd (hwritten j l')
    | named l' =>
      rw [hd] at hj
      obtain rfl : l' = l := Option.some.inj hj
      exact h.tasks.written k j i l' hd
  refine ⟨_, .read hc ha hx, rfl, weight_setCall hi ?_⟩
  rw [Call.weight_connecting hc, Call.weight_connecting (c := (w.call k i).name a l x) hc]
  refine Nat.add_lt_add_right (Call.taskWeight_set (d := (w.call k i).name a l x) ha rfl rfl ?_) 1
  exact Nat.zero_lt_one

/-- Open tasks wait, and nobody waits for them. -/
def Waits (w : Mesh P) (k i : ℕ) : Prop :=
  ∀ a ∈ (w.call k i).accepts, a.Running → a = .waiting ∧ (w.call k i).backlog = []

/-- Somebody dials: the listener is open, as it has not heard from this party. -/
theorem Sound.exists_dial (h : w.Sound n K) (hall : w.Connecting n k)
    (hwaits : ∀ i < n, (w.call k i).stage = .connecting → w.Waits k i) (hj : j < n)
    (hc : (w.call k j).stage = .connecting) (hmem : i ∈ dialedPeers n j)
    (hd : (w.call k j).dials i = .retrying) :
    ∃ w', Step n K P w w' ∧ w'.net = w.net ∧ w'.weight n k < w.weight n k := by
  obtain ⟨hji, hi⟩ := mem_dialedPeers.mp hmem
  obtain ⟨a, ha, hrun⟩ : ∃ a ∈ (w.call k i).accepts, a.Running := by
    by_contra hnone
    push Not at hnone
    have hfull : i ≤ (w.pending k i).length := by
      rw [pending, Call.pending, List.length_append, length_filterMap_link? hnone, hall.length i hi]
      exact Nat.le_add_left _ _
    obtain ⟨l, hl⟩ := h.paired.link?_of_full hfull hji
    rw [link?, hd] at hl
    cases hl
  have hci : (w.call k i).stage = .connecting := by
    rcases hall.stage i hi with hci | hci
    · exact hci
    · exact absurd hrun (((h.tasks.calls k i).settled hci).1 a ha)
  have hroom : (w.call k i).backlog.length < Call.maxBacklog := by
    rw [(hwaits i hi hci a ha hrun).2]
    decide
  refine ⟨_, .dial hc hmem hd ⟨hci, a, ha, hrun⟩ hroom, rfl, ?_⟩
  refine sum_lt_of_change (Finset.mem_range.mpr hj) (fun i' _ hij => ?_) ?_
  · rw [setCall_call, setCall_call]
    by_cases hii : i' = i
    · subst hii
      rw [if_pos ⟨rfl, rfl⟩]
      rfl
    · rw [if_neg fun heq => hii heq.2, if_neg fun heq => hij heq.2]
  · rw [setCall_call, if_neg fun heq => Nat.ne_of_lt hji heq.2, setCall_self,
      Call.weight_connecting hc,
      Call.weight_connecting (c := (w.call k j).setDial i (.connected ⟨j, k, i, k⟩)) hc]
    refine Nat.add_lt_add_right (Call.taskWeight_setDial hi ?_) 1
    rw [hd]
    exact Nat.lt_succ_self 1

/-- A listener that everybody has dialled has heard from everybody. -/
theorem Sound.not_running (h : w.Sound n K) (hall : w.Connecting n k) (hi : i < n)
    (hwaits : w.Waits k i) (hnamed : ∀ j < i, ∃ l, (w.call k j).dials i = .named l) :
    ∀ a ∈ (w.call k i).accepts, ¬ a.Running := by
  intro a ha hrun
  obtain ⟨rfl, hnil⟩ := hwaits a ha hrun
  have hsub : (List.range i).Subperm ((w.pending k i).map Link.dialer) := by
    refine List.nodup_range.subperm fun j hj => ?_
    obtain ⟨l, hl⟩ := hnamed j (List.mem_range.mp hj)
    have hlink : w.link? k j i = some l := by
      rw [link?, hl]
      rfl
    refine List.mem_map.mpr ⟨l, (h.paired.mem k i l).mpr ⟨j, hlink⟩, ?_⟩
    rw [(h.paired.link k j i l hlink).2]
  have hle := hsub.length_le
  rw [List.length_range, List.length_map, pending, Call.pending, hnil, List.nil_append] at hle
  -- but this task has no connection
  have heq : ((w.call k i).accepts.filterMap Accept.link?).length = (w.call k i).accepts.length :=
    Nat.le_antisymm (List.length_filterMap_le _ _) (by rw [hall.length i hi]; exact hle)
  have hsome := List.filterMap_length_eq_length.mp heq _ ha
  cases hsome

/-- A call ends. -/
theorem exists_finish (hi : i < n) (hc : (w.call k i).stage = .connecting)
    (hall : ∀ a ∈ (w.call k i).accepts, ¬ a.Running)
    (hnamed : ∀ j ∈ dialedPeers n i, ∃ l, (w.call k i).dials j = .named l) :
    ∃ w', Step n K P w w' ∧ w'.net = w.net ∧ w'.weight n k < w.weight n k := by
  obtain ⟨got, hgot⟩ := exists_named hall
  have hrange : (dialedPeers n i).map (w.call k i).dials ∈ Set.range (List.map Dial.named) := by
    rw [Set.range_list_map]
    intro d hd
    obtain ⟨j, hj, rfl⟩ := List.mem_map.mp hd
    obtain ⟨l, hl⟩ := hnamed j hj
    exact ⟨l, hl.symm⟩
  obtain ⟨dialed, hdialed⟩ := hrange
  refine ⟨_, .finish hc hgot hdialed.symm, rfl, weight_setCall hi ?_⟩
  rw [Call.weight_connecting hc, Call.weight_outcome]
  exact Nat.succ_pos _

/-- **Progress.**  When the sessions before are over, and somebody is not connected yet, somebody can
    do something. -/
theorem Sound.exists_step (h : w.Sound n K) (hk : k < K) (hdone : w.Done n k)
    (hnot : ¬ ∀ i < n, (w.call k i).Connected) :
    ∃ w', Step n K P w w' ∧ w'.net = w.net ∧ w'.weight n k < w.weight n k := by
  by_cases hfresh : ∃ i < n, (w.call k i).stage = .fresh
  · obtain ⟨i, hi, hc⟩ := hfresh
    refine ⟨_, .begin hk hi hc fun k' hk' => hdone k' (by omega) i hi, rfl, weight_setCall hi ?_⟩
    rw [h.ordered.fresh k i hc]
    exact Call.weight_begun n i
  push Not at hfresh
  have hall := h.connecting hfresh
  by_cases haccept : ∃ i < n, (w.call k i).stage = .connecting ∧ (w.call k i).backlog ≠ [] ∧
      Accept.waiting ∈ (w.call k i).accepts
  · obtain ⟨i, hi, hc, hb, hmem⟩ := haccept
    exact exists_accept hi hc hb hmem
  by_cases hwrite : ∃ j i l, (w.call k j).dials i = .connected l
  · obtain ⟨j, i, l, hd⟩ := hwrite
    exact h.exists_write hall hd
  push Not at haccept hwrite
  by_cases hread : ∃ i < n, (w.call k i).stage = .connecting ∧ ∃ l, .accepted l ∈ (w.call k i).accepts
  · obtain ⟨i, hi, hc, l, hmem⟩ := hread
    exact h.exists_read hi hc (fun j l => hwrite j i l) hmem
  push Not at hread
  have hwaits : ∀ i < n, (w.call k i).stage = .connecting → w.Waits k i := by
    intro i hi hc a ha hrun
    cases a with
    | waiting =>
      refine ⟨rfl, ?_⟩
      by_contra hb
      exact haccept i hi hc hb ha
    | accepted l => exact absurd ha (hread i hi hc l)
    | named l x => exact hrun.elim
  by_cases hdial : ∃ j < n, (w.call k j).stage = .connecting ∧ ∃ i ∈ dialedPeers n j,
      (w.call k j).dials i = .retrying
  · obtain ⟨j, hj, hc, i, hmem, hd⟩ := hdial
    exact h.exists_dial hall hwaits hj hc hmem hd
  push Not at hdial
  -- all dial tasks are done, and so are the accept tasks of whoever is still connecting
  have hnamed : ∀ j < n, ∀ i ∈ dialedPeers n j, ∃ l, (w.call k j).dials i = .named l := by
    intro j hj i hi
    rcases hall.stage j hj with hc | hc
    · cases hd : (w.call k j).dials i with
      | retrying => exact absurd hd (hdial j hj hc i hi)
      | connected l => exact absurd hd (hwrite j i l)
      | named l => exact ⟨l, rfl⟩
    · exact ((h.tasks.calls k j).settled hc).2 i hi
  push Not at hnot
  obtain ⟨i, hi, hci⟩ := hnot
  have hc := (hall.stage i hi).resolve_right hci
  exact exists_finish hi hc (h.not_running hall hi (hwaits i hi hc) fun j hji =>
    hnamed j (lt_trans hji hi) i (mem_dialedPeers.mpr ⟨hji, hi⟩)) (hnamed i hi)

/-! ### Whole sessions -/

section Sessions

variable (hP : ∀ k, k + 1 < K → (P k).IsBarrier n) (hn : n < 2 ^ 16)

include hP hn

/-- All parties connect. -/
theorem Sound.exists_connected (h : w.Sound n K) (hk : k < K) (hdone : w.Done n k) :
    ∃ w', Relation.ReflTransGen (Step n K P) w w' ∧ (w'.Sound n K ∧ w'.Done n k) ∧
      ∀ i < n, (w'.call k i).Connected := by
  refine exists_reach_of_measure (P := fun w : Mesh P => w.Sound n K ∧ w.Done n k) (weight n k)
    (fun w hw hnot => ?_) ⟨h, hdone⟩
  obtain ⟨w', hs, hnet, hlt⟩ := hw.1.exists_step hk hw.2 hnot
  exact ⟨w', .single hs, ⟨hw.1.step hP hn hs, hs.done hnet hw.2⟩, hlt⟩

omit hP hn in
/-- Connected parties run their protocol. -/
theorem run_of_steps {s s' : (P k).State} (hc : ∀ i < n, (w.call k i).Connected)
    (hrun : Relation.ReflTransGen ((P k).StepOf (· < n)) s s') :
    Relation.ReflTransGen (Step n K P) (w.setNet k s) (w.setNet k s') := by
  induction hrun with
  | refl => exact .refl
  | @tail s₁ s₂ _ hs ih =>
    obtain ⟨i, hi, hs⟩ := hs
    refine ih.tail ?_
    have hs₁ : (P k).step i ((w.setNet k s₁).net k) s₂ := by
      rw [show (w.setNet k s₁).net k = s₁ from Function.update_self ..]
      exact hs
    have hstep : Step n K P (w.setNet k s₁) ((w.setNet k s₁).setNet k s₂) := .run (hc i hi) hs₁
    simpa [setNet] using hstep

/-- **One session.** -/
theorem Sound.exists_session (h : w.Sound n K) (hF : (P k).CanFinish n) (hk : k < K)
    (hdone : w.Done n k) :
    ∃ w', Relation.ReflTransGen (Step n K P) w w' ∧ w'.Sound n K ∧ w'.Done n (k + 1) := by
  obtain ⟨w₁, hrun₁, ⟨hw₁, hdone₁⟩, hc⟩ := h.exists_connected hP hn hk hdone
  have hnet : (P k).ReachedBy (· < n) (w₁.net k) := by
    refine (hw₁.ordered.net k).mono fun i hi => ?_
    obtain ⟨peers, hpeers⟩ := hi
    exact (hw₁.ordered.inside k i (by rw [hpeers]; exact Stage.noConfusion)).2
  obtain ⟨s, hsteps, hret⟩ := hF _ hnet
  have hrun₂ : Relation.ReflTransGen (Step n K P) w₁ (w₁.setNet k s) := by
    have hrun := run_of_steps (K := K) hc hsteps
    rwa [show w₁.setNet k (w₁.net k) = w₁ by simp [setNet]] at hrun
  refine ⟨w₁.setNet k s, hrun₁.trans hrun₂, hw₁.run hP hn hrun₂, fun k' hk' i hi => ?_⟩
  · rcases Nat.lt_succ_iff_lt_or_eq.mp hk' with hlt | rfl
    · rw [show (w₁.setNet k s).net k' = w₁.net k' from Function.update_of_ne (Nat.ne_of_lt hlt) ..]
      exact hdone₁ k' hlt i hi
    · rw [show (w₁.setNet k' s).net k' = s from Function.update_self ..]
      exact ⟨hc i hi, hret i hi⟩

/-- **All sessions.** -/
theorem Reached.exists_done (h : Reached n K w) (hF : ∀ k < K, (P k).CanFinish n) :
    ∃ w', Relation.ReflTransGen (Step n K P) w w' ∧ w'.Done n K := by
  have hsessions : ∀ m ≤ K, ∃ w', Relation.ReflTransGen (Step n K P) w w' ∧ w'.Sound n K ∧
      w'.Done n m := by
    intro m hm
    induction m with
    | zero => exact ⟨w, .refl, h.sound hP hn, fun k hk => absurd hk (Nat.not_lt_zero k)⟩
    | succ m ih =>
      obtain ⟨w₁, hrun₁, hw₁, hdone₁⟩ := ih (Nat.le_of_succ_le hm)
      obtain ⟨w₂, hrun₂, hw₂, hdone₂⟩ := hw₁.exists_session hP hn (hF m hm) hm hdone₁
      exact ⟨w₂, hrun₁.trans hrun₂, hw₂, hdone₂⟩
  obtain ⟨w', hrun, -, hdone⟩ := hsessions K le_rfl
  exact ⟨w', hrun, hdone⟩

end Sessions

end Mesh

end Govis.Tcp
