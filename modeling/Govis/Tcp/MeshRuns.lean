import Govis.Tcp.Mesh
import Govis.Transition

namespace Govis.Tcp

open Rounds

/-!
# The transport: runs of all sessions

What holds while the parties connect, run a protocol and connect again.

* `Mesh.Ordered` — nobody is a session ahead of a party that is not connected yet;
* `Mesh.Paired` — a listener is reached by the dials of its own session, once each;
* `Mesh.Tasks` — what the tasks of a call have read and written;
* `Mesh.Reached.sound` — every run keeps the three.
-/

variable {P : ℕ → Protocol} {n K : ℕ} {w w' : Mesh P} {k k' i j : ℕ} {c : Call} {l : Link}

namespace Mesh

/-! ### Views -/

/-- The connection that the dial task for party `i` has got. -/
def link? (w : Mesh P) (k j i : ℕ) : Option Link := ((w.call k j).dials i).link?

def pending (w : Mesh P) (k i : ℕ) : List Link := (w.call k i).pending

theorem link?_setCall (k' j' i' : ℕ) : (w.setCall k j c).link? k' j' i' =
    if k' = k ∧ j' = j then (c.dials i').link? else w.link? k' j' i' := by
  unfold link?
  rw [setCall_call]
  split
  · rfl
  · rfl

theorem pending_setCall (k' i' : ℕ) : (w.setCall k i c).pending k' i' =
    if k' = k ∧ i' = i then c.pending else w.pending k' i' := by
  unfold pending
  rw [setCall_call]
  split
  · rfl
  · rfl

/-- A call that keeps its dials keeps their connections. -/
theorem link?_setCall_of_dials (hc : c.dials = (w.call k j).dials) (k' j' i' : ℕ) :
    (w.setCall k j c).link? k' j' i' = w.link? k' j' i' := by
  rw [link?_setCall]
  split
  · rename_i h
    obtain ⟨rfl, rfl⟩ := h
    rw [hc]
    rfl
  · rfl

theorem stage_setCall_of_eq (hc : c.stage = (w.call k i).stage) (k' i' : ℕ) :
    ((w.setCall k i c).call k' i').stage = (w.call k' i').stage := by
  rw [setCall_call]
  split
  · rename_i h
    obtain ⟨rfl, rfl⟩ := h
    exact hc
  · rfl

/-! ### The order of the sessions -/

/-- The calls of a party come one after the other, and **a protocol starts when everybody is
    connected**. -/
structure Ordered (n K : ℕ) (w : Mesh P) : Prop where
  fresh : ∀ k i, (w.call k i).stage = .fresh → w.call k i = .fresh
  inside : ∀ k i, (w.call k i).stage ≠ .fresh → k < K ∧ i < n
  barrier : ∀ k i, (w.call (k + 1) i).stage ≠ .fresh → ∀ j < n, (w.call k j).Connected
  net : ∀ k, (P k).ReachedBy (fun i => (w.call k i).Connected) (w.net k)

theorem Ordered.init : (Mesh.init : Mesh P).Ordered n K where
  fresh _ _ _ := rfl
  inside _ _ h := absurd rfl h
  barrier _ _ h := absurd rfl h
  net _ := .refl

/-- Steps that leave all stages and protocols alone. -/
theorem Ordered.of_stage (h : w.Ordered n K)
    (hstage : ∀ k i, (w'.call k i).stage = (w.call k i).stage)
    (hfresh : ∀ k i, (w.call k i).stage = .fresh → w'.call k i = w.call k i)
    (hnet : w'.net = w.net) : w'.Ordered n K := by
  have hconn : ∀ k i, (w.call k i).Connected → (w'.call k i).Connected := by
    rintro k i ⟨peers, hpeers⟩
    exact ⟨peers, (hstage k i).trans hpeers⟩
  refine ⟨fun k i hf => ?_, fun k i hf => ?_, fun k i hf j hj => ?_, fun k => ?_⟩
  · rw [hstage] at hf
    rw [hfresh k i hf, h.fresh k i hf]
  · rw [hstage] at hf
    exact h.inside k i hf
  · rw [hstage] at hf
    exact hconn k j (h.barrier k i hf j hj)
  · rw [hnet]
    exact (h.net k).mono (hconn k)

/-- In all sessions before that of a party everybody is connected. -/
theorem Ordered.connected_of_lt (h : w.Ordered n K) (hk : k' < k)
    (hc : (w.call k i).stage ≠ .fresh) (hj : j < n) : (w.call k' j).Connected := by
  induction k generalizing i with
  | zero => exact absurd hk (Nat.not_lt_zero k')
  | succ k ih =>
    have hall := h.barrier k i hc
    rcases Nat.lt_succ_iff_lt_or_eq.mp hk with hlt | rfl
    · obtain ⟨peers, hpeers⟩ := hall j hj
      exact ih hlt (i := j) (by rw [hpeers]; exact Stage.noConfusion)
    · exact hall j hj

/-- **Two parties that are connecting** do so in the same session. -/
theorem Ordered.session_eq (h : w.Ordered n K) (hj : (w.call k j).stage = .connecting)
    (hi : (w.call k' i).stage = .connecting) : k' = k := by
  have hfresh : ∀ {k i}, (w.call k i).stage = .connecting → (w.call k i).stage ≠ .fresh :=
    fun hc hf => by
      rw [hc] at hf
      cases hf
  have hnot : ∀ {k i}, (w.call k i).stage = .connecting → ¬ (w.call k i).Connected := by
    rintro k i hc ⟨peers, hpeers⟩
    rw [hc] at hpeers
    cases hpeers
  rcases Nat.lt_trichotomy k' k with hlt | heq | hlt
  · exact absurd (h.connected_of_lt hlt (hfresh hj) (h.inside k' i (hfresh hi)).2) (hnot hi)
  · exact heq
  · exact absurd (h.connected_of_lt hlt (hfresh hi) (h.inside k j (hfresh hj)).2) (hnot hj)

/-! ### Dials and listeners -/

/-- What has come to a listener is what its session has dialled. -/
structure Paired (n : ℕ) (w : Mesh P) : Prop where
  link : ∀ k j i l, w.link? k j i = some l → (j < i ∧ i < n) ∧ l = ⟨j, k, i, k⟩
  mem : ∀ k i l, l ∈ w.pending k i ↔ ∃ j, w.link? k j i = some l
  nodup : ∀ k i, (w.pending k i).Nodup

theorem Paired.init : (Mesh.init : Mesh P).Paired n where
  link _ _ _ _ h := by cases h
  mem k i l := by
    constructor
    · intro h
      cases h
    · rintro ⟨j, hj⟩
      cases hj
  nodup _ _ := List.nodup_nil

/-- Steps that connect nothing new. -/
theorem Paired.of_perm (h : w.Paired n) (hlink : ∀ k j i, w'.link? k j i = w.link? k j i)
    (hpending : ∀ k i, (w'.pending k i).Perm (w.pending k i)) : w'.Paired n where
  link k j i l hl := h.link k j i l (by rwa [hlink] at hl)
  mem k i l := by
    rw [(hpending k i).mem_iff, h.mem]
    simp only [hlink]
  nodup k i := (hpending k i).nodup_iff.mpr (h.nodup k i)

/-- The dialers of what has come to a listener. -/
theorem Paired.dialers (h : w.Paired n) (k i : ℕ) :
    ((w.pending k i).map Link.dialer).Nodup ∧
      (w.pending k i).map Link.dialer ⊆ List.range i := by
  have hshape : ∀ l ∈ w.pending k i, l.dialer < i ∧ l = ⟨l.dialer, k, i, k⟩ := by
    intro l hl
    obtain ⟨j, hj⟩ := (h.mem k i l).mp hl
    obtain ⟨⟨hji, -⟩, rfl⟩ := h.link k j i l hj
    exact ⟨hji, rfl⟩
  constructor
  · refine (h.nodup k i).map_on fun l hl l' hl' heq => ?_
    rw [(hshape l hl).2, (hshape l' hl').2, heq]
  · intro d hd
    obtain ⟨l, hl, rfl⟩ := List.mem_map.mp hd
    exact List.mem_range.mpr (hshape l hl).1

/-- No more than the lower parties have come. -/
theorem Paired.length_le (h : w.Paired n) (k i : ℕ) : (w.pending k i).length ≤ i := by
  obtain ⟨hnd, hsub⟩ := h.dialers k i
  simpa using (hnd.subperm hsub).length_le

/-- If as many have come, all of them have. -/
theorem Paired.link?_of_full (h : w.Paired n) (hfull : i ≤ (w.pending k i).length) (hj : j < i) :
    ∃ l, w.link? k j i = some l := by
  obtain ⟨hnd, hsub⟩ := h.dialers k i
  have hperm := (hnd.subperm hsub).perm_of_length_le (by simpa using hfull)
  obtain ⟨l, hl, hd⟩ := List.mem_map.mp (hperm.mem_iff.mpr (List.mem_range.mpr hj))
  obtain ⟨j', hj'⟩ := (h.mem k i l).mp hl
  obtain ⟨-, rfl⟩ := h.link k j' i l hj'
  obtain rfl : j' = j := hd
  exact ⟨_, hj'⟩

end Mesh

/-! ### Tasks -/

theorem exists_split_set {as : List Accept} {a : ℕ} {x : Accept} (ha : as[a]? = some x) (y : Accept) :
    ∃ pre post, as = pre ++ x :: post ∧ as.set a y = pre ++ y :: post := by
  obtain ⟨hlt, rfl⟩ := List.getElem?_eq_some_iff.mp ha
  refine ⟨as.take a, as.drop (a + 1), ?_, ?_⟩
  · rw [List.cons_getElem_drop_succ, List.take_append_drop]
  · rw [List.set_eq_take_append_cons_drop, if_pos hlt]

/-- Taking a connection moves it from the backlog to a task. -/
theorem Call.pending_accept {a : ℕ} {rest : List Link} (ha : c.accepts[a]? = some .waiting)
    (hb : c.backlog = l :: rest) : (c.accept a l rest).pending.Perm c.pending := by
  obtain ⟨pre, post, hpre, hset⟩ := exists_split_set ha (.accepted l)
  unfold pending accept
  rw [hset, hpre, hb]
  simp only [List.filterMap_append, List.filterMap_cons, Accept.link?]
  rw [← List.append_assoc, List.cons_append, ← List.append_assoc]
  exact List.perm_middle

/-- What the tasks have connected to. -/
theorem length_filterMap_link? {as : List Accept} (h : ∀ a ∈ as, ¬ a.Running) :
    (as.filterMap Accept.link?).length = as.length := by
  rw [List.filterMap_length_eq_length]
  intro a ha
  cases a with
  | waiting => exact absurd trivial (h _ ha)
  | accepted l => rfl
  | named l x => rfl

/-- Reading a handshake closes a listener that nobody waits for any more. -/
theorem Call.pending_name {a : ℕ} {x : UInt16} (ha : c.accepts[a]? = some (.accepted l))
    (hle : c.pending.length ≤ c.accepts.length) : (c.name a l x).pending = c.pending := by
  obtain ⟨pre, post, hpre, hset⟩ := exists_split_set ha (.named l x)
  have hlinks : (c.accepts.set a (.named l x)).filterMap Accept.link? =
      c.accepts.filterMap Accept.link? := by
    rw [hset, hpre]
    simp only [List.filterMap_append, List.filterMap_cons, Accept.link?]
  unfold pending name
  rw [hlinks]
  split
  · rfl
  · rename_i hdone
    push Not at hdone
    have hlen := length_filterMap_link? hdone
    rw [hlinks, List.length_set] at hlen
    rw [pending, List.length_append, hlen] at hle
    have hnil : c.backlog = [] := List.length_eq_zero_iff.mp (by omega)
    rw [hnil]

/-- What holds of one call. -/
structure Call.Ok (n k i : ℕ) (c : Call) : Prop where
  length : c.stage ≠ .fresh → c.accepts.length = i
  sender : ∀ l x, .named l x ∈ c.accepts → x = UInt16.ofNat l.dialer
  settled : c.Connected →
    (∀ a ∈ c.accepts, ¬ a.Running) ∧ ∀ j ∈ dialedPeers n i, ∃ l, c.dials j = .named l
  not_panicked : c.stage ≠ .panicked
  table : ∀ peers, c.stage = .connected peers → peers = meshTable n k i

theorem Call.not_connected (hc : c.stage = .connecting) : ¬ c.Connected := by
  rintro ⟨peers, hpeers⟩
  rw [hc] at hpeers
  cases hpeers

theorem Call.Ok.fresh : Call.fresh.Ok n k i where
  length h := absurd rfl h
  sender _ _ h := absurd h List.not_mem_nil
  settled := by
    rintro ⟨peers, h⟩
    cases h
  not_panicked h := by cases h
  table _ h := by cases h

/-- A call that is connecting. -/
theorem Call.Ok.of_connecting (hc : c.stage = .connecting) (hlen : c.accepts.length = i)
    (hsender : ∀ l x, .named l x ∈ c.accepts → x = UInt16.ofNat l.dialer) : c.Ok n k i where
  length _ := hlen
  sender := hsender
  settled h := absurd h (Call.not_connected hc)
  not_panicked h := by
    rw [hc] at h
    cases h
  table peers h := by
    rw [hc] at h
    cases h

theorem Call.Ok.begun : (Call.begun i).Ok n k i := by
  refine .of_connecting rfl List.length_replicate fun l x h => ?_
  cases List.eq_of_mem_replicate h

/-- Writing a handshake. -/
theorem Call.Ok.write (h : c.Ok n k j) : (c.setDial i (.named l)).Ok n k j :=
  { h with
    settled := by
      intro hc
      obtain ⟨haccepts, hdials⟩ := h.settled hc
      refine ⟨haccepts, fun i' hi' => ?_⟩
      by_cases heq : i' = i
      · subst heq
        exact ⟨l, Function.update_self ..⟩
      · obtain ⟨l', hl'⟩ := hdials i' hi'
        exact ⟨l', (Function.update_of_ne heq ..).trans hl'⟩ }

/-- An accept task that changes. -/
theorem Call.Ok.set (h : c.Ok n k i) {c' : Call} (hc : c.stage = .connecting) {a : ℕ} {x : Accept}
    (hstage : c'.stage = c.stage) (haccepts : c'.accepts = c.accepts.set a x)
    (hx : ∀ l s, x = .named l s → s = UInt16.ofNat l.dialer) : c'.Ok n k i := by
  refine .of_connecting (hstage.trans hc) ?_ fun l s hmem => ?_
  · rw [haccepts, List.length_set]
    exact h.length (by rw [hc]; exact Stage.noConfusion)
  · rw [haccepts] at hmem
    rcases List.mem_or_eq_of_mem_set hmem with hmem | rfl
    · exact h.sender l s hmem
    · exact hx l s rfl

namespace Mesh

/-- The tasks of all calls, and what is on the wire for them. -/
structure Tasks (n : ℕ) (w : Mesh P) : Prop where
  calls : ∀ k i, (w.call k i).Ok n k i
  wire : ∀ l x, w.wire l = some x → x = UInt16.ofNat l.dialer
  written : ∀ k j i l, (w.call k j).dials i = .named l → ∃ x, w.wire l = some x

theorem Tasks.init : (Mesh.init : Mesh P).Tasks n where
  calls _ _ := .fresh
  wire _ _ h := by cases h
  written _ _ _ _ h := by cases h

/-- A call that writes no handshake. -/
theorem Tasks.setCall (h : w.Tasks n) (hc : c.Ok n k j)
    (hdials : ∀ i l, c.dials i = .named l → (w.call k j).dials i = .named l) :
    (w.setCall k j c).Tasks n where
  calls k' j' := by
    rw [setCall_call]
    split
    · rename_i heq
      obtain ⟨rfl, rfl⟩ := heq
      exact hc
    · exact h.calls k' j'
  wire := h.wire
  written k' j' i l hl := by
    rw [setCall_call] at hl
    split at hl
    · rename_i heq
      obtain ⟨rfl, rfl⟩ := heq
      exact h.written _ _ _ _ (hdials i l hl)
    · exact h.written _ _ _ _ hl

/-! ### All steps -/

/-- **The invariant.** -/
structure Sound (n K : ℕ) (w : Mesh P) : Prop where
  ordered : w.Ordered n K
  paired : w.Paired n
  tasks : w.Tasks n

/-- A session begins when the protocol of the one before is a barrier. -/
theorem Ordered.begin (h : w.Ordered n K) (hP : ∀ k, k + 1 < K → (P k).IsBarrier n) (hk : k < K)
    (hi : i < n) (hc : (w.call k i).stage = .fresh)
    (hprev : ∀ k', k' + 1 = k → (w.call k' i).Connected ∧ (P k').returned (w.net k') i) :
    (w.setCall k i (.begun i)).Ordered n K := by
  -- no call but this one changes, and it was not connected
  have hconn : ∀ k' j, (w.call k' j).Connected → ((w.setCall k i (.begun i)).call k' j).Connected := by
    intro k' j hj
    rw [setCall_call]
    split
    · rename_i heq
      obtain ⟨rfl, rfl⟩ := heq
      obtain ⟨peers, hpeers⟩ := hj
      rw [hc] at hpeers
      cases hpeers
    · exact hj
  refine ⟨fun k' j hf => ?_, fun k' j hf => ?_, fun k' j hf j' hj' => ?_, fun k' => ?_⟩
  · rw [setCall_call] at hf ⊢
    split at hf
    · cases hf
    · rename_i hne
      rw [if_neg hne]
      exact h.fresh k' j hf
  · rw [setCall_call] at hf
    split at hf
    · rename_i heq
      obtain ⟨rfl, rfl⟩ := heq
      exact ⟨hk, hi⟩
    · exact h.inside k' j hf
  · rw [setCall_call] at hf
    split at hf
    · rename_i heq
      obtain ⟨rfl, rfl⟩ := heq
      obtain ⟨hself, hret⟩ := hprev k' rfl
      by_cases hj : j' = j
      · subst hj
        exact hconn _ _ hself
      · exact hconn _ _ (hP k' hk _ _ (h.net k') j hi hret j' hj' hj)
    · exact hconn _ _ (h.barrier k' j hf j' hj')
  · exact (h.net k').mono (hconn k')

/-- A call that ends. -/
theorem Ordered.finish (h : w.Ordered n K) (hc : (w.call k i).stage = .connecting) {peers}
    (hstage : c.stage = .connected peers) : (w.setCall k i c).Ordered n K := by
  have hconn : ∀ k' j, (w.call k' j).Connected → ((w.setCall k i c).call k' j).Connected := by
    intro k' j hj
    rw [setCall_call]
    split
    · exact ⟨peers, hstage⟩
    · exact hj
  have hfresh : ∀ k' j, ((w.setCall k i c).call k' j).stage ≠ .fresh → (w.call k' j).stage ≠ .fresh := by
    intro k' j hf
    rw [setCall_call] at hf
    split at hf
    · rename_i heq
      obtain ⟨rfl, rfl⟩ := heq
      rw [hc]
      exact Stage.noConfusion
    · exact hf
  refine ⟨fun k' j hf => ?_, fun k' j hf => h.inside k' j (hfresh k' j hf),
    fun k' j hf j' hj' => hconn _ _ (h.barrier k' j (hfresh _ j hf) j' hj'),
    fun k' => (h.net k').mono (hconn k')⟩
  rw [setCall_call] at hf ⊢
  split at hf
  · rw [hstage] at hf
    cases hf
  · rename_i hne
    rw [if_neg hne]
    exact h.fresh k' j hf

/-- A call that goes on connecting keeps the order. -/
theorem Ordered.setCall (h : w.Ordered n K) (hc : (w.call k i).stage = .connecting)
    (hstage : c.stage = .connecting) : (w.setCall k i c).Ordered n K := by
  refine h.of_stage (stage_setCall_of_eq (hstage.trans hc.symm)) (fun k' i' hf => ?_) rfl
  rw [setCall_call]
  split
  · rename_i heq
    obtain ⟨rfl, rfl⟩ := heq
    rw [hc] at hf
    cases hf
  · rfl

/-- A call of the session begins. -/
theorem Sound.begin (h : w.Sound n K) (hP : ∀ k, k + 1 < K → (P k).IsBarrier n) (hk : k < K)
    (hi : i < n) (hc : (w.call k i).stage = .fresh)
    (hprev : ∀ k', k' + 1 = k → (w.call k' i).Connected ∧ (P k').returned (w.net k') i) :
    (w.setCall k i (.begun i)).Sound n K := by
  have hfresh := h.ordered.fresh k i hc
  refine ⟨h.ordered.begin hP hk hi hc hprev, h.paired.of_perm (fun k' j i' => ?_) fun k' i' => ?_,
    h.tasks.setCall .begun fun i' l hl => ?_⟩
  · exact link?_setCall_of_dials (by rw [hfresh]; rfl) k' j i'
  · rw [pending_setCall]
    split
    · rename_i heq
      obtain ⟨rfl, rfl⟩ := heq
      have hnone : (Call.begun i').pending = [] := by
        simp [Call.pending, Call.begun, List.filterMap_replicate, Accept.link?]
      rw [pending, hfresh, hnone]
      exact .refl _
    · exact .refl _
  · cases hl

/-- A new connection. -/
theorem Paired.dial (h : w.Paired n) (hji : j < i) (hi : i < n) (hnone : w.link? k j i = none)
    (hlink : ∀ k₁ j₁ i₁, w'.link? k₁ j₁ i₁ =
      if k₁ = k ∧ j₁ = j ∧ i₁ = i then some ⟨j, k, i, k⟩ else w.link? k₁ j₁ i₁)
    (hpending : ∀ k₁ i₁, (w'.pending k₁ i₁).Perm
      (if k₁ = k ∧ i₁ = i then ⟨j, k, i, k⟩ :: w.pending k₁ i₁ else w.pending k₁ i₁)) :
    w'.Paired n := by
  refine ⟨fun k₁ j₁ i₁ l₁ hl₁ => ?_, fun k₁ i₁ l₁ => ?_, fun k₁ i₁ => ?_⟩
  · rw [hlink] at hl₁
    split at hl₁
    · rename_i heq
      obtain ⟨rfl, rfl, rfl⟩ := heq
      exact ⟨⟨hji, hi⟩, (Option.some.inj hl₁).symm⟩
    · exact h.link k₁ j₁ i₁ l₁ hl₁
  · rw [(hpending k₁ i₁).mem_iff]
    by_cases heq : k₁ = k ∧ i₁ = i
    · obtain ⟨rfl, rfl⟩ := heq
      rw [if_pos ⟨rfl, rfl⟩, List.mem_cons, h.mem]
      constructor
      · rintro (rfl | ⟨j₁, hj₁⟩)
        · exact ⟨j, by rw [hlink, if_pos ⟨rfl, rfl, rfl⟩]⟩
        · refine ⟨j₁, ?_⟩
          rw [hlink, if_neg]
          · exact hj₁
          · rintro ⟨-, rfl, -⟩
            rw [hnone] at hj₁
            cases hj₁
      · rintro ⟨j₁, hj₁⟩
        rw [hlink] at hj₁
        split at hj₁
        · exact .inl (Option.some.inj hj₁).symm
        · exact .inr ⟨j₁, hj₁⟩
    · rw [if_neg heq, h.mem]
      refine exists_congr fun j₁ => ?_
      rw [hlink, if_neg fun heq' => heq ⟨heq'.1, heq'.2.2⟩]
  -- the dialer had not come before
  · rw [(hpending k₁ i₁).nodup_iff]
    split
    · rename_i heq
      obtain ⟨rfl, rfl⟩ := heq
      refine List.nodup_cons.mpr ⟨fun hmem => ?_, h.nodup k₁ i₁⟩
      obtain ⟨j₁, hj₁⟩ := (h.mem k₁ i₁ _).mp hmem
      obtain ⟨-, heq⟩ := h.link k₁ j₁ i₁ _ hj₁
      obtain rfl : j = j₁ := congrArg Link.dialer heq
      rw [hnone] at hj₁
      cases hj₁
    · exact h.nodup k₁ i₁

/-- **A dial task** finds the listener of its own session. -/
theorem Sound.dial (h : w.Sound n K) (hc : (w.call k j).stage = .connecting)
    (hj : i ∈ dialedPeers n j) (hd : (w.call k j).dials i = .retrying)
    (hl : (w.call k' i).Listening) :
    ((w.setCall k j ((w.call k j).setDial i (.connected ⟨j, k, i, k'⟩))).setCall k' i
      ((w.call k' i).enqueue ⟨j, k, i, k'⟩)).Sound n K := by
  obtain rfl := h.ordered.session_eq hc hl.1
  obtain ⟨hji, hi⟩ := mem_dialedPeers.mp hj
  set l : Link := ⟨j, k', i, k'⟩ with hldef
  set c := (w.call k' j).setDial i (.connected l) with hcdef
  set c' := (w.call k' i).enqueue l with hcdef'
  -- the dialer and the listener are different calls
  have hother : (w.setCall k' j c).call k' i = w.call k' i := by
    rw [setCall_call, if_neg fun heq => Nat.ne_of_gt hji heq.2]
  have hconn : (w.setCall k' j c).Ordered n K := h.ordered.setCall hc hc
  have hnone : w.link? k' j i = none := by
    rw [link?, hd]
    rfl
  refine ⟨hconn.setCall (by rw [hother]; exact hl.1) hl.1,
    h.paired.dial hji hi hnone (fun k₁ j₁ i₁ => ?_) fun k₁ i₁ => ?_, ?_⟩
  · rw [link?_setCall_of_dials (by rw [hother]; rfl), link?_setCall]
    by_cases hkj : k₁ = k' ∧ j₁ = j
    · obtain ⟨rfl, rfl⟩ := hkj
      by_cases hii : i₁ = i
      · subst hii
        simp [hcdef, Call.setDial, Dial.link?, hldef]
      · simp [hcdef, Call.setDial, hii, link?]
    · rw [if_neg hkj, if_neg fun heq => hkj ⟨heq.1, heq.2.1⟩]
  · rw [pending_setCall]
    by_cases heq : k₁ = k' ∧ i₁ = i
    · obtain ⟨rfl, rfl⟩ := heq
      rw [if_pos ⟨rfl, rfl⟩, if_pos ⟨rfl, rfl⟩, pending, Call.pending, Call.pending, hcdef',
        Call.enqueue, List.append_assoc]
      exact List.perm_middle
    · rw [if_neg heq, if_neg heq, pending_setCall]
      split
      · rename_i heq'
        obtain ⟨rfl, rfl⟩ := heq'
        exact .refl _
      · exact .refl _
  · have hlen : ∀ {i}, (w.call k' i).stage = .connecting → (w.call k' i).accepts.length = i :=
      fun hc => (h.tasks.calls k' _).length (by rw [hc]; exact Stage.noConfusion)
    have hdialing : (w.setCall k' j c).Tasks n := by
      refine h.tasks.setCall (.of_connecting hc (hlen hc) (h.tasks.calls k' j).sender)
        fun i' l' hl' => ?_
      by_cases hii : i' = i
      · subst hii
        simp [hcdef, Call.setDial] at hl'
      · simpa [hcdef, Call.setDial, hii] using hl'
    refine hdialing.setCall (.of_connecting hl.1 (hlen hl.1) (h.tasks.calls k' i).sender)
      fun i' l' hl' => ?_
    rw [hother]
    exact hl'

/-- It writes its handshake. -/
theorem Sound.write (h : w.Sound n K) (hd : (w.call k j).dials i = .connected l) :
    ((w.setCall k j ((w.call k j).setDial i (.named l))).setWire l (UInt16.ofNat j)).Sound n K := by
  have hlink : w.link? k j i = some l := by
    rw [link?, hd]
    rfl
  obtain ⟨-, hl⟩ := h.paired.link k j i l hlink
  have hdialer : l.dialer = j := by rw [hl]
  set c := (w.call k j).setDial i (.named l) with hcdef
  have hviews : ∀ k₁ j₁ i₁, (w.setCall k j c).link? k₁ j₁ i₁ = w.link? k₁ j₁ i₁ := by
    intro k₁ j₁ i₁
    rw [link?_setCall]
    split
    · rename_i heq
      obtain ⟨rfl, rfl⟩ := heq
      by_cases hii : i₁ = i
      · subst hii
        simp [hcdef, Call.setDial, Dial.link?, hlink]
      · simp [hcdef, Call.setDial, hii, link?]
    · rfl
  refine ⟨h.ordered.of_stage (stage_setCall_of_eq rfl) (fun k₁ i₁ hf => ?_) rfl,
    h.paired.of_perm hviews fun k₁ i₁ => ?_, ?_⟩
  · show (w.setCall k j c).call k₁ i₁ = _
    rw [setCall_call]
    split
    · rename_i heq
      obtain ⟨rfl, rfl⟩ := heq
      rw [h.ordered.fresh _ _ hf] at hd
      cases hd
    · rfl
  · show ((w.setCall k j c).pending k₁ i₁).Perm _
    rw [pending_setCall]
    split
    · rename_i heq
      obtain ⟨rfl, rfl⟩ := heq
      exact .refl _
    · exact .refl _
  · refine ⟨fun k₁ i₁ => ?_, fun l₁ x hx => ?_, fun k₁ j₁ i₁ l₁ hl₁ => ?_⟩
    · show ((w.setCall k j c).call k₁ i₁).Ok n k₁ i₁
      rw [setCall_call]
      split
      · rename_i heq
        obtain ⟨rfl, rfl⟩ := heq
        exact (h.tasks.calls _ _).write
      · exact h.tasks.calls k₁ i₁
    · by_cases hll : l₁ = l
      · subst hll
        rw [hdialer]
        simpa [setWire] using hx.symm
      · refine h.tasks.wire l₁ x ?_
        simpa [setWire, Function.update_of_ne hll] using hx
    · by_cases hll : l₁ = l
      · subst hll
        exact ⟨UInt16.ofNat j, by simp [setWire]⟩
      -- another handshake had been written before
      · have hold : (w.call k₁ j₁).dials i₁ = .named l₁ := by
          rw [setWire_call, setCall_call] at hl₁
          split at hl₁
          · rename_i heq
            obtain ⟨rfl, rfl⟩ := heq
            by_cases hii : i₁ = i
            · subst hii
              simp only [hcdef, Call.setDial, Function.update_self, Dial.named.injEq] at hl₁
              exact absurd hl₁.symm hll
            · simpa [hcdef, Call.setDial, Function.update_of_ne hii] using hl₁
          · exact hl₁
        obtain ⟨x, hx⟩ := h.tasks.written k₁ j₁ i₁ l₁ hold
        exact ⟨x, by simpa [setWire, Function.update_of_ne hll] using hx⟩

/-- An accept task that changes, and no other connection. -/
theorem Sound.setAccept (h : w.Sound n K) (hc : (w.call k i).stage = .connecting)
    (hstage : c.stage = (w.call k i).stage) (hdials : c.dials = (w.call k i).dials)
    (hpending : c.pending.Perm (w.call k i).pending) (hok : c.Ok n k i) :
    (w.setCall k i c).Sound n K := by
  refine ⟨h.ordered.setCall hc (hstage.trans hc),
    h.paired.of_perm (link?_setCall_of_dials hdials) fun k₁ i₁ => ?_,
    h.tasks.setCall hok fun i' l hl => by rwa [hdials] at hl⟩
  rw [pending_setCall]
  split
  · rename_i heq
    obtain ⟨rfl, rfl⟩ := heq
    exact hpending
  · exact .refl _

/-- **The end of a call.**  Its table connects the party to all others. -/
theorem Sound.finish (h : w.Sound n K) (hn : n < 2 ^ 16) (hc : (w.call k i).stage = .connecting)
    {got : List (Link × UInt16)} {dialed : List Link}
    (hacc : (w.call k i).accepts = got.map fun e => .named e.1 e.2)
    (hdial : (dialedPeers n i).map (w.call k i).dials = dialed.map .named) :
    (w.setCall k i { w.call k i with stage := Call.outcome n i got dialed }).Sound n K := by
  have hfresh : (w.call k i).stage ≠ .fresh := by
    rw [hc]
    exact Stage.noConfusion
  have hi := (h.ordered.inside k i hfresh).2
  have hok := h.tasks.calls k i
  -- what the accept tasks have got is what the lower parties have dialled
  have hlinks : (w.call k i).accepts.filterMap Accept.link? = got.map Prod.fst := by
    rw [hacc, List.filterMap_map]
    exact congrFun (List.filterMap_eq_map (f := Prod.fst)) got
  have hpending : (w.pending k i) = (w.call k i).backlog ++ got.map Prod.fst := by
    rw [pending, Call.pending, hlinks]
  have hgot : ∀ e ∈ got, ∃ j < i, e = (⟨j, k, i, k⟩, UInt16.ofNat j) := by
    intro e he
    have hmem : e.1 ∈ w.pending k i := by
      rw [hpending]
      exact List.mem_append_right _ (List.mem_map_of_mem he)
    obtain ⟨j, hj⟩ := (h.paired.mem k i _).mp hmem
    obtain ⟨⟨hji, -⟩, hl⟩ := h.paired.link k j i _ hj
    have hx := hok.sender e.1 e.2 (by rw [hacc]; exact List.mem_map_of_mem he)
    rw [hl] at hx
    exact ⟨j, hji, Prod.ext hl hx⟩
  have hlen : got.length = i := by
    have := hok.length hfresh
    rwa [hacc, List.length_map] at this
  have hnd : (got.map Prod.fst).Nodup := by
    have := h.paired.nodup k i
    rw [hpending] at this
    exact (List.nodup_append.mp this).2.1
  -- what the dial tasks have got leads to the higher ones
  have hnamed : ∀ j ∈ dialedPeers n i, ∃ l, (w.call k i).dials j = .named l ∧ l = ⟨i, k, j, k⟩ := by
    intro j hj
    have hmem : (w.call k i).dials j ∈ (dialedPeers n i).map (w.call k i).dials :=
      List.mem_map_of_mem hj
    rw [hdial] at hmem
    obtain ⟨l, -, hl⟩ := List.mem_map.mp hmem
    have hlink : w.link? k i j = some l := by
      rw [link?, ← hl]
      rfl
    exact ⟨l, hl.symm, (h.paired.link k i j l hlink).2⟩
  have hdialed : dialed = (dialedPeers n i).map fun j => ⟨i, k, j, k⟩ := by
    have hinj : Function.Injective Dial.named := fun _ _ h => Dial.named.inj h
    refine hinj.list_map ?_
    rw [← hdial, List.map_map]
    refine List.map_congr_left fun j hj => ?_
    obtain ⟨l, hl, rfl⟩ := hnamed j hj
    exact hl
  have hout := Call.outcome_eq hi hn.le hlen hnd hgot hdialed
  refine ⟨h.ordered.finish hc hout, h.paired.of_perm (link?_setCall_of_dials rfl) fun k₁ i₁ => ?_,
    h.tasks.setCall ?_ fun i' l hl => hl⟩
  · rw [pending_setCall]
    split
    · rename_i heq
      obtain ⟨rfl, rfl⟩ := heq
      exact .refl _
    · exact .refl _
  · refine ⟨fun _ => hok.length hfresh, hok.sender, fun _ => ⟨fun a ha hrun => ?_, fun j hj => ?_⟩,
      fun hp => ?_, fun peers hp => ?_⟩
    · rw [show a ∈ _ ↔ a ∈ (w.call k i).accepts from Iff.rfl, hacc] at ha
      obtain ⟨e, -, rfl⟩ := List.mem_map.mp ha
      exact hrun
    · obtain ⟨l, hl, -⟩ := hnamed j hj
      exact ⟨l, hl⟩
    · cases hout.symm.trans hp
    · cases hout.symm.trans hp
      rfl

/-- **Step lemma.** -/
theorem Sound.step (h : w.Sound n K) (hP : ∀ k, k + 1 < K → (P k).IsBarrier n) (hn : n < 2 ^ 16)
    (hs : Step n K P w w') : w'.Sound n K := by
  cases hs with
  | begin hk hi hc hprev => exact h.begin hP hk hi hc hprev
  | dial hc hj hd hl hroom => exact h.dial hc hj hd hl
  | write hd => exact h.write hd
  | @accept k i a l rest hc ha hb =>
    exact h.setAccept hc rfl rfl (Call.pending_accept ha hb)
      ((h.tasks.calls k i).set hc rfl rfl fun l s heq => by cases heq)
  | @read k i a l x hc ha hx =>
    have hlen := (h.tasks.calls k i).length (by rw [hc]; exact Stage.noConfusion)
    have hpending := Call.pending_name (x := x) ha (by rw [hlen]; exact h.paired.length_le k i)
    refine h.setAccept hc rfl rfl (by rw [hpending]) ((h.tasks.calls k i).set hc rfl rfl
      fun l' s heq => ?_)
    obtain ⟨rfl, rfl⟩ := Accept.named.inj heq
    exact h.tasks.wire _ _ hx
  | finish hc hacc hdial => exact h.finish hn hc hacc hdial
  | @run k i s hc hs =>
    refine ⟨⟨h.ordered.fresh, h.ordered.inside, h.ordered.barrier, fun k' => ?_⟩,
      ⟨h.paired.link, h.paired.mem, h.paired.nodup⟩, ⟨h.tasks.calls, h.tasks.wire, h.tasks.written⟩⟩
    by_cases hk : k' = k
    · subst hk
      rw [show (w.setNet k' s).net k' = s from Function.update_self ..]
      exact (h.ordered.net k').tail ⟨i, hc, hs⟩
    · rw [show (w.setNet k s).net k' = w.net k' from Function.update_of_ne hk ..]
      exact h.ordered.net k'

/-- **Run lemma.** -/
theorem Sound.run (h : w.Sound n K) (hP : ∀ k, k + 1 < K → (P k).IsBarrier n) (hn : n < 2 ^ 16)
    (hrun : Relation.ReflTransGen (Step n K P) w w') : w'.Sound n K := by
  induction hrun with
  | refl => exact h
  | tail _ hs ih => exact ih.step hP hn hs

theorem Reached.sound (h : Reached n K w) (hP : ∀ k, k + 1 < K → (P k).IsBarrier n)
    (hn : n < 2 ^ 16) : w.Sound n K :=
  Sound.run ⟨.init, .init, .init⟩ hP hn h

end Mesh

end Govis.Tcp
