import Govis.Tcp.Channels
import Govis.Tcp.Honest

namespace Govis.Tcp

open Framing Transition Rounds

/-!
# The transport: scripts, round by round

How far the connections and the parties are while a script is carried out.

* `step_elsewhere` — a step in one process leaves the sender of another one as it is;
* `exists_at_rest` — some parties can write, and others read, all that is left to them;
* `Scripted.idle_of_returned` — **whoever has returned, everything for it has been written**;
* `Scripted.exists_readyIn` — all parties can be about to start the same round.
-/

/-! ### Steps elsewhere -/

section Network

variable {M : Type} {codec : Codec M} {n g h : ℕ} {s s' : Sys M}

/-- A step in one process changes neither the delivery of another one, nor what that has sent and
    written. -/
theorem step_elsewhere {a : Act M} (hs : step codec n a s = some s') (hg : g ≠ a.party) :
    s'.delivery g = s.delivery g ∧ s'.sent g = s.sent g ∧
      ∀ h, (s'.conn g h).written = (s.conn g h).written := by
  cases step_cases hs with
  | send =>
    exact ⟨withDelivery_of_ne _ _ _ hg, Function.update_of_ne hg _ _, fun _ => rfl⟩
  | flush => exact ⟨withDelivery_of_ne _ _ _ hg, rfl, fun _ => rfl⟩
  | close => exact ⟨withDelivery_of_ne _ _ _ hg, rfl, fun _ => rfl⟩
  | next => exact ⟨withDelivery_of_ne _ _ _ hg, rfl, fun _ => rfl⟩
  | write =>
    refine ⟨withDelivery_of_ne _ _ _ hg, rfl, fun h => ?_⟩
    rw [withConn_conn, if_neg fun heq => hg heq.1]
    rfl
  | inject => exact ⟨rfl, rfl, fun h => by rw [withConn_conn, if_neg fun heq => hg heq.1]⟩
  | arrive =>
    refine ⟨rfl, rfl, fun h => ?_⟩
    rw [withConn_conn]
    split
    · rename_i heq
      rw [heq.1, heq.2]
      rfl
    · rfl
  | read _ hr =>
    refine ⟨withDelivery_of_ne _ _ _ hg, rfl, fun h => ?_⟩
    rw [withConn_conn]
    split
    · rename_i heq
      rw [heq.1, heq.2]
      exact readTask_written hr
    · rfl

/-- **At rest.**  The parties `A` can write all that is left to them, and the parties `B` then read all
    that is on its way to them, while nobody else moves. -/
theorem exists_at_rest (codec : Codec M) (n : ℕ) (A B : ℕ → Prop) (s : Sys M) :
    ∃ s', Run (step codec n) (fun a => a.Internal ∧ (A a.party ∨ B a.party)) s s' ∧ s'.sent = s.sent ∧
      (∀ h < n, B h → SettledAt codec n h s') ∧
      (∀ g h, Linked n g h → A g → Idle (s'.delivery g) h) ∧
      ∀ g h, ¬ A g → (s'.conn g h).written = (s.conn g h).written := by
  obtain ⟨s₁, hrun₁, hsent₁, hpending, hqueue⟩ := exists_flushedBy codec n A s
  obtain ⟨s₂, hrun₂, hsame, hsettled⟩ := exists_settledAt codec n B s₁
  refine ⟨s₂, (hrun₁.mono fun _ ha => ⟨.inl ha.1, .inl ha.2⟩).trans
    (hrun₂.mono fun _ ha => ⟨.inr ha.1, .inr ha.2⟩), hsame.sent.trans hsent₁, hsettled,
    fun g h hl hg => ⟨?_, ?_⟩, fun g h hg => ?_⟩
  · rw [TcpDelivery.pendingTo, hsame.pending, hpending g hl.1 hg]
    rfl
  · rw [TcpDelivery.queue, hsame.peerTx]
    exact hqueue g h hl hg
  · rw [hsame.written]
    refine hrun₁.invariant (P := fun s' => (s'.conn g h).written = (s.conn g h).written)
      (fun a s s' ha hs hP => ?_) rfl
    have hne : g ≠ a.party := by
      rintro rfl
      exact hg ha.2
    exact ((step_elsewhere hs hne).2.2 h).trans hP

/-! ### What is on a connection -/

theorem length_readFrames (codec : Codec M) (frames : List (List UInt8)) :
    (readFrames codec frames).1.length = frames.length := by
  induction frames using List.reverseRecOn with
  | nil => rfl
  | append_singleton frames buf ih => rw [readFrames_concat, List.length_append, List.length_append, ih]; rfl

/-- At most as many messages have been taken off a connection as frames were written on it. -/
theorem Reached.taken_length_le {ok : Act M → Prop} (hs : Reached codec n ok s) {fs : List (List UInt8)}
    (hreads : Reads codec.decoder (s.conn g h).written fs []) :
    (tagged g (s.yields h)).length ≤ fs.length := by
  obtain ⟨done, hfed⟩ := hs.fed g h
  have hyields : tagged g (s.yields h) <+: tagged g (s.items h) := tagged_mono (List.prefix_append _ _)
  have hitems : tagged g (s.items h) = (readFrames codec done).1 := (congrArg Prod.fst hfed.items).symm
  have hdone : done <+: fs := by
    have hle := hfed.reads.le_frames
    rwa [hreads.frames_eq, frames_nil, List.append_nil] at hle
  calc (tagged g (s.yields h)).length
      ≤ (tagged g (s.items h)).length := hyields.length_le
    _ = done.length := by rw [hitems, length_readFrames]
    _ ≤ fs.length := hdone.length_le

theorem length_posted {l : List (Outgoing M)} (hser : ∀ item ∈ l, (posting codec g item).isSome) :
    (posted codec g h l).length = (delivered g h l).length := by
  have hread := congrArg Prod.fst (readFrames_posted h hser)
  rw [← length_readFrames codec (posted codec g h l), hread]

/-- Once everything has been taken off a connection, nothing is left to write. -/
theorem Reached.idle_of_taken {ok : Act M → Prop} (hs : Reached codec n ok s) (hl : Linked n g h)
    (hno : ∀ bytes, ¬ ok (.inject g h bytes)) (hcarry : ∀ item ∈ s.sent g, codec.Carries n item.msg)
    (hlen : (delivered g h (s.sent g)).length ≤ (tagged g (s.yields h)).length) :
    Idle (s.delivery g) h := by
  obtain ⟨fs, hfs⟩ := hs.posted hl hno
  have hall := congrArg List.length (hfs.all (hs.isSome_queue hl hno hcarry))
  have hle := hs.taken_length_le hfs.reads
  rw [length_posted hfs.serialized, List.length_append, List.length_append] at hall
  exact ⟨List.length_eq_zero_iff.mp (by omega), List.length_eq_zero_iff.mp (by omega)⟩

/-- As long as nothing is written, what is sent stays in a queue. -/
theorem Reached.not_idle {ok : Act M → Prop} (hs : Reached codec n ok s) (hs' : Reached codec n ok s')
    (hl : Linked n g h) (hno : ∀ bytes, ¬ ok (.inject g h bytes))
    (hcarry : ∀ item ∈ s'.sent g, codec.Carries n item.msg)
    (hwritten : (s'.conn g h).written = (s.conn g h).written)
    (hlt : (delivered g h (s.sent g)).length < (delivered g h (s'.sent g)).length) :
    ¬ Idle (s'.delivery g) h := by
  intro hidle
  obtain ⟨fs, hfs⟩ := hs.posted hl hno
  obtain ⟨fs', hfs'⟩ := hs'.posted hl hno
  have hsame : fs' = fs := by
    have hframes := hfs'.reads.frames_eq
    rw [hwritten, hfs.reads.frames_eq, frames_nil, List.append_nil, List.append_nil] at hframes
    exact hframes.symm
  have hall := congrArg List.length (hfs'.all (hs'.isSome_queue hl hno hcarry))
  rw [hidle.queue, hidle.pending, List.append_nil, List.append_nil, hsame,
    length_posted hfs'.serialized] at hall
  have hle := hfs.sublist.length_le
  rw [length_posted hfs.serialized, List.length_append, List.length_append] at hle
  omega

end Network

variable {Msg : ℕ → Type} {R : Type} {D : Deployment Msg R} {M : (r : ℕ) → ℕ → ℕ → Msg r} {k : ℕ}
  {res : ℕ → R} {w w' : World Msg R} {g h i p r : ℕ}

/-! ### What a script puts on a connection -/

/-- A round puts at most one message on a connection. -/
theorem length_delivered_outgoing (kind : MessageType) (n g h : ℕ) (out : ℕ → Option (Msg r)) :
    (delivered g h (outgoing kind n g out)).length ≤ 1 := by
  rw [delivered, List.length_map, List.length_zipIdx]
  cases kind with
  | broadcast reliable =>
    refine (List.length_filter_le _ _).trans ?_
    rw [outgoing]
    cases (Option.map _ _ : Option (Outgoing (AnyMsg Msg))) with
    | none => exact Nat.zero_le 1
    | some item => exact Nat.le_refl 1
  | p2p =>
    -- only the send that is addressed to `h`
    have hnd : (outgoing .p2p n g out).Nodup := by
      refine List.Nodup.filterMap (fun j j' item hj hj' => ?_) nodup_others
      obtain ⟨m, -, rfl⟩ := Option.map_eq_some_iff.mp hj
      obtain ⟨m', -, heq⟩ := Option.map_eq_some_iff.mp hj'
      exact (MessageDestination.oneParty.inj (congrArg Outgoing.recipient heq)).symm
    have hsub : (outgoing .p2p n g out).filter (·.recipient.reaches h) ⊆
        ((out h).map fun m => (⟨.oneParty h, ⟨r, m⟩⟩ : Outgoing (AnyMsg Msg))).toList := by
      intro item hitem
      obtain ⟨hitem, hreach⟩ := List.mem_filter.mp hitem
      obtain ⟨j, -, hj⟩ := List.mem_filterMap.mp hitem
      obtain ⟨m, hm, rfl⟩ := Option.map_eq_some_iff.mp hj
      obtain rfl : j = h := of_decide_eq_true hreach
      rw [hm]
      exact List.mem_singleton_self _
    refine ((hnd.filter _).subperm hsub).length_le.trans ?_
    cases out h with
    | none => exact Nat.zero_le 1
    | some m => exact Nat.le_refl 1

theorem length_delivered_append {A : Type} (g h : ℕ) (l l' : List (Outgoing A)) :
    (delivered g h (l ++ l')).length = (delivered g h l).length + (delivered g h l').length := by
  simp only [delivered, List.length_map, List.length_zipIdx, List.filter_append, List.length_append]

/-- The script goes round by round. -/
theorem round_lt_of_mem {item : Outgoing (AnyMsg Msg)} (hitem : item ∈ scriptSends D M g r) :
    item.msg.1 < r := by
  obtain ⟨r', hr', hitem⟩ := List.mem_flatMap.mp hitem
  obtain ⟨j, m, -, -, hmsg⟩ := mem_outgoing hitem
  rw [hmsg]
  exact List.mem_range.mp hr'

/-- Whoever has taken a message of round `r` off the connection has taken all of the rounds up to it. -/
theorem length_delivered_le {l : List (Except IoError (Incoming (AnyMsg Msg)))}
    (hle : l <+: delivered g h (scriptSends D M g (r + 1))) {inc : Incoming (AnyMsg Msg)}
    (hinc : .ok inc ∈ l) (hround : inc.msg.1 = r) :
    (delivered g h (scriptSends D M g (r + 1))).length ≤ l.length := by
  have hbefore : delivered g h (scriptSends D M g r) <+: delivered g h (scriptSends D M g (r + 1)) := by
    rw [scriptSends_succ]
    exact delivered_append g h _ _
  have hnot : ¬ l <+: delivered g h (scriptSends D M g r) := by
    intro hl
    obtain ⟨item, hitem, -, id, heq⟩ := mem_delivered (hl.subset hinc)
    have hlt := round_lt_of_mem hitem
    rw [Except.ok.inj heq] at hround
    exact absurd hround (Nat.ne_of_lt hlt)
  have hlt : (delivered g h (scriptSends D M g r)).length < l.length := by
    by_contra hge
    exact hnot (List.prefix_of_prefix_length_le hle hbefore (not_lt.mp hge))
  have hone := length_delivered_outgoing (D.kind r) D.setup.n g h fun j => some (M r g j)
  rw [scriptSends_succ, length_delivered_append]
  omega

namespace Scripted

variable (hD : Scripted D M k res)

include hD

theorem no_inject (g h : ℕ) (bytes : List UInt8) : ¬ D.AllowsNet (.inject g h bytes) :=
  fun hall => hD.honest g (hall g h bytes rfl)

theorem carries_sent (hw : OpenReached D w) (hg : g < D.setup.n) :
    ∀ item ∈ w.sys.sent g, D.codec.Carries D.setup.n item.msg := by
  obtain ⟨r, hr, hsent⟩ := ((hD.onStage hw).honest g hg (hD.honest g)).exists_sent
  rw [hsent]
  exact hD.carries.scriptSends hg hr

/-- Whoever has returned, all others are in their last round. -/
theorem le_of_returned (hw : OpenReached D w) (hi : i < D.setup.n) {x : R} (hret : w.Returned i x)
    {j : ℕ} (hj : j < D.setup.n) (hji : j ≠ i) (hsent : w.sys.sent j = scriptSends D M j r) : k ≤ r := by
  have hcode := hD.code_of_returned hw hi hret
  cases k with
  | zero => exact Nat.zero_le r
  | succ k =>
    obtain ⟨m, id, -, item, hitem, hmsg⟩ :=
      hD.exists_yielded hw (show k < (w.party i).code.1 by rw [hcode]; exact Nat.lt_succ_self k) hj hji
    rw [hsent] at hitem
    have hlt := round_lt_of_mem hitem
    rwa [hmsg] at hlt

/-- **Whoever has returned, all have sent their last message.** -/
theorem sent_of_returned (hw : OpenReached D w) (hi : i < D.setup.n) {x : R} (hret : w.Returned i x)
    {j : ℕ} (hj : j < D.setup.n) : w.sys.sent j = scriptSends D M j k := by
  have hcode := hD.code_of_returned hw hi hret
  by_cases hji : j = i
  · subst hji
    cases (hD.onStage hw).honest j hj (hD.honest j) with
    | ready hc _ hsent =>
      cases hcode.symm.trans hc
      exact hsent
    | waiting hc => cases hcode.symm.trans hc
  · obtain ⟨r, hr, hsent⟩ := ((hD.onStage hw).honest j hj (hD.honest j)).exists_sent
    rw [hsent, Nat.le_antisymm hr (hD.le_of_returned hw hi hret hj hji hsent)]

/-- **Whoever has returned, everything for it has been written.** -/
theorem idle_of_returned (hw : OpenReached D w) (hi : i < D.setup.n) {x : R} (hret : w.Returned i x)
    (hl : Linked D.setup.n g i) : Idle (w.sys.delivery g) i := by
  refine hw.reached.net.idle_of_taken hl (hD.no_inject g i) (hD.carries_sent hw hl.1) ?_
  rw [hD.sent_of_returned hw hi hret hl.1]
  cases k with
  | zero => exact Nat.zero_le _
  | succ k =>
    have hcode := hD.code_of_returned hw hi hret
    obtain ⟨m, id, hyield, -⟩ :=
      hD.exists_yielded hw (show k < (w.party i).code.1 by rw [hcode]; exact Nat.lt_succ_self k) hl.1 hl.2.2
    have hle := hw.reached.net.taken_le hl (hD.no_inject g i)
    simp only [link, hD.sent_of_returned hw hi hret hl.1] at hle
    exact length_delivered_le hle (mem_tagged.mpr hyield) rfl

end Scripted

/-! ### Round by round -/

variable (D M k res) in
/-- Party `i` is about to start round `r` of the script, or at its end. -/
def ReadyIn (r : ℕ) (w : World Msg R) (i : ℕ) : Prop :=
  ∃ p : Proc Msg R r, (w.party i).code = ⟨r, p⟩ ∧ Follows D.setup.n i M k (res i) p ∧
    w.sys.sent i = scriptSends D M i r

variable (D M k res) in
/-- It waits for the messages of round `r`. -/
def WaitsIn (r : ℕ) (w : World Msg R) (i : ℕ) : Prop :=
  ∃ next : List (ℕ × Msg r) → Proc Msg R (r + 1), (w.party i).code = ⟨r, .recv next⟩ ∧
    Follows D.setup.n i M k (res i) (next (collect D.setup.n i fun j => some (M r j i))) ∧
    w.sys.sent i = scriptSends D M i (r + 1)

theorem ReadyIn.of_same (h : ReadyIn D M k res r w i) (hparty : w'.party i = w.party i)
    (hsent : w'.sys.sent i = w.sys.sent i) : ReadyIn D M k res r w' i := by
  obtain ⟨p, hc, hf, hs⟩ := h
  exact ⟨p, by rw [hparty, hc], hf, by rw [hsent, hs]⟩

theorem WaitsIn.of_same (h : WaitsIn D M k res r w i) (hparty : w'.party i = w.party i)
    (hsent : w'.sys.sent i = w.sys.sent i) : WaitsIn D M k res r w' i := by
  obtain ⟨next, hc, hf, hs⟩ := h
  exact ⟨next, by rw [hparty, hc], hf, by rw [hsent, hs]⟩

/-- A program that sends writes nothing itself. -/
theorem sendAll_conn {codec : Codec (AnyMsg Msg)} {n : ℕ} {items : List (Outgoing (AnyMsg Msg))}
    {s s' : Sys (AnyMsg Msg)} (h : sendAll codec n i items s = some s') : s'.conn = s.conn := by
  have hrun : Run (step codec n) (fun a => ∃ item, a = .send i item) s s' :=
    sendAll_run (fun item => ⟨item, rfl⟩) h
  refine hrun.invariant (P := fun s' => s'.conn = s.conn) (fun a s₁ s₂ ha hs hP => ?_) rfl
  obtain ⟨item, rfl⟩ := ha
  cases step_cases hs with
  | send => exact hP

namespace Scripted

variable (hD : Scripted D M k res)

include hD

/-- **The parties `S` send** in round `r`. -/
theorem exists_emitted (hw : OpenReached D w) (hr : r < k) (S : Finset ℕ)
    (hS : ∀ i ∈ S, i < D.setup.n ∧ ReadyIn D M k res r w i) :
    ∃ w', Run (worldStep D) D.Open w w' ∧ w'.sys.conn = w.sys.conn ∧
      (∀ i ∈ S, WaitsIn D M k res r w' i) ∧
      ∀ i ∉ S, w'.party i = w.party i ∧ w'.sys.sent i = w.sys.sent i := by
  induction S using Finset.induction_on with
  | empty => exact ⟨w, Run.refl w, rfl, fun i hi => absurd hi (Finset.notMem_empty i), fun _ _ => ⟨rfl, rfl⟩⟩
  | insert i S hi ih =>
    obtain ⟨w₁, hrun, hconn, hwaits, hsame⟩ := ih fun j hj => hS j (Finset.mem_insert_of_mem hj)
    obtain ⟨hin, hready⟩ := hS i (Finset.mem_insert_self i S)
    obtain ⟨p, hc, hf, hsent⟩ := hready.of_same (hsame i hi).1 (hsame i hi).2
    have hw₁ := hD.onStage (hw.trans hrun)
    cases hf with
    | done => exact absurd hr (lt_irrefl _)
    | round hout hnext =>
      obtain ⟨w₂, hstep, hw₂, hparty⟩ := hw₁.send hD.carries hin (hD.honest i) hc hout hnext hsent
      obtain ⟨r', out', next', hc', hsend, -⟩ := emit_eq_some hstep
      cases hc.symm.trans hc'
      obtain ⟨hsent', hother, -⟩ := sendAll_spec hsend
      refine ⟨w₂, hrun.tail (open_emit hin (hD.honest i)) hstep, (sendAll_conn hsend).trans hconn,
        fun j hj => ?_, fun j hj => ?_⟩
      · rcases Finset.mem_insert.mp hj with rfl | hj
        · refine ⟨_, ?_, hnext, ?_⟩
          · rw [hparty, Function.update_self]
            rfl
          · rw [hsent', hsent, scriptSends_succ, outgoing_congr hout]
        · have hji : j ≠ i := fun heq => hi (heq ▸ hj)
          exact (hwaits j hj).of_same (by rw [hparty, Function.update_of_ne hji]) (hother j hji)
      · rw [Finset.mem_insert, not_or] at hj
        rw [hparty, Function.update_of_ne hj.1, hother j hj.1]
        exact hsame j hj.2

/-- **The parties `S` complete round `r`**, once everything for them has arrived. -/
theorem exists_completed (hw : OpenReached D w) (S : Finset ℕ)
    (hS : ∀ i ∈ S, i < D.setup.n ∧ WaitsIn D M k res r w i ∧ SettledAt D.codec D.setup.n i w.sys ∧
      ∀ g, Linked D.setup.n g i → Idle (w.sys.delivery g) i)
    (hall : ∀ j < D.setup.n, ∃ r' ≤ k, r < r' ∧ w.sys.sent j = scriptSends D M j r') :
    ∃ w', Run (worldStep D) (fun a => D.Open a ∧ a.party ∈ S) w w' ∧ w'.sys = w.sys ∧
      (∀ i ∈ S, ReadyIn D M k res (r + 1) w' i) ∧ ∀ i ∉ S, w'.party i = w.party i := by
  induction S using Finset.induction_on with
  | empty => exact ⟨w, Run.refl w, rfl, fun i hi => absurd hi (Finset.notMem_empty i), fun _ _ => rfl⟩
  | insert i S hi ih =>
    obtain ⟨w₁, hrun, hsys, hready, hsame⟩ := ih fun j hj => hS j (Finset.mem_insert_of_mem hj)
    obtain ⟨hin, hwaits, hset, hidle⟩ := hS i (Finset.mem_insert_self i S)
    obtain ⟨next, hc, hf, hsent⟩ := hwaits.of_same (hsame i hi) (by rw [hsys])
    have hw₁ := hD.onStage (hw.trans (hrun.mono fun _ ha => ha.1))
    have hcomplete := hw₁.complete_eq hD.carries (fun g _ => hD.broadcasts g) hD.rounds_eq
      (hsys ▸ hset) (hsys ▸ hidle) hin hf.le fun j hj _ _ => by rw [hsys]; exact hall j hj
    obtain ⟨w₂, hstep, hw₂, hparty⟩ := hw₁.complete hin (hD.honest i) hc hf hsent hcomplete
    obtain ⟨_, _, _, -, -, hsys₂, -⟩ := completeRound_eq_some hstep
    refine ⟨w₂, (hrun.mono fun a ha => ⟨ha.1, Finset.mem_insert_of_mem ha.2⟩).tail
      ⟨open_complete hin (hD.honest i), Finset.mem_insert_self i S⟩ hstep, hsys₂.trans hsys,
      fun j hj => ?_, fun j hj => ?_⟩
    · rcases Finset.mem_insert.mp hj with rfl | hj
      · refine ⟨_, ?_, hf, by rw [hsys₂]; exact hsent⟩
        rw [hparty, Function.update_self]
        rfl
      · have hji : j ≠ i := fun heq => hi (heq ▸ hj)
        exact (hready j hj).of_same (by rw [hparty, Function.update_of_ne hji]) (by rw [hsys₂])
    · rw [Finset.mem_insert, not_or] at hj
      rw [hparty, Function.update_of_ne hj.1]
      exact hsame j hj.2

/-- **Rounds.**  All parties can be about to start round `r`. -/
theorem exists_readyIn (hr : r ≤ k) : ∃ w, OpenReached D w ∧ ∀ i < D.setup.n, ReadyIn D M k res r w i := by
  induction r with
  | zero => exact ⟨D.init, Run.refl _, fun i hi => ⟨_, rfl, hD.follows i hi, rfl⟩⟩
  | succ r ih =>
    obtain ⟨w, hw, hready⟩ := ih (Nat.le_of_succ_le hr)
    obtain ⟨w₁, hrun₁, -, hwaits, -⟩ := hD.exists_emitted hw hr (Finset.range D.setup.n) fun i hi =>
      ⟨Finset.mem_range.mp hi, hready i (Finset.mem_range.mp hi)⟩
    obtain ⟨s, hrun₂, hw₂, hsent, hq⟩ := (hD.onStage (hw.trans hrun₁)).drain
    have hw₂' : OpenReached D { w₁ with sys := s } := (hw.trans hrun₁).trans hrun₂
    have hwaits₂ : ∀ i < D.setup.n, WaitsIn D M k res r { w₁ with sys := s } i := fun i hi =>
      (hwaits i (Finset.mem_range.mpr hi)).of_same rfl (congrFun hsent i)
    obtain ⟨w₃, hrun₃, -, hready₃, -⟩ := hD.exists_completed hw₂' (Finset.range D.setup.n)
      (fun i hi => ⟨Finset.mem_range.mp hi, hwaits₂ i (Finset.mem_range.mp hi),
        hq.settledAt (Finset.mem_range.mp hi), fun g => hq.idle⟩)
      fun j hj => ⟨r + 1, hr, Nat.lt_succ_self r, (hwaits₂ j hj).choose_spec.2.2⟩
    exact ⟨w₃, hw₂'.trans (hrun₃.mono fun _ ha => ha.1), fun i hi =>
      hready₃ i (Finset.mem_range.mpr hi)⟩

end Scripted

end Govis.Tcp
