import Govis.Tcp.System

namespace Govis.Tcp

open Framing Transition

/-!
# The transport: draining the network

What is on its way can always get to its end.

* `exists_settledAt` — every byte written to some parties can be read by them, and every item yielded;
* `SettledAt.yields` — then the items are those of all frames that were written;
* `exists_flushedBy` — everything that is pending at some parties can be written by them;
* `exists_quiescent` — so every run can go on until nothing is left to do.
-/

variable {M : Type} {codec : Codec M} {n g h : ℕ} {s s' : Sys M} {A : ℕ → Prop}

/-! ### Reading -/

/-- Bytes arrive, read tasks run and items are yielded. -/
def Act.Inward : Act M → Prop
  | .arrive _ _ _ => True
  | .read _ _ => True
  | .next _ => True
  | _ => False

/-- Nothing is on its way to any party, and no read task can go on. -/
structure Settled (codec : Codec M) (n : ℕ) (s : Sys M) : Prop where
  wire : ∀ g h, Linked n g h → (s.conn g h).wire = []
  read : ∀ g h, Linked n g h → readTask codec (s.conn g h) = none
  incoming : ∀ h < n, (s.delivery h).incoming = []

/-- Nothing is on its way to party `h`, and no read task there can go on. -/
structure SettledAt (codec : Codec M) (n h : ℕ) (s : Sys M) : Prop where
  wire : ∀ g, Linked n g h → (s.conn g h).wire = []
  read : ∀ g, Linked n g h → readTask codec (s.conn g h) = none
  incoming : (s.delivery h).incoming = []

theorem Settled.settledAt (hset : Settled codec n s) (hh : h < n) : SettledAt codec n h s :=
  ⟨fun g => hset.wire g h, fun g => hset.read g h, hset.incoming h hh⟩

/-- What a connection has to do before it is settled. -/
def Conn.load (c : Conn) : ℕ := 3 * c.wire.length + 2 * c.buf.length + if c.stopped then 0 else 1

/-- What the network has to do. -/
def Sys.load (n : ℕ) (s : Sys M) : ℕ :=
  ∑ h ∈ Finset.range n, (s.delivery h).incoming.length +
    ∑ e ∈ Finset.range n ×ˢ Finset.range n, (s.conn e.1 e.2).load

/-- What reading does not change. -/
structure SameOut (s s' : Sys M) : Prop where
  written : ∀ g h, (s'.conn g h).written = (s.conn g h).written
  sent : s'.sent = s.sent
  pending : ∀ g, (s'.delivery g).pending = (s.delivery g).pending
  peerTx : ∀ g, (s'.delivery g).peerTx = (s.delivery g).peerTx

theorem load_arrive (c : Conn) (hw : c.wire ≠ []) : (c.arrive c.wire.length).load < c.load := by
  have hpos := List.length_pos_iff.mpr hw
  simp only [Conn.load, Conn.arrive, List.drop_length, List.take_length, List.length_nil,
    List.length_append]
  omega

theorem load_readTask {c c' : Conn} {items : List (Except IoError (Incoming M))}
    (hr : readTask codec c = some (items, c')) : c'.load + items.length < c.load := by
  obtain ⟨hstop, ⟨f, rest, hd, rfl, rfl⟩ | ⟨hd, rfl, rfl⟩⟩ := readTask_eq_some hr
  · have hlt := codec.decoder.frame_shorter hd
    simp only [Conn.load, hstop, List.length_singleton]
    omega
  · simp only [Conn.load, hstop, List.length_nil]
    simp

theorem readTask_written {c c' : Conn} {items : List (Except IoError (Incoming M))}
    (hr : readTask codec c = some (items, c')) : c'.written = c.written := by
  obtain ⟨-, ⟨f, rest, -, -, rfl⟩ | ⟨-, -, rfl⟩⟩ := readTask_eq_some hr
  · rfl
  · rfl

theorem Linked.mem (hl : Linked n g h) : (g, h) ∈ Finset.range n ×ˢ Finset.range n :=
  Finset.mem_product.mpr ⟨Finset.mem_range.mpr hl.1, Finset.mem_range.mpr hl.2.1⟩

/-- Changing one connection changes the load by that of the connection. -/
theorem load_withConn (hl : Linked n g h) (s : Sys M) (c : Conn) :
    (s.withConn g h c).load n + (s.conn g h).load = s.load n + c.load := by
  have hsum := sum_change hl.mem (fun e => (s.conn e.1 e.2).load)
    (fun e => ((s.withConn g h c).conn e.1 e.2).load) fun e _ hne => by
      rw [withConn_conn, if_neg fun heq => hne (Prod.ext heq.1 heq.2)]
  simp only [withConn_conn, and_self, if_true] at hsum
  simp only [Sys.load, withConn_conn]
  show ∑ h ∈ Finset.range n, (s.delivery h).incoming.length + _ + _ = _
  omega

/-- Changing what has come in to one party changes the load by its length. -/
theorem load_withDelivery (hh : h < n) (s : Sys M) (d : TcpDelivery M) :
    (s.withDelivery h d).load n + (s.delivery h).incoming.length =
      s.load n + d.incoming.length := by
  have hsum := sum_change (Finset.mem_range.mpr hh) (fun k => (s.delivery k).incoming.length)
    (fun k => ((s.withDelivery h d).delivery k).incoming.length) fun k _ hne => by
      rw [withDelivery_of_ne _ _ _ hne]
  simp only [withDelivery_self] at hsum
  simp only [Sys.load, withDelivery_conn]
  omega

theorem SameOut.trans {s'' : Sys M} (h : SameOut s s') (h' : SameOut s' s'') : SameOut s s'' where
  written g h₀ := (h'.written g h₀).trans (h.written g h₀)
  sent := h'.sent.trans h.sent
  pending g := (h'.pending g).trans (h.pending g)
  peerTx g := (h'.peerTx g).trans (h.peerTx g)

/-- A change to a connection and to what has come in is invisible to the senders. -/
theorem SameOut.of_update {d : TcpDelivery M} {c : Conn} (hw : c.written = (s.conn g h).written)
    (hp : d.pending = (s.delivery h).pending) (ht : d.peerTx = (s.delivery h).peerTx) :
    SameOut s ((s.withDelivery h d).withConn g h c) where
  written g' h' := by
    rw [withConn_conn, withDelivery_conn]
    split
    · rename_i heq
      rw [heq.1, heq.2, hw]
    · rfl
  sent := rfl
  pending g' := by
    by_cases hg : g' = h
    · rw [hg, withConn_delivery, withDelivery_self, hp]
    · rw [withConn_delivery, withDelivery_of_ne _ _ _ hg]
  peerTx g' := by
    by_cases hg : g' = h
    · rw [hg, withConn_delivery, withDelivery_self, ht]
    · rw [withConn_delivery, withDelivery_of_ne _ _ _ hg]

/-- The bytes on the wire can arrive. -/
theorem exists_arrive (hA : A h) (hl : Linked n g h) (hw : (s.conn g h).wire ≠ []) :
    ∃ a s', (a.Inward ∧ A a.party) ∧ step codec n a s = some s' ∧ SameOut s s' ∧ s'.load n < s.load n := by
  refine ⟨.arrive g h (s.conn g h).wire.length, _, ⟨trivial, hA⟩, if_pos hl, ?_, ?_⟩
  · have hsame := SameOut.of_update (s := s) (g := g) (h := h) (d := s.delivery h)
      (c := (s.conn g h).arrive (s.conn g h).wire.length) rfl rfl rfl
    rwa [Sys.withDelivery, Function.update_eq_self] at hsame
  · have hload := load_withConn hl s ((s.conn g h).arrive (s.conn g h).wire.length)
    have hlt := load_arrive _ hw
    omega

/-- A read task that has something to do can do it. -/
theorem exists_read (hA : A h) (hl : Linked n g h) (hr : readTask codec (s.conn g h) ≠ none) :
    ∃ a s', (a.Inward ∧ A a.party) ∧ step codec n a s = some s' ∧ SameOut s s' ∧ s'.load n < s.load n := by
  obtain ⟨⟨items, c⟩, hc⟩ := Option.ne_none_iff_exists'.mp hr
  refine ⟨.read g h, _, ⟨trivial, hA⟩, (if_pos hl).trans (by rw [hc]; rfl), ?_, ?_⟩
  · exact SameOut.of_update (readTask_written hc) rfl rfl
  · have hd := load_withDelivery hl.2.1 s ((s.delivery h).receive g items)
    have hconn := load_withConn hl (s.withDelivery h ((s.delivery h).receive g items)) c
    have hlt := load_readTask hc
    simp only [TcpDelivery.receive, List.length_append, List.length_map, withDelivery_conn] at hd hconn ⊢
    omega

/-- An item that has come in can be yielded. -/
theorem exists_next (hA : A h) (hh : h < n) (hin : (s.delivery h).incoming ≠ []) :
    ∃ a s', (a.Inward ∧ A a.party) ∧ step codec n a s = some s' ∧ SameOut s s' ∧ s'.load n < s.load n := by
  have hsome : pollNext (s.delivery h) ≠ none := by
    obtain ⟨e, rest, he⟩ := List.exists_cons_of_ne_nil hin
    rw [pollNext, he]
    exact Option.some_ne_none _
  obtain ⟨⟨e, d⟩, hnext⟩ := Option.ne_none_iff_exists'.mp hsome
  obtain ⟨hitem, -, hp, ht⟩ := pollNext_eq_some hnext
  refine ⟨.next h, (s.withDelivery h d).withYield h e, ⟨trivial, hA⟩, (if_pos hh).trans (by rw [hnext]; rfl),
    ⟨fun _ _ => rfl, rfl, ?_, ?_⟩, ?_⟩
  · intro g
    by_cases hg : g = h
    · simp [Sys.withYield, hg, hp]
    · simp [Sys.withYield, withDelivery_of_ne _ _ _ hg]
  · intro g
    by_cases hg : g = h
    · simp [Sys.withYield, hg, ht]
    · simp [Sys.withYield, withDelivery_of_ne _ _ _ hg]
  · have hload := load_withDelivery hh s d
    rw [hitem, List.length_cons] at hload
    show (s.withDelivery h d).load n < s.load n
    omega

/-- **Everything that was written to the parties `A` can be read by them.** -/
theorem exists_settledAt (codec : Codec M) (n : ℕ) (A : ℕ → Prop) (s : Sys M) :
    ∃ s', Run (step codec n) (fun a => a.Inward ∧ A a.party) s s' ∧ SameOut s s' ∧
      ∀ h < n, A h → SettledAt codec n h s' := by
  refine exists_run_of_measure (Sys.load n) (fun s₁ hsame hset => ?_)
    ⟨fun _ _ => rfl, rfl, fun _ => rfl, fun _ => rfl⟩
  push Not at hset
  obtain ⟨h, hh, hA, hset⟩ := hset
  -- whatever is missing can be done
  have hprogress : ∃ a s', (a.Inward ∧ A a.party) ∧ step codec n a s₁ = some s' ∧ SameOut s₁ s' ∧
      s'.load n < s₁.load n := by
    by_cases hw : ∀ g, Linked n g h → (s₁.conn g h).wire = []
    · by_cases hr : ∀ g, Linked n g h → readTask codec (s₁.conn g h) = none
      · exact exists_next hA hh fun hi => hset ⟨hw, hr, hi⟩
      · push Not at hr
        obtain ⟨g, hl, hr⟩ := hr
        exact exists_read hA hl hr
    · push Not at hw
      obtain ⟨g, hl, hw⟩ := hw
      exact exists_arrive hA hl hw
  obtain ⟨a, s', ha, hstep, hsame', hlt⟩ := hprogress
  exact ⟨a, s', ha, hstep, hsame.trans hsame', hlt⟩

/-- **Everything that was written can be read.** -/
theorem exists_settled (codec : Codec M) (n : ℕ) (s : Sys M) :
    ∃ s', Run (step codec n) Act.Inward s s' ∧ SameOut s s' ∧ Settled codec n s' := by
  obtain ⟨s', hrun, hsame, hset⟩ := exists_settledAt codec n (fun _ => True) s
  refine ⟨s', hrun.mono fun _ ha => ha.1, hsame, fun g h hl => ?_, fun g h hl => ?_, fun h hh => ?_⟩
  · exact (hset h hl.2.1 trivial).wire g hl
  · exact (hset h hl.2.1 trivial).read g hl
  · exact (hset h hh trivial).incoming

/-- **A settled party** has made all frames that were written into items, and yielded them. -/
theorem SettledAt.yields {ok : Act M → Prop} (hset : SettledAt codec n h s) (hs : Reached codec n ok s)
    (hl : Linked n g h) :
    tagged g (s.yields h) = (readFrames codec (codec.decoder.frames (s.conn g h).written)).1 := by
  obtain ⟨done, hfed⟩ := hs.fed g h
  have hreads := hfed.reads
  rw [hset.wire g hl, List.append_nil] at hreads
  -- the read task has not stopped before the last frame
  have hrest : codec.decoder.frames (s.conn g h).buf = [] := by
    have hread := hset.read g hl
    unfold readTask at hread
    split at hread
    · rename_i hstop
      exact frames_of_fail (hfed.stopped hstop)
    · split at hread
      · rename_i hd
        exact frames_of_wait hd
      · cases hread
      · cases hread
  have hitems : s.items h = s.yields h := by
    rw [Sys.items, hset.incoming, List.append_nil]
  rw [hreads.frames_eq, hrest, List.append_nil, hfed.items, hitems]

/-- A settled network has done so everywhere. -/
theorem Settled.yields {ok : Act M → Prop} (hset : Settled codec n s) (hs : Reached codec n ok s)
    (hl : Linked n g h) :
    tagged g (s.yields h) = (readFrames codec (codec.decoder.frames (s.conn g h).written)).1 :=
  (hset.settledAt hl.2.1).yields hs hl

/-! ### Writing -/

/-- Deliveries are flushed and write tasks run. -/
def Act.Outward : Act M → Prop
  | .flush _ => True
  | .write _ _ => True
  | _ => False

/-- All messages have been written, or dropped by a write task that has ended. -/
structure Flushed (n : ℕ) (s : Sys M) : Prop where
  pending : ∀ g < n, (s.delivery g).pending = []
  queue : ∀ g h, Linked n g h → ((s.delivery g).queue h).getD [] = []

theorem exists_pending_nil (codec : Codec M) (n : ℕ) (A : ℕ → Prop) (s : Sys M) :
    ∃ s', Run (step codec n) (fun a => a.Outward ∧ A a.party) s s' ∧ s'.sent = s.sent ∧
      ∀ g < n, A g → (s'.delivery g).pending = [] := by
  refine exists_run_of_measure (fun s => ∑ g ∈ Finset.range n, (s.delivery g).pending.length)
    (fun s₁ hsent hpending => ?_) rfl
  push Not at hpending
  obtain ⟨g, hg, hA, hne⟩ := hpending
  refine ⟨.flush g, _, ⟨trivial, hA⟩, if_pos hg, hsent, ?_⟩
  refine sum_lt_of_change (Finset.mem_range.mpr hg) (fun k _ hk => ?_) ?_
  · rw [withDelivery_of_ne _ _ _ hk]
  · rw [withDelivery_self]
    exact List.length_pos_iff.mpr hne

/-- A write task takes one message from its queue. -/
theorem queue_getD_writeTask {d d' : TcpDelivery M} {out : List UInt8}
    (hw : writeTask codec d h = some (d', out)) :
    ((d'.queue h).getD []).length < ((d.queue h).getD []).length := by
  obtain ⟨-, -, bytes, rest, hq, ⟨-, hq'⟩ | ⟨-, -, hq'⟩⟩ := queue_writeTask hw
  · rw [hq, hq', Option.getD_some, Option.getD_some, List.length_cons]
    omega
  · rw [hq, hq', Option.getD_some, Option.getD_none, List.length_cons, List.length_nil]
    omega

/-- A write task with a message in its queue can go on. -/
theorem exists_writeTask (codec : Codec M) {d : TcpDelivery M} (hq : (d.queue h).getD [] ≠ []) :
    ∃ d' out, writeTask codec d h = some (d', out) := by
  unfold writeTask
  cases hqueue : d.queue h with
  | none =>
    rw [hqueue] at hq
    exact absurd rfl hq
  | some q =>
    cases q with
    | nil =>
      rw [hqueue] at hq
      exact absurd rfl hq
    | cons bytes rest =>
      simp only
      cases codec.encode bytes with
      | none => exact ⟨_, _, rfl⟩
      | some out => exact ⟨_, _, rfl⟩

/-- **Everything that is pending at the parties `A` can be written by them.** -/
theorem exists_flushedBy (codec : Codec M) (n : ℕ) (A : ℕ → Prop) (s : Sys M) :
    ∃ s', Run (step codec n) (fun a => a.Outward ∧ A a.party) s s' ∧ s'.sent = s.sent ∧
      (∀ g < n, A g → (s'.delivery g).pending = []) ∧
      ∀ g h, Linked n g h → A g → ((s'.delivery g).queue h).getD [] = [] := by
  obtain ⟨s₁, hrun₁, hsent₁, hpending₁⟩ := exists_pending_nil codec n A s
  have hwritten : ∃ s', Run (step codec n) (fun a => a.Outward ∧ A a.party) s₁ s' ∧
      (s'.sent = s.sent ∧ ∀ g < n, A g → (s'.delivery g).pending = []) ∧
      ∀ g h, Linked n g h → A g → ((s'.delivery g).queue h).getD [] = [] := by
    refine exists_run_of_measure (fun s => ∑ e ∈ Finset.range n ×ˢ Finset.range n,
      (((s.delivery e.1).queue e.2).getD []).length) (fun s₂ hkeep hqueue => ?_) ⟨hsent₁, hpending₁⟩
    push Not at hqueue
    obtain ⟨g, h, hl, hA, hne⟩ := hqueue
    obtain ⟨d, out, hw⟩ := exists_writeTask codec hne
    have hpending := (queue_writeTask hw).2.1
    have hlt := queue_getD_writeTask hw
    refine ⟨.write g h, (s₂.withDelivery g d).withConn g h ((s₂.conn g h).put out), ⟨trivial, hA⟩,
      (if_pos hl).trans (by rw [hw]; rfl), ⟨hkeep.1, fun g' hg' hA' => ?_⟩, ?_⟩
    · by_cases hg : g' = g
      · rw [hg, withConn_delivery, withDelivery_self, hpending]
        exact hkeep.2 g (hg ▸ hg') hA
      · rw [withConn_delivery, withDelivery_of_ne _ _ _ hg]
        exact hkeep.2 g' hg' hA'
    · refine sum_lt_of_change hl.mem (fun e _ he => ?_) ?_
      · by_cases hg : e.1 = g
        · rw [hg, withConn_delivery, withDelivery_self,
            (queue_writeTask_of_ne (fun hh => he (Prod.ext hg hh.symm)) hw).2.1]
        · rw [withConn_delivery, withDelivery_of_ne _ _ _ hg]
      · rw [withConn_delivery, withDelivery_self]
        exact hlt
  obtain ⟨s', hrun, ⟨hsent, hpending⟩, hqueue⟩ := hwritten
  exact ⟨s', hrun₁.trans hrun, hsent, hpending, hqueue⟩

/-! ### Quiescence -/

/-- Steps that neither send nor close, and put nothing on a connection but what has been sent. -/
def Act.Internal (a : Act M) : Prop := a.Outward ∨ a.Inward

/-- Nothing is left to do until somebody sends again. -/
structure Quiescent (codec : Codec M) (n : ℕ) (s : Sys M) : Prop extends
  Settled codec n s, Flushed n s

/-- **Every run can come to rest** without sending more. -/
theorem exists_quiescent (codec : Codec M) (n : ℕ) (s : Sys M) :
    ∃ s', Run (step codec n) Act.Internal s s' ∧ s'.sent = s.sent ∧ Quiescent codec n s' := by
  obtain ⟨s₁, hrun₁, hsent₁, hpending, hqueue⟩ := exists_flushedBy codec n (fun _ => True) s
  obtain ⟨s₂, hrun₂, hsame, hsettled⟩ := exists_settled codec n s₁
  refine ⟨s₂, (hrun₁.mono fun _ ha => .inl ha.1).trans (hrun₂.mono fun _ ha => .inr ha),
    hsame.sent.trans hsent₁, hsettled, fun g hg => ?_, fun g h hl => ?_⟩
  · rw [hsame.pending]
    exact hpending g hg trivial
  · rw [TcpDelivery.queue, hsame.peerTx]
    exact hqueue g h hl trivial

end Govis.Tcp
