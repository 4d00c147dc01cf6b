import Govis.Tcp.Drain

namespace Govis.Tcp

open Framing Transition

/-!
# The transport: what an honest party writes

What a party has sent, followed through the queue of messages that are not flushed, the queue of the
write task and the connection.

* `Outbound`, `step_outbound` — what a step does to the sender of a connection;
* `Posted`, `Reached.posted` — frames, queues and what has been sent, in order;
* `Reached.exists_sent` — a message that came from an honest party was sent by it;
* `Quiescent.delivered` — in the end everything has been yielded once, in order.
-/

variable {M : Type} {codec : Codec M} {n g h : ℕ} {s s' : Sys M}

/-! ### Flushing -/

/-- The delivery sends a message with this recipient to party `h`. -/
def MessageDestination.reaches (h : ℕ) : MessageDestination → Bool
  | .allParties _ => true
  | .oneParty j => j = h

/-- What `poll_flush` will put in the queue for party `h`. -/
def TcpDelivery.pendingTo (d : TcpDelivery M) (h : ℕ) : List (List UInt8) :=
  d.pending.flatMap fun e => List.replicate (e.2.count h) e.1

/-- The delivery has nothing for party `h`. -/
structure Idle (d : TcpDelivery M) (h : ℕ) : Prop where
  pending : d.pendingTo h = []
  queue : (d.queue h).getD [] = []

theorem getElem?_enqueue (peerTx : List (Option (List (List UInt8)))) (bytes : List UInt8)
    (recipients : List ℕ) (h : ℕ) :
    ((enqueue peerTx bytes recipients)[h]?).join =
      (peerTx[h]?).join.map (· ++ List.replicate (recipients.count h) bytes) := by
  induction recipients generalizing peerTx with
  | nil => simp [enqueue]
  | cons j recipients ih =>
    rw [enqueue, List.foldl_cons]
    show ((enqueue _ bytes recipients)[h]?).join = _
    rw [ih]
    by_cases hj : j = h
    · subst hj
      rw [List.getElem?_modify_eq, List.count_cons_self]
      cases peerTx[j]? with
      | none => rfl
      | some tx =>
        cases tx with
        | none => rfl
        | some q => simp [List.replicate_succ]
    · rw [List.getElem?_modify_ne _ _ hj, List.count_cons_of_ne hj]

/-- **Flushing** appends what is pending, in order. -/
theorem queue_pollFlush (d : TcpDelivery M) (h : ℕ) :
    (pollFlush d).queue h = (d.queue h).map (· ++ d.pendingTo h) := by
  unfold pollFlush TcpDelivery.queue TcpDelivery.pendingTo
  simp only
  generalize d.peerTx = tx
  induction d.pending generalizing tx with
  | nil => simp
  | cons e pending ih =>
    rw [List.foldl_cons, ih, getElem?_enqueue, Option.map_map, List.flatMap_cons]
    congr 1
    funext q
    rw [Function.comp_apply, List.append_assoc]

/-- **Sending** to a party whose channel is open makes one message pending for it, if the message is
    for that party. -/
theorem count_recipients (d : TcpDelivery M) (dest : MessageDestination) (h : ℕ) :
    (d.recipients dest).count h =
      if dest.reaches h ∧ ((d.queue h).isSome ∨ dest = .oneParty h) then 1 else 0 := by
  cases dest with
  | allParties reliable =>
    have hnd : (d.recipients (.allParties reliable)).Nodup := List.nodup_range.filter _
    split
    · rename_i hopen
      obtain ⟨-, hopen | hone⟩ := hopen
      · exact List.count_eq_one_of_mem hnd
          (List.mem_filter.mpr ⟨List.mem_range.mpr (lt_of_isSome_queue hopen), hopen⟩)
      · cases hone
    · rename_i hclosed
      refine List.count_eq_zero.mpr fun hmem => hclosed ⟨rfl, .inl ?_⟩
      exact (List.mem_filter.mp hmem).2
  | oneParty j =>
    by_cases hj : j = h
    · rw [hj]
      simp [TcpDelivery.recipients, MessageDestination.reaches]
    · simp [TcpDelivery.recipients, MessageDestination.reaches, hj]

/-! ### What a step does to the sender of a connection -/

/-- `Outbound codec h d w l d' w' l'`: a step takes the delivery of a party from `d` to `d'`, what has
    been written on its connection to `h` from `w` to `w'`, and what it has sent from `l` to `l'`. -/
inductive Outbound (codec : Codec M) (h : ℕ) (d : TcpDelivery M) (w : List UInt8)
    (l : List (Outgoing M)) : TcpDelivery M → List UInt8 → List (Outgoing M) → Prop where
  | stay {d' : TcpDelivery M} : d'.myIndex = d.myIndex → d'.pending = d.pending →
      d'.peerTx = d.peerTx → Outbound codec h d w l d' w l
  | send {d' : TcpDelivery M} {item : Outgoing M} : startSend codec d item = .ok d' →
      Outbound codec h d w l d' w (l ++ [item])
  | flush : Outbound codec h d w l (pollFlush d) w l
  | close : Outbound codec h d w l (pollClose d) w l
  | write {d' : TcpDelivery M} {out : List UInt8} : writeTask codec d h = some (d', out) →
      Outbound codec h d w l d' (w ++ out) l
  | other {d' : TcpDelivery M} {out : List UInt8} {h' : ℕ} : h' ≠ h →
      writeTask codec d h' = some (d', out) → Outbound codec h d w l d' w l

theorem Outbound.refl (d : TcpDelivery M) (w : List UInt8) (l : List (Outgoing M)) :
    Outbound codec h d w l d w l :=
  .stay rfl rfl rfl

/-- **Step lemma of a sender**, for every step but one that puts bytes of its own choice on the
    connection. -/
theorem step_outbound {a : Act M} (hs : step codec n a s = some s')
    (hno : ∀ bytes, a ≠ .inject g h bytes) :
    Outbound codec h (s.delivery g) (s.conn g h).written (s.sent g) (s'.delivery g)
      (s'.conn g h).written (s'.sent g) := by
  -- what happens at another party is invisible
  have hstay : ∀ (k : ℕ) (d : TcpDelivery M), k ≠ g → Outbound codec h (s.delivery g)
      (s.conn g h).written (s.sent g) ((s.withDelivery k d).delivery g) (s.conn g h).written
      (s.sent g) := by
    intro k d hk
    rw [withDelivery_of_ne _ _ _ (Ne.symm hk)]
    exact .refl ..
  cases step_cases hs with
  | @send g' item d _ hd =>
    by_cases hg : g' = g
    · subst hg
      simp only [Sys.withSent, withDelivery_self, withDelivery_conn, withDelivery_sent,
        Function.update_self]
      exact .send hd
    · simp only [Sys.withSent, withDelivery_conn, withDelivery_sent,
        Function.update_of_ne (Ne.symm hg)]
      exact hstay g' d hg
  | @flush g' =>
    by_cases hg : g' = g
    · subst hg
      rw [withDelivery_self]
      exact .flush
    · exact hstay g' _ hg
  | @close g' =>
    by_cases hg : g' = g
    · subst hg
      rw [withDelivery_self]
      exact .close
    · exact hstay g' _ hg
  | @next h' e d _ he =>
    by_cases hg : h' = g
    · subst hg
      obtain ⟨-, hindex, hp, ht⟩ := pollNext_eq_some he
      simp only [Sys.withYield, withDelivery_self]
      exact .stay hindex hp ht
    · exact hstay h' d hg
  | @write g' h' d out _ hw =>
    rw [withConn_conn, withConn_delivery, withConn_sent]
    by_cases hg : g' = g
    · subst hg
      rw [withDelivery_self]
      by_cases hh : h = h'
      · subst hh
        rw [if_pos ⟨rfl, rfl⟩]
        exact .write hw
      · rw [if_neg fun heq => hh heq.2]
        exact .other (Ne.symm hh) hw
    · rw [if_neg fun heq => hg heq.1.symm]
      exact hstay g' d hg
  | inject bytes =>
    rw [withConn_conn, if_neg]
    · exact .refl ..
    · rintro ⟨rfl, rfl⟩
      exact hno bytes rfl
  | arrive k =>
    rw [withConn_conn]
    split
    · rename_i heq
      obtain ⟨rfl, rfl⟩ := heq
      exact .refl ..
    · exact .refl ..
  | @read g' h' items c _ hr =>
    have hw : (((s.withDelivery h' ((s.delivery h').receive g' items)).withConn g' h' c).conn g h).written =
        (s.conn g h).written := by
      rw [withConn_conn]
      split
      · rename_i heq
        rw [heq.1, heq.2]
        exact readTask_written hr
      · rfl
    rw [hw, withConn_delivery]
    by_cases hg : h' = g
    · subst hg
      rw [withDelivery_self]
      exact .stay rfl rfl rfl
    · exact hstay h' _ hg

/-! ### Frames, queues and what has been sent -/

/-- The serialised message of a send. -/
def posting (codec : Codec M) (g : ℕ) (item : Outgoing M) : Option (List UInt8) :=
  codec.serialize ⟨g, wireType item.recipient, item.msg⟩

/-- What the sends of party `g` come to on its connection to `h`. -/
def posted (codec : Codec M) (g h : ℕ) (l : List (Outgoing M)) : List (List UInt8) :=
  (l.filter (·.recipient.reaches h)).filterMap (posting codec g)

/-- The frames `fs` have been written to party `h`, then come the queue of the write task and what is
    not flushed; nothing else, and all of it unless the write task has ended. -/
structure Posted (codec : Codec M) (g h : ℕ) (d : TcpDelivery M) (w : List UInt8)
    (l : List (Outgoing M)) (fs : List (List UInt8)) : Prop where
  index : d.myIndex = g
  reads : Reads codec.decoder w fs []
  serialized : ∀ item ∈ l, (posting codec g item).isSome
  sublist : (fs ++ (d.queue h).getD [] ++ d.pendingTo h).Sublist (posted codec g h l)
  all : (d.queue h).isSome → fs ++ (d.queue h).getD [] ++ d.pendingTo h = posted codec g h l

/-- A delivery that is not closed takes every message that can be serialised. -/
theorem exists_startSend {d : TcpDelivery M} {item : Outgoing M} (hclosed : d.closed = false)
    (hser : (posting codec d.myIndex item).isSome) : ∃ d', startSend codec d item = .ok d' := by
  obtain ⟨bytes, hbytes⟩ := Option.isSome_iff_exists.mp hser
  rw [posting] at hbytes
  simp [startSend, hclosed, hbytes]

/-- A send adds its message for party `h`, unless the write task for `h` has ended. -/
theorem pendingTo_startSend {d d' : TcpDelivery M} {item : Outgoing M}
    (hsend : startSend codec d item = .ok d') :
    d'.myIndex = d.myIndex ∧ (posting codec d.myIndex item).isSome ∧ d'.queue h = d.queue h ∧
      (d'.pendingTo h).Sublist (d.pendingTo h ++ posted codec d.myIndex h [item]) ∧
      ((d.queue h).isSome → d'.pendingTo h = d.pendingTo h ++ posted codec d.myIndex h [item]) := by
  obtain ⟨bytes, hbytes, rfl⟩ := startSend_eq_ok hsend
  have hpending : TcpDelivery.pendingTo
      { d with pending := d.pending ++ [(bytes, d.recipients item.recipient)] } h =
      d.pendingTo h ++ List.replicate ((d.recipients item.recipient).count h) bytes := by
    simp [TcpDelivery.pendingTo]
  have hposting : posting codec d.myIndex item = some bytes := hbytes
  refine ⟨rfl, by rw [hposting]; rfl, rfl, ?_, fun hopen => ?_⟩
  · rw [hpending, count_recipients]
    refine List.Sublist.append_left ?_ _
    split
    · rename_i hreach
      simp [posted, hreach.1, hposting]
    · exact List.nil_sublist _
  · rw [hpending, count_recipients]
    by_cases hreach : item.recipient.reaches h
    · rw [if_pos ⟨hreach, .inl hopen⟩]
      simp [posted, hreach, hposting]
    · rw [if_neg fun hboth => hreach hboth.1]
      simp [posted, hreach]

theorem posted_append (codec : Codec M) (g h : ℕ) (l l' : List (Outgoing M)) :
    posted codec g h (l ++ l') = posted codec g h l ++ posted codec g h l' := by
  rw [posted, List.filter_append, List.filterMap_append]
  rfl

/-- What a flush moves from one queue to the other. -/
theorem flushed_sublist (d : TcpDelivery M) (h : ℕ) :
    (((pollFlush d).queue h).getD []).Sublist ((d.queue h).getD [] ++ d.pendingTo h) ∧
      ((d.queue h).isSome → ((pollFlush d).queue h).getD [] = (d.queue h).getD [] ++ d.pendingTo h) := by
  rw [queue_pollFlush]
  cases d.queue h with
  | none => exact ⟨List.nil_sublist _, fun hopen => by cases hopen⟩
  | some q => exact ⟨List.Sublist.refl _, fun _ => rfl⟩

/-- Nothing changes for party `h`. -/
theorem Posted.of_same {d d' : TcpDelivery M} {w : List UInt8} {l : List (Outgoing M)}
    {fs : List (List UInt8)} (hp : Posted codec g h d w l fs) (hindex : d'.myIndex = d.myIndex)
    (hqueue : d'.queue h = d.queue h) (hpending : d'.pending = d.pending) :
    Posted codec g h d' w l fs := by
  have hto : d'.pendingTo h = d.pendingTo h := by
    rw [TcpDelivery.pendingTo, hpending, TcpDelivery.pendingTo]
  refine ⟨hindex.trans hp.index, hp.reads, hp.serialized, ?_, ?_⟩
  · rw [hqueue, hto]
    exact hp.sublist
  · rw [hqueue, hto]
    exact hp.all

/-- A message is sent. -/
theorem Posted.send {d d' : TcpDelivery M} {w : List UInt8} {l : List (Outgoing M)}
    {fs : List (List UInt8)} (hp : Posted codec g h d w l fs) {item : Outgoing M}
    (hsend : startSend codec d item = .ok d') : Posted codec g h d' w (l ++ [item]) fs := by
  obtain ⟨hindex, hser, hqueue, hsub, hall⟩ := pendingTo_startSend (h := h) hsend
  rw [hp.index] at hser hsub hall
  refine ⟨hindex.trans hp.index, hp.reads, fun item' hitem' => ?_, ?_, fun hopen => ?_⟩
  · rcases List.mem_append.mp hitem' with hitem' | hitem'
    · exact hp.serialized item' hitem'
    · rw [List.mem_singleton.mp hitem']
      exact hser
  · rw [hqueue, posted_append]
    refine (List.Sublist.append_left hsub _).trans ?_
    rw [← List.append_assoc]
    exact List.Sublist.append_right hp.sublist _
  · rw [hqueue] at hopen ⊢
    rw [hall hopen, ← List.append_assoc, hp.all hopen, posted_append]

/-- What is pending goes to the queue. -/
theorem Posted.flush {d : TcpDelivery M} {w : List UInt8} {l : List (Outgoing M)}
    {fs : List (List UInt8)} (hp : Posted codec g h d w l fs) : Posted codec g h (pollFlush d) w l fs := by
  obtain ⟨hsub, hall⟩ := flushed_sublist d h
  have hto : (pollFlush d).pendingTo h = [] := rfl
  refine ⟨hp.index, hp.reads, hp.serialized, ?_, fun hopen => ?_⟩
  · rw [hto, List.append_nil]
    refine (List.Sublist.append_left hsub fs).trans ?_
    rw [← List.append_assoc]
    exact hp.sublist
  · rw [queue_pollFlush, Option.isSome_map] at hopen
    rw [hto, List.append_nil, hall hopen, ← List.append_assoc]
    exact hp.all hopen

/-- The head of the queue becomes a frame; if it does not fit one, the write task ends. -/
theorem Posted.write {d d' : TcpDelivery M} {w out : List UInt8} {l : List (Outgoing M)}
    {fs : List (List UInt8)} (hp : Posted codec g h d w l fs)
    (hw : writeTask codec d h = some (d', out)) : ∃ fs', Posted codec g h d' (w ++ out) l fs' := by
  obtain ⟨hindex, hpending, bytes, rest, hq, hcase⟩ := queue_writeTask hw
  have hto : d'.pendingTo h = d.pendingTo h := by
    rw [TcpDelivery.pendingTo, hpending, TcpDelivery.pendingTo]
  have hsub := hp.sublist
  rw [hq, Option.getD_some] at hsub
  obtain ⟨hout, hq'⟩ | ⟨-, rfl, hq'⟩ := hcase
  · have hreads : Reads codec.decoder (w ++ out) (fs ++ [bytes]) [] := by
      have hdecode := codec.decode_encode hout []
      rw [List.append_nil] at hdecode
      exact (hp.reads.append out).snoc hdecode
    refine ⟨fs ++ [bytes], hindex.trans hp.index, hreads, hp.serialized, ?_, fun _ => ?_⟩
    · rw [hq', hto, Option.getD_some, List.append_assoc fs, List.singleton_append]
      exact hsub
    · have hall := hp.all (by rw [hq]; rfl)
      rw [hq, Option.getD_some] at hall
      rw [hq', hto, Option.getD_some, List.append_assoc fs, List.singleton_append]
      exact hall
  · rw [List.append_nil]
    refine ⟨fs, hindex.trans hp.index, hp.reads, hp.serialized, ?_, fun hopen => ?_⟩
    · rw [hq', hto, Option.getD_none, List.append_nil]
      refine (List.Sublist.append_right ?_ _).trans hsub
      exact List.sublist_append_left fs _
    · rw [hq'] at hopen
      cases hopen

/-- **Step lemma.** -/
theorem Outbound.posted {d d' : TcpDelivery M} {w w' : List UInt8} {l l' : List (Outgoing M)}
    (ho : Outbound codec h d w l d' w' l') {fs : List (List UInt8)} (hp : Posted codec g h d w l fs) :
    ∃ fs', Posted codec g h d' w' l' fs' := by
  cases ho with
  | stay hindex hpending hpeer =>
    exact ⟨fs, hp.of_same hindex (by rw [TcpDelivery.queue, hpeer, TcpDelivery.queue]) hpending⟩
  | send hsend => exact ⟨fs, hp.send hsend⟩
  | flush => exact ⟨fs, hp.flush⟩
  | close =>
    have hclosed : Posted codec g h { d with closed := true } w l fs := hp.of_same rfl rfl rfl
    exact ⟨fs, hclosed.flush⟩
  | write hw => exact hp.write hw
  | other hne hw =>
    obtain ⟨hindex, hqueue, hpending⟩ := queue_writeTask_of_ne hne hw
    exact ⟨fs, hp.of_same hindex hqueue hpending⟩

variable {ok : Act M → Prop}

/-- The queue for every other party is open and empty at first. -/
theorem queue_fresh (hl : Linked n g h) : (TcpDelivery.fresh n g : TcpDelivery M).queue h = some [] := by
  rw [TcpDelivery.queue, TcpDelivery.fresh, List.getElem?_map, List.getElem?_range hl.2.1,
    Option.map_some, if_neg (Ne.symm hl.2.2)]
  rfl

/-- **Run lemma.** -/
theorem Reached.posted (hs : Reached codec n ok s) (hl : Linked n g h)
    (hno : ∀ bytes, ¬ ok (.inject g h bytes)) :
    ∃ fs, Posted codec g h (s.delivery g) (s.conn g h).written (s.sent g) fs := by
  refine hs.invariant
    (P := fun s => ∃ fs, Posted codec g h (s.delivery g) (s.conn g h).written (s.sent g) fs)
    (fun a s s' ha hstep hP => ?_) ⟨[], rfl, .nil [], fun item hitem => ?_, ?_, fun _ => ?_⟩
  · obtain ⟨fs, hfs⟩ := hP
    refine (step_outbound hstep fun bytes heq => ?_).posted hfs
    rw [heq] at ha
    exact hno bytes ha
  · cases hitem
  · rw [show (Sys.init n : Sys M).delivery g = TcpDelivery.fresh n g from rfl, queue_fresh hl]
    exact List.nil_sublist _
  · rw [show (Sys.init n : Sys M).delivery g = TcpDelivery.fresh n g from rfl, queue_fresh hl]
    rfl

/-- **Honest connections.**  A message that came on the connection of a party that only its program
    writes on was sent by that party, and names it. -/
theorem Reached.exists_sent (hs : Reached codec n ok s) (hno : ∀ bytes, ¬ ok (.inject g h bytes))
    {inc : Incoming M} (he : (g, .ok inc) ∈ s.items h) :
    ∃ item ∈ s.sent g, item.recipient.reaches h ∧ inc.sender = g ∧
      inc.msgType = incomingType (wireType item.recipient) ∧ inc.msg = item.msg := by
  obtain ⟨hl, buf, hbuf, wire, hwire, hsender, htype, hmsg⟩ := hs.exists_frame he
  obtain ⟨fs, hfs⟩ := hs.posted hl hno
  rw [hfs.reads.frames_eq, frames_nil, List.append_nil] at hbuf
  -- the frame is the serialised message of a send
  have hmem : buf ∈ Tcp.posted codec g h (s.sent g) :=
    hfs.sublist.subset (List.mem_append_left _ (List.mem_append_left _ hbuf))
  obtain ⟨item, hitem, hposting⟩ := List.mem_filterMap.mp hmem
  obtain ⟨hitem, hreach⟩ := List.mem_filter.mp hitem
  have heq : wire = ⟨g, wireType item.recipient, item.msg⟩ :=
    Option.some.inj (hwire.symm.trans (codec.deserialize_serialize hposting))
  subst heq
  exact ⟨item, hitem, hreach, hsender, htype, hmsg⟩

/-! ### What has been yielded in the end -/

theorem step_sent {a : Act M} (hs : step codec n a s = some s') (g : ℕ) :
    s'.sent g = s.sent g ∨ ∃ item, a = .send g item ∧ s'.sent g = s.sent g ++ [item] := by
  cases step_cases hs with
  | @send g' item d =>
    by_cases hg : g = g'
    · subst hg
      exact .inr ⟨item, rfl, by simp [Sys.withSent]⟩
    · exact .inl (by simp [Sys.withSent, Function.update_of_ne hg])
  | _ => exact .inl rfl

/-- What a party has sent, it was allowed to send. -/
theorem Reached.sent_ok (hs : Reached codec n ok s) : ∀ g, ∀ item ∈ s.sent g, ok (.send g item) := by
  intro g
  refine hs.invariant (P := fun s => ∀ item ∈ s.sent g, ok (.send g item))
    (fun a s s' ha hstep hP item hitem => ?_) fun item hitem => by cases hitem
  rcases step_sent hstep g with hsame | ⟨item', rfl, hnew⟩
  · exact hP item (hsame ▸ hitem)
  · rw [hnew, List.mem_append, List.mem_singleton] at hitem
    rcases hitem with hitem | rfl
    · exact hP item hitem
    · exact ha

/-- A write task that has room for everything does not end. -/
theorem Outbound.isSome_queue {d d' : TcpDelivery M} {w w' : List UInt8} {l l' : List (Outgoing M)}
    (ho : Outbound codec h d w l d' w' l') {fs : List (List UInt8)} (hp : Posted codec g h d w l fs)
    (hg : g < n) (hcarry : ∀ item ∈ l, codec.Carries n item.msg) (hopen : (d.queue h).isSome) :
    (d'.queue h).isSome := by
  cases ho with
  | stay _ _ hpeer => rwa [TcpDelivery.queue, hpeer, ← TcpDelivery.queue]
  | send hsend => rwa [(pendingTo_startSend hsend).2.2.1]
  | flush => rwa [queue_pollFlush, Option.isSome_map]
  | close => rwa [pollClose, queue_pollFlush, Option.isSome_map]
  | write hw =>
    obtain ⟨-, -, bytes, rest, hq, ⟨-, hq'⟩ | ⟨hnone, -, -⟩⟩ := queue_writeTask hw
    · rw [hq']
      rfl
    · -- the message at the head of the queue is one of those that were sent
      have hmem : bytes ∈ Tcp.posted codec g h l := by
        refine hp.sublist.subset (List.mem_append_left _ (List.mem_append_right _ ?_))
        rw [hq]
        exact List.mem_cons_self
      obtain ⟨item, hitem, hposting⟩ := List.mem_filterMap.mp hmem
      obtain ⟨bytes', out, hser, hout⟩ :=
        hcarry item (List.mem_filter.mp hitem).1 g hg (wireType item.recipient)
      rw [Option.some.inj (hposting.symm.trans hser), hout] at hnone
      cases hnone
  | other hne hw => rwa [(queue_writeTask_of_ne hne hw).2.1]

/-- The channel to a peer stays open. -/
theorem Reached.isSome_queue (hs : Reached codec n ok s) (hl : Linked n g h)
    (hno : ∀ bytes, ¬ ok (.inject g h bytes))
    (hcarry : ∀ item ∈ s.sent g, codec.Carries n item.msg) :
    ((s.delivery g).queue h).isSome := by
  induction hs with
  | refl =>
    rw [show (Sys.init n : Sys M).delivery g = TcpDelivery.fresh n g from rfl, queue_fresh hl]
    rfl
  | @tail s s' hs hstep ih =>
    obtain ⟨a, ha, hstep⟩ := hstep
    obtain ⟨fs, hfs⟩ := Reached.posted hs hl hno
    have hcarry' : ∀ item ∈ s.sent g, codec.Carries n item.msg := by
      intro item hitem
      rcases step_sent hstep g with hsame | ⟨item', -, hnew⟩
      · exact hcarry item (hsame ▸ hitem)
      · exact hcarry item (hnew ▸ List.mem_append_left _ hitem)
    refine (step_outbound hstep fun bytes heq => ?_).isSome_queue hfs hl.1 hcarry' (ih hcarry')
    rw [heq] at ha
    exact hno bytes ha

/-- The messages that the sends `l` amount to at a party that is addressed as `h`, in the name of
    `g`. -/
def delivered (g h : ℕ) (l : List (Outgoing M)) : List (Except IoError (Incoming M)) :=
  (l.filter (·.recipient.reaches h)).zipIdx.map fun e =>
    .ok ⟨e.2, g, incomingType (wireType e.1.recipient), e.1.msg⟩

/-- The read task turns the serialised messages into these. -/
theorem readFrames_posted (h : ℕ) {l : List (Outgoing M)}
    (hser : ∀ item ∈ l, (posting codec g item).isSome) :
    readFrames codec (posted codec g h l) =
      (delivered g h l, (l.filter (·.recipient.reaches h)).length) := by
  unfold posted delivered
  have hser' : ∀ item ∈ l.filter (·.recipient.reaches h), (posting codec g item).isSome :=
    fun item hitem => hser item (List.mem_filter.mp hitem).1
  generalize l.filter (·.recipient.reaches h) = l' at hser'
  induction l' using List.reverseRecOn with
  | nil => rfl
  | append_singleton l' item ih =>
    obtain ⟨bytes, hbytes⟩ := Option.isSome_iff_exists.mp
      (hser' item (List.mem_append_right _ (List.mem_singleton_self item)))
    have hread := codec.deserialize_serialize hbytes
    rw [List.filterMap_append, List.filterMap_cons_some hbytes, List.filterMap_nil, readFrames_concat,
      ih fun item' hitem' => hser' item' (List.mem_append_left _ hitem')]
    simp only [readFrame, hread, List.zipIdx_append, List.map_append, List.length_append,
      List.length_singleton, List.zipIdx_singleton, List.map_singleton, Nat.zero_add]

/-- **Exactly once, in order.**  When nothing is left to do on the way from an honest party to another
    one, the items that came on the connection are its messages for the receiver. -/
theorem SettledAt.delivered (hset : SettledAt codec n h s) (hidle : Idle (s.delivery g) h)
    (hs : Reached codec n ok s) (hl : Linked n g h) (hno : ∀ bytes, ¬ ok (.inject g h bytes))
    (hcarry : ∀ item ∈ s.sent g, codec.Carries n item.msg) :
    tagged g (s.yields h) = Tcp.delivered g h (s.sent g) := by
  obtain ⟨fs, hfs⟩ := hs.posted hl hno
  have hall := hfs.all (hs.isSome_queue hl hno hcarry)
  rw [hidle.queue, hidle.pending, List.append_nil, List.append_nil] at hall
  rw [hset.yields hs hl, hfs.reads.frames_eq, frames_nil, List.append_nil, hall,
    readFrames_posted h hfs.serialized]

theorem Quiescent.idle (hq : Quiescent codec n s) (hl : Linked n g h) : Idle (s.delivery g) h := by
  refine ⟨?_, hq.queue g h hl⟩
  rw [TcpDelivery.pendingTo, hq.pending g hl.1]
  rfl

/-- The same when nothing is left to do at all. -/
theorem Quiescent.delivered (hq : Quiescent codec n s) (hs : Reached codec n ok s) (hl : Linked n g h)
    (hno : ∀ bytes, ¬ ok (.inject g h bytes))
    (hcarry : ∀ item ∈ s.sent g, codec.Carries n item.msg) :
    tagged g (s.yields h) = Tcp.delivered g h (s.sent g) :=
  (hq.settledAt hl.2.1).delivered (hq.idle hl) hs hl hno hcarry

end Govis.Tcp
