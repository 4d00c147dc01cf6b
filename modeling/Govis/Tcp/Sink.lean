import Govis.Tcp.Links
import Govis.Tcp.WireFormat

namespace Govis.Tcp

/-!
# The transport: what becomes of an accepted message

The sink of `TcpDelivery` with a record of what its calls have promised.  The channel to a peer
closes when its write task ends, which can happen between any two sends of a flush.
`poll_flush` and `poll_close` return `Ok` whatever happens: a send to a closed channel and an
index outside the table are ignored.

* `Sink`, `Event` — the sink, the calls on it and what happens around it;
* `Sink.Delivered` — every acknowledged message went into the channels of its recipients, once
  and in order;
* `delivered_iff` — the condition on a run under which that is so;
* `not_delivered` — a run that breaks it.
-/

variable {M : Type}

/-! ### The sink -/

/-- The sink, the messages that `start_send` has accepted with the recipients they then had, how many
    of them a flush has acknowledged, and all that went into the channel of each peer. -/
structure Sink (M : Type) where
  delivery : TcpDelivery M
  accepted : List (List UInt8 × List ℕ)
  acknowledged : ℕ
  log : ℕ → List (List UInt8)

/-- The sink that `connect_tcp` returns. -/
def Sink.fresh (n myIndex : ℕ) : Sink M := ⟨TcpDelivery.fresh n myIndex, [], 0, fun _ => []⟩

/-- What can happen.  `closing k` are the channels that close right before the `k`-th send of a
    flush. -/
inductive Event (M : Type) where
  | startSend (item : Outgoing M)
  | pollFlush (closing : ℕ → List ℕ)
  | pollClose (closing : ℕ → List ℕ)
  | peersClose (peers : List ℕ)
  | writeTask (j : ℕ)

/-- For whom a message is meant: the named party, or every other party whose channel is open. -/
def TcpDelivery.addressees (n : ℕ) (d : TcpDelivery M) : MessageDestination → List ℕ
  | .allParties _ => (List.range n).filter fun j => j ≠ d.myIndex ∧ (d.queue j).isSome
  | .oneParty j => [j]

/-- The receivers of some channels are dropped. -/
def TcpDelivery.closePeers (d : TcpDelivery M) (peers : List ℕ) : TcpDelivery M :=
  { d with peerTx := d.peerTx.mapIdx fun j tx => if j ∈ peers then none else tx }

def Sink.closePeers (s : Sink M) (peers : List ℕ) : Sink M :=
  { s with delivery := s.delivery.closePeers peers }

/-- One send of `poll_flush`. -/
def Sink.handOver (s : Sink M) (bytes : List UInt8) (j : ℕ) : Sink M :=
  match s.delivery.queue j with
  | none => s
  | some _ =>
    { s with
      delivery := { s.delivery with peerTx := enqueue s.delivery.peerTx bytes [j] }
      log := Function.update s.log j (s.log j ++ [bytes]) }

/-- The sends of a flush, one after the other. -/
def sends (pending : List (List UInt8 × List ℕ)) : List (List UInt8 × ℕ) :=
  pending.flatMap fun e => e.2.map (Prod.mk e.1)

/-- The loop of `poll_flush`, from its `k`-th send. -/
def Sink.flushFrom (closing : ℕ → List ℕ) : ℕ → List (List UInt8 × ℕ) → Sink M → Sink M
  | _, [], s => s
  | k, e :: rest, s =>
    flushFrom closing (k + 1) rest ((s.closePeers (closing k)).handOver e.1 e.2)

/-- `poll_flush` while channels close.  It acknowledges every message that has been accepted. -/
def Sink.flush (closing : ℕ → List ℕ) (s : Sink M) : Sink M :=
  let s' := s.flushFrom closing 0 (sends s.delivery.pending)
  { s' with delivery := { s'.delivery with pending := [] }, acknowledged := s'.accepted.length }

/-- `poll_close` while channels close. -/
def Sink.close (closing : ℕ → List ℕ) (s : Sink M) : Sink M :=
  Sink.flush closing { s with delivery := { s.delivery with closed := true } }

def Sink.step (codec : Codec M) (n : ℕ) (s : Sink M) : Event M → Sink M
  | .startSend item =>
    match startSend codec s.delivery item, posting codec s.delivery.myIndex item with
    | .ok d, some bytes =>
      { s with
        delivery := d
        accepted := s.accepted ++ [(bytes, s.delivery.addressees n item.recipient)] }
    | _, _ => s
  | .pollFlush closing => s.flush closing
  | .pollClose closing => s.close closing
  | .peersClose peers => s.closePeers peers
  | .writeTask j =>
    match writeTask codec s.delivery j with
    | some (d, _) => { s with delivery := d }
    | none => s

/-- The sink of party `myIndex` after a run. -/
def Sink.run (codec : Codec M) (n myIndex : ℕ) (events : List (Event M)) : Sink M :=
  events.foldl (Sink.step codec n) (Sink.fresh n myIndex)

/-- What should have gone into the channel of a peer. -/
def Sink.due (s : Sink M) (j : ℕ) : List (List UInt8) :=
  ((s.accepted.take s.acknowledged).filter fun e => j ∈ e.2).map Prod.fst

/-- **Nothing lost, nothing twice.**  The acknowledged messages went into the channels of their
    recipients, once each and in the order of the calls, and none into the party's own. -/
def Sink.Delivered (myIndex : ℕ) (s : Sink M) : Prop :=
  (∀ j, s.log j = s.due j) ∧ s.log myIndex = []

/-- The channel of every recipient is open when the flush begins, and closes only after the message
    is handed over. -/
def Sink.Open (s : Sink M) (closing : ℕ → List ℕ) : Prop :=
  ∀ k e, (sends s.delivery.pending)[k]? = some e →
    (s.delivery.queue e.2).isSome ∧ ∀ l ≤ k, e.2 ∉ closing l

/-- The condition on an event, which only flushes have. -/
def Sink.Admissible (s : Sink M) : Event M → Prop
  | .pollFlush closing => s.Open closing
  | .pollClose closing => s.Open closing
  | _ => True

/-! ### The channels -/

section Channels

variable (s : Sink M) (d : TcpDelivery M) (bytes : List UInt8) (i j : ℕ)

theorem queue_closePeers (peers : List ℕ) :
    (d.closePeers peers).queue j = if j ∈ peers then none else d.queue j := by
  rw [TcpDelivery.queue, TcpDelivery.closePeers, List.getElem?_mapIdx]
  cases hj : d.peerTx[j]? with
  | none => simp [TcpDelivery.queue, hj]
  | some tx =>
    by_cases hmem : j ∈ peers
    · simp [hmem]
    · simp [TcpDelivery.queue, hj, hmem]

theorem isSome_queue_handOver :
    ((s.handOver bytes i).delivery.queue j).isSome = (s.delivery.queue j).isSome := by
  unfold Sink.handOver
  split
  · rfl
  · rw [TcpDelivery.queue, getElem?_enqueue, Option.isSome_map]
    rfl

theorem log_handOver : (s.handOver bytes i).log j =
    s.log j ++ if i = j ∧ (s.delivery.queue i).isSome then [bytes] else [] := by
  unfold Sink.handOver
  split
  · rename_i hq
    simp [hq]
  · rename_i q hq
    by_cases hij : i = j
    · subst hij
      simp [hq]
    · simp [hij, Function.update_of_ne (Ne.symm hij)]

@[simp] theorem accepted_handOver : (s.handOver bytes i).accepted = s.accepted := by
  unfold Sink.handOver
  split <;> rfl

@[simp] theorem myIndex_handOver :
    (s.handOver bytes i).delivery.myIndex = s.delivery.myIndex := by
  unfold Sink.handOver
  split <;> rfl

@[simp] theorem length_handOver :
    (s.handOver bytes i).delivery.peerTx.length = s.delivery.peerTx.length := by
  unfold Sink.handOver
  split
  · rfl
  · simp [enqueue]

end Channels

theorem closePeers_nil (d : TcpDelivery M) : d.closePeers [] = d := by
  have htx : d.peerTx.mapIdx (fun _ tx => tx) = d.peerTx := by
    refine List.ext_getElem? fun j => ?_
    rw [List.getElem?_mapIdx, Option.map_id']
  simp only [TcpDelivery.closePeers, List.not_mem_nil, if_false, htx]

/-- Nothing goes into a closed channel. -/
theorem enqueue_of_closed {d : TcpDelivery M} {j : ℕ} (hq : d.queue j = none) (bytes : List UInt8) :
    enqueue d.peerTx bytes [j] = d.peerTx := by
  rw [enqueue, List.foldl_cons, List.foldl_nil]
  refine List.ext_getElem? fun i => ?_
  by_cases hij : j = i
  · subst hij
    rw [List.getElem?_modify_eq]
    rw [TcpDelivery.queue] at hq
    cases htx : d.peerTx[j]? with
    | none => rfl
    | some tx =>
      rw [htx, Option.join_some] at hq
      rw [hq]
      rfl
  · rw [List.getElem?_modify_ne _ _ hij]

theorem delivery_handOver (s : Sink M) (bytes : List UInt8) (j : ℕ) :
    (s.handOver bytes j).delivery =
      { s.delivery with peerTx := enqueue s.delivery.peerTx bytes [j] } := by
  unfold Sink.handOver
  split
  · rename_i hq
    rw [enqueue_of_closed hq]
  · rfl

/-- The sends of a flush, message by message. -/
theorem foldl_sends (pending : List (List UInt8 × List ℕ))
    (tx : List (Option (List (List UInt8)))) :
    (sends pending).foldl (fun tx e => enqueue tx e.1 [e.2]) tx =
      pending.foldl (fun tx e => enqueue tx e.1 e.2) tx := by
  induction pending generalizing tx with
  | nil => rfl
  | cons e pending ih =>
    rw [List.foldl_cons, ← ih, sends, List.flatMap_cons, List.foldl_append, List.foldl_map]
    rfl

/-- Without anything closing, this is `poll_flush`. -/
theorem delivery_flush (s : Sink M) : (s.flush fun _ => []).delivery = pollFlush s.delivery := by
  have hloop : ∀ (l : List (List UInt8 × ℕ)) (k : ℕ) (s : Sink M),
      (s.flushFrom (fun _ => []) k l).delivery =
        { s.delivery with
          peerTx := l.foldl (fun tx e => enqueue tx e.1 [e.2]) s.delivery.peerTx } := by
    intro l
    induction l with
    | nil => exact fun k s => rfl
    | cons e l ih =>
      intro k s
      rw [Sink.flushFrom, ih, delivery_handOver, Sink.closePeers, closePeers_nil]
      rfl
  show ({ (s.flushFrom _ 0 _).delivery with pending := [] } : TcpDelivery M) = _
  rw [hloop, foldl_sends]
  rfl

/-! ### One flush -/

/-- What a list of sends has for one peer. -/
def sendsTo (j : ℕ) (l : List (List UInt8 × ℕ)) : List (List UInt8) :=
  (l.filter fun e => e.2 = j).map Prod.fst

theorem sendsTo_cons (j : ℕ) (e : List UInt8 × ℕ) (l : List (List UInt8 × ℕ)) :
    sendsTo j (e :: l) = (if e.2 = j then [e.1] else []) ++ sendsTo j l := by
  by_cases he : e.2 = j <;> simp [sendsTo, he]

theorem sendsTo_append (j : ℕ) (l l' : List (List UInt8 × ℕ)) :
    sendsTo j (l ++ l') = sendsTo j l ++ sendsTo j l' := by
  simp [sendsTo]

/-- The sends of one message to distinct recipients. -/
theorem sendsTo_map_mk (j : ℕ) (bytes : List UInt8) {recipients : List ℕ} (hnd : recipients.Nodup) :
    sendsTo j (recipients.map (Prod.mk bytes)) = if j ∈ recipients then [bytes] else [] := by
  rw [sendsTo, List.filter_map, List.map_map]
  split
  · rename_i hmem
    have hfilter : recipients.filter (fun i => i = j) = [j] := by
      rw [List.filter_eq, List.count_eq_one_of_mem hnd hmem]
      rfl
    simp [Function.comp_def, hfilter]
  · rename_i hmem
    have hfilter : recipients.filter (fun i => i = j) = [] :=
      List.filter_eq_nil_iff.mpr fun i hi => by
        simp only [decide_eq_true_eq]
        rintro rfl
        exact hmem hi
    simp [Function.comp_def, hfilter]

/-- The sends of messages whose recipients are distinct. -/
theorem sendsTo_sends (j : ℕ) {pending : List (List UInt8 × List ℕ)}
    (hnd : ∀ e ∈ pending, e.2.Nodup) :
    sendsTo j (sends pending) = (pending.filter fun e => j ∈ e.2).map Prod.fst := by
  induction pending with
  | nil => rfl
  | cons e pending ih =>
    have hrest := ih fun e' he' => hnd e' (List.mem_cons_of_mem _ he')
    rw [sends, List.flatMap_cons, sendsTo_append, sendsTo_map_mk j e.1 (hnd e List.mem_cons_self),
      ← sends, hrest]
    by_cases hmem : j ∈ e.2 <;> simp [hmem]

/-- The channels that are open for the `k`-th send and the ones after it. -/
def Sink.OpenFrom (s : Sink M) (closing : ℕ → List ℕ) (k : ℕ) (l : List (List UInt8 × ℕ)) : Prop :=
  ∀ i e, l[i]? = some e → (s.delivery.queue e.2).isSome ∧ ∀ m ≤ i, e.2 ∉ closing (k + m)

theorem openFrom_cons {s : Sink M} {closing : ℕ → List ℕ} {k : ℕ} {e : List UInt8 × ℕ}
    {l : List (List UInt8 × ℕ)} : s.OpenFrom closing k (e :: l) ↔
      ((s.closePeers (closing k)).delivery.queue e.2).isSome ∧
        ((s.closePeers (closing k)).handOver e.1 e.2).OpenFrom closing (k + 1) l := by
  have hopen : ∀ i, ((s.closePeers (closing k)).delivery.queue i).isSome ↔
      (s.delivery.queue i).isSome ∧ i ∉ closing k := by
    intro i
    rw [Sink.closePeers, queue_closePeers]
    by_cases hi : i ∈ closing k <;> simp [hi]
  simp only [Sink.OpenFrom, isSome_queue_handOver, hopen]
  constructor
  · intro h
    refine ⟨⟨(h 0 e rfl).1, (h 0 e rfl).2 0 le_rfl⟩, fun i e' he' => ?_⟩
    obtain ⟨hq, hm⟩ := h (i + 1) e' he'
    refine ⟨⟨hq, hm 0 (Nat.zero_le _)⟩, fun m hmi => ?_⟩
    have := hm (m + 1) (Nat.succ_le_succ hmi)
    rwa [show k + (m + 1) = k + 1 + m by omega] at this
  · rintro ⟨⟨hq, h0⟩, hrest⟩ i e' he'
    cases i with
    | zero =>
      obtain rfl := Option.some.inj he'
      refine ⟨hq, fun m hm => ?_⟩
      rwa [Nat.le_zero.mp hm]
    | succ i =>
      obtain ⟨⟨hq', h0'⟩, hm⟩ := hrest i e' he'
      refine ⟨hq', fun m hmi => ?_⟩
      cases m with
      | zero => exact h0'
      | succ m =>
        have := hm m (Nat.le_of_succ_le_succ hmi)
        rwa [show k + 1 + m = k + (m + 1) by omega] at this

/-- A flush only adds to a channel, and no more than it has for it. -/
theorem exists_log_flushFrom (closing : ℕ → List ℕ) (k : ℕ) (l : List (List UInt8 × ℕ))
    (s : Sink M) (j : ℕ) : ∃ handed, (s.flushFrom closing k l).log j = s.log j ++ handed ∧
      handed.length ≤ (sendsTo j l).length := by
  induction l generalizing k s with
  | nil => exact ⟨[], (List.append_nil _).symm, le_rfl⟩
  | cons e l ih =>
    obtain ⟨handed, hlog, hlen⟩ := ih (k + 1) ((s.closePeers (closing k)).handOver e.1 e.2)
    rw [log_handOver, List.append_assoc] at hlog
    refine ⟨_, hlog, ?_⟩
    rw [sendsTo_cons, List.length_append, List.length_append]
    refine Nat.add_le_add ?_ hlen
    by_cases he : e.2 = j
    · rw [if_pos he]
      split <;> simp
    · simp [he]

/-- **A flush** hands everything over exactly if the channels are open when their turn comes. -/
theorem log_flushFrom_iff (closing : ℕ → List ℕ) (k : ℕ) (l : List (List UInt8 × ℕ))
    (s : Sink M) : (∀ j, (s.flushFrom closing k l).log j = s.log j ++ sendsTo j l) ↔
      s.OpenFrom closing k l := by
  induction l generalizing k s with
  | nil => simp [Sink.flushFrom, sendsTo, Sink.OpenFrom]
  | cons e l ih =>
    rw [openFrom_cons, ← ih]
    simp only [log_handOver, Sink.flushFrom, sendsTo_cons]
    set s₁ := s.closePeers (closing k) with hs₁
    have hlog₁ : ∀ j, s₁.log j = s.log j := fun j => rfl
    constructor
    · intro h
      have hopen : (s₁.delivery.queue e.2).isSome := by
        by_contra hclosed
        -- the channel would have got less than it should have
        obtain ⟨handed, hlog, hlen⟩ :=
          exists_log_flushFrom closing (k + 1) l (s₁.handOver e.1 e.2) e.2
        have hj := h e.2
        rw [hlog, log_handOver, if_neg (fun hc => hclosed hc.2), hlog₁, List.append_nil,
          if_pos rfl, List.append_cancel_left_eq] at hj
        rw [hj] at hlen
        simp at hlen
      refine ⟨hopen, fun j => ?_⟩
      rw [h j, hlog₁, List.append_assoc]
      simp only [hopen, and_true]
    · rintro ⟨hopen, h⟩ j
      rw [h j, hlog₁, List.append_assoc]
      simp only [hopen, and_true]

/-- What the sends of a flush leave alone. -/
theorem flushFrom_frame (closing : ℕ → List ℕ) (k : ℕ) (l : List (List UInt8 × ℕ)) (s : Sink M) :
    (s.flushFrom closing k l).accepted = s.accepted ∧
      (s.flushFrom closing k l).delivery.myIndex = s.delivery.myIndex ∧
      (s.flushFrom closing k l).delivery.peerTx.length = s.delivery.peerTx.length ∧
      ∀ j, s.delivery.queue j = none → (s.flushFrom closing k l).delivery.queue j = none ∧
        (s.flushFrom closing k l).log j = s.log j := by
  induction l generalizing k s with
  | nil => exact ⟨rfl, rfl, rfl, fun j hj => ⟨hj, rfl⟩⟩
  | cons e l ih =>
    obtain ⟨hacc, hmy, hlen, hclosed⟩ := ih (k + 1) ((s.closePeers (closing k)).handOver e.1 e.2)
    rw [accepted_handOver] at hacc
    rw [myIndex_handOver] at hmy
    rw [length_handOver] at hlen
    refine ⟨hacc, hmy, hlen.trans (by simp [Sink.closePeers, TcpDelivery.closePeers]),
      fun j hj => ?_⟩
    have hj₁ : (s.closePeers (closing k)).delivery.queue j = none := by
      rw [Sink.closePeers, queue_closePeers, hj, ite_self]
    have hj₂ : ((s.closePeers (closing k)).handOver e.1 e.2).delivery.queue j = none := by
      rw [← Option.not_isSome_iff_eq_none, isSome_queue_handOver, hj₁]
      exact Bool.false_ne_true
    obtain ⟨hq, hlog⟩ := hclosed j hj₂
    refine ⟨hq, hlog.trans ?_⟩
    rw [log_handOver, if_neg, List.append_nil]
    · rfl
    · rintro ⟨rfl, hopen⟩
      rw [hj₁] at hopen
      exact Bool.false_ne_true hopen

/-! ### Runs -/

/-- What every run keeps: nothing is open to the party itself, the pending messages are those not
    acknowledged yet, and no channel got more than it should have. -/
structure Sink.Inv (n myIndex : ℕ) (s : Sink M) : Prop where
  myIndex_eq : s.delivery.myIndex = myIndex
  length_eq : s.delivery.peerTx.length = n
  own : s.delivery.queue myIndex = none
  pending_eq : s.delivery.pending = s.accepted.drop s.acknowledged
  acknowledged_le : s.acknowledged ≤ s.accepted.length
  nodup : ∀ e ∈ s.accepted, e.2.Nodup
  logOwn : s.log myIndex = []
  log_le : ∀ j, (s.log j).length ≤ (s.due j).length

section Steps

variable {codec : Codec M} {n myIndex : ℕ} {s : Sink M}

theorem Sink.inv_fresh : (Sink.fresh n myIndex : Sink M).Inv n myIndex where
  myIndex_eq := rfl
  length_eq := by simp [Sink.fresh, TcpDelivery.fresh]
  own := by
    by_cases h : myIndex < n <;> simp [Sink.fresh, TcpDelivery.fresh, TcpDelivery.queue, h]
  pending_eq := rfl
  acknowledged_le := le_rfl
  nodup e he := by cases he
  logOwn := rfl
  log_le j := le_rfl

/-- A channel that loses its receiver, or its first message, makes no difference. -/
theorem Sink.Inv.withDelivery (h : s.Inv n myIndex) {d : TcpDelivery M}
    (hmy : d.myIndex = s.delivery.myIndex) (hlen : d.peerTx.length = s.delivery.peerTx.length)
    (hown : d.queue myIndex = none) (hpending : d.pending = s.delivery.pending) :
    ({ s with delivery := d } : Sink M).Inv n myIndex where
  myIndex_eq := hmy.trans h.myIndex_eq
  length_eq := hlen.trans h.length_eq
  own := hown
  pending_eq := hpending.trans h.pending_eq
  acknowledged_le := h.acknowledged_le
  nodup := h.nodup
  logOwn := h.logOwn
  log_le := h.log_le

/-- The code determines the addressees: the party's own channel is never open. -/
theorem Sink.Inv.recipients_eq (h : s.Inv n myIndex) (dest : MessageDestination) :
    s.delivery.recipients dest = s.delivery.addressees n dest := by
  cases dest with
  | oneParty j => rfl
  | allParties reliable =>
    rw [TcpDelivery.recipients, TcpDelivery.addressees, h.length_eq]
    refine List.filter_congr fun j _ => ?_
    by_cases hj : j = s.delivery.myIndex
    · have hown := h.own
      rw [← h.myIndex_eq, ← hj] at hown
      simp [hown]
    · simp [hj]

theorem nodup_addressees (n : ℕ) (d : TcpDelivery M) (dest : MessageDestination) :
    (d.addressees n dest).Nodup := by
  cases dest with
  | oneParty j => exact List.nodup_singleton j
  | allParties reliable => exact List.nodup_range.filter _

/-- A message that `start_send` accepts changes nothing that has been promised before. -/
theorem Sink.Inv.accept (h : s.Inv n myIndex) (item : Outgoing M) (bytes : List UInt8) :
    ({ s with
        delivery := { s.delivery with
          pending := s.delivery.pending ++ [(bytes, s.delivery.recipients item.recipient)] }
        accepted := s.accepted ++ [(bytes, s.delivery.addressees n item.recipient)] } :
      Sink M).Inv n myIndex ∧
    ∀ j, Sink.due { s with
        accepted := s.accepted ++ [(bytes, s.delivery.addressees n item.recipient)] } j =
      s.due j := by
  have htake : (s.accepted ++ [(bytes, s.delivery.addressees n item.recipient)]).take
      s.acknowledged = s.accepted.take s.acknowledged :=
    List.take_append_of_le_length h.acknowledged_le
  have hdue : ∀ j, Sink.due { s with
      accepted := s.accepted ++ [(bytes, s.delivery.addressees n item.recipient)] } j =
      s.due j := fun j => by rw [Sink.due, Sink.due, htake]
  refine ⟨?_, hdue⟩
  exact
    { myIndex_eq := h.myIndex_eq
      length_eq := h.length_eq
      own := h.own
      pending_eq := by
        rw [List.drop_append_of_le_length h.acknowledged_le, h.recipients_eq, h.pending_eq]
      acknowledged_le := h.acknowledged_le.trans (by simp)
      nodup := by
        intro e he
        rcases List.mem_append.mp he with he | he
        · exact h.nodup e he
        · rw [List.mem_singleton.mp he]
          exact nodup_addressees n s.delivery item.recipient
      logOwn := h.logOwn
      log_le := fun j => (h.log_le j).trans (by rw [← hdue j]; rfl) }

/-- The messages that a flush acknowledges are those it sends. -/
theorem Sink.Inv.due_flush (h : s.Inv n myIndex) (closing : ℕ → List ℕ) (j : ℕ) :
    (s.flush closing).due j = s.due j ++ sendsTo j (sends s.delivery.pending) := by
  have hnd : ∀ e ∈ s.delivery.pending, e.2.Nodup := by
    rw [h.pending_eq]
    exact fun e he => h.nodup e (List.mem_of_mem_drop he)
  have hdue : (s.flush closing).due j =
      (s.accepted.filter fun e => j ∈ e.2).map Prod.fst := by
    obtain ⟨hacc, -⟩ := flushFrom_frame closing 0 (sends s.delivery.pending) s
    show ((List.take (s.flushFrom closing 0 _).accepted.length
      (s.flushFrom closing 0 _).accepted).filter _).map _ = _
    rw [hacc, List.take_length]
  rw [hdue, sendsTo_sends j hnd, h.pending_eq, Sink.due, ← List.map_append, ← List.filter_append,
    List.take_append_drop]

/-- **Flushing.** -/
theorem Sink.Inv.flush (h : s.Inv n myIndex) (closing : ℕ → List ℕ) :
    (s.flush closing).Inv n myIndex ∧
      ((s.flush closing).Delivered myIndex ↔ s.Delivered myIndex ∧ s.Open closing) := by
  set l := sends s.delivery.pending with hl
  obtain ⟨hacc, hmy, hlen, hclosed⟩ := flushFrom_frame closing 0 l s
  obtain ⟨hown, hlogOwn⟩ := hclosed myIndex h.own
  have hdue : ∀ j, (s.flush closing).due j = s.due j ++ sendsTo j l := h.due_flush closing
  have hlog : ∀ j, (s.flush closing).log j = (s.flushFrom closing 0 l).log j := fun j => rfl
  have hopen : s.OpenFrom closing 0 l ↔ s.Open closing := by
    simp only [Sink.OpenFrom, Sink.Open, Nat.zero_add, ← hl]
  constructor
  · exact
      { myIndex_eq := hmy.trans h.myIndex_eq
        length_eq := hlen.trans h.length_eq
        own := hown
        pending_eq := (List.drop_length).symm
        acknowledged_le := le_rfl
        nodup := by
          show ∀ e ∈ (s.flushFrom closing 0 l).accepted, e.2.Nodup
          rw [hacc]
          exact h.nodup
        logOwn := hlogOwn.trans h.logOwn
        log_le := fun j => by
          obtain ⟨handed, hhanded, hle⟩ := exists_log_flushFrom closing 0 l s j
          rw [hlog, hhanded, hdue, List.length_append, List.length_append]
          exact Nat.add_le_add (h.log_le j) hle }
  · rw [← hopen, ← log_flushFrom_iff, Sink.Delivered, Sink.Delivered, and_assoc]
    simp only [hlog, hdue, h.logOwn, hlogOwn, true_and, and_true]
    constructor
    · intro hall
      have hsplit : ∀ j, s.log j = s.due j ∧
          (s.flushFrom closing 0 l).log j = s.log j ++ sendsTo j l := by
        intro j
        obtain ⟨handed, hhanded, hle⟩ := exists_log_flushFrom closing 0 l s j
        have heq := hall j
        rw [hhanded] at heq
        have hlens := congrArg List.length heq
        rw [List.length_append, List.length_append] at hlens
        have hle' := h.log_le j
        obtain ⟨hlog', rfl⟩ := List.append_inj heq (by omega)
        exact ⟨hlog', hhanded⟩
      exact ⟨fun j => (hsplit j).1, fun j => (hsplit j).2⟩
    · rintro ⟨hbefore, hflush⟩ j
      rw [hflush j, hbefore j]

/-- **One event** keeps the invariant, and nothing goes wrong exactly if it is admissible. -/
theorem Sink.Inv.step (h : s.Inv n myIndex) (codec : Codec M) (event : Event M) :
    (s.step codec n event).Inv n myIndex ∧
      ((s.step codec n event).Delivered myIndex ↔
        s.Delivered myIndex ∧ s.Admissible event) := by
  cases event with
  | startSend item =>
    simp only [Sink.step, Sink.Admissible, and_true]
    split
    · rename_i d bytes hsend hbytes
      obtain ⟨bytes', hbytes', rfl⟩ := startSend_eq_ok hsend
      obtain rfl := Option.some.inj (hbytes.symm.trans hbytes')
      obtain ⟨hinv, hdue⟩ := h.accept item bytes
      refine ⟨hinv, ?_⟩
      show (∀ j, s.log j = Sink.due { s with
        accepted := s.accepted ++ [(bytes, s.delivery.addressees n item.recipient)] } j) ∧ _ ↔ _
      simp only [hdue]
      rfl
    · exact ⟨h, Iff.rfl⟩
  | pollFlush closing => exact h.flush closing
  | pollClose closing =>
    have hclosed : ({ s with delivery := { s.delivery with closed := true } } : Sink M).Inv
        n myIndex := h.withDelivery rfl rfl h.own rfl
    exact hclosed.flush closing
  | peersClose peers =>
    simp only [Sink.Admissible, and_true]
    refine ⟨h.withDelivery rfl ?_ ?_ rfl, Iff.rfl⟩
    · simp [TcpDelivery.closePeers]
    · rw [queue_closePeers, h.own, ite_self]
  | writeTask j =>
    simp only [Sink.step, Sink.Admissible, and_true]
    split
    · rename_i d out hwrite
      refine ⟨?_, Iff.rfl⟩
      obtain ⟨bytes, rest, hq, hd⟩ := writeTask_eq_some hwrite
      have hne : j ≠ myIndex := by
        rintro rfl
        rw [h.own] at hq
        cases hq
      obtain ⟨hmy, hqueue, hpending⟩ := queue_writeTask_of_ne hne hwrite
      refine h.withDelivery hmy ?_ (hqueue.trans h.own) hpending
      rcases hd with ⟨-, rfl⟩ | ⟨-, -, rfl⟩ <;> simp
    · exact ⟨h, Iff.rfl⟩

theorem Sink.run_concat (events : List (Event M)) (event : Event M) :
    Sink.run codec n myIndex (events ++ [event]) =
      (Sink.run codec n myIndex events).step codec n event := by
  rw [Sink.run, List.foldl_concat]
  rfl

theorem Sink.inv_run (codec : Codec M) (n myIndex : ℕ) (events : List (Event M)) :
    (Sink.run codec n myIndex events).Inv n myIndex := by
  induction events using List.reverseRecOn with
  | nil => exact Sink.inv_fresh
  | append_singleton events event ih =>
    rw [Sink.run_concat]
    exact (ih.step codec event).1

end Steps

/-- **When nothing is lost.**  After every run, whatever the order of its events, the acknowledged
    messages went into the channels of their recipients, once each, in order, and none into the
    party's own, exactly if each flush found the channels of the recipients open until their turn. -/
theorem delivered_iff (codec : Codec M) (n myIndex : ℕ) (events : List (Event M)) :
    (Sink.run codec n myIndex events).Delivered myIndex ↔
      ∀ before event, before ++ [event] <+: events →
        (Sink.run codec n myIndex before).Admissible event := by
  induction events using List.reverseRecOn with
  | nil => simp [Sink.run, Sink.fresh, Sink.Delivered, Sink.due]
  | append_singleton events event ih =>
    have hinv := Sink.inv_run codec n myIndex events
    rw [Sink.run_concat, (hinv.step codec event).2, ih]
    constructor
    · rintro ⟨hbefore, hlast⟩ before event' hpre
      rcases List.prefix_concat_iff.mp hpre with heq | hpre
      · obtain ⟨rfl, hevent⟩ := List.append_inj' heq rfl
        obtain rfl := List.singleton_inj.mp hevent
        exact hlast
      · exact hbefore before event' hpre
    · intro hall
      exact ⟨fun before event' hpre => hall before event' (hpre.trans (List.prefix_append _ _)),
        hall events event (List.prefix_refl _)⟩

/-- A message to the other party is accepted and acknowledged, and lost: its channel has closed, there
    is no such party, or it is the sender itself. -/
theorem not_delivered :
    ¬ (Sink.run bytesCodec 2 0
        [.startSend ⟨.oneParty 1, [7]⟩, .peersClose [1], .pollFlush fun _ => []]).Delivered 0 ∧
      ¬ (Sink.run bytesCodec 2 0
        [.startSend ⟨.oneParty 2, [7]⟩, .pollFlush fun _ => []]).Delivered 0 ∧
      ¬ (Sink.run bytesCodec 2 0
        [.startSend ⟨.oneParty 0, [7]⟩, .pollFlush fun _ => []]).Delivered 0 := by
  refine ⟨fun h => ?_, fun h => ?_, fun h => ?_⟩
  · exact absurd (h.1 1) (by decide)
  · exact absurd (h.1 2) (by decide)
  · exact absurd (h.1 0) (by decide)

end Govis.Tcp
