import Govis.Framing.Decoder
import Mathlib.Data.List.Perm.Subperm

namespace Govis.Tcp

open Framing

/-!
# The transport: one party

`tcp_delivery.rs` at one party: what it sends, what its tasks do, and what it yields.

* `WireMsg`, `Incoming`, `Outgoing` — the messages, on the wire and at the two ends;
* `Codec` — serialisation and framing, which come from outside the repository;
* `startSend`, `pollFlush`, `pollNext` — the sink and the stream of `TcpDelivery`;
* `readFrame` — what the read task of a connection makes of a frame;
* `bindPeers` — the end of `connect_tcp`, which gives every other party one connection.

All channels are unbounded.  Items on the channel of incoming messages carry the index that their
connection is bound to; the program does not keep it.
-/

variable {M : Type}

/-! ### Messages -/

/-- `MessageType` of the round-based library, with the same variants as `WireMsgType`. -/
inductive MessageType where
  | broadcast (reliable : Bool)
  | p2p
deriving DecidableEq, Repr

inductive WireMsgType where
  | broadcast (reliable : Bool)
  | p2p
deriving DecidableEq, Repr

inductive MessageDestination where
  | allParties (reliable : Bool)
  | oneParty (j : ℕ)
deriving DecidableEq, Repr

structure Outgoing (M : Type) where
  recipient : MessageDestination
  msg : M

structure Incoming (M : Type) where
  id : ℕ
  sender : ℕ
  msgType : MessageType
  msg : M

structure WireMsg (M : Type) where
  sender : ℕ
  msgType : WireMsgType
  msg : M

inductive IoError where
  | brokenPipe
  | invalidData
deriving DecidableEq, Repr

/-- Serialisation and framing: `bincode` and `LengthDelimitedCodec`.  What is serialised is
    deserialised to the same message, and what is framed is found again, whatever follows it. -/
structure Codec (M : Type) where
  serialize : WireMsg M → Option (List UInt8)
  deserialize : List UInt8 → Option (WireMsg M)
  encode : List UInt8 → Option (List UInt8)
  decoder : Decoder UInt8 (List UInt8)
  deserialize_serialize : ∀ {wire bytes}, serialize wire = some bytes → deserialize bytes = some wire
  decode_encode : ∀ {bytes out}, encode bytes = some out →
    ∀ c, decoder.decode (out ++ c) = .frame bytes c

/-- The codec has room for the message, whichever of the `n` parties sends it. -/
def Codec.Carries (codec : Codec M) (n : ℕ) (m : M) : Prop :=
  ∀ sender < n, ∀ msgType, ∃ bytes out, codec.serialize ⟨sender, msgType, m⟩ = some bytes ∧
    codec.encode bytes = some out

/-! ### The delivery -/

/-- `TcpDelivery`.  A closed sender in `peerTx` is none, an open one the queue of its write task. -/
structure TcpDelivery (M : Type) where
  myIndex : ℕ
  incoming : List (ℕ × Except IoError (Incoming M))
  peerTx : List (Option (List (List UInt8)))
  pending : List (List UInt8 × List ℕ)
  closed : Bool

/-- What `connect_tcp` returns at party `myIndex`; the sender to itself is closed. -/
def TcpDelivery.fresh (n myIndex : ℕ) : TcpDelivery M where
  myIndex
  incoming := []
  peerTx := (List.range n).map fun j => if j = myIndex then none else some []
  pending := []
  closed := false

def wireType : MessageDestination → WireMsgType
  | .allParties reliable => .broadcast reliable
  | .oneParty _ => .p2p

def incomingType : WireMsgType → MessageType
  | .broadcast reliable => .broadcast reliable
  | .p2p => .p2p

/-- The queue of the write task for peer `j`; none if there is no such task any more. -/
def TcpDelivery.queue (d : TcpDelivery M) (j : ℕ) : Option (List (List UInt8)) := (d.peerTx[j]?).join

/-- Only slots of the table have a queue. -/
theorem lt_of_isSome_queue {d : TcpDelivery M} {j : ℕ} (h : (d.queue j).isSome) :
    j < d.peerTx.length := by
  by_contra hlt
  rw [TcpDelivery.queue, List.getElem?_eq_none (not_lt.mp hlt)] at h
  cases h

/-- The recipients of `start_send`. -/
def TcpDelivery.recipients (d : TcpDelivery M) : MessageDestination → List ℕ
  | .allParties _ => (List.range d.peerTx.length).filter fun j => (d.queue j).isSome
  | .oneParty j => [j]

/-- `start_send`. -/
def startSend (codec : Codec M) (d : TcpDelivery M) (item : Outgoing M) :
    Except IoError (TcpDelivery M) :=
  if d.closed then .error .brokenPipe
  else
    match codec.serialize ⟨d.myIndex, wireType item.recipient, item.msg⟩ with
    | none => .error .invalidData
    | some bytes => .ok { d with pending := d.pending ++ [(bytes, d.recipients item.recipient)] }

/-- Hand the bytes to the write tasks of the recipients. -/
def enqueue (peerTx : List (Option (List (List UInt8)))) (bytes : List UInt8) (recipients : List ℕ) :
    List (Option (List (List UInt8))) :=
  recipients.foldl (fun tx j => tx.modify j (Option.map (· ++ [bytes]))) peerTx

/-- `poll_flush`. -/
def pollFlush (d : TcpDelivery M) : TcpDelivery M :=
  { d with
    peerTx := d.pending.foldl (fun tx e => enqueue tx e.1 e.2) d.peerTx
    pending := [] }

/-- `poll_close`. -/
def pollClose (d : TcpDelivery M) : TcpDelivery M := pollFlush { d with closed := true }

/-- `poll_next`, when an item is there. -/
def pollNext (d : TcpDelivery M) :
    Option ((ℕ × Except IoError (Incoming M)) × TcpDelivery M) :=
  match d.incoming with
  | [] => none
  | e :: rest => some (e, { d with incoming := rest })

/-- What a call of `poll_next` leaves. -/
theorem pollNext_eq_some {d d' : TcpDelivery M} {e : ℕ × Except IoError (Incoming M)}
    (h : pollNext d = some (e, d')) :
    d.incoming = e :: d'.incoming ∧ d'.myIndex = d.myIndex ∧ d'.pending = d.pending ∧
      d'.peerTx = d.peerTx := by
  unfold pollNext at h
  split at h
  · cases h
  · rename_i e' rest hin
    cases h
    exact ⟨hin, rfl, rfl, rfl⟩

theorem pollNext_closed {d d' : TcpDelivery M} {e : ℕ × Except IoError (Incoming M)}
    (h : pollNext d = some (e, d')) : d'.closed = d.closed := by
  unfold pollNext at h
  split at h
  · cases h
  · cases h
    rfl

/-- Items of connection `g` go to the channel of incoming messages. -/
def TcpDelivery.receive (d : TcpDelivery M) (g : ℕ) (items : List (Except IoError (Incoming M))) :
    TcpDelivery M :=
  { d with incoming := d.incoming ++ items.map (Prod.mk g) }

/-! ### The tasks of a connection -/

/-- What the read task makes of a frame, and the id of the next message. -/
def readFrame (codec : Codec M) (nextId : ℕ) (buf : List UInt8) :
    Except IoError (Incoming M) × ℕ :=
  match codec.deserialize buf with
  | some wire => (.ok ⟨nextId, wire.sender, incomingType wire.msgType, wire.msg⟩, nextId + 1)
  | none => (.error .invalidData, nextId)

/-- The items that the read task has sent, and the next id, after the given frames. -/
def readFrames (codec : Codec M) (frames : List (List UInt8)) :
    List (Except IoError (Incoming M)) × ℕ :=
  frames.foldl (fun acc buf =>
    (acc.1 ++ [(readFrame codec acc.2 buf).1], (readFrame codec acc.2 buf).2)) ([], 0)

theorem readFrames_concat (codec : Codec M) (frames : List (List UInt8)) (buf : List UInt8) :
    readFrames codec (frames ++ [buf]) =
      ((readFrames codec frames).1 ++ [(readFrame codec (readFrames codec frames).2 buf).1],
        (readFrame codec (readFrames codec frames).2 buf).2) := by
  rw [readFrames, List.foldl_append]
  rfl

/-- Every message was some frame. -/
theorem exists_frame_of_mem {codec : Codec M} {frames : List (List UInt8)} {inc : Incoming M}
    (h : .ok inc ∈ (readFrames codec frames).1) :
    ∃ buf ∈ frames, ∃ wire, codec.deserialize buf = some wire ∧ inc.sender = wire.sender ∧
      inc.msgType = incomingType wire.msgType ∧ inc.msg = wire.msg := by
  induction frames using List.reverseRecOn with
  | nil => cases h
  | append_singleton frames buf ih =>
    rw [readFrames_concat, List.mem_append, List.mem_singleton] at h
    rcases h with h | h
    · obtain ⟨buf', hbuf', hwire⟩ := ih h
      exact ⟨buf', List.mem_append_left _ hbuf', hwire⟩
    · refine ⟨buf, List.mem_append_right _ (List.mem_singleton_self buf), ?_⟩
      unfold readFrame at h
      split at h
      · rename_i wire hwire
        obtain rfl := Except.ok.inj h
        exact ⟨wire, hwire, rfl, rfl, rfl⟩
      · cases h

/-- Every frame that can be read becomes a message with the sender it names. -/
theorem exists_mem_of_frame {codec : Codec M} {frames : List (List UInt8)} {buf : List UInt8}
    {wire : WireMsg M} (hbuf : buf ∈ frames) (hwire : codec.deserialize buf = some wire) :
    ∃ inc, .ok inc ∈ (readFrames codec frames).1 ∧ inc.sender = wire.sender := by
  induction frames using List.reverseRecOn with
  | nil => cases hbuf
  | append_singleton frames buf' ih =>
    rw [readFrames_concat]
    rcases List.mem_append.mp hbuf with hbuf | hbuf
    · obtain ⟨inc, hinc, hsender⟩ := ih hbuf
      exact ⟨inc, List.mem_append_left _ hinc, hsender⟩
    · obtain rfl := List.mem_singleton.mp hbuf
      refine ⟨⟨(readFrames codec frames).2, wire.sender, incomingType wire.msgType, wire.msg⟩,
        List.mem_append_right _ ?_, rfl⟩
      rw [readFrame, hwire]
      exact List.mem_singleton_self _

/-! ### Connecting -/

/-- The slots of `peer_tx` when `connect_tcp` has gone through its connections. -/
def slots (n myIndex : ℕ) (senders : List ℕ) : List (Option (Option ℕ)) :=
  senders.zipIdx.foldl (fun tx e => tx.set e.1 (some (some e.2)))
    ((List.replicate n none).set myIndex (some none))

/-- The end of `connect_tcp`: connection `k` goes to the slot of the index it is bound to, and the slot
    of the party itself holds a dummy.  An index out of range, and a slot that stays empty, are
    panics. -/
def bindPeers (n myIndex : ℕ) (senders : List ℕ) : Option (List (Option ℕ)) :=
  if (∀ j ∈ senders, j < n) ∧ ∀ e ∈ slots n myIndex senders, e ≠ none then
    some ((slots n myIndex senders).map fun e => e.getD none)
  else none

/-- A slot that no connection is bound to stays as it is. -/
theorem getElem?_bind_of_notMem {j : ℕ} {l : List (ℕ × ℕ)} (tx : List (Option (Option ℕ)))
    (hj : j ∉ l.map Prod.fst) :
    (l.foldl (fun tx e => tx.set e.1 (some (some e.2))) tx)[j]? = tx[j]? := by
  induction l generalizing tx with
  | nil => rfl
  | cons e l ih =>
    rw [List.map_cons, List.mem_cons, not_or] at hj
    rw [List.foldl_cons, ih _ hj.2, List.getElem?_set_ne (Ne.symm hj.1)]

/-- A slot that a connection is bound to holds one. -/
theorem getElem?_bind_of_mem {j : ℕ} {l : List (ℕ × ℕ)} (tx : List (Option (Option ℕ)))
    (hj : j ∈ l.map Prod.fst) (hlt : j < tx.length) :
    ∃ k, (l.foldl (fun tx e => tx.set e.1 (some (some e.2))) tx)[j]? = some (some (some k)) := by
  induction l generalizing tx with
  | nil => cases hj
  | cons e l ih =>
    rw [List.foldl_cons]
    by_cases hmem : j ∈ l.map Prod.fst
    · exact ih _ hmem (by rwa [List.length_set])
    · -- the last connection that is bound to the slot
      have hje : j = e.1 := (List.mem_cons.mp hj).resolve_right hmem
      refine ⟨e.2, ?_⟩
      rw [getElem?_bind_of_notMem _ hmem, ← hje, List.getElem?_set_self hlt]

/-- **One connection for each other party.**  If `connect_tcp` returns, the `n - 1` connections that
    the party has accepted or dialled are bound to the other indices, one each. -/
theorem bindPeers_perm {n myIndex : ℕ} {senders : List ℕ} {tx : List (Option ℕ)}
    (hmy : myIndex < n) (hlen : senders.length + 1 = n)
    (h : bindPeers n myIndex senders = some tx) :
    senders.Perm ((List.range n).erase myIndex) := by
  unfold bindPeers at h
  split at h
  · rename_i hfull
    have hsub : (List.range n).erase myIndex ⊆ senders := by
      intro j hj
      obtain ⟨hne, hj⟩ := (List.nodup_range.mem_erase_iff).mp hj
      rw [List.mem_range] at hj
      by_contra hmem
      -- its slot would be empty
      have hslot : (slots n myIndex senders)[j]? = some none := by
        rw [slots, getElem?_bind_of_notMem _ (by rwa [List.zipIdx_map_fst]),
          List.getElem?_set_ne (Ne.symm hne), List.getElem?_replicate, if_pos hj]
      exact hfull.2 _ (List.mem_of_getElem? hslot) rfl
    have hcard := List.length_erase_add_one (List.mem_range.mpr hmy)
    rw [List.length_range] at hcard
    exact (((List.nodup_range.erase _).subperm hsub).perm_of_length_le (by omega)).symm
  · cases h

/-- What `connect_tcp` returns: the channel to a peer is open. -/
def connectTcp (n myIndex : ℕ) (senders : List ℕ) : Option (TcpDelivery M) :=
  (bindPeers n myIndex senders).map fun tx =>
    { TcpDelivery.fresh n myIndex with peerTx := tx.map (Option.map fun _ => []) }

/-- **Connected.**  Whatever the order of the connections is, the party starts with an open channel
    to every other party and none to itself. -/
theorem connectTcp_eq {n myIndex : ℕ} {senders : List ℕ} {d : TcpDelivery M} (hmy : myIndex < n)
    (hlen : senders.length + 1 = n) (h : connectTcp n myIndex senders = some d) :
    d = TcpDelivery.fresh n myIndex := by
  obtain ⟨tx, htx, rfl⟩ := Option.map_eq_some_iff.mp h
  have hperm := bindPeers_perm hmy hlen htx
  have hmem : ∀ j, j ∈ senders ↔ j ≠ myIndex ∧ j < n := fun j => by
    rw [hperm.mem_iff, List.nodup_range.mem_erase_iff, List.mem_range]
  unfold bindPeers at htx
  split at htx
  · obtain rfl := Option.some.inj htx
    have hpeer : ((slots n myIndex senders).map fun e => e.getD none).map (Option.map fun _ => []) =
        (TcpDelivery.fresh n myIndex : TcpDelivery M).peerTx := by
      refine List.ext_getElem? fun j => ?_
      rw [List.getElem?_map, List.getElem?_map, TcpDelivery.fresh, List.getElem?_map]
      by_cases hj : j < n
      · rw [List.getElem?_range hj, Option.map_some]
        by_cases hji : j = myIndex
        · have hnot : myIndex ∉ senders := fun hin => ((hmem _).mp hin).1 rfl
          rw [hji, slots, getElem?_bind_of_notMem _ (by rwa [List.zipIdx_map_fst]),
            List.getElem?_set_self (by rwa [List.length_replicate]), if_pos rfl]
          rfl
        · obtain ⟨k, hk⟩ := getElem?_bind_of_mem (l := senders.zipIdx)
            ((List.replicate n none).set myIndex (some none))
            (by rw [List.zipIdx_map_fst]; exact (hmem j).mpr ⟨hji, hj⟩)
            (by rwa [List.length_set, List.length_replicate])
          rw [slots, hk, if_neg hji]
          rfl
      · have hnot : j ∉ senders := fun hin => hj ((hmem j).mp hin).2
        have hslot : (slots n myIndex senders)[j]? = none := by
          rw [slots, getElem?_bind_of_notMem _ (by rwa [List.zipIdx_map_fst])]
          exact List.getElem?_eq_none (by rw [List.length_set, List.length_replicate]; omega)
        rw [hslot, List.getElem?_eq_none (by rw [List.length_range]; omega)]
        rfl
    rw [hpeer]
  · cases htx

end Govis.Tcp
