import Govis.Tcp.Drain
import Govis.Tcp.WireFormat

namespace Govis.Tcp

open Framing Transition

/-!
# The transport: who a message is from

The read task takes the sender of a message from the message itself.

* `FromPeers` — runs in which party `p` follows the program and its peers write any bytes;
* `exists_yielded` — whatever a frame says is yielded;
* `authentic_iff` — the senders are the parties the connections are bound to exactly if no frame
  names another one.
-/

variable {M : Type} {codec : Codec M} {n g h : ℕ}

/-- Bytes of their own choice come from the peers of `p` only. -/
def FromPeers (p : ℕ) (a : Act M) : Prop := ∀ g h bytes, a = .inject g h bytes → g ≠ p

/-- Every frame of `bytes` that can be read names party `j`. -/
def Names (codec : Codec M) (j : ℕ) (bytes : List UInt8) : Prop :=
  ∀ buf ∈ codec.decoder.frames bytes, ∀ wire, codec.deserialize buf = some wire → wire.sender = j

/-- A peer can write any bytes, and what one of its frames says is yielded. -/
theorem exists_yielded (codec : Codec M) (hl : Linked n g h) (bytes : List UInt8) :
    ∃ s, Reached codec n (FromPeers h) s ∧ (s.conn g h).written = bytes ∧
      (∀ g', g' ≠ g → (s.conn g' h).written = []) ∧
      ∀ buf ∈ codec.decoder.frames bytes, ∀ wire, codec.deserialize buf = some wire →
        ∃ inc, (g, .ok inc) ∈ s.yields h ∧ inc.sender = wire.sender := by
  have hstep : step codec n (.inject g h bytes) (Sys.init n) =
      some ((Sys.init n).withConn g h (Conn.fresh.put bytes)) := if_pos hl
  have hinject : FromPeers h (Act.inject g h bytes : Act M) := by
    intro g' h' bytes' heq
    cases heq
    exact hl.2.2
  obtain ⟨s, hrun, hsame, hset⟩ := exists_settled codec n ((Sys.init n).withConn g h (Conn.fresh.put bytes))
  have hs : Reached codec n (FromPeers h) s := by
    refine (Run.single hinject hstep).trans (hrun.mono fun a ha g' h' bytes' heq => ?_)
    subst heq
    cases ha
  have hwritten : (s.conn g h).written = bytes := by
    rw [hsame.written, withConn_self]
    rfl
  refine ⟨s, hs, hwritten, fun g' hg' => ?_, fun buf hbuf wire hwire => ?_⟩
  · rw [hsame.written, withConn_conn, if_neg fun heq => hg' heq.1]
    rfl
  · obtain ⟨inc, hinc, hsender⟩ := exists_mem_of_frame hbuf hwire
    refine ⟨inc, mem_tagged.mp ?_, hsender⟩
    rw [hset.yields hs hl, hwritten]
    exact hinc

/-- **Sender authenticity.**  The peers of party `p` write what is in `bytes`, or a part of it.  In all
    such runs every message that is yielded at `p` names the party that its connection is bound to,
    if and only if every frame of every peer does. -/
theorem authentic_iff (codec : Codec M) (n p : ℕ) (bytes : ℕ → List UInt8) :
    (∀ s, Reached codec n (FromPeers p) s → (∀ j, Linked n j p → (s.conn j p).written <+: bytes j) →
      ∀ j inc, (j, .ok inc) ∈ s.yields p → inc.sender = j) ↔
      ∀ j, Linked n j p → Names codec j (bytes j) := by
  constructor
  · intro hall j hl buf hbuf wire hwire
    obtain ⟨s, hs, hwritten, hother, hyield⟩ := exists_yielded codec hl (bytes j)
    obtain ⟨inc, hinc, hsender⟩ := hyield buf hbuf wire hwire
    rw [← hsender]
    refine hall s hs (fun j' _ => ?_) j inc hinc
    by_cases hj : j' = j
    · rw [hj, hwritten]
    · rw [hother j' hj]
      exact List.nil_prefix
  · intro hnames s hs hwritten j inc hinc
    obtain ⟨hl, buf, hbuf, wire, hwire, hsender, -⟩ := hs.exists_frame (List.mem_append_left _ hinc)
    rw [hsender]
    exact hnames j hl buf ((frames_mono (hwritten j hl)).subset hbuf) wire hwire

/-- Peer 1 sends a message in the name of party 2. -/
def forgedFrame : List UInt8 := [0, 0, 0, 6, 2, 0, 1, 0, 0, 0]

theorem frames_forgedFrame : [2, 0, 1, 0, 0, 0] ∈ bytesCodec.decoder.frames forgedFrame := by
  have hd : bytesCodec.decoder.decode forgedFrame = .frame [2, 0, 1, 0, 0, 0] [] := by
    rw [bytesCodec_decoder, lengthDecoder_decode, lengthDecode_eq_frame]
    exact ⟨by decide, by decide, by decide, by decide⟩
  rw [frames_of_frame hd]
  exact List.mem_cons_self

/-- **A forged sender.**  Party 0 yields a message of party 2 that came from party 1. -/
theorem not_authentic :
    ¬ ∀ (bytes : ℕ → List UInt8) (s : Sys (List UInt8)), Reached bytesCodec 3 (FromPeers 0) s →
      (∀ j, Linked 3 j 0 → (s.conn j 0).written <+: bytes j) →
      ∀ j inc, (j, .ok inc) ∈ s.yields 0 → inc.sender = j := by
  intro hall
  obtain ⟨s, hs, hwritten, hother, hyield⟩ := exists_yielded bytesCodec
    (show Linked 3 1 0 by decide) forgedFrame
  obtain ⟨inc, hinc, hsender⟩ := hyield _ frames_forgedFrame ⟨2, .p2p, []⟩ rfl
  have hone : inc.sender = 1 := by
    refine hall (fun j => if j = 1 then forgedFrame else []) s hs (fun j _ => ?_) 1 inc hinc
    by_cases hj : j = 1
    · rw [hj, hwritten, if_pos rfl]
    · rw [hother j hj]
      exact List.nil_prefix
  rw [hsender] at hone
  exact absurd hone (by decide)

end Govis.Tcp
