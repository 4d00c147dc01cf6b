import Govis.Tcp.Parties
import Govis.Tcp.WireFormat

namespace Govis.Tcp

open Framing Transition Rounds

/-!
# The transport: messages between signers

`run_presign` and `run_online_sign` number the signers by their position in the signer list and send
to positions; `run_cggmp21` connects them by their index among all parties.

* `SignerSends`, `SignerAct` — what the signers send, and runs in which they are honest;
* `Routed` — every message between two signers is yielded under the position of its sender;
* `routed_iff` — this holds exactly if every signer stands at its own index.
-/

variable {M : Type} {codec : Codec M} {n : ℕ} {signers : List ℕ} {s : Sys M}

/-- The signer at position `pos` sends to all parties or to another position. -/
def SignerSends (signers : List ℕ) (pos : ℕ) (recipient : MessageDestination) : Prop :=
  (∃ reliable, recipient = .allParties reliable) ∨
    ∃ b < signers.length, b ≠ pos ∧ recipient = .oneParty b

/-- What a program sends over the transport that counts the signers is of this form. -/
theorem signerSends_outgoing {Msg : ℕ → Type} {kind : MessageType} {pos r : ℕ} {out : ℕ → Option (Msg r)}
    {item : Outgoing (AnyMsg Msg)} (h : item ∈ outgoing kind signers.length pos out) :
    SignerSends signers pos item.recipient :=
  outgoing_recipient h

/-- The signers send messages that fit a frame, and nobody else writes anything. -/
def SignerAct (codec : Codec M) (n : ℕ) (signers : List ℕ) : Act M → Prop
  | .send g item => codec.Carries n item.msg ∧
      ∃ pos, signers[pos]? = some g ∧ SignerSends signers pos item.recipient
  | .inject _ _ _ => False
  | _ => True

/-- Every message of the signer at position `a` for the one at position `b` has been yielded there,
    once, in order and with `a` as its sender, on the connection between the two. -/
def Routed (signers : List ℕ) (s : Sys M) : Prop :=
  ∀ a b g h, a ≠ b → signers[a]? = some g → signers[b]? = some h →
    tagged g (s.yields h) = delivered a b (s.sent g)

/-- Two signers have a connection. -/
theorem linked_of_signers (hnd : signers.Nodup) (hlt : ∀ g ∈ signers, g < n) {a b g h : ℕ} (hab : a ≠ b)
    (ha : signers[a]? = some g) (hb : signers[b]? = some h) : Linked n g h := by
  refine ⟨hlt g (List.mem_of_getElem? ha), hlt h (List.mem_of_getElem? hb), fun hgh => hab ?_⟩
  obtain ⟨halt, ha⟩ := List.getElem?_eq_some_iff.mp ha
  obtain ⟨hblt, hb⟩ := List.getElem?_eq_some_iff.mp hb
  exact (hnd.getElem_inj_iff).mp (ha.trans (hgh.trans hb.symm))

/-- What the transport does with the messages between two signers. -/
theorem tagged_signers (hnd : signers.Nodup) (hlt : ∀ g ∈ signers, g < n)
    (hs : Reached codec n (SignerAct codec n signers) s) (hq : Quiescent codec n s) {a b g h : ℕ}
    (hab : a ≠ b) (ha : signers[a]? = some g) (hb : signers[b]? = some h) :
    tagged g (s.yields h) = delivered g h (s.sent g) :=
  hq.delivered hs (linked_of_signers hnd hlt hab ha hb) (fun _ hno => hno) fun item hitem =>
    (hs.sent_ok g item hitem).1

/-- One signer can broadcast a message. -/
theorem exists_broadcast {m : M} (hm : codec.Carries n m) {pos g : ℕ} (hpos : signers[pos]? = some g)
    (hg : g < n) : ∃ s, Reached codec n (SignerAct codec n signers) s ∧
      s.sent g = [⟨.allParties true, m⟩] := by
  obtain ⟨bytes, out, hser, -⟩ := hm g hg (.broadcast true)
  have hposting : posting codec g ⟨.allParties true, m⟩ = some bytes := hser
  obtain ⟨d, hd⟩ := exists_startSend (d := TcpDelivery.fresh n g) rfl
    (Option.isSome_iff_exists.mpr ⟨bytes, hposting⟩)
  have hstep : step codec n (.send g ⟨.allParties true, m⟩) (Sys.init n) =
      some (((Sys.init n).withDelivery g d).withSent g ⟨.allParties true, m⟩) := by
    rw [step, if_pos hg, show (Sys.init n : Sys M).delivery g = TcpDelivery.fresh n g from rfl, hd]
  have hok : SignerAct codec n signers (.send g ⟨.allParties true, m⟩) :=
    ⟨hm, pos, hpos, .inl ⟨true, rfl⟩⟩
  refine ⟨_, Run.single hok hstep, ?_⟩
  simp [Sys.withSent, Sys.init]

/-- Where all messages are routed and there are two signers, every signer stands at its own index. -/
theorem eq_pos_of_routed (hnd : signers.Nodup) (hlt : ∀ g ∈ signers, g < n) {m : M}
    (hm : codec.Carries n m) (hall : ∀ s, Reached codec n (SignerAct codec n signers) s →
      Quiescent codec n s → Routed signers s) (hlen : 1 < signers.length) {pos g : ℕ}
    (hpos : signers[pos]? = some g) : g = pos := by
  have hposlt := (List.getElem?_eq_some_iff.mp hpos).1
  -- the other signer
  obtain ⟨b, hb, hne⟩ : ∃ b < signers.length, pos ≠ b := by
    by_cases h0 : pos = 0
    · exact ⟨1, by omega, by omega⟩
    · exact ⟨0, by omega, h0⟩
  have hbget := List.getElem?_eq_getElem hb
  obtain ⟨s, hs, hsent⟩ := exists_broadcast hm hpos (hlt g (List.mem_of_getElem? hpos))
  obtain ⟨s', hrun, hsent', hq⟩ := exists_quiescent codec n s
  have hs' : Reached codec n (SignerAct codec n signers) s' := by
    refine Run.trans hs (hrun.mono fun a ha => ?_)
    cases a with
    | send => exact (ha.elim id id : False).elim
    | inject => exact (ha.elim id id : False).elim
    | _ => trivial
  -- a message is yielded under the index and under the position of its sender
  have hindex := tagged_signers hnd hlt hs' hq hne hpos hbget
  have hposition := hall s' hs' hq pos b g _ hne hpos hbget
  rw [hposition, hsent', hsent] at hindex
  have hhead := congrArg List.head? hindex
  simp only [Tcp.delivered, MessageDestination.reaches, List.filter_cons_of_pos, List.filter_nil,
    List.zipIdx_singleton, List.map_singleton, List.head?_cons, Option.some.injEq,
    Except.ok.injEq, Incoming.mk.injEq] at hhead
  exact hhead.2.1.symm

/-- **Routing.**  The signers send any messages that fit a frame, one of which exists.  Every run can
    come to rest without sending more; and whenever nothing is left to do all messages between
    signers have been yielded under the positions of their senders, if and only if there is at most
    one signer or every signer stands at the position of its index. -/
theorem routed_iff (hnd : signers.Nodup) (hlt : ∀ g ∈ signers, g < n) {m : M} (hm : codec.Carries n m) :
    (∀ s, Reached codec n (SignerAct codec n signers) s →
      (∃ s', Run (step codec n) Act.Internal s s' ∧ s'.sent = s.sent ∧ Quiescent codec n s') ∧
      (Quiescent codec n s → Routed signers s)) ↔
      signers.length ≤ 1 ∨ ∀ (pos : ℕ) g, signers[pos]? = some g → g = pos := by
  constructor
  · intro hall
    rw [or_iff_not_imp_left, not_le]
    intro hlen pos g hpos
    exact eq_pos_of_routed hnd hlt hm (fun s hs => (hall s hs).2) hlen hpos
  · intro hpos s hs
    refine ⟨exists_quiescent codec n s, fun hq a b g h hab ha hb => ?_⟩
    rcases hpos with hlen | hpos
    · have halt := (List.getElem?_eq_some_iff.mp ha).1
      have hblt := (List.getElem?_eq_some_iff.mp hb).1
      omega
    · rw [tagged_signers hnd hlt hs hq hab ha hb, hpos a g ha, hpos b h hb]

theorem carries_nil (n : ℕ) (hn : n ≤ 2 ^ 16) : bytesCodec.Carries n [] :=
  carries_wireCodec maxFrameLength_lt hn rfl (by decide)

/-- The first three parties sign. -/
theorem routed_iff_prefix :
    ¬ ∃ s, Reached bytesCodec 3 (SignerAct bytesCodec 3 [0, 1, 2]) s ∧
      Quiescent bytesCodec 3 s ∧ ¬ Routed [0, 1, 2] s := by
  rintro ⟨s, hs, hq, hrouted⟩
  refine hrouted ((((routed_iff (by decide) (by decide) (carries_nil 3 (by decide))).mpr
    (.inr ?_)) s hs).2 hq)
  intro pos g hpos
  match pos with
  | 0 => exact (Option.some.inj hpos).symm
  | 1 => exact (Option.some.inj hpos).symm
  | 2 => exact (Option.some.inj hpos).symm
  | pos + 3 => cases hpos

/-- **Lost between the two numberings.**  Parties 2 and 0 of three sign. -/
theorem not_routed :
    ¬ ∀ s, Reached bytesCodec 3 (SignerAct bytesCodec 3 [2, 0]) s →
      Quiescent bytesCodec 3 s → Routed [2, 0] s := by
  intro hall
  have htwo := eq_pos_of_routed (by decide) (by decide) (carries_nil 3 (by decide)) hall (by decide)
    (show [2, 0][0]? = some 2 from rfl)
  cases htwo

end Govis.Tcp
