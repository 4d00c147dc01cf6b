import Govis.Fifo
import Govis.Tcp.Routing

namespace Govis.Tcp

open Framing Transition

/-!
# The transport: connections are channels

What a connection between two parties is for.  The sender's program puts messages on it with
`start_send`, and the receiver's takes them off it with `poll_next`; queues, tasks, frames and bytes
are not seen.

* `link` — the channel from one party to another;
* `Reached.taken_le` — what is taken off it was put on it, in order;
* `link_is_fifo` — it is a reliable channel, and the network can always deliver the rest.
-/

variable {M : Type} {codec : Codec M} {n g h : ℕ} {ok : Act M → Prop} {s s' : Sys M}

/-- The channel from party `g` to party `h`: the messages that `g` has sent and that are for `h`, and
    what `h` has yielded from the connection. -/
def link (g h : ℕ) (s : Sys M) : Fifo.Channel (Except IoError (Incoming M)) where
  put := delivered g h (s.sent g)
  taken := tagged g (s.yields h)

/-! ### Both ends only grow -/

theorem delivered_append (g h : ℕ) (l l' : List (Outgoing M)) :
    delivered g h l <+: delivered g h (l ++ l') := by
  rw [delivered, delivered, List.filter_append, List.zipIdx_append, List.map_append]
  exact List.prefix_append _ _

theorem step_put {a : Act M} (hs : step codec n a s = some s') (g h : ℕ) :
    (link g h s).put <+: (link g h s').put := by
  show delivered g h (s.sent g) <+: delivered g h (s'.sent g)
  rcases step_sent hs g with hsame | ⟨item, -, hnew⟩
  · rw [hsame]
  · rw [hnew]
    exact delivered_append g h _ _

theorem tagged_mono {l l' : List (ℕ × Except IoError (Incoming M))} (h : l <+: l') :
    tagged g l <+: tagged g l' := by
  obtain ⟨k, rfl⟩ := h
  rw [tagged_append]
  exact List.prefix_append _ _

theorem step_taken {a : Act M} (hs : step codec n a s = some s') (g h : ℕ) :
    (link g h s).taken <+: (link g h s').taken := by
  refine tagged_mono ?_
  cases step_cases hs with
  | @next h' e d =>
    by_cases hh : h = h'
    · subst hh
      simp [Sys.withYield]
    · simp [Sys.withYield, Function.update_of_ne hh]
  | _ => exact List.prefix_refl _

/-! ### Nothing overtakes -/

/-- A write task that has ended writes nothing. -/
theorem Outbound.written_eq {d d' : TcpDelivery M} {w w' : List UInt8} {l l' : List (Outgoing M)}
    (ho : Outbound codec h d w l d' w' l') (hq : d'.queue h = none) : w' = w := by
  cases ho with
  | write hw =>
    obtain ⟨-, -, bytes, rest, -, ⟨-, hq'⟩ | ⟨-, rfl, -⟩⟩ := queue_writeTask hw
    · rw [hq'] at hq
      cases hq
    · exact List.append_nil w
  | _ => rfl

theorem posted_mono {l l' : List (Outgoing M)} (hl : l <+: l') :
    posted codec g h l <+: posted codec g h l' := by
  obtain ⟨k, rfl⟩ := hl
  rw [posted_append]
  exact List.prefix_append _ _

/-- **The frames** of a connection are a beginning of what has been sent. -/
theorem Reached.frames_le (hs : Reached codec n ok s) (hl : Linked n g h)
    (hno : ∀ bytes, ¬ ok (.inject g h bytes)) :
    codec.decoder.frames (s.conn g h).written <+: Tcp.posted codec g h (s.sent g) := by
  induction hs with
  | refl =>
    show codec.decoder.frames [] <+: _
    rw [frames_nil]
    exact List.nil_prefix
  | @tail s s' hs hstep ih =>
    have hs' : Reached codec n ok s' := Relation.ReflTransGen.tail hs hstep
    obtain ⟨a, ha, hstep⟩ := hstep
    obtain ⟨fs, hfs⟩ := hs'.posted hl hno
    have hframes : codec.decoder.frames (s'.conn g h).written = fs := by
      rw [hfs.reads.frames_eq, frames_nil, List.append_nil]
    cases hq : (s'.delivery g).queue h with
    | some q =>
      rw [hframes, ← hfs.all (by rw [hq]; rfl), List.append_assoc]
      exact List.prefix_append _ _
    | none =>
      -- without a write task the connection stays as it is
      have hsame := (step_outbound hstep fun bytes heq => hno bytes (heq ▸ ha)).written_eq hq
      rw [hsame]
      refine ih.trans (posted_mono ?_)
      rcases step_sent hstep g with hsent | ⟨item, -, hnew⟩
      · rw [hsent]
      · rw [hnew]
        exact List.prefix_append _ _

theorem readFrames_mono {fs fs' : List (List UInt8)} (h : fs <+: fs') :
    (readFrames codec fs).1 <+: (readFrames codec fs').1 := by
  obtain ⟨k, rfl⟩ := h
  induction k using List.reverseRecOn with
  | nil => rw [List.append_nil]
  | append_singleton k f ih =>
    rw [← List.append_assoc, readFrames_concat]
    exact ih.trans (List.prefix_append _ _)

/-- **In order.**  What has been taken off a connection is a beginning of what was put on it. -/
theorem Reached.taken_le (hs : Reached codec n ok s) (hl : Linked n g h)
    (hno : ∀ bytes, ¬ ok (.inject g h bytes)) : (link g h s).taken <+: (link g h s).put := by
  obtain ⟨done, hfed⟩ := hs.fed g h
  obtain ⟨fs, hfs⟩ := hs.posted hl hno
  have hyields : tagged g (s.yields h) <+: tagged g (s.items h) := tagged_mono (List.prefix_append _ _)
  have hitems : tagged g (s.items h) = (readFrames codec done).1 := (congrArg Prod.fst hfed.items).symm
  have hput : (readFrames codec (Tcp.posted codec g h (s.sent g))).1 = delivered g h (s.sent g) :=
    congrArg Prod.fst (readFrames_posted h hfs.serialized)
  show tagged g (s.yields h) <+: delivered g h (s.sent g)
  rw [hitems] at hyields
  rw [← hput]
  exact hyields.trans (readFrames_mono (hfed.reads.le_frames.trans (hs.frames_le hl hno)))

/-- **Refinement.**  Whatever happens between two stages of the network, the connection goes from one
    stage of a reliable channel to another. -/
theorem Reached.link_runs (hs : Reached codec n ok s) (hrun : Run (step codec n) ok s s')
    (hl : Linked n g h) (hno : ∀ bytes, ¬ ok (.inject g h bytes)) :
    Fifo.Runs (link g h s) (link g h s') := by
  refine Fifo.runs_of_le ?_ ?_ (Reached.taken_le (hs.trans hrun) hl hno)
  · exact hrun.invariant (P := fun s' => (link g h s).put <+: (link g h s').put)
      (fun a s₁ s₂ _ hstep hP => hP.trans (step_put hstep g h)) (List.prefix_refl _)
  · exact hrun.invariant (P := fun s' => (link g h s).taken <+: (link g h s').taken)
      (fun a s₁ s₂ _ hstep hP => hP.trans (step_taken hstep g h)) (List.prefix_refl _)

/-- **Connections are reliable channels.**  On a connection on which only the program writes, whatever
    the tasks do, wherever the bytes are cut and whatever other parties write on theirs, the receiver
    takes what the sender has put, once and in order; and from every stage on the network can deliver
    all of it that fits the codec. -/
theorem link_is_fifo (hl : Linked n g h) (hno : ∀ bytes, ¬ ok (.inject g h bytes)) :
    (∀ s s', Reached codec n ok s → Run (step codec n) ok s s' →
      Fifo.Runs (link g h s) (link g h s')) ∧
    ∀ s, Reached codec n ok s → (∀ item ∈ s.sent g, codec.Carries n item.msg) →
      ∃ s', Run (step codec n) Act.Internal s s' ∧ s'.sent = s.sent ∧
        (link g h s').taken = (link g h s').put := by
  refine ⟨fun s s' hs hrun => hs.link_runs hrun hl hno, fun s hs hcarry => ?_⟩
  obtain ⟨s', hrun, hsent, hq⟩ := exists_quiescent codec n s
  -- the network takes these steps besides those that are allowed
  have hs' : Reached codec n (fun a => ok a ∨ a.Internal) s' :=
    (hs.mono fun _ ha => .inl ha).trans (hrun.mono fun _ ha => .inr ha)
  refine ⟨s', hrun, hsent, hq.delivered hs' hl (fun bytes hinject => ?_) fun item hitem => ?_⟩
  · rcases hinject with hok | hinternal
    · exact hno bytes hok
    · exact hinternal.elim id id
  · rw [hsent] at hitem
    exact hcarry item hitem

/-- A broadcast of party 0 reaches party 1. -/
theorem link_is_fifo_broadcast : ∃ s : Sys (List UInt8), Fifo.Runs .empty (link 0 1 s) ∧
    (link 0 1 s).taken = [.ok ⟨0, 0, .broadcast true, []⟩] := by
  have hno : ∀ bytes, ¬ SignerAct bytesCodec 2 [0, 1] (.inject 0 1 bytes) := fun _ hok => hok
  obtain ⟨s, hs, hsent⟩ := exists_broadcast (carries_nil 2 (by decide))
    (show [0, 1][0]? = some 0 from rfl) (by decide)
  obtain ⟨hfifo, hdeliver⟩ := link_is_fifo (n := 2) (by decide) hno
  have hcarry : ∀ item ∈ s.sent 0, bytesCodec.Carries 2 item.msg := by
    intro item hitem
    rw [hsent, List.mem_singleton] at hitem
    rw [hitem]
    exact carries_nil 2 (by decide)
  obtain ⟨s', hrun, hsent', htaken⟩ := hdeliver s hs hcarry
  have hplain : Run (step bytesCodec 2) (SignerAct bytesCodec 2 [0, 1]) s s' := by
    refine hrun.mono fun a ha => ?_
    cases a with
    | send => exact (ha.elim id id : False).elim
    | inject => exact (ha.elim id id : False).elim
    | _ => trivial
  refine ⟨s', hfifo _ s' (Run.refl _) (hs.trans hplain), ?_⟩
  rw [htaken]
  show delivered 0 1 (s'.sent 0) = _
  rw [hsent', hsent]
  rfl

end Govis.Tcp
