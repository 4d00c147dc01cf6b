import Govis.Rounds.Net
import Govis.Tcp.Links

namespace Govis.Tcp

open Framing Transition Rounds

/-!
# The transport: parties that run a protocol over it

Round-based programs whose messages go through their deliveries.

* `outgoing` — the sends that one `send` of a program amounts to;
* `RoundInput` — how the round-based library fills a round from what a delivery has yielded;
* `World`, `worldStep` — the parties and the network, with the actions of both;
* `PartySound`, `WorldReached.party` — what holds of every party in every run.
-/

variable {Msg : ℕ → Type} {R : Type}

/-- A message of any round. -/
abbrev AnyMsg (Msg : ℕ → Type) := (r : ℕ) × Msg r

/-! ### Sending -/

/-- The sends of a round at party `i`: one for all parties in a broadcast, where the others get the
    same message, otherwise one for each other party that gets a message. -/
def outgoing (kind : MessageType) (n i : ℕ) {r : ℕ} (out : ℕ → Option (Msg r)) :
    List (Outgoing (AnyMsg Msg)) :=
  match kind with
  | .broadcast reliable =>
    (((others n i).head?.bind out).map fun m => ⟨.allParties reliable, ⟨r, m⟩⟩).toList
  | .p2p => (others n i).filterMap fun j => (out j).map fun m => ⟨.oneParty j, ⟨r, m⟩⟩

/-- What is sent is what the program puts out. -/
theorem mem_outgoing {kind : MessageType} {n i r : ℕ} {out : ℕ → Option (Msg r)}
    {item : Outgoing (AnyMsg Msg)} (h : item ∈ outgoing kind n i out) :
    ∃ j m, (j < n ∧ j ≠ i) ∧ out j = some m ∧ item.msg = ⟨r, m⟩ := by
  cases kind with
  | broadcast reliable =>
    obtain ⟨m, hm, rfl⟩ := Option.map_eq_some_iff.mp (Option.mem_toList.mp h)
    obtain ⟨j, hhead, hj⟩ := Option.bind_eq_some_iff.mp hm
    exact ⟨j, m, mem_others.mp (List.mem_of_mem_head? hhead), hj, rfl⟩
  | p2p =>
    obtain ⟨j, hmem, hj⟩ := List.mem_filterMap.mp h
    obtain ⟨m, hm, rfl⟩ := Option.map_eq_some_iff.mp hj
    exact ⟨j, m, mem_others.mp hmem, hm, rfl⟩

/-- It goes to all parties, or to one of the others. -/
theorem outgoing_recipient {kind : MessageType} {n i r : ℕ} {out : ℕ → Option (Msg r)}
    {item : Outgoing (AnyMsg Msg)} (h : item ∈ outgoing kind n i out) :
    (∃ reliable, item.recipient = .allParties reliable) ∨
      ∃ j < n, j ≠ i ∧ item.recipient = .oneParty j := by
  cases kind with
  | broadcast reliable =>
    obtain ⟨m, -, rfl⟩ := Option.map_eq_some_iff.mp (Option.mem_toList.mp h)
    exact .inl ⟨reliable, rfl⟩
  | p2p =>
    obtain ⟨j, hmem, hj⟩ := List.mem_filterMap.mp h
    obtain ⟨m, -, rfl⟩ := Option.map_eq_some_iff.mp hj
    exact .inr ⟨j, (mem_others.mp hmem).1, (mem_others.mp hmem).2, rfl⟩

/-- Sending one after the other; an error ends the program. -/
def sendAll (codec : Codec (AnyMsg Msg)) (n i : ℕ) (items : List (Outgoing (AnyMsg Msg)))
    (s : Sys (AnyMsg Msg)) : Option (Sys (AnyMsg Msg)) :=
  match items with
  | [] => some s
  | item :: rest => (step codec n (.send i item) s).bind (sendAll codec n i rest)

/-! ### Receiving -/

/-- The rounds of the round-based library: what round `r` hands over at party `i` of `n`, if it is
    complete, given everything that has been yielded.  It has one message from every other party,
    each of the type of the round. -/
structure RoundInput (Msg : ℕ → Type) where
  complete (n i : ℕ) (kind : MessageType) (r : ℕ)
    (items : List (Except IoError (Incoming (AnyMsg Msg)))) : Option (List (ℕ × Msg r))
  complete_eq_some : ∀ {n i kind r items msgs}, complete n i kind r items = some msgs →
    ∃ row, msgs = collect n i row ∧ ∀ j < n, j ≠ i →
      ∃ m id, row j = some m ∧ .ok ⟨id, j, kind, ⟨r, m⟩⟩ ∈ items

/-! ### The parties and the network -/

/-- Parties that run a protocol over the transport. -/
structure Deployment (Msg : ℕ → Type) (R : Type) where
  setup : Setup Msg R
  kind : ℕ → MessageType
  codec : Codec (AnyMsg Msg)
  rounds : RoundInput Msg

structure World (Msg : ℕ → Type) (R : Type) where
  sys : Sys (AnyMsg Msg)
  party : ℕ → Local Msg R

inductive WorldAct (Msg : ℕ → Type) where
  | net (a : Act (AnyMsg Msg))
  | emit (i : ℕ)
  | complete (i : ℕ)

/-- The process in which a step takes place. -/
def WorldAct.party : WorldAct Msg → ℕ
  | .net a => a.party
  | .emit i => i
  | .complete i => i

/-- The parties are connected, and nothing is sent yet. -/
def Deployment.init (D : Deployment Msg R) : World Msg R := ⟨Sys.init D.setup.n, D.setup.init⟩

/-- A round hands its messages to the program. -/
def handOver (l : Local Msg R) {r : ℕ} (msgs : List (ℕ × Msg r))
    (next : List (ℕ × Msg r) → Proc Msg R (r + 1)) : Local Msg R where
  code := ⟨r + 1, next msgs⟩
  sent := l.sent
  got := Function.update l.got r fun j => messageFrom j msgs

/-- The program of party `i` sends. -/
def emit (D : Deployment Msg R) (i : ℕ) (w : World Msg R) : Option (World Msg R) :=
  match (w.party i).code with
  | ⟨r, .send out next⟩ =>
    (sendAll D.codec D.setup.n i (outgoing (D.kind r) D.setup.n i out) w.sys).map fun s =>
      ⟨s, Function.update w.party i ((w.party i).put out next)⟩
  | _ => none

/-- The program of party `i` completes a round. -/
def completeRound (D : Deployment Msg R) (i : ℕ) (w : World Msg R) : Option (World Msg R) :=
  match (w.party i).code with
  | ⟨r, .recv next⟩ =>
    (D.rounds.complete D.setup.n i (D.kind r) r ((w.sys.yields i).map Prod.snd)).map fun msgs =>
      { w with party := Function.update w.party i (handOver (w.party i) msgs next) }
  | _ => none

/-- One step of the network, or of a program. -/
def worldStep (D : Deployment Msg R) : WorldAct Msg → World Msg R → Option (World Msg R)
  | .net a, w => (step D.codec D.setup.n a w.sys).map fun s => { w with sys := s }
  | .emit i, w => emit D i w
  | .complete i, w => completeRound D i w

/-- Programs run at the honest parties, and corrupt parties put any bytes on their connections. -/
def Deployment.Allows (D : Deployment Msg R) : WorldAct Msg → Prop
  | .net (.send _ _) => False
  | .net (.inject g _ _) => D.setup.corrupt g
  | .net _ => True
  | .emit i => i < D.setup.n ∧ ¬ D.setup.corrupt i
  | .complete i => i < D.setup.n ∧ ¬ D.setup.corrupt i

/-- What a deployment can reach. -/
def WorldReached (D : Deployment Msg R) (w : World Msg R) : Prop :=
  Run (worldStep D) D.Allows D.init w

/-- Party `i` has returned `res`. -/
def World.Returned (w : World Msg R) (i : ℕ) (res : R) : Prop := ∃ r, (w.party i).code = ⟨r, .done res⟩

variable {D : Deployment Msg R} {w w' : World Msg R} {i : ℕ}

/-! ### The network of a deployment -/

/-- In the network only corrupt parties choose bytes. -/
def Deployment.AllowsNet (D : Deployment Msg R) (a : Act (AnyMsg Msg)) : Prop :=
  ∀ g h bytes, a = .inject g h bytes → D.setup.corrupt g

theorem sendAll_run {codec : Codec (AnyMsg Msg)} {n : ℕ} {items : List (Outgoing (AnyMsg Msg))}
    {s s' : Sys (AnyMsg Msg)} {ok : Act (AnyMsg Msg) → Prop} (hok : ∀ item, ok (.send i item))
    (h : sendAll codec n i items s = some s') : Run (step codec n) ok s s' := by
  induction items generalizing s with
  | nil =>
    rw [← Option.some.inj h]
    exact Run.refl s
  | cons item rest ih =>
    obtain ⟨s₁, hstep, hrest⟩ := Option.bind_eq_some_iff.mp h
    exact (Run.single (hok item) hstep).trans (ih hrest)

/-- What a send does to the network and to the parties. -/
theorem emit_eq_some (h : emit D i w = some w') :
    ∃ r out next, (w.party i).code = ⟨r, .send out next⟩ ∧
      sendAll D.codec D.setup.n i (outgoing (D.kind r) D.setup.n i out) w.sys = some w'.sys ∧
      w'.party = Function.update w.party i ((w.party i).put out next) := by
  unfold emit at h
  split at h
  · rename_i r out next hc
    obtain ⟨s, hs, rfl⟩ := Option.map_eq_some_iff.mp h
    exact ⟨r, out, next, hc, hs, rfl⟩
  · cases h

theorem completeRound_eq_some (h : completeRound D i w = some w') :
    ∃ r next msgs, (w.party i).code = ⟨r, .recv next⟩ ∧
      D.rounds.complete D.setup.n i (D.kind r) r ((w.sys.yields i).map Prod.snd) = some msgs ∧
      w'.sys = w.sys ∧ w'.party = Function.update w.party i (handOver (w.party i) msgs next) := by
  unfold completeRound at h
  split at h
  · rename_i r next hc
    obtain ⟨msgs, hmsgs, rfl⟩ := Option.map_eq_some_iff.mp h
    exact ⟨r, next, msgs, hc, hmsgs, rfl, rfl⟩
  · cases h

/-- **The network** of a deployment is one that the transport can reach. -/
theorem WorldReached.net (h : WorldReached D w) : Reached D.codec D.setup.n D.AllowsNet w.sys := by
  refine Run.sim World.sys (fun a w w' ha hs => ?_) h
  cases a with
  | net a =>
    obtain ⟨s, hstep, rfl⟩ := Option.map_eq_some_iff.mp hs
    refine Run.single (fun g h bytes heq => ?_) hstep
    subst heq
    exact ha
  | emit i =>
    obtain ⟨r, out, next, -, hsend, -⟩ := emit_eq_some hs
    exact sendAll_run (fun item g h bytes heq => by cases heq) hsend
  | complete i =>
    obtain ⟨r, next, msgs, -, -, hsys, -⟩ := completeRound_eq_some hs
    rw [hsys]
    exact Run.refl _

/-! ### One party -/

/-- What is yielded stays yielded. -/
theorem step_yields {M : Type} {codec : Codec M} {n : ℕ} {s s' : Sys M} {a : Act M}
    (h : step codec n a s = some s') (k : ℕ) : s.yields k <+: s'.yields k := by
  cases step_cases h with
  | @next h' e d =>
    by_cases hk : k = h'
    · simp [Sys.withYield, hk]
    · simp [Sys.withYield, Function.update_of_ne hk]
  | _ => exact List.prefix_refl _

/-- What a program's sends do to what has been sent and yielded. -/
theorem sendAll_spec {codec : Codec (AnyMsg Msg)} {n : ℕ} {items : List (Outgoing (AnyMsg Msg))}
    {s s' : Sys (AnyMsg Msg)} (h : sendAll codec n i items s = some s') :
    s'.sent i = s.sent i ++ items ∧ (∀ k, k ≠ i → s'.sent k = s.sent k) ∧
      ∀ k, s.yields k <+: s'.yields k := by
  induction items generalizing s with
  | nil =>
    cases h
    exact ⟨(List.append_nil _).symm, fun _ _ => rfl, fun _ => List.prefix_refl _⟩
  | cons item rest ih =>
    obtain ⟨s₁, hstep, hrest⟩ := Option.bind_eq_some_iff.mp h
    obtain ⟨hsent, hother, hyields⟩ := ih hrest
    have hyields₁ := step_yields hstep
    cases step_cases hstep with
    | send =>
      refine ⟨?_, fun k hk => ?_, fun k => (hyields₁ k).trans (hyields k)⟩
      · rw [hsent]
        simp [Sys.withSent]
      · rw [hother k hk]
        simp [Sys.withSent, Function.update_of_ne hk]

/-- The invariant of one party. -/
structure PartySound (D : Deployment Msg R) (w : World Msg R) (i : ℕ) : Prop where
  honest : (w.party i).Honest D.setup i
  /-- Rounds hand over when they are complete. -/
  fresh : ∀ r, (w.party i).code.1 ≤ r → ∀ j, (w.party i).got r j = none
  /-- What a round has handed over was yielded. -/
  yielded : ∀ r j m, (w.party i).got r j = some m →
    ∃ g id, (g, .ok ⟨id, j, D.kind r, ⟨r, m⟩⟩) ∈ w.sys.yields i
  /-- What has been sent, the program sends. -/
  sends : ∀ item ∈ w.sys.sent i, ∀ inb, (w.party i).Agrees D.setup.n i inb →
    ∃ j, (D.setup.prog i).Sends inb item.msg.1 j item.msg.2

theorem PartySound.init (D : Deployment Msg R) (i : ℕ) : PartySound D D.init i where
  honest := Local.Honest.init
  fresh _ _ _ := rfl
  yielded _ _ _ h := by cases h
  sends _ h := by cases h

/-- The network moves. -/
theorem PartySound.net (h : PartySound D w i) (hparty : w'.party i = w.party i)
    (hsent : w'.sys.sent i = w.sys.sent i) (hyields : w.sys.yields i <+: w'.sys.yields i) :
    PartySound D w' i where
  honest := by
    rw [hparty]
    exact h.honest
  fresh := by
    rw [hparty]
    exact h.fresh
  yielded r j m hm := by
    rw [hparty] at hm
    obtain ⟨g, id, hmem⟩ := h.yielded r j m hm
    exact ⟨g, id, hyields.subset hmem⟩
  sends item hitem inb hin := by
    rw [hsent] at hitem
    rw [hparty] at hin
    exact h.sends item hitem inb hin

/-- The party sends. -/
theorem PartySound.emit (h : PartySound D w i) (hs : emit D i w = some w') :
    PartySound D w' i := by
  obtain ⟨r, out, next, hc, hsend, hparty⟩ := emit_eq_some hs
  obtain ⟨hsent, -, hyields⟩ := sendAll_spec hsend
  have hself : w'.party i = (w.party i).put out next := by rw [hparty, Function.update_self]
  -- the round stays the same
  have hag : ∀ inb, (w'.party i).Agrees D.setup.n i inb → (w.party i).Agrees D.setup.n i inb := by
    intro inb hin r' hr'
    rw [hc] at hr'
    rw [hself] at hin
    exact hin r' hr'
  refine ⟨?_, fun r' hr' j => ?_, fun r' j m hm => ?_, fun item hitem inb hin => ?_⟩
  · rw [hself]
    exact h.honest.send hc
  · rw [hself] at hr' ⊢
    exact h.fresh r' (by rw [hc]; exact hr') j
  · rw [hself] at hm
    obtain ⟨g, id, hmem⟩ := h.yielded r' j m hm
    exact ⟨g, id, (hyields i).subset hmem⟩
  · rw [hsent, List.mem_append] at hitem
    rcases hitem with hitem | hitem
    · exact h.sends item hitem inb (hag inb hin)
    · obtain ⟨j, m, -, hout, hmsg⟩ := mem_outgoing hitem
      refine ⟨j, ?_⟩
      rw [hmsg]
      refine h.honest.code inb (hag inb hin) r j m ?_
      rw [hc]
      exact .here hout

/-- **What completing a round does**, in terms of the lists `got` that the party has then. -/
theorem completeRound_got (hs : completeRound D i w = some w') :
    ∃ (r : ℕ) (next : List (ℕ × Msg r) → Proc Msg R (r + 1)) (got : (r : ℕ) → ℕ → Option (Msg r)),
      (w.party i).code = ⟨r, .recv next⟩ ∧ w'.sys = w.sys ∧
      w'.party i = { w.party i with
        code := ⟨r + 1, next (collect D.setup.n i (got r))⟩
        got := got } ∧
      (∀ r', r' ≠ r → got r' = (w.party i).got r') ∧
      (∀ j < D.setup.n, j ≠ i → (got r j).isSome) ∧
      ∀ j m, got r j = some m →
        ∃ g id, (g, .ok ⟨id, j, D.kind r, ⟨r, m⟩⟩) ∈ w.sys.yields i := by
  obtain ⟨r, next, msgs, hc, hcomplete, hsys, hparty⟩ := completeRound_eq_some hs
  obtain ⟨row, rfl, hrow⟩ := D.rounds.complete_eq_some hcomplete
  have hfrom : ∀ j < D.setup.n, j ≠ i → messageFrom j (collect D.setup.n i row) = row j :=
    fun j hj hji => messageFrom_collect hj hji
  set got : (r : ℕ) → ℕ → Option (Msg r) := Function.update (w.party i).got r fun j =>
    messageFrom j (collect D.setup.n i row) with hgot
  have hself : got r = fun j => messageFrom j (collect D.setup.n i row) := Function.update_self ..
  have hlist : collect D.setup.n i (got r) = collect D.setup.n i row := by
    rw [hself]
    exact collect_congr hfrom
  refine ⟨r, next, got, hc, hsys, ?_, fun r' hr' => Function.update_of_ne hr' .., ?_, ?_⟩
  · rw [hparty, Function.update_self, hlist]
    rfl
  · intro j hj hji
    obtain ⟨m, -, hm, -⟩ := hrow j hj hji
    rw [hself]
    show (messageFrom j (collect D.setup.n i row)).isSome
    rw [hfrom j hj hji, hm]
    rfl
  · intro j m hm
    rw [hself] at hm
    obtain ⟨hj, hji, hmem⟩ := mem_collect.mp (mem_of_messageFrom hm)
    obtain ⟨m', id, hm', hitem⟩ := hrow j hj hji
    rw [hmem] at hm'
    obtain rfl := Option.some.inj hm'
    obtain ⟨⟨g, item⟩, hyield, heq⟩ := List.mem_map.mp hitem
    subst heq
    exact ⟨g, id, hyield⟩

/-- The party completes a round. -/
theorem PartySound.complete (h : PartySound D w i) (hs : completeRound D i w = some w') :
    PartySound D w' i := by
  obtain ⟨r, next, got, hc, hsys, hdone, hother, hfull, hyielded⟩ := completeRound_got hs
  have hround : (w.party i).code.1 = r := by rw [hc]
  have hext : ∀ r' j m, (w.party i).got r' j = some m → got r' j = some m := by
    intro r' j m hm
    by_cases hr : r' = r
    · rw [h.fresh r' (by omega) j] at hm
      cases hm
    · rw [hother r' hr]
      exact hm
  have hhonest : (w'.party i).Honest D.setup i := by
    rw [hdone]
    exact (h.honest.deliver hext).complete hc hfull
  refine ⟨hhonest, fun r' hr' j => ?_, fun r' j m hm => ?_, fun item hitem inb hin => ?_⟩
  · rw [hdone] at hr' ⊢
    have hr'' : r + 1 ≤ r' := hr'
    show got r' j = none
    rw [hother r' (by omega)]
    exact h.fresh r' (by omega) j
  · rw [hdone] at hm
    rw [hsys]
    by_cases hr : r' = r
    · subst hr
      exact hyielded j m hm
    · change got r' j = some m at hm
      rw [hother r' hr] at hm
      exact h.yielded r' j m hm
  · rw [hsys] at hitem
    refine h.sends item hitem inb fun r' hr' => ?_
    -- the lists of the earlier rounds are the same
    have hlt : r' < r := by omega
    have hlater : r' < (w'.party i).code.1 := by
      rw [hdone]
      exact Nat.lt_succ_of_lt hlt
    rw [hin r' hlater, hdone]
    show collect D.setup.n i (got r') = collect D.setup.n i ((w.party i).got r')
    rw [hother r' (by omega)]

/-- **Run lemma.**  Every party is sound; a corrupt one does not touch its program. -/
theorem WorldReached.party (h : WorldReached D w) (i : ℕ) : PartySound D w i := by
  refine Run.invariant (P := fun w => PartySound D w i) h (fun a w w' ha hs hP => ?_)
    (PartySound.init D i)
  cases a with
  | net a =>
    obtain ⟨s, hstep, rfl⟩ := Option.map_eq_some_iff.mp hs
    refine hP.net rfl ?_ (step_yields hstep i)
    -- only programs send
    rcases step_sent hstep i with hsame | ⟨item, rfl, -⟩
    · exact hsame
    · exact ha.elim
  | emit k =>
    by_cases hk : i = k
    · subst hk
      exact hP.emit hs
    · obtain ⟨r, out, next, -, hsend, hparty⟩ := emit_eq_some hs
      obtain ⟨-, hother, hyields⟩ := sendAll_spec hsend
      exact hP.net (by rw [hparty, Function.update_of_ne hk]) (hother i hk) (hyields i)
  | complete k =>
    by_cases hk : i = k
    · subst hk
      exact hP.complete hs
    · obtain ⟨r, next, msgs, -, -, hsys, hparty⟩ := completeRound_eq_some hs
      refine hP.net (by rw [hparty, Function.update_of_ne hk]) (by rw [hsys]) ?_
      rw [hsys]

/-! ### Results -/

/-- What an honest party returned is what its program computes from what its rounds handed over. -/
theorem PartySound.result (h : PartySound D w i) {res : R} (hres : w.Returned i res) :
    (D.setup.prog i).exec ((w.party i).inbox D.setup.n i) = res := by
  obtain ⟨r, hc⟩ := hres
  rw [h.honest.exec _ fun _ _ => rfl, hc, Proc.exec_done]

/-- Its rounds were full. -/
theorem PartySound.full (h : PartySound D w i) {res : R} (hres : w.Returned i res) {r j : ℕ}
    (hr : r < (D.setup.prog i).ends ((w.party i).inbox D.setup.n i)) (hj : j < D.setup.n) (hji : j ≠ i) :
    ∃ m, (w.party i).got r j = some m := by
  obtain ⟨r', hc⟩ := hres
  rw [h.honest.ends _ fun _ _ => rfl, hc, Proc.ends_done] at hr
  exact Option.isSome_iff_exists.mp (h.honest.full r (by rw [hc]; exact hr) j hj hji)

/-- **Messages from honest parties.**  What is yielded from the connection of a party that follows its
    program names that party, and its program sends it. -/
theorem WorldReached.honest_item (h : WorldReached D w) {g k : ℕ} (hg : ¬ D.setup.corrupt g)
    {inc : Incoming (AnyMsg Msg)} (hinc : (g, .ok inc) ∈ w.sys.yields k) :
    inc.sender = g ∧ ∃ inb j, (D.setup.prog g).Sends inb inc.msg.1 j inc.msg.2 := by
  have hno : ∀ bytes, ¬ D.AllowsNet (.inject g k bytes) := fun bytes hall => hg (hall g k bytes rfl)
  have hitems : (g, .ok inc) ∈ w.sys.items k := List.mem_append_left _ hinc
  obtain ⟨item, hitem, -, hsender, -, hmsg⟩ := h.net.exists_sent hno hitems
  obtain ⟨j, hj⟩ := (h.party g).sends item hitem _ fun _ _ => rfl
  exact ⟨hsender, _, j, by rw [hmsg]; exact hj⟩

end Govis.Tcp
