import Govis.Rounds.Script
import Govis.Tcp.Parties

namespace Govis.Tcp

open Framing Transition Rounds

/-!
# The transport: runs that follow a script

A script says what every party tells every other one, as in the networks of the protocols.  A corrupt
party may tell each peer something else.

* `firstInput` — rounds that take the first message of every other party that fits;
* `Tells` — the sends of a party are the script's, as far as one peer gets them;
* `Staged`, `OnStage` — the network and the parties while the script is carried out;
* `exists_world_run` — some run over the transport carries it out.
-/

variable {Msg : ℕ → Type} {R : Type}

/-! ### Rounds -/

section Rounds

variable {kind : MessageType} {n i j r : ℕ}

/-- The message, if it is one of round `r`. -/
def ofRound (r : ℕ) (m : AnyMsg Msg) : Option (Msg r) :=
  if h : m.1 = r then some (h ▸ m.2) else none

@[simp] theorem ofRound_self (m : Msg r) : ofRound r ⟨r, m⟩ = some m := dif_pos rfl

theorem ofRound_eq_some {m : AnyMsg Msg} {x : Msg r} (h : ofRound r m = some x) : m = ⟨r, x⟩ := by
  obtain ⟨r', m⟩ := m
  unfold ofRound at h
  split at h
  · rename_i hr
    cases hr
    cases h
    rfl
  · cases h

/-- The message of party `j` in round `r`, if the item is one. -/
def fitting (kind : MessageType) (r j : ℕ) (item : Except IoError (Incoming (AnyMsg Msg))) :
    Option (Msg r) :=
  match item with
  | .error _ => none
  | .ok inc => if inc.sender = j ∧ inc.msgType = kind then ofRound r inc.msg else none

theorem fitting_eq_some {item : Except IoError (Incoming (AnyMsg Msg))} {m : Msg r} :
    fitting kind r j item = some m ↔ ∃ id, item = .ok ⟨id, j, kind, ⟨r, m⟩⟩ := by
  constructor
  · intro h
    unfold fitting at h
    split at h
    · cases h
    · rename_i inc
      obtain ⟨⟨hsender, hkind⟩, hm⟩ := Option.ite_none_right_eq_some.mp h
      have hmsg := ofRound_eq_some hm
      obtain ⟨id, sender, msgType, msg⟩ := inc
      simp only at hsender hkind hmsg
      exact ⟨id, by rw [hsender, hkind, hmsg]⟩
  · rintro ⟨id, rfl⟩
    simp [fitting]

/-- Rounds that take the first message of every other party that fits. -/
def firstInput : RoundInput Msg where
  complete n i kind r items :=
    if ∀ j ∈ others n i, (items.findSome? (fitting kind r j)).isSome then
      some (collect n i fun j => items.findSome? (fitting kind r j))
    else none
  complete_eq_some h := by
    obtain ⟨hall, h⟩ := Option.ite_none_right_eq_some.mp h
    refine ⟨_, (Option.some.inj h).symm, fun j hj hji => ?_⟩
    obtain ⟨m, hm⟩ := Option.isSome_iff_exists.mp (hall j (mem_others.mpr ⟨hj, hji⟩))
    obtain ⟨item, hitem, hfit⟩ := List.exists_of_findSome?_eq_some hm
    obtain ⟨id, rfl⟩ := fitting_eq_some.mp hfit
    exact ⟨m, id, hm, hitem⟩

/-- They are complete when every other party has sent one message of the round. -/
theorem firstInput_complete {items : List (Except IoError (Incoming (AnyMsg Msg)))} {row : ℕ → Msg r}
    (hmem : ∀ j < n, j ≠ i → ∃ id, .ok ⟨id, j, kind, ⟨r, row j⟩⟩ ∈ items)
    (honly : ∀ j < n, j ≠ i → ∀ id m, .ok ⟨id, j, kind, ⟨r, m⟩⟩ ∈ items → m = row j) :
    firstInput.complete n i kind r items = some (collect n i fun j => some (row j)) := by
  have hfind : ∀ j < n, j ≠ i → items.findSome? (fitting kind r j) = some (row j) := by
    intro j hj hji
    obtain ⟨id, hid⟩ := hmem j hj hji
    cases hfind : items.findSome? (fitting kind r j) with
    | none =>
      have hnone := List.findSome?_eq_none_iff.mp hfind _ hid
      rw [fitting_eq_some.mpr ⟨id, rfl⟩] at hnone
      cases hnone
    | some m =>
      obtain ⟨item, hitem, hfit⟩ := List.exists_of_findSome?_eq_some hfind
      obtain ⟨id', rfl⟩ := fitting_eq_some.mp hfit
      rw [honly j hj hji id' m hitem]
  have hall : ∀ j ∈ others n i, (items.findSome? (fitting kind r j)).isSome := by
    intro j hj
    obtain ⟨hjn, hji⟩ := mem_others.mp hj
    rw [hfind j hjn hji]
    rfl
  show (if _ then _ else _) = _
  rw [if_pos hall]
  exact congrArg some (collect_congr hfind)

end Rounds

/-! ### The script as sends -/

section Sends

variable {D : Deployment Msg R} {M : (r : ℕ) → ℕ → ℕ → Msg r} {g h k : ℕ}

theorem outgoing_congr {kind : MessageType} {n i r : ℕ} {out out' : ℕ → Option (Msg r)}
    (hout : ∀ j < n, j ≠ i → out j = out' j) : outgoing kind n i out = outgoing kind n i out' := by
  have hout' : ∀ j ∈ others n i, out j = out' j := fun j hj =>
    hout j (mem_others.mp hj).1 (mem_others.mp hj).2
  cases kind with
  | broadcast reliable =>
    cases hhead : (others n i).head? with
    | none => simp only [outgoing, hhead, Option.bind_none]
    | some j => simp only [outgoing, hhead, Option.bind_some, hout' j (List.mem_of_mem_head? hhead)]
  | p2p =>
    apply List.filterMap_congr
    intro j hj
    rw [hout' j hj]

/-- What party `i` sends in the rounds of the script before round `r`. -/
def scriptSends (D : Deployment Msg R) (M : (r : ℕ) → ℕ → ℕ → Msg r) (i r : ℕ) :
    List (Outgoing (AnyMsg Msg)) :=
  (List.range r).flatMap fun r' => outgoing (D.kind r') D.setup.n i fun j => some (M r' i j)

theorem scriptSends_succ (i r : ℕ) : scriptSends D M i (r + 1) =
    scriptSends D M i r ++ outgoing (D.kind r) D.setup.n i fun j => some (M r i j) := by
  rw [scriptSends, List.range_succ, List.flatMap_append, List.flatMap_singleton]
  rfl

/-- How a message of this kind for party `h` is addressed. -/
def MessageType.destination (h : ℕ) : MessageType → MessageDestination
  | .broadcast reliable => .allParties reliable
  | .p2p => .oneParty h

/-- What a corrupt party tells party `h`, as if it were sent. -/
def shownSends (D : Deployment Msg R) (M : (r : ℕ) → ℕ → ℕ → Msg r) (k g h : ℕ) :
    List (Outgoing (AnyMsg Msg)) :=
  (List.range k).map fun r => ⟨(D.kind r).destination h, ⟨r, M r g h⟩⟩

/-- What reaches party `h` of the sends `l` of party `g` is the script's, with all rounds before `r`. -/
structure Tells (D : Deployment Msg R) (M : (r : ℕ) → ℕ → ℕ → Msg r) (g h r : ℕ)
    (l : List (Outgoing (AnyMsg Msg))) : Prop where
  only : ∀ item ∈ l, item.recipient.reaches h →
    ∃ r', incomingType (wireType item.recipient) = D.kind r' ∧ item.msg = ⟨r', M r' g h⟩
  all : ∀ r' < r, ∃ item ∈ l, item.recipient.reaches h ∧
    incomingType (wireType item.recipient) = D.kind r' ∧ item.msg = ⟨r', M r' g h⟩

/-- The codec has room for the script. -/
def CarriesScript (D : Deployment Msg R) (M : (r : ℕ) → ℕ → ℕ → Msg r) (k : ℕ) : Prop :=
  ∀ r < k, ∀ i < D.setup.n, ∀ j < D.setup.n, j ≠ i → D.codec.Carries D.setup.n ⟨r, M r i j⟩

/-- A broadcast shows everybody the same. -/
def Broadcasts (D : Deployment Msg R) (M : (r : ℕ) → ℕ → ℕ → Msg r) (g : ℕ) : Prop :=
  ∀ r reliable, D.kind r = .broadcast reliable →
    ∀ j < D.setup.n, ∀ j' < D.setup.n, j ≠ g → j' ≠ g → M r g j = M r g j'

theorem CarriesScript.outgoing (hcarry : CarriesScript D M k) (hg : g < D.setup.n) {r : ℕ} (hr : r < k)
    {item : Outgoing (AnyMsg Msg)}
    (hitem : item ∈ outgoing (D.kind r) D.setup.n g fun j => some (M r g j)) :
    D.codec.Carries D.setup.n item.msg := by
  obtain ⟨j, m, ⟨hj, hjg⟩, hm, hmsg⟩ := mem_outgoing hitem
  rw [hmsg, ← Option.some.inj hm]
  exact hcarry r hr g hg j hj hjg

theorem CarriesScript.scriptSends (hcarry : CarriesScript D M k) (hg : g < D.setup.n) {r : ℕ}
    (hr : r ≤ k) : ∀ item ∈ scriptSends D M g r, D.codec.Carries D.setup.n item.msg := by
  intro item hitem
  obtain ⟨r', hr', hitem⟩ := List.mem_flatMap.mp hitem
  exact hcarry.outgoing hg (lt_of_lt_of_le (List.mem_range.mp hr') hr) hitem

/-- One round of an honest party. -/
theorem outgoing_script (hbc : Broadcasts D M g) (hh : h < D.setup.n) (hne : h ≠ g) {r : ℕ} :
    (∀ item ∈ outgoing (D.kind r) D.setup.n g fun j => some (M r g j), item.recipient.reaches h →
      incomingType (wireType item.recipient) = D.kind r ∧ item.msg = ⟨r, M r g h⟩) ∧
    ∃ item ∈ outgoing (D.kind r) D.setup.n g fun j => some (M r g j), item.recipient.reaches h := by
  cases hkind : D.kind r with
  | broadcast reliable =>
    -- there is somebody to send it to, and that message is the one for `h`
    obtain ⟨j, hhead⟩ : ∃ j, (others D.setup.n g).head? = some j := by
      cases hhead : (others D.setup.n g).head? with
      | some j => exact ⟨j, rfl⟩
      | none =>
        have hmem := mem_others.mpr ⟨hh, hne⟩
        rw [List.head?_eq_none_iff.mp hhead] at hmem
        cases hmem
    obtain ⟨hj, hjg⟩ := mem_others.mp (List.mem_of_mem_head? hhead)
    simp only [outgoing, hhead, Option.bind_some, Option.map_some, Option.toList_some,
      List.mem_singleton, forall_eq, exists_eq_left]
    refine ⟨fun _ => ⟨rfl, ?_⟩, rfl⟩
    rw [hbc r reliable hkind j hj h hh hjg hne]
  | p2p =>
    constructor
    · intro item hitem hreach
      obtain ⟨j, -, hj⟩ := List.mem_filterMap.mp hitem
      obtain rfl := Option.some.inj hj
      obtain rfl : j = h := of_decide_eq_true hreach
      exact ⟨rfl, rfl⟩
    · exact ⟨⟨.oneParty h, ⟨r, M r g h⟩⟩,
        List.mem_filterMap.mpr ⟨h, mem_others.mpr ⟨hh, hne⟩, rfl⟩, decide_eq_true rfl⟩

/-- **Honest parties tell the script.** -/
theorem tells_scriptSends (hbc : Broadcasts D M g) (hh : h < D.setup.n) (hne : h ≠ g) (r : ℕ) :
    Tells D M g h r (scriptSends D M g r) where
  only item hitem hreach := by
    obtain ⟨r', -, hitem⟩ := List.mem_flatMap.mp hitem
    exact ⟨r', (outgoing_script hbc hh hne).1 item hitem hreach⟩
  all r' hr' := by
    obtain ⟨honly, item, hitem, hreach⟩ := outgoing_script hbc hh hne (r := r')
    exact ⟨item, List.mem_flatMap.mpr ⟨r', List.mem_range.mpr hr', hitem⟩, hreach,
      honly item hitem hreach⟩

/-- **Corrupt parties tell the script.** -/
theorem tells_shownSends : Tells D M g h k (shownSends D M k g h) := by
  have hitem : ∀ r, MessageDestination.reaches h ((D.kind r).destination h) = true ∧
      incomingType (wireType ((D.kind r).destination h)) = D.kind r := by
    intro r
    cases D.kind r with
    | broadcast => exact ⟨rfl, rfl⟩
    | p2p => exact ⟨decide_eq_true rfl, rfl⟩
  constructor
  · intro item hmem hreach
    obtain ⟨r, -, rfl⟩ := List.mem_map.mp hmem
    exact ⟨r, (hitem r).2, rfl⟩
  · intro r hr
    exact ⟨_, List.mem_map.mpr ⟨r, List.mem_range.mpr hr, rfl⟩, (hitem r).1, (hitem r).2, rfl⟩

end Sends

/-! ### The network -/

section Network

variable {A : Type} {codec : Codec A} {n g h : ℕ} {s s' : Sys A}

/-- Only `poll_close` closes a delivery, and nothing changes its index. -/
theorem step_open {a : Act A} (hs : step codec n a s = some s') (ha : ∀ g, a ≠ .close g) (k : ℕ) :
    (s'.delivery k).closed = (s.delivery k).closed ∧
      (s'.delivery k).myIndex = (s.delivery k).myIndex := by
  have hupdate : ∀ (g : ℕ) (d : TcpDelivery A), d.closed = (s.delivery g).closed →
      d.myIndex = (s.delivery g).myIndex →
      ((s.withDelivery g d).delivery k).closed = (s.delivery k).closed ∧
        ((s.withDelivery g d).delivery k).myIndex = (s.delivery k).myIndex := by
    intro g d hclosed hindex
    by_cases hk : k = g
    · rw [hk, withDelivery_self]
      exact ⟨hclosed, hindex⟩
    · rw [withDelivery_of_ne _ _ _ hk]
      exact ⟨rfl, rfl⟩
  cases step_cases hs with
  | @send g item d _ hd =>
    obtain ⟨bytes, -, rfl⟩ := startSend_eq_ok hd
    exact hupdate g _ rfl rfl
  | @flush g => exact hupdate g _ rfl rfl
  | @close g => exact absurd rfl (ha g)
  | @next h e d _ he => exact hupdate h d (pollNext_closed he) (pollNext_eq_some he).2.1
  | @write g h d out _ hw =>
    obtain ⟨bytes, rest, -, ⟨-, rfl⟩ | ⟨-, -, rfl⟩⟩ := writeTask_eq_some hw
    · exact hupdate g _ rfl rfl
    · exact hupdate g _ rfl rfl
  | inject => exact ⟨rfl, rfl⟩
  | arrive => exact ⟨rfl, rfl⟩
  | @read g h => exact hupdate h _ rfl rfl

/-- A party that sends nothing stays idle, and writes nothing. -/
theorem Outbound.idle {d d' : TcpDelivery A} {w w' : List UInt8} {l l' : List (Outgoing A)}
    (ho : Outbound codec h d w l d' w' l') (hl : l' = l) (hi : Idle d h) : Idle d' h ∧ w' = w := by
  have hflush : ∀ d : TcpDelivery A, Idle d h → Idle (pollFlush d) h := by
    intro d hi
    refine ⟨rfl, ?_⟩
    rw [queue_pollFlush, hi.pending]
    have hq := hi.queue
    cases hqueue : d.queue h with
    | none => rfl
    | some q =>
      rw [hqueue] at hq
      rw [Option.map_some, Option.getD_some, List.append_nil]
      exact hq
  cases ho with
  | stay _ hpending hpeer =>
    refine ⟨⟨?_, ?_⟩, rfl⟩
    · rw [TcpDelivery.pendingTo, hpending]
      exact hi.pending
    · rw [TcpDelivery.queue, hpeer]
      exact hi.queue
  | send => simp at hl
  | flush => exact ⟨hflush d hi, rfl⟩
  | close => exact ⟨hflush _ ⟨hi.pending, hi.queue⟩, rfl⟩
  | write hw =>
    obtain ⟨-, -, bytes, rest, hq, -⟩ := queue_writeTask hw
    have hnil := hi.queue
    rw [hq] at hnil
    cases hnil
  | other hne hw =>
    obtain ⟨-, hqueue, hpending⟩ := queue_writeTask_of_ne hne hw
    refine ⟨⟨?_, ?_⟩, rfl⟩
    · rw [TcpDelivery.pendingTo, hpending]
      exact hi.pending
    · rw [hqueue]
      exact hi.queue

/-- Bytes whose frames are the given messages. -/
theorem exists_written {l : List (Outgoing A)} (hg : g < n)
    (hcarry : ∀ item ∈ l, codec.Carries n item.msg) :
    ∃ w, Reads codec.decoder w (posted codec g h l) [] := by
  induction l using List.reverseRecOn with
  | nil => exact ⟨[], .nil []⟩
  | append_singleton l item ih =>
    obtain ⟨w, hw⟩ := ih fun item' hitem' => hcarry item' (List.mem_append_left _ hitem')
    rw [posted_append]
    by_cases hreach : item.recipient.reaches h
    · obtain ⟨bytes, out, hser, hout⟩ := hcarry item (by simp) g hg (wireType item.recipient)
      have hposting : posting codec g item = some bytes := hser
      have hlast : posted codec g h [item] = [bytes] := by
        simp [posted, hreach, hposting]
      have hdecode := codec.decode_encode hout []
      rw [List.append_nil] at hdecode
      rw [hlast]
      exact ⟨w ++ out, (hw.append out).snoc hdecode⟩
    · have hlast : posted codec g h [item] = [] := by
        simp [posted, hreach]
      rw [hlast, List.append_nil]
      exact ⟨w, hw⟩

/-- What `delivered` holds, message by message. -/
theorem mem_delivered {l : List (Outgoing A)} {e : Except IoError (Incoming A)}
    (he : e ∈ delivered g h l) : ∃ item ∈ l, item.recipient.reaches h ∧
      ∃ id, e = .ok ⟨id, g, incomingType (wireType item.recipient), item.msg⟩ := by
  obtain ⟨⟨item, id⟩, hmem, rfl⟩ := List.mem_map.mp he
  obtain ⟨hitem, hreach⟩ := List.mem_filter.mp (List.fst_mem_of_mem_zipIdx hmem)
  exact ⟨item, hitem, hreach, id, rfl⟩

theorem exists_mem_delivered {l : List (Outgoing A)} {item : Outgoing A} (hitem : item ∈ l)
    (hreach : item.recipient.reaches h) :
    ∃ id, .ok ⟨id, g, incomingType (wireType item.recipient), item.msg⟩ ∈ delivered g h l := by
  have hmem : item ∈ (l.filter (·.recipient.reaches h)).zipIdx.map Prod.fst := by
    rw [List.zipIdx_map_fst]
    exact List.mem_filter.mpr ⟨hitem, hreach⟩
  obtain ⟨⟨item', id⟩, hid, rfl⟩ := List.mem_map.mp hmem
  exact ⟨id, List.mem_map.mpr ⟨_, hid, rfl⟩⟩

end Network

section Stage

variable {D : Deployment Msg R} {M : (r : ℕ) → ℕ → ℕ → Msg r} {k : ℕ} {s s' : Sys (AnyMsg Msg)}

/-- No delivery is closed, and the corrupt parties have written their script and nothing else. -/
structure Staged (D : Deployment Msg R) (M : (r : ℕ) → ℕ → ℕ → Msg r) (k : ℕ)
    (s : Sys (AnyMsg Msg)) : Prop where
  closed : ∀ g, (s.delivery g).closed = false
  index : ∀ g, (s.delivery g).myIndex = g
  silent : ∀ g, D.setup.corrupt g → s.sent g = []
  idle : ∀ g h, Linked D.setup.n g h → D.setup.corrupt g → Idle (s.delivery g) h
  reads : ∀ g h, Linked D.setup.n g h → D.setup.corrupt g →
    Reads D.codec.decoder (s.conn g h).written (posted D.codec g h (shownSends D M k g h)) []

/-- The steps of honest programs, and of the network itself. -/
def Deployment.Plain (D : Deployment Msg R) : Act (AnyMsg Msg) → Prop
  | .send g _ => ¬ D.setup.corrupt g
  | .inject _ _ _ => False
  | .close _ => False
  | _ => True

/-- **Step lemma.** -/
theorem Staged.step {a : Act (AnyMsg Msg)} (h : Staged D M k s) (ha : D.Plain a)
    (hs : step D.codec D.setup.n a s = some s') : Staged D M k s' := by
  have hsilent : ∀ g, D.setup.corrupt g → s'.sent g = s.sent g := by
    intro g hg
    rcases step_sent hs g with hsame | ⟨item, rfl, -⟩
    · exact hsame
    · exact absurd hg ha
  have hidle : ∀ g h', Linked D.setup.n g h' → D.setup.corrupt g →
      Idle (s'.delivery g) h' ∧ (s'.conn g h').written = (s.conn g h').written := by
    intro g h' hl hg
    refine (step_outbound hs fun bytes heq => ?_).idle (hsilent g hg) (h.idle g h' hl hg)
    subst heq
    exact ha
  have hopen := step_open hs fun g heq => by
    subst heq
    exact ha
  refine ⟨fun g => ?_, fun g => ?_, fun g hg => ?_, fun g h' hl hg => (hidle g h' hl hg).1,
    fun g h' hl hg => ?_⟩
  · rw [(hopen g).1]
    exact h.closed g
  · rw [(hopen g).2]
    exact h.index g
  · rw [hsilent g hg]
    exact h.silent g hg
  · rw [(hidle g h' hl hg).2]
    exact h.reads g h' hl hg

/-- **Run lemma.** -/
theorem Staged.run (h : Staged D M k s) (hrun : Run (Tcp.step D.codec D.setup.n) D.Plain s s') :
    Staged D M k s' :=
  hrun.invariant (P := Staged D M k) (fun _ _ _ ha hs hP => hP.step ha hs) h

theorem plain_of_internal {a : Act (AnyMsg Msg)} (ha : a.Internal) : D.Plain a := by
  cases a with
  | send => exact (ha.elim id id : False).elim
  | close => exact (ha.elim id id : False).elim
  | inject => exact (ha.elim id id : False).elim
  | _ => trivial

/-- **What is yielded.**  When nothing is left to do on the way, what came from a party that tells the
    script is that. -/
theorem Staged.told (h : Staged D M k s) (hs : Reached D.codec D.setup.n D.AllowsNet s)
    (hcarry : CarriesScript D M k) {g h' : ℕ} (hset : SettledAt D.codec D.setup.n h' s)
    (hidle : Idle (s.delivery g) h') (hl : Linked D.setup.n g h') {r : ℕ} (hr : r ≤ k)
    (hhonest : ¬ D.setup.corrupt g → Broadcasts D M g ∧ s.sent g = scriptSends D M g r) :
    ∃ l, tagged g (s.yields h') = delivered g h' l ∧ Tells D M g h' r l := by
  by_cases hg : D.setup.corrupt g
  · refine ⟨shownSends D M k g h', ?_, ⟨tells_shownSends.only, fun r' hr' =>
      tells_shownSends.all r' (lt_of_lt_of_le hr' hr)⟩⟩
    have hser : ∀ item ∈ shownSends D M k g h', (posting D.codec g item).isSome := by
      intro item hitem
      obtain ⟨r', hr', rfl⟩ := List.mem_map.mp hitem
      obtain ⟨bytes, out, hser, -⟩ := hcarry r' (List.mem_range.mp hr') g hl.1 h' hl.2.1 (Ne.symm hl.2.2) g
        hl.1 (wireType ((D.kind r').destination h'))
      exact Option.isSome_iff_exists.mpr ⟨bytes, hser⟩
    rw [hset.yields hs hl, (h.reads g h' hl hg).frames_eq, frames_nil, List.append_nil,
      readFrames_posted h' hser]
  · obtain ⟨hbc, hsent⟩ := hhonest hg
    refine ⟨scriptSends D M g r, ?_, tells_scriptSends hbc hl.2.1 (Ne.symm hl.2.2) r⟩
    rw [← hsent]
    refine hset.delivered hidle hs hl (fun bytes hall => hg (hall g h' bytes rfl)) fun item hitem => ?_
    rw [hsent] at hitem
    exact hcarry.scriptSends hl.1 hr item hitem

end Stage

/-! ### The parties -/

section Script

variable {D : Deployment Msg R} {M : (r : ℕ) → ℕ → ℕ → Msg r} {k : ℕ} {res : ℕ → R}
  {w w' : World Msg R} {i : ℕ}

variable (D M k res) in
/-- Where an honest party that follows the script can be. -/
inductive OnWire (w : World Msg R) (i : ℕ) : Prop where
  /-- About to start round `r`, or finished. -/
  | ready {r : ℕ} {p : Proc Msg R r} (hc : (w.party i).code = ⟨r, p⟩)
      (hf : Follows D.setup.n i M k (res i) p) (hsent : w.sys.sent i = scriptSends D M i r)
  /-- Waiting for the messages of round `r`. -/
  | waiting {r : ℕ} {next : List (ℕ × Msg r) → Proc Msg R (r + 1)}
      (hc : (w.party i).code = ⟨r, .recv next⟩)
      (hf : Follows D.setup.n i M k (res i) (next (collect D.setup.n i fun j => some (M r j i))))
      (hsent : w.sys.sent i = scriptSends D M i (r + 1))

variable (D M k res) in
/-- Every honest party is on the script, and the network is set for it. -/
structure OnStage (w : World Msg R) : Prop where
  reached : WorldReached D w
  staged : Staged D M k w.sys
  honest : ∀ i < D.setup.n, ¬ D.setup.corrupt i → OnWire D M k res w i

/-- What a party on the script has sent. -/
theorem OnWire.exists_sent (h : OnWire D M k res w i) :
    ∃ r ≤ k, w.sys.sent i = scriptSends D M i r := by
  cases h with
  | ready hc hf hsent => exact ⟨_, hf.le, hsent⟩
  | waiting hc hf hsent => exact ⟨_, hf.le, hsent⟩

/-- A party that does not move stays where it is. -/
theorem OnWire.of_same (h : OnWire D M k res w i) (hparty : w'.party i = w.party i)
    (hsent : w'.sys.sent i = w.sys.sent i) : OnWire D M k res w' i := by
  cases h with
  | ready hc hf hs => exact .ready (by rw [hparty, hc]) hf (by rw [hsent, hs])
  | waiting hc hf hs => exact .waiting (by rw [hparty, hc]) hf (by rw [hsent, hs])

/-- The steps that close no delivery. -/
def Deployment.Open (D : Deployment Msg R) (a : WorldAct Msg) : Prop :=
  D.Allows a ∧ ∀ g, a ≠ .net (.close g)

theorem allows_of_open (h : Run (worldStep D) D.Open w w') : Run (worldStep D) D.Allows w w' :=
  h.mono fun _ ha => ha.1

theorem open_emit (hi : i < D.setup.n) (hh : ¬ D.setup.corrupt i) : D.Open (.emit i) :=
  ⟨⟨hi, hh⟩, fun g heq => by cases heq⟩

theorem open_complete (hi : i < D.setup.n) (hh : ¬ D.setup.corrupt i) : D.Open (.complete i) :=
  ⟨⟨hi, hh⟩, fun g heq => by cases heq⟩

/-- The network can move on its own, and leave some of the processes alone. -/
theorem run_internal {A : ℕ → Prop} {s : Sys (AnyMsg Msg)}
    (hrun : Run (step D.codec D.setup.n) (fun a => a.Internal ∧ A a.party) w.sys s) :
    Run (worldStep D) (fun a => D.Open a ∧ A a.party) w { w with sys := s } := by
  refine Run.sim (fun s => { w with sys := s }) (fun a s s' ha hs => ?_) hrun
  refine Run.single (a := .net a) ⟨⟨?_, fun g heq => ?_⟩, ha.2⟩ (by rw [worldStep, hs]; rfl)
  · cases a with
    | send => exact (ha.1.elim id id : False).elim
    | inject => exact (ha.1.elim id id : False).elim
    | _ => trivial
  · cases heq
    exact (ha.1.elim id id : False).elim

/-- **Draining.**  The network can come to rest while the parties wait. -/
theorem OnStage.drain (h : OnStage D M k res w) :
    ∃ s, Run (worldStep D) D.Open w { w with sys := s } ∧ OnStage D M k res { w with sys := s } ∧
      s.sent = w.sys.sent ∧ Quiescent D.codec D.setup.n s := by
  obtain ⟨s, hrun, hsent, hq⟩ := exists_quiescent D.codec D.setup.n w.sys
  have hopen : Run (worldStep D) D.Open w { w with sys := s } :=
    (run_internal (A := fun _ => True) (hrun.mono fun _ ha => ⟨ha, trivial⟩)).mono fun _ ha => ha.1
  refine ⟨s, hopen, ⟨h.reached.trans (allows_of_open hopen), ?_, fun i hi hh => ?_⟩, hsent, hq⟩
  · exact h.staged.run (hrun.mono fun a ha => plain_of_internal ha)
  · exact (h.honest i hi hh).of_same rfl (congrFun hsent i)

/-- A program can send what fits. -/
theorem exists_sendAll {items : List (Outgoing (AnyMsg Msg))} {s : Sys (AnyMsg Msg)}
    (hstaged : Staged D M k s) (hi : i < D.setup.n) (hh : ¬ D.setup.corrupt i)
    (hcarry : ∀ item ∈ items, D.codec.Carries D.setup.n item.msg) :
    ∃ s', sendAll D.codec D.setup.n i items s = some s' := by
  induction items generalizing s with
  | nil => exact ⟨s, rfl⟩
  | cons item rest ih =>
    obtain ⟨bytes, out, hser, -⟩ := hcarry item List.mem_cons_self i hi (wireType item.recipient)
    have hposting : (posting D.codec (s.delivery i).myIndex item).isSome := by
      rw [hstaged.index]
      exact Option.isSome_iff_exists.mpr ⟨bytes, hser⟩
    obtain ⟨d, hd⟩ := exists_startSend (hstaged.closed i) hposting
    have hstep : step D.codec D.setup.n (.send i item) s =
        some ((s.withDelivery i d).withSent i item) := by
      rw [step, if_pos hi, hd]
    obtain ⟨s', hs'⟩ := ih (hstaged.step (a := .send i item) hh hstep) fun item' hitem' =>
      hcarry item' (List.mem_cons_of_mem _ hitem')
    exact ⟨s', by rw [sendAll, hstep]; exact hs'⟩

/-- **Sending.**  A party that is about to send can do so. -/
theorem OnStage.send (h : OnStage D M k res w) (hcarry : CarriesScript D M k) (hi : i < D.setup.n)
    (hh : ¬ D.setup.corrupt i) {r : ℕ} {out : ℕ → Option (Msg r)}
    {next : List (ℕ × Msg r) → Proc Msg R (r + 1)}
    (hc : (w.party i).code = ⟨r, .send out (.recv next)⟩)
    (hout : ∀ j < D.setup.n, j ≠ i → out j = some (M r i j))
    (hf : Follows D.setup.n i M k (res i) (next (collect D.setup.n i fun j => some (M r j i))))
    (hsent : w.sys.sent i = scriptSends D M i r) :
    ∃ w', worldStep D (.emit i) w = some w' ∧ OnStage D M k res w' ∧
      w'.party = Function.update w.party i ((w.party i).put out (.recv next)) := by
  have hitems : outgoing (D.kind r) D.setup.n i out =
      outgoing (D.kind r) D.setup.n i fun j => some (M r i j) := outgoing_congr hout
  have hsend : ∃ s, sendAll D.codec D.setup.n i (outgoing (D.kind r) D.setup.n i out) w.sys = some s :=
    exists_sendAll h.staged hi hh fun item hitem => hcarry.outgoing hi hf.le (hitems ▸ hitem)
  obtain ⟨s, hs⟩ := hsend
  have hstep : worldStep D (.emit i) w =
      some ⟨s, Function.update w.party i ((w.party i).put out (.recv next))⟩ := by
    show emit D i w = _
    unfold emit
    split
    · rename_i r' out' next' hc'
      cases hc.symm.trans hc'
      rw [hs]
      rfl
    · rename_i hno
      exact absurd hc (hno r out (.recv next))
  obtain ⟨hsent', hother, -⟩ := sendAll_spec hs
  refine ⟨_, hstep, ⟨h.reached.tail (open_emit hi hh).1 hstep, ?_, fun j hj hjc => ?_⟩, rfl⟩
  · exact h.staged.run (sendAll_run (fun _ => hh) hs)
  · by_cases hji : j = i
    · subst hji
      refine .waiting ?_ hf ?_
      · show (Function.update w.party j ((w.party j).put out (.recv next)) j).code = _
        rw [Function.update_self]
        rfl
      · rw [hsent', hsent, scriptSends_succ, hitems]
    · exact (h.honest j hj hjc).of_same (Function.update_of_ne hji ..) (hother j hji)

/-- Where everybody is at least in the round that a party waits in, it gets its messages. -/
theorem OnStage.complete_eq (h : OnStage D M k res w) (hcarry : CarriesScript D M k)
    (hbc : ∀ g, ¬ D.setup.corrupt g → Broadcasts D M g) (hrounds : D.rounds = firstInput)
    (hset : SettledAt D.codec D.setup.n i w.sys)
    (hidle : ∀ g, Linked D.setup.n g i → Idle (w.sys.delivery g) i) (hi : i < D.setup.n) {r : ℕ} (hr : r < k)
    (hmin : ∀ j < D.setup.n, j ≠ i → ¬ D.setup.corrupt j →
      ∃ r' ≤ k, r < r' ∧ w.sys.sent j = scriptSends D M j r') :
    D.rounds.complete D.setup.n i (D.kind r) r ((w.sys.yields i).map Prod.snd) =
      some (collect D.setup.n i fun j => some (M r j i)) := by
  have htold : ∀ j < D.setup.n, j ≠ i → ∃ l, tagged j (w.sys.yields i) = delivered j i l ∧
      Tells D M j i (r + 1) l := by
    intro j hj hji
    by_cases hc : D.setup.corrupt j
    · exact h.staged.told h.reached.net hcarry hset (hidle j ⟨hj, hi, hji⟩) ⟨hj, hi, hji⟩ hr
        fun hno => absurd hc hno
    · obtain ⟨r', hr'k, hr', hsent⟩ := hmin j hj hji hc
      obtain ⟨l, hl, htells⟩ := h.staged.told h.reached.net hcarry hset (hidle j ⟨hj, hi, hji⟩)
        ⟨hj, hi, hji⟩ hr'k
        fun _ => ⟨hbc j hc, hsent⟩
      exact ⟨l, hl, htells.only, fun r'' hr'' => htells.all r'' (by omega)⟩
  rw [hrounds]
  refine firstInput_complete (fun j hj hji => ?_) fun j hj hji id m hitem => ?_
  · obtain ⟨l, hl, htells⟩ := htold j hj hji
    obtain ⟨item, hitem, hreach, hkind, hmsg⟩ := htells.all r (Nat.lt_succ_self r)
    obtain ⟨id, hid⟩ := exists_mem_delivered (g := j) hitem hreach
    rw [hkind, hmsg, ← hl] at hid
    exact ⟨id, List.mem_map.mpr ⟨_, mem_tagged.mp hid, rfl⟩⟩
  · -- whatever names `j` came from `j`
    obtain ⟨⟨g, e⟩, hyield, rfl⟩ := List.mem_map.mp hitem
    have hlink := h.reached.net.linked (List.mem_append_left _ hyield)
    obtain ⟨l, hl, htells⟩ := htold g hlink.1 hlink.2.2
    have hmem := mem_tagged.mpr hyield
    rw [hl] at hmem
    obtain ⟨item, hitem', hreach, id', heq⟩ := mem_delivered hmem
    obtain ⟨r', -, hmsg⟩ := htells.only item hitem' hreach
    have heq := Except.ok.inj heq
    have hsender : j = g := congrArg Incoming.sender heq
    have hm : (⟨r, m⟩ : AnyMsg Msg) = ⟨r', M r' g i⟩ := (congrArg Incoming.msg heq).trans hmsg
    subst hsender
    cases hm
    rfl

/-- **Completing a round.** -/
theorem OnStage.complete (h : OnStage D M k res w) (hi : i < D.setup.n) (hh : ¬ D.setup.corrupt i)
    {r : ℕ} {next : List (ℕ × Msg r) → Proc Msg R (r + 1)} (hc : (w.party i).code = ⟨r, .recv next⟩)
    (hf : Follows D.setup.n i M k (res i) (next (collect D.setup.n i fun j => some (M r j i))))
    (hsent : w.sys.sent i = scriptSends D M i (r + 1))
    (hcomplete : D.rounds.complete D.setup.n i (D.kind r) r ((w.sys.yields i).map Prod.snd) =
      some (collect D.setup.n i fun j => some (M r j i))) :
    ∃ w', worldStep D (.complete i) w = some w' ∧ OnStage D M k res w' ∧ w'.party =
      Function.update w.party i (handOver (w.party i) (collect D.setup.n i fun j => some (M r j i)) next) := by
  have hstep : worldStep D (.complete i) w = some ⟨w.sys, Function.update w.party i
      (handOver (w.party i) (collect D.setup.n i fun j => some (M r j i)) next)⟩ := by
    show completeRound D i w = _
    unfold completeRound
    split
    · rename_i r' next' hc'
      cases hc.symm.trans hc'
      rw [hcomplete]
      rfl
    · rename_i hno
      exact absurd hc (hno r next)
  refine ⟨_, hstep, ⟨h.reached.tail (open_complete hi hh).1 hstep, h.staged, fun j hj hjc => ?_⟩, rfl⟩
  by_cases hji : j = i
  · subst hji
    refine .ready ?_ hf hsent
    show (Function.update w.party j (handOver (w.party j) _ next) j).code = _
    rw [Function.update_self]
    rfl
  · exact (h.honest j hj hjc).of_same (Function.update_of_ne hji ..) rfl

/-! ### Progress -/

/-- How much of its program is left to a party. -/
def toGo (k : ℕ) (l : Local Msg R) : ℕ := 2 * (k - l.code.1) + pending l.code

/-- An honest party that has neither returned nor is about to send waits in a round. -/
theorem OnWire.cases (h : OnWire D M k res w i)
    (hsend : ∀ r (out : ℕ → Option (Msg r)) next, (w.party i).code ≠ ⟨r, .send out next⟩) :
    (w.Returned i (res i) ∧ w.sys.sent i = scriptSends D M i k) ∨
      ∃ r, ∃ next : List (ℕ × Msg r) → Proc Msg R (r + 1), (w.party i).code = ⟨r, .recv next⟩ ∧
        Follows D.setup.n i M k (res i) (next (collect D.setup.n i fun j => some (M r j i))) ∧
        w.sys.sent i = scriptSends D M i (r + 1) := by
  cases h with
  | ready hc hf hsent =>
    cases hf with
    | done => exact .inl ⟨⟨_, hc⟩, hsent⟩
    | round hout hnext => exact absurd hc (hsend _ _ _)
  | waiting hc hf hsent => exact .inr ⟨_, _, hc, hf, hsent⟩

/-- **Progress.**  While an honest party has not returned, some run brings the script forward. -/
theorem OnStage.progress (h : OnStage D M k res w) (hcarry : CarriesScript D M k)
    (hbc : ∀ g, ¬ D.setup.corrupt g → Broadcasts D M g) (hrounds : D.rounds = firstInput)
    (hnot : ¬ ∀ i < D.setup.n, ¬ D.setup.corrupt i → w.Returned i (res i)) :
    ∃ w', Run (worldStep D) D.Open w w' ∧ OnStage D M k res w' ∧
      ∑ i ∈ Finset.range D.setup.n, toGo k (w'.party i) <
        ∑ i ∈ Finset.range D.setup.n, toGo k (w.party i) := by
  classical
  -- somebody can send
  by_cases hsend : ∃ i < D.setup.n, ¬ D.setup.corrupt i ∧ ∃ r, ∃ (out : ℕ → Option (Msg r)) (next : _),
      (w.party i).code = ⟨r, .send out next⟩
  · obtain ⟨i, hi, hh, r, out, next, hc⟩ := hsend
    cases h.honest i hi hh with
    | waiting hc' => cases hc.symm.trans hc'
    | @ready r p hc' hf hsent =>
      cases hc.symm.trans hc'
      cases hf with
      | round hout hnext =>
        obtain ⟨w', hstep, hw', hparty⟩ := h.send hcarry hi hh hc hout hnext hsent
        refine ⟨w', Run.single (open_emit hi hh) hstep, hw',
          sum_lt_of_change (Finset.mem_range.mpr hi) (fun j _ hji => ?_) ?_⟩
        · rw [hparty, Function.update_of_ne hji]
        · rw [hparty, Function.update_self]
          simp only [toGo, hc, Local.put, pending]
          omega
  -- otherwise look at a party that waits in the earliest round
  · push Not at hsend
    have hcases := fun i hi hh => (h.honest i hi hh).cases (hsend i hi hh)
    have hex : ∃ r, ∃ i < D.setup.n, ¬ D.setup.corrupt i ∧
        ∃ next : List (ℕ × Msg r) → Proc Msg R (r + 1), (w.party i).code = ⟨r, .recv next⟩ ∧
          Follows D.setup.n i M k (res i) (next (collect D.setup.n i fun j => some (M r j i))) ∧
          w.sys.sent i = scriptSends D M i (r + 1) := by
      push Not at hnot
      obtain ⟨i, hi, hh, hret⟩ := hnot
      rcases hcases i hi hh with ⟨hret', -⟩ | ⟨r, hr⟩
      · exact absurd hret' hret
      · exact ⟨r, i, hi, hh, hr⟩
    obtain ⟨i, hi, hh, next, hc, hf, hsent⟩ := Nat.find_spec hex
    obtain ⟨s, hrun, hw, hsame, hq⟩ := h.drain
    have hcomplete := hw.complete_eq hcarry hbc hrounds (hq.settledAt hi) (fun g => hq.idle) hi hf.le
      fun j hj hji hjc => by
        rcases hcases j hj hjc with ⟨-, hsentj⟩ | ⟨r', next', hc', hf', hsentj⟩
        · exact ⟨k, Nat.le_refl k, hf.le, (congrFun hsame j).trans hsentj⟩
        · have hmin := Nat.find_min' hex ⟨j, hj, hjc, next', hc', hf', hsentj⟩
          exact ⟨r' + 1, hf'.le, by omega, (congrFun hsame j).trans hsentj⟩
    obtain ⟨w', hstep, hw', hparty⟩ := hw.complete hi hh hc hf ((congrFun hsame i).trans hsent) hcomplete
    refine ⟨w', hrun.tail (open_complete hi hh) hstep, hw',
      sum_lt_of_change (Finset.mem_range.mpr hi) (fun j _ hji => ?_) ?_⟩
    · rw [hparty, Function.update_of_ne hji]
    · have hle := hf.le
      have hp := pending_le (⟨_, next (collect D.setup.n i fun j => some (M (Nat.find hex) j i))⟩ :
        (r : ℕ) × Proc Msg R r)
      rw [hparty, Function.update_self]
      simp only [toGo, hc, handOver, show pending ⟨_, .recv next⟩ = 0 from rfl]
      omega

/-! ### Runs -/

/-- The corrupt parties have put some of the bytes `W` on their connections, and nothing else has
    happened. -/
structure Injected (D : Deployment Msg R) (W : ℕ → ℕ → List UInt8) (w : World Msg R) : Prop where
  reached : WorldReached D w
  party : w.party = D.setup.init
  delivery : w.sys.delivery = TcpDelivery.fresh D.setup.n
  sent : ∀ g, w.sys.sent g = []
  written : ∀ g h, (w.sys.conn g h).written = [] ∨ (w.sys.conn g h).written = W g h

/-- They can put all of them there. -/
theorem exists_injected (D : Deployment Msg R) (W : ℕ → ℕ → List UInt8) :
    ∃ w, Injected D W w ∧ ∀ g h, Linked D.setup.n g h → D.setup.corrupt g →
      (w.sys.conn g h).written = W g h := by
  classical
  have hinit : Injected D W D.init := ⟨Run.refl _, rfl, rfl, fun _ => rfl, fun _ _ => .inl rfl⟩
  have hrun : ∃ w, Run (worldStep D) D.Allows D.init w ∧ Injected D W w ∧
      ∀ g h, Linked D.setup.n g h → D.setup.corrupt g → (w.sys.conn g h).written = W g h := by
    refine exists_run_of_measure (fun w => ∑ e ∈ Finset.range D.setup.n ×ˢ Finset.range D.setup.n,
      if (w.sys.conn e.1 e.2).written = W e.1 e.2 then 0 else 1) (fun w hw hnot => ?_) hinit
    push Not at hnot
    obtain ⟨g, h, hl, hg, hne⟩ := hnot
    have hnil := (hw.written g h).resolve_right hne
    have hstep : worldStep D (.net (.inject g h (W g h))) w =
        some { w with sys := w.sys.withConn g h ((w.sys.conn g h).put (W g h)) } := by
      rw [worldStep, step, if_pos hl]
      rfl
    have hself : ((w.sys.withConn g h ((w.sys.conn g h).put (W g h))).conn g h).written = W g h := by
      rw [withConn_self]
      show (w.sys.conn g h).written ++ W g h = W g h
      rw [hnil, List.nil_append]
    have hother : ∀ g' h', (g', h') ≠ (g, h) →
        (w.sys.withConn g h ((w.sys.conn g h).put (W g h))).conn g' h' = w.sys.conn g' h' := by
      intro g' h' hne'
      rw [withConn_conn, if_neg fun heq => hne' (Prod.ext heq.1 heq.2)]
    refine ⟨.net (.inject g h (W g h)), _, hg, hstep, ⟨Run.tail hw.reached (a := .net (.inject g h (W g h)))
      hg hstep, hw.party, hw.delivery, hw.sent, fun g' h' => ?_⟩,
      sum_lt_of_change hl.mem (fun e _ he => ?_) ?_⟩
    · by_cases heq : (g', h') = (g, h)
      · cases heq
        exact .inr hself
      · show ((w.sys.withConn g h _).conn g' h').written = [] ∨ _
        rw [hother g' h' heq]
        exact hw.written g' h'
    · show (if ((w.sys.withConn g h _).conn e.1 e.2).written = W e.1 e.2 then 0 else 1) = _
      rw [hother e.1 e.2 he]
    · show (if ((w.sys.withConn g h _).conn g h).written = W g h then 0 else 1) < _
      rw [if_pos hself, if_neg hne]
      exact Nat.zero_lt_one
  obtain ⟨w, -, hw⟩ := hrun
  exact ⟨w, hw⟩

/-- The corrupt parties can write their script before anything else happens. -/
theorem exists_onStage (hcarry : CarriesScript D M k)
    (hf : ∀ i < D.setup.n, ¬ D.setup.corrupt i → Follows D.setup.n i M k (res i) (D.setup.prog i)) :
    ∃ w, OnStage D M k res w := by
  have hbytes : ∀ g h, ∃ bytes, Linked D.setup.n g h →
      Reads D.codec.decoder bytes (posted D.codec g h (shownSends D M k g h)) [] := by
    intro g h
    by_cases hl : Linked D.setup.n g h
    · have hshown : ∀ item ∈ shownSends D M k g h, D.codec.Carries D.setup.n item.msg := by
        intro item hitem
        obtain ⟨r, hr, rfl⟩ := List.mem_map.mp hitem
        exact hcarry r (List.mem_range.mp hr) g hl.1 h hl.2.1 (Ne.symm hl.2.2)
      obtain ⟨bytes, hbytes⟩ := exists_written (h := h) hl.1 hshown
      exact ⟨bytes, fun _ => hbytes⟩
    · exact ⟨[], fun hl' => absurd hl' hl⟩
  choose W hW using hbytes
  obtain ⟨w, hw, hwritten⟩ := exists_injected D W
  refine ⟨w, hw.reached, ⟨fun g => ?_, fun g => ?_, fun g _ => hw.sent g, fun g h hl _ => ?_,
    fun g h hl hg => ?_⟩, fun i hi hh => ?_⟩
  · rw [hw.delivery]
    rfl
  · rw [hw.delivery]
    rfl
  · rw [hw.delivery]
    refine ⟨rfl, ?_⟩
    rw [queue_fresh hl]
    rfl
  · rw [hwritten g h hl hg]
    exact hW g h hl
  · refine .ready (r := 0) ?_ (hf i hi hh) (hw.sent i)
    rw [hw.party]
    rfl

/-- **A script is carried out over the transport.**  In some run every honest party returns its value
    of the script, and whatever is yielded from a connection is the script's and names its sender. -/
theorem exists_world_run (hcarry : CarriesScript D M k)
    (hbc : ∀ g, ¬ D.setup.corrupt g → Broadcasts D M g) (hrounds : D.rounds = firstInput)
    (hf : ∀ i < D.setup.n, ¬ D.setup.corrupt i → Follows D.setup.n i M k (res i) (D.setup.prog i)) :
    ∃ w, WorldReached D w ∧
      (∀ i < D.setup.n, ¬ D.setup.corrupt i → w.Returned i (res i)) ∧
      ∀ g h inc, (g, .ok inc) ∈ w.sys.yields h → inc.sender = g ∧ ∃ r, inc.msg = ⟨r, M r g h⟩ := by
  obtain ⟨w₀, hw₀⟩ := exists_onStage hcarry hf
  have hrun : ∃ w, Run (worldStep D) D.Open w₀ w ∧ OnStage D M k res w ∧
      ∀ i < D.setup.n, ¬ D.setup.corrupt i → w.Returned i (res i) :=
    exists_run_of_runs (fun w => ∑ i ∈ Finset.range D.setup.n, toGo k (w.party i))
      (fun w hw hnot => hw.progress hcarry hbc hrounds hnot) hw₀
  obtain ⟨w, -, hw, hret⟩ := hrun
  -- once everybody has returned, the network comes to rest
  obtain ⟨s, -, hw', -, hq⟩ := hw.drain
  refine ⟨_, hw'.reached, hret, fun g h inc hinc => ?_⟩
  have hl := hw'.reached.net.linked (List.mem_append_left _ hinc)
  obtain ⟨l, hl, htells⟩ : ∃ l, tagged g (s.yields h) = delivered g h l ∧ Tells D M g h 0 l := by
    by_cases hg : D.setup.corrupt g
    · exact hw'.staged.told hw'.reached.net hcarry (hq.settledAt hl.2.1) (hq.idle hl) hl (Nat.zero_le k)
        fun hno => absurd hg hno
    · obtain ⟨r, hr, hsent⟩ := (hw'.honest g hl.1 hg).exists_sent
      obtain ⟨l, heq, htells⟩ := hw'.staged.told hw'.reached.net hcarry (hq.settledAt hl.2.1)
        (hq.idle hl) hl hr fun _ => ⟨hbc g hg, hsent⟩
      exact ⟨l, heq, htells.only, fun r' hr' => absurd hr' (Nat.not_lt_zero r')⟩
  have hmem := mem_tagged.mpr hinc
  rw [hl] at hmem
  obtain ⟨item, hitem, hreach, id, heq⟩ := mem_delivered hmem
  obtain ⟨r, -, hmsg⟩ := htells.only item hitem hreach
  cases heq
  exact ⟨rfl, r, hmsg⟩

end Script

end Govis.Tcp
