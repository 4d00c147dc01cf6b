import Govis.Rounds.Sessions
import Govis.Tcp.Handshake
import Mathlib.Algebra.Ring.Nat

namespace Govis.Tcp

open Rounds

/-!
# The transport: all parties connect

`main.rs` calls `connect_tcp` before each of its protocols, at every party and whenever that party
gets there.  A dialer that finds nobody listening tries again, and the listener of one call is closed
before the next call opens its own.

* `Call` — one call of `connect_tcp`: its listener, its accept tasks and its dial tasks;
* `Mesh`, `Mesh.Step` — all calls at all parties, and the protocols between them;
* `Call.outcome_eq` — the table of a call whose tasks have reached the right parties.
-/

/-! ### One call -/

/-- A connection: a dial task of one call, and the call whose listener it has reached. -/
structure Link where
  dialer : ℕ
  dialerCall : ℕ
  acceptor : ℕ
  acceptorCall : ℕ
deriving DecidableEq, Repr

/-- An accept task: waiting for a connection, then for its handshake. -/
inductive Accept where
  | waiting
  | accepted (l : Link)
  | named (l : Link) (sender : UInt16)
deriving DecidableEq, Repr

/-- A dial task: retrying, then writing its handshake. -/
inductive Dial where
  | retrying
  | connected (l : Link)
  | named (l : Link)
deriving DecidableEq, Repr

def Accept.link? : Accept → Option Link
  | .waiting => none
  | .accepted l => some l
  | .named l _ => some l

def Dial.link? : Dial → Option Link
  | .retrying => none
  | .connected l => some l
  | .named l => some l

/-- The task holds on to the listener. -/
def Accept.Running : Accept → Prop
  | .named _ _ => False
  | _ => True

instance : DecidablePred Accept.Running
  | .waiting => inferInstanceAs (Decidable True)
  | .accepted _ => inferInstanceAs (Decidable True)
  | .named _ _ => inferInstanceAs (Decidable False)

inductive Stage where
  | fresh
  | connecting
  | connected (peers : List (Option Link))
  | panicked
deriving DecidableEq, Repr

/-- A call of `connect_tcp`. -/
structure Call where
  stage : Stage
  backlog : List Link
  accepts : List Accept
  dials : ℕ → Dial

namespace Call

/-- Not called yet. -/
def fresh : Call := ⟨.fresh, [], [], fun _ => .retrying⟩

/-- Party `i` listens, and has started its tasks. -/
def begun (i : ℕ) : Call := ⟨.connecting, [], List.replicate i .waiting, fun _ => .retrying⟩

/-- The listener is open until the last accept task is done with it. -/
def Listening (c : Call) : Prop := c.stage = .connecting ∧ ∃ a ∈ c.accepts, a.Running

instance (c : Call) : Decidable c.Listening := inferInstanceAs (Decidable (_ ∧ _))

/-- `listen(1024)`. -/
def maxBacklog : ℕ := 1024

/-- Connections to this listener. -/
def pending (c : Call) : List Link := c.backlog ++ c.accepts.filterMap Accept.link?

def Connected (c : Call) : Prop := ∃ peers, c.stage = .connected peers

def setDial (c : Call) (j : ℕ) (d : Dial) : Call := { c with dials := Function.update c.dials j d }

def enqueue (c : Call) (l : Link) : Call := { c with backlog := c.backlog ++ [l] }

/-- Accept task `a` takes a connection. -/
def accept (c : Call) (a : ℕ) (l : Link) (rest : List Link) : Call :=
  { c with accepts := c.accepts.set a (.accepted l), backlog := rest }

/-- Accept task `a` reads a handshake.  With the last one the listener is closed, and whoever waits for
    it is reset. -/
def name (c : Call) (a : ℕ) (l : Link) (sender : UInt16) : Call where
  stage := c.stage
  backlog := if ∃ b ∈ c.accepts.set a (.named l sender), b.Running then c.backlog else []
  accepts := c.accepts.set a (.named l sender)
  dials := c.dials

/-- The end of the call, from what the accept and the dial tasks have returned. -/
def outcome (n i : ℕ) (got : List (Link × UInt16)) (dialed : List Link) : Stage :=
  match connect n i (got.map fun e => (.ok e.2 : Except Empty UInt16)) (dialed.map fun _ => .ok ()) with
  | some (.ok table) => .connected (table.map fun slot =>
      slot.bind fun k => (got.map Prod.fst ++ dialed)[k]?)
  | some (.error e) => e.elim
  | none => .panicked

end Call

/-! ### All calls -/

/-- The calls of all sessions at all parties, the handshakes on the wire, and the protocols that the
    sessions run. -/
structure Mesh (P : ℕ → Protocol) where
  call : ℕ → ℕ → Call
  wire : Link → Option UInt16
  net : (k : ℕ) → (P k).State

namespace Mesh

variable {P : ℕ → Protocol}

def init : Mesh P := ⟨fun _ _ => .fresh, fun _ => none, fun k => (P k).init⟩

def setCall (w : Mesh P) (k i : ℕ) (c : Call) : Mesh P :=
  { w with call := fun k' i' => if k' = k ∧ i' = i then c else w.call k' i' }

def setWire (w : Mesh P) (l : Link) (sender : UInt16) : Mesh P :=
  { w with wire := Function.update w.wire l (some sender) }

def setNet (w : Mesh P) (k : ℕ) (s : (P k).State) : Mesh P :=
  { w with net := Function.update w.net k s }

section Update

variable (w : Mesh P) (k i : ℕ) (c : Call)

theorem setCall_call (k' i' : ℕ) :
    (w.setCall k i c).call k' i' = if k' = k ∧ i' = i then c else w.call k' i' := rfl

@[simp] theorem setCall_self : (w.setCall k i c).call k i = c := if_pos ⟨rfl, rfl⟩

@[simp] theorem setCall_wire : (w.setCall k i c).wire = w.wire := rfl
@[simp] theorem setCall_net : (w.setCall k i c).net = w.net := rfl
@[simp] theorem setWire_call (l : Link) (x : UInt16) : (w.setWire l x).call = w.call := rfl
@[simp] theorem setWire_net (l : Link) (x : UInt16) : (w.setWire l x).net = w.net := rfl
@[simp] theorem setNet_call (s : (P k).State) : (w.setNet k s).call = w.call := rfl
@[simp] theorem setNet_wire (s : (P k).State) : (w.setNet k s).wire = w.wire := rfl

end Update

/-- **The steps** of `n` parties that run the protocols of the sessions `0 .. K - 1`, one after the
    other. -/
inductive Step (n K : ℕ) (P : ℕ → Protocol) : Mesh P → Mesh P → Prop where
  /-- A party calls `connect_tcp`: at first, or when it has returned from the session before. -/
  | begin {w : Mesh P} {k i : ℕ} (hk : k < K) (hi : i < n) (hc : (w.call k i).stage = .fresh)
      (hprev : ∀ k', k' + 1 = k → (w.call k' i).Connected ∧ (P k').returned (w.net k') i) :
      Step n K P w (w.setCall k i (.begun i))
  /-- A dial task finds a listener. -/
  | dial {w : Mesh P} {k j i k' : ℕ} (hc : (w.call k j).stage = .connecting) (hj : i ∈ dialedPeers n j)
      (hd : (w.call k j).dials i = .retrying) (hl : (w.call k' i).Listening)
      (hroom : (w.call k' i).backlog.length < Call.maxBacklog) :
      Step n K P w ((w.setCall k j ((w.call k j).setDial i (.connected ⟨j, k, i, k'⟩))).setCall k' i
        ((w.call k' i).enqueue ⟨j, k, i, k'⟩))
  /-- It writes its index. -/
  | write {w : Mesh P} {k j i : ℕ} {l : Link} (hd : (w.call k j).dials i = .connected l) :
      Step n K P w
        ((w.setCall k j ((w.call k j).setDial i (.named l))).setWire l (UInt16.ofNat j))
  /-- An accept task takes the first connection of the backlog. -/
  | accept {w : Mesh P} {k i a : ℕ} {l : Link} {rest : List Link}
      (hc : (w.call k i).stage = .connecting) (ha : (w.call k i).accepts[a]? = some .waiting)
      (hb : (w.call k i).backlog = l :: rest) :
      Step n K P w (w.setCall k i ((w.call k i).accept a l rest))
  /-- It reads the index. -/
  | read {w : Mesh P} {k i a : ℕ} {l : Link} {x : UInt16} (hc : (w.call k i).stage = .connecting)
      (ha : (w.call k i).accepts[a]? = some (.accepted l)) (hx : w.wire l = some x) :
      Step n K P w (w.setCall k i ((w.call k i).name a l x))
  /-- All tasks are done. -/
  | finish {w : Mesh P} {k i : ℕ} {got : List (Link × UInt16)} {dialed : List Link}
      (hc : (w.call k i).stage = .connecting)
      (hacc : (w.call k i).accepts = got.map fun e => .named e.1 e.2)
      (hdial : (dialedPeers n i).map (w.call k i).dials = dialed.map .named) :
      Step n K P w (w.setCall k i { w.call k i with stage := Call.outcome n i got dialed })
  /-- A connected party moves in the protocol of the session. -/
  | run {w : Mesh P} {k i : ℕ} {s : (P k).State} (hc : (w.call k i).Connected)
      (hs : (P k).step i (w.net k) s) : Step n K P w (w.setNet k s)

/-- What can be reached. -/
def Reached (n K : ℕ) (w : Mesh P) : Prop := Relation.ReflTransGen (Step n K P) init w

end Mesh

/-! ### The table of a call -/

/-- The connection between two parties in session `k`: the lower one has dialled. -/
def linkBetween (k i j : ℕ) : Link := if i < j then ⟨i, k, j, k⟩ else ⟨j, k, i, k⟩

/-- It is the same from both sides. -/
theorem linkBetween_comm (k : ℕ) {i j : ℕ} (hij : i ≠ j) : linkBetween k i j = linkBetween k j i := by
  rcases Nat.lt_or_gt_of_ne hij with h | h
  · rw [linkBetween, linkBetween, if_pos h, if_neg (Nat.lt_asymm h)]
  · rw [linkBetween, linkBetween, if_pos h, if_neg (Nat.lt_asymm h)]

/-- The table of party `i` when it is connected to all others. -/
def meshTable (n k i : ℕ) : List (Option Link) :=
  (List.range n).map fun j => if j = i then none else some (linkBetween k i j)

/-- It has a connection to each of them. -/
theorem meshTable_getElem? {n k i j : ℕ} (hj : j < n) (hij : i ≠ j) :
    (meshTable n k i)[j]? = some (some (linkBetween k i j)) := by
  rw [meshTable, List.getElem?_map, List.getElem?_range hj, Option.map_some, if_neg hij.symm]

section Outcome

variable {n k i : ℕ} {got : List (Link × UInt16)} {dialed : List Link}

/-- The other end of a connection of party `i`. -/
def Link.other (i : ℕ) (l : Link) : ℕ := if l.acceptor = i then l.dialer else l.acceptor

/-- The connections of a call, and the indices they are bound to. -/
theorem map_other_links (hn : n ≤ 2 ^ 16)
    (hgot : ∀ e ∈ got, ∃ j < i, e = (⟨j, k, i, k⟩, UInt16.ofNat j)) (hi : i < n)
    (hdialed : dialed = (dialedPeers n i).map fun j => ⟨i, k, j, k⟩) :
    (got.map Prod.fst ++ dialed).map (Link.other i) =
      (got.map Prod.snd).map UInt16.toNat ++ dialedPeers n i := by
  rw [List.map_append, hdialed, List.map_map, List.map_map, List.map_map]
  congr 1
  · refine List.map_congr_left fun e he => ?_
    obtain ⟨j, hj, rfl⟩ := hgot e he
    have hlt : j < 2 ^ 16 := by omega
    show (if i = i then j else i) = (UInt16.ofNat j).toNat
    rw [if_pos rfl, UInt16.toNat_ofNat_of_lt' hlt]
  · refine (List.map_congr_left fun j hj => ?_).trans (List.map_id _)
    have hne : j ≠ i := by
      have := mem_dialedPeers.mp hj
      omega
    simp [Link.other, hne]

/-- **The outcome** of a call whose tasks have reached the parties that they should. -/
theorem Call.outcome_eq (hi : i < n) (hn : n ≤ 2 ^ 16) (hlen : got.length = i)
    (hnd : (got.map Prod.fst).Nodup)
    (hgot : ∀ e ∈ got, ∃ j < i, e = (⟨j, k, i, k⟩, UInt16.ofNat j))
    (hdialed : dialed = (dialedPeers n i).map fun j => ⟨i, k, j, k⟩) :
    Call.outcome n i got dialed = .connected (meshTable n k i) := by
  have hother := map_other_links hn hgot hi hdialed
  have htoNat : ∀ j < i, (UInt16.ofNat j).toNat = j := fun j hj =>
    UInt16.toNat_ofNat_of_lt' (lt_of_lt_of_le (lt_trans hj hi) hn)
  set senders := got.map Prod.snd with hsenders
  set links := got.map Prod.fst ++ dialed with hlinks
  -- no two handshakes are the same
  have hsnd : senders.Nodup := by
    have hinj : ∀ e ∈ got, ∀ e' ∈ got, e.2 = e'.2 → e = e' := by
      intro e he e' he' heq
      obtain ⟨j, hj, rfl⟩ := hgot e he
      obtain ⟨j', hj', rfl⟩ := hgot e' he'
      have hjj : (UInt16.ofNat j).toNat = (UInt16.ofNat j').toNat := congrArg UInt16.toNat heq
      rw [htoNat j hj, htoNat j' hj'] at hjj
      rw [hjj]
    exact (List.Nodup.of_map _ hnd).map_on hinj
  have hlt : ∀ s ∈ senders, s.toNat < i := by
    intro s hs
    obtain ⟨e, he, rfl⟩ := List.mem_map.mp hs
    obtain ⟨j, hj, rfl⟩ := hgot e he
    rwa [htoNat j hj]
  obtain ⟨hcnd, hcmem⟩ := mem_connections hi (by rw [hsenders, List.length_map, hlen]) hsnd hlt
  have haccepted : collectResults (got.map fun e => (.ok e.2 : Except Empty UInt16)) = .ok senders := by
    rw [collectResults_eq_ok, hsenders, List.map_map]
    rfl
  obtain ⟨units, hunits⟩ : ∃ units,
      collectResults (dialed.map fun _ => (.ok () : Except Empty Unit)) = .ok units := by
    refine exists_collectResults_iff.mpr fun r hr => ?_
    obtain ⟨-, -, rfl⟩ := List.mem_map.mp hr
    rfl
  have hbetween : ∀ l ∈ links, l = linkBetween k i (l.other i) := by
    intro l hl
    rcases List.mem_append.mp hl with hl | hl
    · obtain ⟨e, he, rfl⟩ := List.mem_map.mp hl
      obtain ⟨j, hj, rfl⟩ := hgot e he
      simp [Link.other, linkBetween, Nat.lt_asymm hj]
    · rw [hdialed] at hl
      obtain ⟨j, hj, rfl⟩ := List.mem_map.mp hl
      obtain ⟨hij, -⟩ := mem_dialedPeers.mp hj
      simp [Link.other, linkBetween, hij, Nat.ne_of_gt hij]
  unfold Call.outcome connect
  simp only [haccepted, hunits, bindPeers_eq hi hcnd hcmem, Option.map_some, List.map_map, meshTable]
  refine congrArg Stage.connected (List.map_congr_left fun j hj => ?_)
  simp only [Function.comp_apply]
  by_cases hji : j = i
  · rw [if_pos hji, if_pos hji]
    rfl
  · rw [if_neg hji, if_neg hji, Option.bind_some]
    have hpos := List.getElem?_idxOf ((hcmem j).mpr ⟨List.mem_range.mp hj, hji⟩)
    rw [← hother, List.getElem?_map] at hpos
    obtain ⟨l, hl, hlj⟩ := Option.map_eq_some_iff.mp hpos
    rw [hother] at hl
    rw [hl, hbetween l (List.mem_of_getElem? hl), hlj]

end Outcome

end Govis.Tcp
