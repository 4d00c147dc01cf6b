import Govis.Tcp.Delivery
import Govis.Transition

namespace Govis.Tcp

open Framing Transition

/-!
# The transport: the network

All parties with their deliveries, and one connection in each direction between any two of them.

* `Act`, `step` — what the programs, the tasks and the network do, in any order;
* `step_cases` — what a step can do;
* `Moved`, `step_moved` — what a step does to one connection and its receiver;
* `Fed`, `Reached.fed` — the items of a connection are those of the frames that were written on it.
-/

variable {M : Type}

/-- The connection on which one party writes to another: what was written on it, what is still on its
    way, what the read task holds, and the state of that task. -/
structure Conn where
  written : List UInt8
  wire : List UInt8
  buf : List UInt8
  nextId : ℕ
  stopped : Bool

def Conn.fresh : Conn := ⟨[], [], [], 0, false⟩

def Conn.put (c : Conn) (bytes : List UInt8) : Conn :=
  { c with written := c.written ++ bytes, wire := c.wire ++ bytes }

/-- The next `k` bytes arrive. -/
def Conn.arrive (c : Conn) (k : ℕ) : Conn :=
  { c with wire := c.wire.drop k, buf := c.buf ++ c.wire.take k }

/-- The read task takes a frame from its buffer, or gives up. -/
def readTask (codec : Codec M) (c : Conn) : Option (List (Except IoError (Incoming M)) × Conn) :=
  if c.stopped then none
  else
    match codec.decoder.decode c.buf with
    | .wait => none
    | .frame f rest => some ([(readFrame codec c.nextId f).1],
        { c with buf := rest, nextId := (readFrame codec c.nextId f).2 })
    | .fail => some ([], { c with stopped := true })

/-- The write task takes the next message for peer `h`; if it does not fit a frame, the task ends. -/
def writeTask (codec : Codec M) (d : TcpDelivery M) (h : ℕ) :
    Option (TcpDelivery M × List UInt8) :=
  match d.queue h with
  | none => none
  | some [] => none
  | some (bytes :: rest) =>
    match codec.encode bytes with
    | some out => some ({ d with peerTx := d.peerTx.set h (some rest) }, out)
    | none => some ({ d with peerTx := d.peerTx.set h none }, [])

/-- The state: what every party has sent and its delivery has yielded, with the connection an item
    came on. -/
structure Sys (M : Type) where
  delivery : ℕ → TcpDelivery M
  conn : ℕ → ℕ → Conn
  sent : ℕ → List (Outgoing M)
  yields : ℕ → List (ℕ × Except IoError (Incoming M))

/-- After `connect_tcp` at all of the `n` parties. -/
def Sys.init (n : ℕ) : Sys M where
  delivery := TcpDelivery.fresh n
  conn _ _ := Conn.fresh
  sent _ := []
  yields _ := []

def Sys.withDelivery (s : Sys M) (g : ℕ) (d : TcpDelivery M) : Sys M :=
  { s with delivery := Function.update s.delivery g d }

def Sys.withConn (s : Sys M) (g h : ℕ) (c : Conn) : Sys M :=
  { s with conn := fun g' h' => if g' = g ∧ h' = h then c else s.conn g' h' }

def Sys.withSent (s : Sys M) (g : ℕ) (item : Outgoing M) : Sys M :=
  { s with sent := Function.update s.sent g (s.sent g ++ [item]) }

def Sys.withYield (s : Sys M) (h : ℕ) (e : ℕ × Except IoError (Incoming M)) : Sys M :=
  { s with yields := Function.update s.yields h (s.yields h ++ [e]) }

section Update

variable (s : Sys M) (g h : ℕ) (d : TcpDelivery M) (c : Conn)

@[simp] theorem withDelivery_self : (s.withDelivery g d).delivery g = d := Function.update_self ..

theorem withDelivery_of_ne {k : ℕ} (hk : k ≠ g) : (s.withDelivery g d).delivery k = s.delivery k :=
  Function.update_of_ne hk ..

@[simp] theorem withDelivery_conn : (s.withDelivery g d).conn = s.conn := rfl
@[simp] theorem withDelivery_sent : (s.withDelivery g d).sent = s.sent := rfl
@[simp] theorem withDelivery_yields : (s.withDelivery g d).yields = s.yields := rfl

@[simp] theorem withConn_self : (s.withConn g h c).conn g h = c := if_pos ⟨rfl, rfl⟩

theorem withConn_conn (g' h' : ℕ) :
    (s.withConn g h c).conn g' h' = if g' = g ∧ h' = h then c else s.conn g' h' := rfl

@[simp] theorem withConn_delivery : (s.withConn g h c).delivery = s.delivery := rfl
@[simp] theorem withConn_sent : (s.withConn g h c).sent = s.sent := rfl
@[simp] theorem withConn_yields : (s.withConn g h c).yields = s.yields := rfl

end Update

/-- What can happen: calls of a program, steps of a task, bytes from a party that does not follow the
    program, and bytes arriving. -/
inductive Act (M : Type) where
  | send (g : ℕ) (item : Outgoing M)
  | flush (g : ℕ)
  | close (g : ℕ)
  | next (h : ℕ)
  | write (g h : ℕ)
  | inject (g h : ℕ) (bytes : List UInt8)
  | arrive (g h k : ℕ)
  | read (g h : ℕ)

/-- The process in which it happens. -/
def Act.party : Act M → ℕ
  | .send g _ => g
  | .flush g => g
  | .close g => g
  | .next h => h
  | .write g _ => g
  | .inject g _ _ => g
  | .arrive _ h _ => h
  | .read _ h => h

/-- There is a connection from `g` to `h`. -/
def Linked (n g h : ℕ) : Prop := g < n ∧ h < n ∧ g ≠ h

instance (n g h : ℕ) : Decidable (Linked n g h) := inferInstanceAs (Decidable (_ ∧ _))

/-- One step of the network. -/
def step (codec : Codec M) (n : ℕ) : Act M → Sys M → Option (Sys M)
  | .send g item, s =>
    if g < n then
      match startSend codec (s.delivery g) item with
      | .error _ => none
      | .ok d => some ((s.withDelivery g d).withSent g item)
    else none
  | .flush g, s => if g < n then some (s.withDelivery g (pollFlush (s.delivery g))) else none
  | .close g, s => if g < n then some (s.withDelivery g (pollClose (s.delivery g))) else none
  | .next h, s =>
    if h < n then (pollNext (s.delivery h)).map fun e => (s.withDelivery h e.2).withYield h e.1
    else none
  | .write g h, s =>
    if Linked n g h then (writeTask codec (s.delivery g) h).map fun e =>
      (s.withDelivery g e.1).withConn g h ((s.conn g h).put e.2)
    else none
  | .inject g h bytes, s =>
    if Linked n g h then some (s.withConn g h ((s.conn g h).put bytes)) else none
  | .arrive g h k, s =>
    if Linked n g h then some (s.withConn g h ((s.conn g h).arrive k)) else none
  | .read g h, s =>
    if Linked n g h then (readTask codec (s.conn g h)).map fun e =>
      (s.withDelivery h ((s.delivery h).receive g e.1)).withConn g h e.2
    else none

/-- What a step can do, with all that it checks. -/
inductive Stepped (codec : Codec M) (n : ℕ) (s : Sys M) : Act M → Sys M → Prop where
  | send {g : ℕ} {item : Outgoing M} {d : TcpDelivery M} : g < n →
      startSend codec (s.delivery g) item = .ok d →
      Stepped codec n s (.send g item) ((s.withDelivery g d).withSent g item)
  | flush {g : ℕ} : g < n →
      Stepped codec n s (.flush g) (s.withDelivery g (pollFlush (s.delivery g)))
  | close {g : ℕ} : g < n →
      Stepped codec n s (.close g) (s.withDelivery g (pollClose (s.delivery g)))
  | next {h : ℕ} {e : ℕ × Except IoError (Incoming M)} {d : TcpDelivery M} : h < n →
      pollNext (s.delivery h) = some (e, d) →
      Stepped codec n s (.next h) ((s.withDelivery h d).withYield h e)
  | write {g h : ℕ} {d : TcpDelivery M} {out : List UInt8} : Linked n g h →
      writeTask codec (s.delivery g) h = some (d, out) →
      Stepped codec n s (.write g h) ((s.withDelivery g d).withConn g h ((s.conn g h).put out))
  | inject {g h : ℕ} (bytes : List UInt8) : Linked n g h →
      Stepped codec n s (.inject g h bytes) (s.withConn g h ((s.conn g h).put bytes))
  | arrive {g h : ℕ} (k : ℕ) : Linked n g h →
      Stepped codec n s (.arrive g h k) (s.withConn g h ((s.conn g h).arrive k))
  | read {g h : ℕ} {items : List (Except IoError (Incoming M))} {c : Conn} : Linked n g h →
      readTask codec (s.conn g h) = some (items, c) →
      Stepped codec n s (.read g h)
        ((s.withDelivery h ((s.delivery h).receive g items)).withConn g h c)

/-- **Inversion.** -/
theorem step_cases {codec : Codec M} {n : ℕ} {a : Act M} {s s' : Sys M}
    (hs : step codec n a s = some s') : Stepped codec n s a s' := by
  cases a with
  | send g item =>
    obtain ⟨hg, hs⟩ := Option.ite_none_right_eq_some.mp hs
    split at hs
    · cases hs
    · rename_i d hd
      cases hs
      exact .send hg hd
  | flush g =>
    obtain ⟨hg, hs⟩ := Option.ite_none_right_eq_some.mp hs
    cases hs
    exact .flush hg
  | close g =>
    obtain ⟨hg, hs⟩ := Option.ite_none_right_eq_some.mp hs
    cases hs
    exact .close hg
  | next h =>
    obtain ⟨hh, hs⟩ := Option.ite_none_right_eq_some.mp hs
    obtain ⟨⟨e, d⟩, he, rfl⟩ := Option.map_eq_some_iff.mp hs
    exact .next hh he
  | write g h =>
    obtain ⟨hl, hs⟩ := Option.ite_none_right_eq_some.mp hs
    obtain ⟨⟨d, out⟩, hw, rfl⟩ := Option.map_eq_some_iff.mp hs
    exact .write hl hw
  | inject g h bytes =>
    obtain ⟨hl, hs⟩ := Option.ite_none_right_eq_some.mp hs
    cases hs
    exact .inject bytes hl
  | arrive g h k =>
    obtain ⟨hl, hs⟩ := Option.ite_none_right_eq_some.mp hs
    cases hs
    exact .arrive k hl
  | read g h =>
    obtain ⟨hl, hs⟩ := Option.ite_none_right_eq_some.mp hs
    obtain ⟨⟨items, c⟩, hr, rfl⟩ := Option.map_eq_some_iff.mp hs
    exact .read hl hr

/-- What the network can reach when only some actions happen. -/
def Reached (codec : Codec M) (n : ℕ) (ok : Act M → Prop) (s : Sys M) : Prop :=
  Run (step codec n) ok (Sys.init n) s

/-! ### What a step does to the receiver of a connection -/

section Receiver

variable {codec : Codec M} {n g h : ℕ} {s s' : Sys M}

/-- Everything that has come to party `h`, in order. -/
def Sys.items (s : Sys M) (h : ℕ) : List (ℕ × Except IoError (Incoming M)) :=
  s.yields h ++ (s.delivery h).incoming

theorem startSend_eq_ok {d d' : TcpDelivery M} {item : Outgoing M}
    (h : startSend codec d item = .ok d') :
    ∃ bytes, codec.serialize ⟨d.myIndex, wireType item.recipient, item.msg⟩ = some bytes ∧
      d' = { d with pending := d.pending ++ [(bytes, d.recipients item.recipient)] } := by
  unfold startSend at h
  split at h
  · cases h
  · split at h
    · cases h
    · rename_i bytes hbytes
      exact ⟨bytes, hbytes, (Except.ok.inj h).symm⟩

theorem writeTask_eq_some {d d' : TcpDelivery M} {out : List UInt8}
    (hw : writeTask codec d h = some (d', out)) :
    ∃ bytes rest, d.queue h = some (bytes :: rest) ∧
      (codec.encode bytes = some out ∧ d' = { d with peerTx := d.peerTx.set h (some rest) } ∨
        codec.encode bytes = none ∧ out = [] ∧ d' = { d with peerTx := d.peerTx.set h none }) := by
  unfold writeTask at hw
  split at hw
  · cases hw
  · cases hw
  · rename_i bytes rest hq
    refine ⟨bytes, rest, hq, ?_⟩
    split at hw
    · rename_i out' hout
      cases hw
      exact .inl ⟨hout, rfl⟩
    · rename_i hout
      cases hw
      exact .inr ⟨hout, rfl, rfl⟩

/-- What the write task of another peer does to the queue for `h`. -/
theorem queue_writeTask_of_ne {d d' : TcpDelivery M} {out : List UInt8} {h' : ℕ} (hne : h' ≠ h)
    (hw : writeTask codec d h' = some (d', out)) :
    d'.myIndex = d.myIndex ∧ d'.queue h = d.queue h ∧ d'.pending = d.pending := by
  obtain ⟨bytes, rest, -, ⟨-, rfl⟩ | ⟨-, -, rfl⟩⟩ := writeTask_eq_some hw
  · exact ⟨rfl, by simp [TcpDelivery.queue, List.getElem?_set_ne hne], rfl⟩
  · exact ⟨rfl, by simp [TcpDelivery.queue, List.getElem?_set_ne hne], rfl⟩

/-- What the write task for `h` does. -/
theorem queue_writeTask {d d' : TcpDelivery M} {out : List UInt8}
    (hw : writeTask codec d h = some (d', out)) :
    d'.myIndex = d.myIndex ∧ d'.pending = d.pending ∧ ∃ bytes rest,
      d.queue h = some (bytes :: rest) ∧
      (codec.encode bytes = some out ∧ d'.queue h = some rest ∨
        codec.encode bytes = none ∧ out = [] ∧ d'.queue h = none) := by
  obtain ⟨bytes, rest, hq, hcase⟩ := writeTask_eq_some hw
  have hlt : h < d.peerTx.length := lt_of_isSome_queue (by rw [hq]; rfl)
  obtain ⟨hout, rfl⟩ | ⟨hout, hnil, rfl⟩ := hcase
  · exact ⟨rfl, rfl, bytes, rest, hq, .inl ⟨hout, by simp [TcpDelivery.queue, hlt]⟩⟩
  · exact ⟨rfl, rfl, bytes, rest, hq, .inr ⟨hout, hnil, by simp [TcpDelivery.queue, hlt]⟩⟩

/-- No call and no write task touches what has come in. -/
theorem writeTask_incoming {d d' : TcpDelivery M} {out : List UInt8}
    (hw : writeTask codec d h = some (d', out)) : d'.incoming = d.incoming := by
  obtain ⟨bytes, rest, -, ⟨-, rfl⟩ | ⟨-, -, rfl⟩⟩ := writeTask_eq_some hw
  · rfl
  · rfl

/-- `Moved codec n g h c l c' l'`: a step takes the connection from `g` to `h` from `c` to `c'` and
    the items at `h` from `l` to `l'`. -/
inductive Moved (codec : Codec M) (n g h : ℕ) (c : Conn)
    (l : List (ℕ × Except IoError (Incoming M))) :
    Conn → List (ℕ × Except IoError (Incoming M)) → Prop where
  | stay : Moved codec n g h c l c l
  | put (bytes : List UInt8) : Moved codec n g h c l (c.put bytes) l
  | arrive (k : ℕ) : Moved codec n g h c l (c.arrive k) l
  | read {items : List (Except IoError (Incoming M))} {c' : Conn} : Linked n g h →
      readTask codec c = some (items, c') → Moved codec n g h c l c' (l ++ items.map (Prod.mk g))
  | other {g' : ℕ} (items : List (Except IoError (Incoming M))) : Linked n g' h → g' ≠ g →
      Moved codec n g h c l c (l ++ items.map (Prod.mk g'))

theorem Moved.of_eq {c c' : Conn} {l l' : List (ℕ × Except IoError (Incoming M))} (hc : c' = c)
    (hl : l' = l) : Moved codec n g h c l c' l' := by
  rw [hc, hl]
  exact .stay

/-- The items of a party are those of its delivery and those it has yielded. -/
theorem items_congr (hy : s'.yields = s.yields)
    (hd : ∀ k, (s'.delivery k).incoming = (s.delivery k).incoming) (h : ℕ) : s'.items h = s.items h := by
  rw [Sys.items, hy, hd]
  rfl

theorem withDelivery_incoming {d : TcpDelivery M} (hd : d.incoming = (s.delivery g).incoming) (k : ℕ) :
    ((s.withDelivery g d).delivery k).incoming = (s.delivery k).incoming := by
  by_cases hk : k = g
  · rw [hk, withDelivery_self, hd]
  · rw [withDelivery_of_ne _ _ _ hk]

/-- **Step lemma of a connection.** -/
theorem step_moved {a : Act M} (hs : step codec n a s = some s') (g h : ℕ) :
    Moved codec n g h (s.conn g h) (s.items h) (s'.conn g h) (s'.items h) := by
  -- a delivery whose incoming items stay as they are
  have hsame : ∀ (k : ℕ) (d : TcpDelivery M), d.incoming = (s.delivery k).incoming →
      (s.withDelivery k d).items h = s.items h := by
    intro k d hd
    refine items_congr ?_ (withDelivery_incoming hd) h
    rfl
  cases step_cases hs with
  | @send k item d _ hd =>
    obtain ⟨bytes, -, rfl⟩ := startSend_eq_ok hd
    exact .of_eq rfl (hsame k _ rfl)
  | @flush k => exact .of_eq rfl (hsame k _ rfl)
  | @close k => exact .of_eq rfl (hsame k _ rfl)
  | @next k e d _ he =>
    -- the item moves from one list to the other
    have hitems : Sys.items ((s.withDelivery k d).withYield k e) h = s.items h := by
      by_cases hh : h = k
      · subst hh
        simp [Sys.items, Sys.withYield, (pollNext_eq_some he).1]
      · simp [Sys.items, Sys.withYield, withDelivery_of_ne _ _ _ hh, Function.update_of_ne hh]
    exact .of_eq rfl hitems
  | @write g' h' d out _ hw =>
    have hitems : Sys.items ((s.withDelivery g' d).withConn g' h' ((s.conn g' h').put out)) h =
        s.items h := hsame g' d (writeTask_incoming hw)
    rw [hitems, withConn_conn]
    split
    · rename_i heq
      obtain ⟨rfl, rfl⟩ := heq
      exact .put out
    · exact .stay
  | inject bytes =>
    rw [show Sys.items _ h = s.items h from rfl, withConn_conn]
    split
    · rename_i heq
      obtain ⟨rfl, rfl⟩ := heq
      exact .put bytes
    · exact .stay
  | arrive k =>
    rw [show Sys.items _ h = s.items h from rfl, withConn_conn]
    split
    · rename_i heq
      obtain ⟨rfl, rfl⟩ := heq
      exact .arrive k
    · exact .stay
  | @read g' h' items c hlink hr =>
    rw [withConn_conn]
    by_cases hh : h = h'
    · subst hh
      have hitems : Sys.items ((s.withDelivery h ((s.delivery h).receive g' items)).withConn g' h c) h =
          s.items h ++ items.map (Prod.mk g') := by
        simp [Sys.items, TcpDelivery.receive]
      rw [hitems]
      by_cases hg : g = g'
      · subst hg
        rw [if_pos ⟨rfl, rfl⟩]
        exact .read hlink hr
      · rw [if_neg (fun heq => hg heq.1)]
        exact .other items hlink (Ne.symm hg)
    · have hitems : Sys.items ((s.withDelivery h' ((s.delivery h').receive g' items)).withConn g' h' c)
          h = s.items h := by
        simp [Sys.items, withDelivery_of_ne _ _ _ hh]
      rw [hitems, if_neg (fun heq => hh heq.2)]
      exact .stay

/-- The items that came on the connection from `g`. -/
def tagged (g : ℕ) (l : List (ℕ × Except IoError (Incoming M))) : List (Except IoError (Incoming M)) :=
  l.filterMap fun e => if e.1 = g then some e.2 else none

theorem mem_tagged {l : List (ℕ × Except IoError (Incoming M))} {item : Except IoError (Incoming M)} :
    item ∈ tagged g l ↔ (g, item) ∈ l := by
  simp only [tagged, List.mem_filterMap, Option.ite_none_right_eq_some, Option.some.injEq]
  constructor
  · rintro ⟨⟨g', item'⟩, he, rfl, rfl⟩
    exact he
  · intro h
    exact ⟨(g, item), h, rfl, rfl⟩

@[simp] theorem tagged_append (g : ℕ) (l l' : List (ℕ × Except IoError (Incoming M))) :
    tagged g (l ++ l') = tagged g l ++ tagged g l' :=
  List.filterMap_append

@[simp] theorem tagged_map_self (g : ℕ) (items : List (Except IoError (Incoming M))) :
    tagged g (items.map (Prod.mk g)) = items := by
  simp [tagged, List.filterMap_map]

theorem tagged_map_of_ne {g' : ℕ} (hg : g' ≠ g) (items : List (Except IoError (Incoming M))) :
    tagged g (items.map (Prod.mk g')) = [] := by
  simp [tagged, List.filterMap_map, hg]

/-- What has been read off a connection, the frames `done`, has become the given items. -/
structure Fed (codec : Codec M) (c : Conn) (done : List (List UInt8))
    (items : List (Except IoError (Incoming M))) : Prop where
  reads : Reads codec.decoder c.written done (c.buf ++ c.wire)
  stopped : c.stopped = true → codec.decoder.decode c.buf = .fail
  items : readFrames codec done = (items, c.nextId)

theorem readTask_eq_some {c c' : Conn} {items : List (Except IoError (Incoming M))}
    (h : readTask codec c = some (items, c')) : c.stopped = false ∧
      ((∃ f rest, codec.decoder.decode c.buf = .frame f rest ∧
        items = [(readFrame codec c.nextId f).1] ∧
        c' = { c with buf := rest, nextId := (readFrame codec c.nextId f).2 }) ∨
      codec.decoder.decode c.buf = .fail ∧ items = [] ∧ c' = { c with stopped := true }) := by
  unfold readTask at h
  split at h
  · cases h
  · rename_i hstop
    refine ⟨Bool.eq_false_iff.mpr hstop, ?_⟩
    split at h
    · cases h
    · rename_i f rest hd
      cases h
      exact .inl ⟨f, rest, hd, rfl, rfl⟩
    · rename_i hd
      cases h
      exact .inr ⟨hd, rfl, rfl⟩

/-- **Step lemma.**  Every step keeps the items those of the frames. -/
theorem Moved.fed {c c' : Conn} {l l' : List (ℕ × Except IoError (Incoming M))}
    (hm : Moved codec n g h c l c' l') {done : List (List UInt8)}
    (hf : Fed codec c done (tagged g l)) : ∃ done', Fed codec c' done' (tagged g l') := by
  cases hm with
  | stay => exact ⟨done, hf⟩
  | put bytes =>
    refine ⟨done, ?_, hf.stopped, hf.items⟩
    show Reads codec.decoder (c.written ++ bytes) done (c.buf ++ (c.wire ++ bytes))
    rw [← List.append_assoc]
    exact hf.reads.append bytes
  | arrive k =>
    refine ⟨done, ?_, fun hstop => codec.decoder.fail_append (hf.stopped hstop) _, hf.items⟩
    show Reads codec.decoder c.written done (c.buf ++ c.wire.take k ++ c.wire.drop k)
    rw [List.append_assoc, List.take_append_drop]
    exact hf.reads
  | read _ hread =>
    rw [tagged_append, tagged_map_self]
    obtain ⟨hstop, ⟨f, rest, hd, rfl, rfl⟩ | ⟨hd, rfl, rfl⟩⟩ := readTask_eq_some hread
    · refine ⟨done ++ [f], hf.reads.snoc (codec.decoder.frame_append hd c.wire), fun hs => ?_, ?_⟩
      · rw [hstop] at hs
        cases hs
      · rw [readFrames_concat, hf.items]
    · rw [List.append_nil]
      exact ⟨done, hf.reads, fun _ => hd, hf.items⟩
  | other items _ hne =>
    rw [tagged_append, tagged_map_of_ne hne, List.append_nil]
    exact ⟨done, hf⟩

variable {ok : Act M → Prop}

/-- **Run lemma.** -/
theorem Reached.fed (hs : Reached codec n ok s) (g h : ℕ) :
    ∃ done, Fed codec (s.conn g h) done (tagged g (s.items h)) := by
  refine hs.invariant (P := fun s => ∃ done, Fed codec (s.conn g h) done (tagged g (s.items h)))
    (fun a s s' _ hstep hP => ?_) ⟨[], .nil _, fun hstop => ?_, rfl⟩
  · obtain ⟨done, hdone⟩ := hP
    exact (step_moved hstep g h).fed hdone
  · cases hstop

/-- Every item came on a connection. -/
theorem Reached.linked (hs : Reached codec n ok s) {h : ℕ} {e : ℕ × Except IoError (Incoming M)}
    (he : e ∈ s.items h) : Linked n e.1 h := by
  refine hs.invariant (P := fun s => ∀ e ∈ s.items h, Linked n e.1 h)
    (fun a s s' _ hstep hP e he => ?_) (fun e he => by cases he) e he
  have hnew : ∀ (g' : ℕ) (items : List (Except IoError (Incoming M))), Linked n g' h →
      e ∈ s.items h ++ items.map (Prod.mk g') → Linked n e.1 h := by
    intro g' items hlink he
    rcases List.mem_append.mp he with he | he
    · exact hP e he
    · obtain ⟨item, -, rfl⟩ := List.mem_map.mp he
      exact hlink
  have hmoved := step_moved hstep 0 h
  generalize s'.items h = l' at he hmoved
  generalize s'.conn 0 h = c' at hmoved
  cases hmoved with
  | stay => exact hP e he
  | put => exact hP e he
  | arrive => exact hP e he
  | read hlink _ => exact hnew _ _ hlink he
  | other items hlink _ => exact hnew _ items hlink he

/-- **Every message was a frame.**  A message that has come to party `h` came on one of its
    connections, and some frame that was written there says what it says. -/
theorem Reached.exists_frame (hs : Reached codec n ok s) {h : ℕ} {inc : Incoming M}
    (he : (g, .ok inc) ∈ s.items h) : Linked n g h ∧
      ∃ buf ∈ codec.decoder.frames (s.conn g h).written, ∃ wire, codec.deserialize buf = some wire ∧
        inc.sender = wire.sender ∧ inc.msgType = incomingType wire.msgType ∧ inc.msg = wire.msg := by
  obtain ⟨done, hfed⟩ := hs.fed g h
  have hmem := mem_tagged.mpr he
  rw [show tagged g (s.items h) = (readFrames codec done).1 from
    (congrArg Prod.fst hfed.items).symm] at hmem
  obtain ⟨buf, hbuf, hwire⟩ := exists_frame_of_mem hmem
  exact ⟨hs.linked he, buf, hfed.reads.le_frames.subset hbuf, hwire⟩

end Receiver

end Govis.Tcp
