import Govis.Tcp.Delivery
import Mathlib.Data.List.Nodup

namespace Govis.Tcp

/-!
# The transport: setting up the connections

`connect_tcp` accepts one connection for each lower index and dials each higher one.  Whoever is
accepted names its index in a handshake of 16 bits, which nothing checks before it indexes the
table.  Nobody can take over a slot for good, since another one then stays empty: `connect_tcp`
panics instead.

* `connect` — `connect_tcp` from what came of its accept and dial tasks;
* `ConnectSafe` — it returns an error, or a table in which everything is bound as it should be;
* `connect_safe_iff` — the condition on the handshakes under which it does;
* `connect_panics` — the ways to break it.
-/

variable {M α ε : Type} {n myIndex : ℕ}

/-! ### Collecting the results -/

/-- The loop over the handles of some tasks: the first error is returned. -/
def collectResults : List (Except ε α) → Except ε (List α)
  | [] => .ok []
  | r :: rest => do
    let a ← r
    let results ← collectResults rest
    return a :: results

theorem collectResults_eq_ok {rs : List (Except ε α)} {results : List α} :
    collectResults rs = .ok results ↔ rs = results.map .ok := by
  induction rs generalizing results with
  | nil =>
    cases results with
    | nil => simp [collectResults]
    | cons a results => simp [collectResults]
  | cons r rs ih =>
    cases r with
    | error e =>
      cases results with
      | nil => simp [collectResults, bind, Except.bind]
      | cons a results => simp [collectResults, bind, Except.bind]
    | ok a =>
      cases hrest : collectResults rs with
      | error e =>
        have hne : ∀ l : List α, rs ≠ l.map .ok := fun l hl => by
          rw [ih.mpr hl] at hrest
          cases hrest
        cases results with
        | nil => simp [collectResults, hrest, bind, Except.bind]
        | cons b results => simp [collectResults, hrest, bind, Except.bind, hne]
      | ok l =>
        obtain rfl := ih.mp hrest
        cases results with
        | nil => simp [collectResults, hrest, bind, Except.bind, pure, Except.pure]
        | cons b results =>
          have hinj : l.map (.ok : α → Except ε α) = results.map .ok ↔ l = results :=
            (List.map_injective_iff.mpr fun _ _ h => Except.ok.inj h).eq_iff
          simp [collectResults, hrest, bind, Except.bind, pure, Except.pure, hinj]

/-- Tasks that return nothing but success. -/
theorem exists_collectResults_iff {rs : List (Except ε Unit)} :
    (∃ units, collectResults rs = .ok units) ↔ ∀ r ∈ rs, r = .ok () := by
  simp only [collectResults_eq_ok]
  constructor
  · rintro ⟨units, rfl⟩ r hr
    obtain ⟨u, -, rfl⟩ := List.mem_map.mp hr
    rfl
  · intro hall
    refine ⟨List.replicate rs.length (), ?_⟩
    rw [List.map_replicate]
    exact List.eq_replicate_iff.mpr ⟨rfl, hall⟩

/-- The parties that are dialled. -/
def dialedPeers (n myIndex : ℕ) : List ℕ := (List.range n).drop (myIndex + 1)

theorem mem_dialedPeers {j : ℕ} : j ∈ dialedPeers n myIndex ↔ myIndex < j ∧ j < n := by
  rw [dialedPeers, List.mem_drop_iff_getElem]
  constructor
  · rintro ⟨i, hi, rfl⟩
    rw [List.length_range] at hi
    rw [List.getElem_range]
    omega
  · rintro ⟨h1, h2⟩
    refine ⟨j - (myIndex + 1), by rw [List.length_range]; omega, ?_⟩
    rw [List.getElem_range]
    omega

/-- `connect_tcp`, from the handshakes of the connections it has accepted and the outcomes of its
    dials; none is a panic. -/
def connect (n myIndex : ℕ) (accepted : List (Except ε UInt16)) (dialed : List (Except ε Unit)) :
    Option (Except ε (List (Option ℕ))) :=
  match collectResults accepted with
  | .error e => some (.error e)
  | .ok senders =>
    match collectResults dialed with
    | .error e => some (.error e)
    | .ok _ =>
      (bindPeers n myIndex (senders.map UInt16.toNat ++ dialedPeers n myIndex)).map .ok

/-! ### Safety -/

/-- A table whose slots are bound as they should be.  Connection `k` was accepted if `k` is below the
    own index, and dialled to party `k + 1` otherwise. -/
structure Bound (n myIndex : ℕ) (accepted : List (Except ε UInt16)) (table : List (Option ℕ)) :
    Prop where
  length_eq : table.length = n
  own : table[myIndex]? = some none
  peer : ∀ j < n, j ≠ myIndex → ∃ k, table[j]? = some (some k)
  distinct : ∀ i j k : ℕ, table[i]? = some (some k) → table[j]? = some (some k) → i = j
  ofAccepted : ∀ j k : ℕ, table[j]? = some (some k) → k < myIndex →
    j < myIndex ∧ ∃ sender : UInt16, accepted[k]? = some (.ok sender) ∧ sender.toNat = j
  ofDialed : ∀ j k : ℕ, table[j]? = some (some k) → myIndex ≤ k → j = k + 1
  below : ∀ (k : ℕ) sender, accepted[k]? = some (.ok sender) → sender.toNat < myIndex
  once : ∀ (k k' : ℕ) sender, accepted[k]? = some (.ok sender) → accepted[k']? = some (.ok sender) →
    k = k'

/-- No panic; an error, or a table as it should be. -/
def ConnectSafe (n myIndex : ℕ) (accepted : List (Except ε UInt16)) :
    Option (Except ε (List (Option ℕ))) → Prop
  | none => False
  | some (.error _) => True
  | some (.ok table) => Bound n myIndex accepted table

/-- A slot holds the last connection that is bound to it, here the only one. -/
theorem getElem?_bind_of_nodup {j k : ℕ} {l : List (ℕ × ℕ)} (tx : List (Option (Option ℕ)))
    (hnd : (l.map Prod.fst).Nodup) (hmem : (j, k) ∈ l) (hlt : j < tx.length) :
    (l.foldl (fun tx e => tx.set e.1 (some (some e.2))) tx)[j]? = some (some (some k)) := by
  induction l generalizing tx with
  | nil => cases hmem
  | cons e l ih =>
    rw [List.map_cons, List.nodup_cons] at hnd
    rw [List.foldl_cons]
    rcases List.mem_cons.mp hmem with rfl | hmem
    · rw [getElem?_bind_of_notMem _ hnd.1, List.getElem?_set_self hlt]
    · exact ih _ hnd.2 hmem (by rwa [List.length_set])

theorem length_slots (n myIndex : ℕ) (senders : List ℕ) : (slots n myIndex senders).length = n := by
  have hfold : ∀ (l : List (ℕ × ℕ)) (tx : List (Option (Option ℕ))),
      (l.foldl (fun tx e => tx.set e.1 (some (some e.2))) tx).length = tx.length := by
    intro l
    induction l with
    | nil => exact fun tx => rfl
    | cons e l ih => exact fun tx => by rw [List.foldl_cons, ih, List.length_set]
  rw [slots, hfold, List.length_set, List.length_replicate]

/-- **The table** of connections to all other parties. -/
theorem bindPeers_eq {senders : List ℕ} (hmy : myIndex < n) (hnd : senders.Nodup)
    (hmem : ∀ j, j ∈ senders ↔ j < n ∧ j ≠ myIndex) :
    bindPeers n myIndex senders =
      some ((List.range n).map fun j => if j = myIndex then none else some (senders.idxOf j)) := by
  have hslot : ∀ j < n, (slots n myIndex senders)[j]? =
      some (some (if j = myIndex then none else some (senders.idxOf j))) := by
    intro j hj
    split
    · rename_i hjm
      have hnot : j ∉ senders := fun h => ((hmem j).mp h).2 hjm
      rw [slots, getElem?_bind_of_notMem _ (by rwa [List.zipIdx_map_fst]), hjm,
        List.getElem?_set_self (by rwa [List.length_replicate])]
    · rename_i hjm
      have hin : j ∈ senders := (hmem j).mpr ⟨hj, hjm⟩
      have hpos : (j, senders.idxOf j) ∈ senders.zipIdx :=
        List.mem_zipIdx_iff_getElem?.mpr (List.getElem?_idxOf hin)
      rw [slots, getElem?_bind_of_nodup _ (by rwa [List.zipIdx_map_fst]) hpos]
      rwa [List.length_set, List.length_replicate]
  have hlen := length_slots n myIndex senders
  have hslots : slots n myIndex senders = (List.range n).map fun j =>
      some (if j = myIndex then none else some (senders.idxOf j)) := by
    refine List.ext_getElem? fun j => ?_
    by_cases hj : j < n
    · rw [hslot j hj, List.getElem?_map, List.getElem?_range hj]
      rfl
    · rw [List.getElem?_eq_none (by omega), List.getElem?_eq_none (by simpa using hj)]
  have hfull : ∀ e ∈ slots n myIndex senders, e ≠ none := by
    rw [hslots]
    simp
  rw [bindPeers, if_pos ⟨fun j hj => ((hmem j).mp hj).1, hfull⟩, hslots, List.map_map]
  rfl

/-- The indices that are bound when the handshakes name the lower ones. -/
theorem mem_connections {senders : List UInt16} (hmy : myIndex < n)
    (hlen : senders.length = myIndex) (hnd : senders.Nodup)
    (hlt : ∀ s ∈ senders, s.toNat < myIndex) :
    (senders.map UInt16.toNat ++ dialedPeers n myIndex).Nodup ∧
      ∀ j, j ∈ senders.map UInt16.toNat ++ dialedPeers n myIndex ↔ j < n ∧ j ≠ myIndex := by
  have hnd' : (senders.map UInt16.toNat).Nodup :=
    (List.nodup_map_iff fun a b h => UInt16.toNat_inj.mp h).mpr hnd
  -- as many distinct lower indices as there are
  have hlower : ∀ j, j ∈ senders.map UInt16.toNat ↔ j < myIndex := by
    have hsub : senders.map UInt16.toNat ⊆ List.range myIndex := by
      intro j hj
      obtain ⟨s, hs, rfl⟩ := List.mem_map.mp hj
      exact List.mem_range.mpr (hlt s hs)
    have hperm := (hnd'.subperm hsub).perm_of_length_le (by simp [hlen])
    intro j
    rw [hperm.mem_iff, List.mem_range]
  refine ⟨?_, fun j => ?_⟩
  · refine List.nodup_append.mpr ⟨hnd', List.nodup_range.sublist (List.drop_sublist _ _), ?_⟩
    intro a ha b hb hab
    have h1 := (hlower a).mp ha
    have h2 := mem_dialedPeers.mp hb
    omega
  · rw [List.mem_append, hlower, mem_dialedPeers]
    omega

/-- What a slot of the table holds. -/
theorem connection_of_slot {conns : List ℕ} (hmem : ∀ j, j ∈ conns ↔ j < n ∧ j ≠ myIndex) {j k : ℕ}
    (hjk : ((List.range n).map fun j =>
      if j = myIndex then none else some (conns.idxOf j))[j]? = some (some k)) :
    conns[k]? = some j ∧ j < n := by
  rw [List.getElem?_map] at hjk
  obtain ⟨j', hj', hval⟩ := Option.map_eq_some_iff.mp hjk
  have hjn : j < n := by
    by_contra hge
    rw [List.getElem?_eq_none (by rw [List.length_range]; omega)] at hj'
    cases hj'
  rw [List.getElem?_range hjn] at hj'
  obtain rfl := Option.some.inj hj'
  split at hval
  · cases hval
  · rename_i hne
    obtain rfl := Option.some.inj hval
    exact ⟨List.getElem?_idxOf ((hmem j).mpr ⟨hjn, hne⟩), hjn⟩

/-- **The table of a good set-up.** -/
theorem bound_of_handshakes {senders : List UInt16} (hmy : myIndex < n)
    (hlen : senders.length = myIndex) (hnd : senders.Nodup)
    (hlt : ∀ s ∈ senders, s.toNat < myIndex) :
    ∃ table, bindPeers n myIndex (senders.map UInt16.toNat ++ dialedPeers n myIndex) = some table ∧
      Bound n myIndex (senders.map (.ok : UInt16 → Except ε UInt16)) table := by
  obtain ⟨hnd', hmem⟩ := mem_connections hmy hlen hnd hlt
  set conns := senders.map UInt16.toNat ++ dialedPeers n myIndex with hconns
  refine ⟨_, bindPeers_eq hmy hnd' hmem, ?_⟩
  have hslot : ∀ j k : ℕ, ((List.range n).map fun j =>
      if j = myIndex then none else some (conns.idxOf j))[j]? = some (some k) →
      conns[k]? = some j ∧ j < n := fun j k hjk => connection_of_slot hmem hjk
  have hlenmap : (senders.map UInt16.toNat).length = myIndex := by rw [List.length_map, hlen]
  have hok : ∀ {k : ℕ} {s : UInt16}, (senders.map (.ok : UInt16 → Except ε UInt16))[k]? =
      some (.ok s) → senders[k]? = some s := by
    intro k s hks
    rw [List.getElem?_map] at hks
    obtain ⟨s', hs', heq⟩ := Option.map_eq_some_iff.mp hks
    rw [hs', Except.ok.inj heq]
  exact
    { length_eq := by simp
      own := by rw [List.getElem?_map, List.getElem?_range hmy, Option.map_some, if_pos rfl]
      peer := fun j hj hne => ⟨conns.idxOf j, by
        rw [List.getElem?_map, List.getElem?_range hj, Option.map_some, if_neg hne]⟩
      distinct := fun i j k hi hj =>
        Option.some.inj ((hslot i k hi).1.symm.trans (hslot j k hj).1)
      ofAccepted := by
        intro j k hjk hk
        have hconn := (hslot j k hjk).1
        rw [hconns, List.getElem?_append_left (by omega), List.getElem?_map] at hconn
        obtain ⟨s, hs, rfl⟩ := Option.map_eq_some_iff.mp hconn
        exact ⟨hlt s (List.mem_of_getElem? hs), s, by rw [List.getElem?_map, hs]; rfl, rfl⟩
      ofDialed := by
        intro j k hjk hk
        obtain ⟨hconn, hjn⟩ := hslot j k hjk
        rw [hconns, List.getElem?_append_right (by omega), hlenmap, dialedPeers,
          List.getElem?_drop] at hconn
        have hrange : myIndex + 1 + (k - myIndex) < n := by
          by_contra hge
          rw [List.getElem?_eq_none (by rw [List.length_range]; omega)] at hconn
          cases hconn
        rw [List.getElem?_range hrange] at hconn
        have := Option.some.inj hconn
        omega
      below := fun k s hks => hlt s (List.mem_of_getElem? (hok hks))
      once := by
        intro k k' s hk hk'
        have hk₁ := hok hk
        exact (List.getElem?_inj (List.getElem?_eq_some_iff.mp hk₁).1 hnd).mp
          (hk₁.trans (hok hk').symm) }

/-- Only good handshakes fill the table: the connections are then the other parties, once each. -/
theorem handshakes_of_bindPeers {senders : List UInt16} {table : List (Option ℕ)}
    (hmy : myIndex < n) (hlen : senders.length = myIndex)
    (hbind : bindPeers n myIndex (senders.map UInt16.toNat ++ dialedPeers n myIndex) =
      some table) :
    senders.Nodup ∧ ∀ s ∈ senders, s.toNat < myIndex := by
  have hperm := bindPeers_perm hmy (by simp [dialedPeers]; omega) hbind
  have hnd := hperm.nodup_iff.mpr (List.nodup_range.erase myIndex)
  have hmem : ∀ s ∈ senders, s.toNat < n ∧ s.toNat ≠ myIndex := by
    intro s hs
    have hin := hperm.mem_iff.mp (List.mem_append_left _ (List.mem_map_of_mem hs))
    rw [List.nodup_range.mem_erase_iff, List.mem_range] at hin
    exact hin.symm
  rw [List.nodup_append] at hnd
  refine ⟨(List.nodup_map_iff fun a b h => UInt16.toNat_inj.mp h).mp hnd.1, fun s hs => ?_⟩
  by_contra hge
  -- it would be dialled as well
  obtain ⟨hsn, hne⟩ := hmem s hs
  exact hnd.2.2 _ (List.mem_map_of_mem hs) s.toNat (mem_dialedPeers.mpr ⟨by omega, hsn⟩) rfl

/-- **Set-up is safe** exactly if some connection fails, or the handshakes of the accepted
    connections name lower indices, none of them twice. -/
theorem connect_safe_iff {accepted : List (Except ε UInt16)} {dialed : List (Except ε Unit)}
    (hmy : myIndex < n) (hacc : accepted.length = myIndex) :
    ConnectSafe n myIndex accepted (connect n myIndex accepted dialed) ↔
      ((∀ r ∈ dialed, r = .ok ()) → ∀ senders : List UInt16, accepted = senders.map .ok →
        senders.Nodup ∧ ∀ s ∈ senders, s.toNat < myIndex) := by
  unfold connect
  cases haccepted : collectResults accepted with
  | error e =>
    have hnot : ∀ senders : List UInt16, accepted ≠ senders.map .ok := by
      intro senders h
      rw [collectResults_eq_ok.mpr h] at haccepted
      cases haccepted
    simp [ConnectSafe, hnot]
  | ok senders =>
    obtain rfl := collectResults_eq_ok.mp haccepted
    have hlen : senders.length = myIndex := by rwa [List.length_map] at hacc
    have hinj : ∀ l : List UInt16, senders.map (.ok : UInt16 → Except ε UInt16) = l.map .ok ↔
        senders = l := fun l =>
      (List.map_injective_iff.mpr fun _ _ h => Except.ok.inj h).eq_iff
    simp only [hinj, forall_eq']
    cases hdial : collectResults dialed with
    | error e =>
      have hnot : ¬ ∀ r ∈ dialed, r = .ok () := by
        intro hall
        obtain ⟨units, hunits⟩ := exists_collectResults_iff.mpr hall
        rw [hunits] at hdial
        cases hdial
      simp [ConnectSafe, hnot]
    | ok units =>
      have hall := exists_collectResults_iff.mp ⟨units, hdial⟩
      constructor
      · intro hsafe _
        cases hbind : bindPeers n myIndex (senders.map UInt16.toNat ++ dialedPeers n myIndex) with
        | none =>
          simp only [hbind] at hsafe
          exact hsafe.elim
        | some table => exact handshakes_of_bindPeers hmy hlen hbind
      · intro h
        obtain ⟨hnd, hlt⟩ := h hall
        obtain ⟨table, hbind, hbound⟩ := bound_of_handshakes (ε := ε) hmy hlen hnd hlt
        simp only [hbind, Option.map_some]
        exact hbound

/-- The last of three parties accepts the other two. -/
theorem connect_safe_iff_three :
    ConnectSafe 3 2 [.ok 1, .ok 0] (connect 3 2 [.ok 1, .ok 0] ([] : List (Except IoError Unit))) ↔
      ((∀ r ∈ ([] : List (Except IoError Unit)), r = .ok ()) → ∀ senders : List UInt16,
        ([.ok 1, .ok 0] : List (Except IoError UInt16)) = senders.map .ok →
        senders.Nodup ∧ ∀ s ∈ senders, s.toNat < 2) :=
  connect_safe_iff (by decide) rfl

/-- An index out of range, the index of the party itself, that of a party it dials, and one index
    twice: all of them panic. -/
theorem connect_panics :
    connect 2 1 [.ok 7] ([] : List (Except IoError Unit)) = none ∧
      connect 2 1 [.ok 1] ([] : List (Except IoError Unit)) = none ∧
      connect 3 1 [.ok 2] [(.ok () : Except IoError Unit)] = none ∧
      connect 3 2 [.ok 0, .ok 0] ([] : List (Except IoError Unit)) = none ∧
      ¬ ConnectSafe 2 1 [.ok 7] (connect 2 1 [.ok 7] ([] : List (Except IoError Unit))) := by
  refine ⟨by decide, by decide, by decide, by decide, fun h => ?_⟩
  exact h

/-- **Connected.**  The delivery that a good set-up returns. -/
theorem connectTcp_of_handshakes {senders : List UInt16} (hmy : myIndex < n)
    (hlen : senders.length = myIndex) (hnd : senders.Nodup)
    (hlt : ∀ s ∈ senders, s.toNat < myIndex) :
    connectTcp n myIndex (senders.map UInt16.toNat ++ dialedPeers n myIndex) =
      some (TcpDelivery.fresh n myIndex : TcpDelivery M) := by
  obtain ⟨hnd', hmem⟩ := mem_connections hmy hlen hnd hlt
  have hcount : (senders.map UInt16.toNat ++ dialedPeers n myIndex).length + 1 = n := by
    simp [dialedPeers, hlen]
    omega
  cases hd : connectTcp n myIndex (senders.map UInt16.toNat ++ dialedPeers n myIndex) with
  | none =>
    rw [connectTcp, bindPeers_eq hmy hnd' hmem] at hd
    cases hd
  | some d => rw [connectTcp_eq hmy hcount hd]

end Govis.Tcp
