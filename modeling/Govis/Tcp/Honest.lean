import Govis.Tcp.Lockstep
import Govis.Tcp.Scripts

namespace Govis.Tcp

open Framing Transition Rounds

/-!
# The transport: honest parties get through

Parties that all follow a script over the transport.  As long as nobody closes its delivery, nothing
that happens takes a party off the script, and whatever has happened, the parties can still finish.

* `OpenReached` — what honest parties can reach without closing a delivery;
* `OnStage.step`, `Scripted.onStage` — every step keeps every party on the script;
* `GetsThrough`, `Scripted.getsThrough` — results on the way, and a way to all results.
-/

variable {Msg : ℕ → Type} {R : Type} {D : Deployment Msg R} {M : (r : ℕ) → ℕ → ℕ → Msg r} {k : ℕ}
  {res : ℕ → R} {w w' : World Msg R} {i : ℕ}

/-- What a deployment can reach without closing a delivery. -/
def OpenReached (D : Deployment Msg R) (w : World Msg R) : Prop :=
  Run (worldStep D) D.Open D.init w

theorem OpenReached.reached (h : OpenReached D w) : WorldReached D w := h.mono fun _ ha => ha.1

/-- What a round takes from the parties that follow the script is the script's. -/
theorem OnStage.collect_eq (h : OnStage D M k res w) (hh : ∀ j < D.setup.n, ¬ D.setup.corrupt j)
    (hbc : ∀ g, Broadcasts D M g) {r : ℕ} {got : ℕ → Option (Msg r)}
    (hfull : ∀ j < D.setup.n, j ≠ i → (got j).isSome)
    (hyielded : ∀ j m, got j = some m → ∃ g id, (g, .ok ⟨id, j, D.kind r, ⟨r, m⟩⟩) ∈ w.sys.yields i) :
    collect D.setup.n i got = collect D.setup.n i fun j => some (M r j i) := by
  refine collect_congr fun j hj hji => ?_
  obtain ⟨m, hm⟩ := Option.isSome_iff_exists.mp (hfull j hj hji)
  obtain ⟨g, id, hmem⟩ := hyielded j m hm
  have hl := h.reached.net.linked (List.mem_append_left _ hmem)
  obtain ⟨item, hitem, hreach, hsender, -, hmsg⟩ := h.reached.net.exists_sent
    (fun bytes hall => hh g hl.1 (hall g i bytes rfl)) (List.mem_append_left _ hmem)
  obtain rfl : j = g := hsender
  -- what the sender has sent is the script's
  obtain ⟨r', -, hsent⟩ := (h.honest j hl.1 (hh j hl.1)).exists_sent
  rw [hsent] at hitem
  obtain ⟨r'', -, hscript⟩ := (tells_scriptSends (hbc j) hl.2.1 (Ne.symm hl.2.2) r').only item hitem hreach
  have heq : (⟨r, m⟩ : AnyMsg Msg) = ⟨r'', M r'' j i⟩ := hmsg.trans hscript
  cases heq
  exact hm

/-- **Step lemma.**  Every step keeps every party on the script. -/
theorem OnStage.step (h : OnStage D M k res w) (hh : ∀ j < D.setup.n, ¬ D.setup.corrupt j)
    (hbc : ∀ g, Broadcasts D M g) {a : WorldAct Msg} (ha : D.Open a) (hs : worldStep D a w = some w') :
    OnStage D M k res w' := by
  have hreached : WorldReached D w' := h.reached.tail ha.1 hs
  cases a with
  | net a =>
    obtain ⟨s, hstep, rfl⟩ := Option.map_eq_some_iff.mp hs
    have hplain : D.Plain a := by
      cases a with
      | send g item => exact ha.1.elim
      | inject g h' bytes =>
        -- bytes are put on connections between parties only
        have hl : Linked D.setup.n g h' := (Option.ite_none_right_eq_some.mp hstep).1
        exact hh g hl.1 ha.1
      | close g => exact ha.2 g rfl
      | _ => trivial
    refine ⟨hreached, h.staged.step hplain hstep, fun j hj hjc => (h.honest j hj hjc).of_same rfl ?_⟩
    rcases step_sent hstep j with hsame | ⟨item, rfl, -⟩
    · exact hsame
    · exact ha.1.elim
  | emit i =>
    obtain ⟨hi, hic⟩ := ha.1
    obtain ⟨r, out, next, hc, hsend, hparty⟩ := emit_eq_some hs
    obtain ⟨hsent, hother, -⟩ := sendAll_spec hsend
    refine ⟨hreached, h.staged.run (sendAll_run (fun _ => hic) hsend), fun j hj hjc => ?_⟩
    by_cases hji : j = i
    · subst hji
      cases h.honest j hj hjc with
      | waiting hc' => cases hc.symm.trans hc'
      | ready hc' hf hsent' =>
        cases hc.symm.trans hc'
        cases hf with
        | round hout hnext =>
          refine .waiting ?_ hnext ?_
          · rw [hparty, Function.update_self]
            rfl
          · rw [hsent, hsent', scriptSends_succ, outgoing_congr hout]
    · exact (h.honest j hj hjc).of_same (by rw [hparty, Function.update_of_ne hji]) (hother j hji)
  | complete i =>
    obtain ⟨hi, hic⟩ := ha.1
    obtain ⟨r, next, got, hc, hsys, hdone, -, hfull, hyielded⟩ := completeRound_got hs
    obtain ⟨_, _, _, -, -, -, hparty⟩ := completeRound_eq_some hs
    refine ⟨hreached, by rw [hsys]; exact h.staged, fun j hj hjc => ?_⟩
    by_cases hji : j = i
    · subst hji
      cases h.honest j hj hjc with
      | ready hc' hf =>
        cases hc.symm.trans hc'
        cases hf
      | waiting hc' hf hsent' =>
        cases hc.symm.trans hc'
        refine .ready ?_ hf (by rw [hsys]; exact hsent')
        rw [hdone, h.collect_eq hh hbc hfull hyielded]
    · exact (h.honest j hj hjc).of_same (by rw [hparty, Function.update_of_ne hji]) (by rw [hsys])

/-- Honest parties that follow a script over a codec that has room for it. -/
structure Scripted (D : Deployment Msg R) (M : (r : ℕ) → ℕ → ℕ → Msg r) (k : ℕ) (res : ℕ → R) :
    Prop where
  honest : ∀ j, ¬ D.setup.corrupt j
  broadcasts : ∀ g, Broadcasts D M g
  follows : ∀ j < D.setup.n, Follows D.setup.n j M k (res j) (D.setup.prog j)
  carries : CarriesScript D M k
  rounds_eq : D.rounds = firstInput

/-- The values at the end of a script are those of every run. -/
theorem Scripted.of_completes (hh : ∀ j, ¬ D.setup.corrupt j) (hc : Completes D.setup res)
    (hbc : ∀ g, Broadcasts D M g)
    (hf : ∀ j < D.setup.n, ∃ x, Follows D.setup.n j M k x (D.setup.prog j))
    (hcarry : CarriesScript D M k) (hrounds : D.rounds = firstInput) : Scripted D M k res := by
  refine ⟨hh, hbc, ?_, hcarry, hrounds⟩
  have : Nonempty R := ⟨res 0⟩
  choose! x hx using hf
  obtain ⟨s, hs, hret⟩ := (completes_of_follows (fun i _ => hh i) hx).reaches _ .refl
  intro j hj
  rw [← hc.returns s hs j hj _ (hret j hj)]
  exact hx j hj

namespace Scripted

variable (hD : Scripted D M k res)

include hD

/-- **Run lemma.** -/
theorem onStage (h : OpenReached D w) : OnStage D M k res w := by
  refine h.invariant (P := OnStage D M k res)
    (fun a w w' ha hs hP => hP.step (fun j _ => hD.honest j) hD.broadcasts ha hs) ?_
  refine ⟨Run.refl _, ⟨fun _ => rfl, fun _ => rfl, fun g hg => absurd hg (hD.honest g),
    fun g _ _ hg => absurd hg (hD.honest g), fun g _ _ hg => absurd hg (hD.honest g)⟩,
    fun j hj _ => ?_⟩
  exact .ready (r := 0) rfl (hD.follows j hj) rfl

/-- Whoever has returned is at the end of the script. -/
theorem code_of_returned (h : OpenReached D w) (hi : i < D.setup.n) {x : R} (hret : w.Returned i x) :
    (w.party i).code = ⟨k, .done (res i)⟩ := by
  obtain ⟨r, hc⟩ := hret
  cases (hD.onStage h).honest i hi (hD.honest i) with
  | ready hc' hf =>
    cases hc.symm.trans hc'
    cases hf
    exact hc
  | waiting hc' => cases hc.symm.trans hc'

/-- **Whoever returns, returns its value.** -/
theorem eq_of_returned (h : OpenReached D w) (hi : i < D.setup.n) {x : R} (hret : w.Returned i x) :
    x = res i := by
  have hcode := hD.code_of_returned h hi hret
  obtain ⟨r, hc⟩ := hret
  cases hc.symm.trans hcode
  rfl

/-- **Whoever has completed a round has heard from all others**: each has sent it a message of the
    round. -/
theorem exists_yielded (h : OpenReached D w) {r : ℕ} (hr : r < (w.party i).code.1)
    {j : ℕ} (hj : j < D.setup.n) (hji : j ≠ i) :
    ∃ m id, (j, .ok ⟨id, j, D.kind r, ⟨r, m⟩⟩) ∈ w.sys.yields i ∧
      ∃ item ∈ w.sys.sent j, item.msg = ⟨r, m⟩ := by
  have hparty := h.reached.party i
  obtain ⟨m, hm⟩ := Option.isSome_iff_exists.mp (hparty.honest.full r hr j hj hji)
  obtain ⟨g, id, hyield⟩ := hparty.yielded r j m hm
  obtain ⟨item, hitem, -, hsender, -, hmsg⟩ := h.reached.net.exists_sent
    (fun bytes hall => hD.honest g (hall g i bytes rfl)) (List.mem_append_left _ hyield)
  -- what names `j` was sent by `j`
  obtain rfl : j = g := hsender
  exact ⟨m, id, hyield, item, hitem, hmsg.symm⟩

/-- **Progress.**  In some continuation every party returns. -/
theorem exists_returned (h : OpenReached D w) :
    ∃ w', Run (worldStep D) D.Open w w' ∧ ∀ i < D.setup.n, w'.Returned i (res i) := by
  have hprogress : ∀ w, OnStage D M k res w →
      ¬ (∀ i < D.setup.n, ¬ D.setup.corrupt i → w.Returned i (res i)) →
      ∃ w', Run (worldStep D) D.Open w w' ∧ OnStage D M k res w' ∧
        ∑ i ∈ Finset.range D.setup.n, toGo k (w'.party i) <
          ∑ i ∈ Finset.range D.setup.n, toGo k (w.party i) :=
    fun w hw hnot => hw.progress hD.carries (fun g _ => hD.broadcasts g) hD.rounds_eq hnot
  obtain ⟨w', hrun, -, hret⟩ := exists_run_of_runs
    (fun w => ∑ i ∈ Finset.range D.setup.n, toGo k (w.party i)) hprogress (hD.onStage h)
  exact ⟨w', hrun, fun i hi => hret i hi (hD.honest i)⟩

end Scripted

/-- Over the transport, a party that returns returns its value, and as long as no delivery has been
    closed, all of them can still do so. -/
def GetsThrough (D : Deployment Msg R) (res : ℕ → R) : Prop :=
  (∀ w, WorldReached D w → ∀ i < D.setup.n, ∀ x, w.Returned i x → x = res i) ∧
    ∀ w, OpenReached D w →
      ∃ w', Run (worldStep D) D.Open w w' ∧ ∀ i < D.setup.n, w'.Returned i (res i)

/-- **Honest parties get through.** -/
theorem Scripted.getsThrough (h : Scripted D M k res) (hD : D.Orderly) : GetsThrough D res := by
  refine ⟨fun w hw i hi x hx => ?_, fun w hw => h.exists_returned hw⟩
  have hc := completes_of_follows (fun i _ => h.honest i) h.follows
  rw [← hw.result_eq_lockstep hD (fun j _ => h.honest j) hx,
    hc.exec_lockstepInbox (fun j _ => h.honest j) hi]

end Govis.Tcp
