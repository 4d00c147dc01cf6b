import Govis.Rounds.Script

namespace Rounds

/-!
# Rounds that cannot be completed

Waiting for a round can fail.  A sender that shows up twice, a message of the wrong type and an end
of the incoming messages are errors of `RoundInput` and of the router, and the party that waits
returns the error of its round.

* `Receiving`, `RecvStep` — the network with the parties that waiting has failed for;
* `Obstructed` — what such an error takes: a corrupt party, or peers that have all ended;
* `RecvReachable.net` — what holds in every state of the network holds here too;
* `RecvReachable.exists_corrupt`, `Completes.not_failed` — where honest parties do not leave each
  other waiting, an error of a round takes a corrupt party.
-/

variable {Msg : ℕ → Type} {R : Type}

/-- A state of the network, and the rounds that parties have failed to complete. -/
structure Receiving (Msg : ℕ → Type) (R : Type) where
  net : Net Msg R
  failed : ℕ → Option ℕ

/-- What a party ends with. -/
inductive Outcome (R : Type) where
  /-- Its program has returned. -/
  | result (res : R)
  /-- Waiting for round `r` has failed. -/
  | receiveError (r : ℕ)

/-- Party `i` has ended. -/
def Receiving.Ended (s : Receiving Msg R) (i : ℕ) : Outcome R → Prop
  | .result res => s.net.Returned i res
  | .receiveError r => s.failed i = some r

/-- What makes party `i` fail to complete round `r`. -/
inductive Obstructed (S : Setup Msg R) (s : Receiving Msg R) (i r : ℕ) : Prop where
  /-- A corrupt party can send anything at any time: a second message, one that is none of the
      protocol, or the end of its connection. -/
  | disturbed {d : ℕ} (hd : d < S.n) (hdi : d ≠ i) (hc : S.corrupt d)
  /-- The other parties have ended, and one of them has not sent in the round. -/
  | deserted {d : ℕ} (hended : ∀ j < S.n, j ≠ i → ¬ S.corrupt j ∧ ∃ o, s.Ended j o) (hd : d < S.n)
      (hdi : d ≠ i) (hsent : (s.net d).sent r i = none)

/-- One party moves, or waiting fails for it. -/
inductive RecvStep (S : Setup Msg R) (s : Receiving Msg R) : Receiving Msg R → Prop where
  | move {i : ℕ} {l : Local Msg R} (hlive : s.failed i = none) (hl : LocalStep S s.net i l) :
      RecvStep S s { s with net := Function.update s.net i l }
  | fail {i r : ℕ} {next : List (ℕ × Msg r) → Proc Msg R (r + 1)} (hi : i < S.n)
      (hh : ¬ S.corrupt i) (hlive : s.failed i = none) (hc : (s.net i).code = ⟨r, .recv next⟩)
      (hobs : Obstructed S s i r) :
      RecvStep S s { s with failed := Function.update s.failed i (some r) }

/-- The states a run can reach. -/
def RecvReachable (S : Setup Msg R) (s : Receiving Msg R) : Prop :=
  Relation.ReflTransGen (RecvStep S) ⟨S.init, fun _ => none⟩ s

variable {S : Setup Msg R} {s s' : Receiving Msg R} {i j r : ℕ}

/-- **The network below** does not notice that waiting fails. -/
theorem RecvReachable.net (h : RecvReachable S s) : Reachable S s.net := by
  induction h with
  | refl => exact .refl
  | tail _ hstep ih =>
    cases hstep with
    | move _ hl => exact ih.tail ⟨_, _, hl, rfl⟩
    | fail => exact ih

/-- A run in which waiting fails for nobody. -/
theorem Reachable.receiving {net : Net Msg R} (h : Reachable S net) :
    RecvReachable S ⟨net, fun _ => none⟩ := by
  induction h with
  | refl => exact .refl
  | tail _ hstep ih =>
    obtain ⟨i, l, hl, rfl⟩ := hstep
    exact ih.tail (.move rfl hl)

/-! ### Parties that have failed -/

/-- Party `i` is honest and waits for round `r`. -/
structure Waiting (S : Setup Msg R) (net : Net Msg R) (i r : ℕ) : Prop where
  lt : i < S.n
  honest : ¬ S.corrupt i
  code : ∃ next, (net i).code = ⟨r, .recv next⟩

/-- **Run lemma.** A party that has failed goes on waiting. -/
theorem RecvReachable.waiting (h : RecvReachable S s) :
    ∀ i r, s.failed i = some r → Waiting S s.net i r := by
  induction h with
  | refl =>
    intro i r hf
    cases hf
  | tail _ hstep ih =>
    cases hstep with
    | @move k l hlive hl =>
      intro i r hf
      -- the party that moves has not failed
      have hik : i ≠ k := by
        rintro rfl
        cases hlive.symm.trans hf
      obtain ⟨hi, hh, next, hc⟩ := ih i r hf
      refine ⟨hi, hh, next, ?_⟩
      rw [← hc]
      exact congrArg Local.code (Function.update_of_ne hik _ _)
    | @fail k r' next hk hkh hlive hc hobs =>
      intro i r hf
      dsimp only at hf
      by_cases hik : i = k
      · subst hik
        rw [Function.update_self] at hf
        obtain rfl := Option.some.inj hf
        exact ⟨hk, hkh, next, hc⟩
      · rw [Function.update_of_ne hik] at hf
        exact ih i r hf

/-- What a party that has failed in round `r` has sent belongs to the rounds up to `r`. -/
theorem RecvReachable.sent_le_failed (h : RecvReachable S s) (hf : s.failed i = some r) {r' : ℕ}
    {m : Msg r'} (hm : (s.net i).sent r' j = some m) : r' ≤ r := by
  obtain ⟨-, hh, next, hc⟩ := h.waiting i r hf
  have hle := h.net.sent_le hh hm
  rwa [hc] at hle

/-- The round is one of its program. -/
theorem RecvReachable.failed_lt_ends (h : RecvReachable S s) (hf : s.failed i = some r) :
    r < (S.prog i).ends ((s.net i).inbox S.n i) := by
  obtain ⟨hi, hh, next, hc⟩ := h.waiting i r hf
  rw [(h.net.sound.honest i hi hh).ends _ fun _ _ => rfl, hc, Proc.ends_recv]
  exact Proc.le_ends _ _

/-! ### Errors take a corrupt party -/

/-- What an honest party has ended with stands, and it sends nothing any more. -/
theorem LocalStep.returned {net : Net Msg R} {l : Local Msg R} (hl : LocalStep S net i l)
    (hh : ¬ S.corrupt i) {res : R} (hres : net.Returned i res) :
    l.code = (net i).code ∧ l.sent = (net i).sent := by
  obtain ⟨r, hc⟩ := hres
  cases hl with
  | send _ _ hc' => cases hc.symm.trans hc'
  | complete _ _ hc' => cases hc.symm.trans hc'
  | deliver => exact ⟨rfl, rfl⟩
  | inject _ hcor => exact absurd hcor hh

/-- A returned party stays as it is while the others move. -/
theorem returned_of_run {net net' : Net Msg R} (h : Relation.ReflTransGen (Step S) net net')
    (hh : ¬ S.corrupt i) {res : R} (hres : net.Returned i res) :
    net'.Returned i res ∧ (net' i).sent = (net i).sent := by
  induction h with
  | refl => exact ⟨hres, rfl⟩
  | tail _ hstep ih =>
    obtain ⟨k, l, hl, rfl⟩ := hstep
    obtain ⟨hret, hsent⟩ := ih
    by_cases hik : i = k
    · subst hik
      obtain ⟨hcode, hsent'⟩ := hl.returned hh hret
      obtain ⟨r, hc⟩ := hret
      rw [Net.Returned, Function.update_self, hcode, hsent', hsent]
      exact ⟨⟨r, hc⟩, rfl⟩
    · rw [Net.Returned, Function.update_of_ne hik]
      exact ⟨hret, hsent⟩

/-- A party that waits does so until it has completed the round. -/
theorem waits_or_completes {net net' : Net Msg R} (h : Relation.ReflTransGen (Step S) net net')
    (hw : Waiting S net i r) : Waiting S net' i r ∨ r < (net' i).code.1 := by
  induction h with
  | refl => exact .inl hw
  | tail _ hstep ih =>
    obtain ⟨k, l, hl, rfl⟩ := hstep
    by_cases hik : i = k
    swap
    · simp only [Function.update_of_ne hik]
      exact ih.imp_left fun ⟨hi, hh, next, hc⟩ => ⟨hi, hh, next, by rwa [Function.update_of_ne hik]⟩
    subst hik
    simp only [Function.update_self]
    rcases ih with ⟨hi, hh, next, hc⟩ | hlt
    · cases hl with
      | send _ _ hc' => cases hc.symm.trans hc'
      | complete _ _ hc' =>
        cases hc.symm.trans hc'
        exact .inr (Nat.lt_succ_self r)
      | deliver => exact .inl ⟨hi, hh, next, by rwa [Function.update_self]⟩
      | inject _ hcor => exact absurd hcor hh
    · refine .inr (lt_of_lt_of_le hlt ?_)
      cases hl with
      | send _ _ hc' =>
        rw [hc']
        exact le_refl _
      | complete _ _ hc' => exact hc' ▸ Nat.le_succ _
      | deliver => exact le_refl _
      | inject => exact le_refl _

/-- Honest parties do not leave each other waiting: one that has returned has sent in the round that
    another one waits in. -/
def Setup.Serves (S : Setup Msg R) : Prop :=
  ∀ net, Reachable S net → ∀ i < S.n, ∀ j < S.n, j ≠ i → ∀ res r next, net.Returned j res →
    (net i).code = ⟨r, .recv next⟩ → ∃ m, (net j).sent r i = some m

/-- **Nobody fails** among honest parties that do not leave each other waiting. -/
theorem Setup.Serves.not_failed (hserves : S.Serves) (hh : ∀ j < S.n, ¬ S.corrupt j)
    (h : RecvReachable S s) (i : ℕ) : s.failed i = none := by
  induction h generalizing i with
  | refl => rfl
  | @tail s s' hs hstep ih =>
    have hnet : Reachable S s.net := RecvReachable.net hs
    cases hstep with
    | move => exact ih i
    | @fail k r next hk _ _ hc hobs =>
      -- the party that fails first
      cases hobs with
      | disturbed hd _ hcor => exact absurd hcor (hh _ hd)
      | @deserted d hended hd hdk hsent =>
        obtain ⟨-, o, ho⟩ := hended d hd hdk
        cases o with
        | result res =>
          obtain ⟨m, hm⟩ := hserves _ hnet k hk d hd hdk res r next ho hc
          cases hsent.symm.trans hm
        | receiveError r' => cases (ih d).symm.trans ho

/-- **An error of a round** takes a corrupt party. -/
theorem RecvReachable.exists_corrupt (h : RecvReachable S s)
    (hserves : (∀ j < S.n, ¬ S.corrupt j) → S.Serves) (hf : s.failed i = some r) :
    ∃ d < S.n, d ≠ i ∧ S.corrupt d := by
  by_contra hno
  push Not at hno
  have hi := (h.waiting i r hf).honest
  have hh : ∀ j < S.n, ¬ S.corrupt j := fun j hj hc =>
    hno j hj (fun heq => hi (heq ▸ hc)) hc
  cases ((hserves hh).not_failed hh h i).symm.trans hf

/-- Honest parties of a protocol that completes do not leave each other waiting. -/
theorem Completes.serves {res : ℕ → R} (h : Completes S res) (hh : ∀ j < S.n, ¬ S.corrupt j) :
    S.Serves := by
  intro net hnet i hi j hj hji x r next hx hc
  obtain ⟨net', hrun, hret⟩ := h.reaches net hnet
  have hnet' : Reachable S net' := hnet.trans hrun
  -- at the end the round has been completed
  have hlt : r < (net' i).code.1 := by
    obtain ⟨r', hc'⟩ := hret i hi
    rcases waits_or_completes hrun ⟨hi, hh i hi, next, hc⟩ with ⟨-, -, next', hw⟩ | hlt
    · cases hc'.symm.trans hw
    · exact hlt
  obtain ⟨m, hm⟩ := Option.isSome_iff_exists.mp ((hnet'.sound.honest i hi (hh i hi)).full r hlt j hj hji)
  have hsent := (hnet'.sound.wire i r j m hm).2
  rw [(returned_of_run hrun (hh j hj) hx).2] at hsent
  exact ⟨m, hsent⟩

/-- So none of their rounds fails. -/
theorem Completes.not_failed {res : ℕ → R} (h : Completes S res) (hh : ∀ j < S.n, ¬ S.corrupt j)
    (hs : RecvReachable S s) (i : ℕ) : s.failed i = none :=
  (h.serves hh).not_failed hh hs i

end Rounds
