import Govis.KeyFiles
import Govis.Lindell.Epochs

namespace Govis.Cli

open Curve Rounds Lindell Shamir Framing

/-!
# Key files over time

`main.rs` writes the outcome of a key generation to a key file (`--save-key`), reads such a file
before a refresh or before signing (`--load-key`), and writes the refreshed or the loaded key to
the next one.  Several sessions with different parties run side by side, and every file may be
overwritten or deleted at any time.

* `loadFile`, `saveFile` — what the command line does with a key file;
* `World.Step` — the steps of the sessions and of the files;
* `Lineage` — the key generation and the refreshes that a key has gone through;
* `World.Sound` — **every file holds the key of its lineage**, kept by every step;
* `refresh_by_files` — a key can always be refreshed through its files;
* `stored_keys_combine_iff` — two stored keys still share the secret exactly if the refreshes that
  they have gone through add up to the same offset.

With `--protocol lindell` the threshold is always two.
-/

variable {C : Curve} {H : Hash} {D : PointDecoder C} {F : Type}

/-! ### Loading and saving -/

/-- `--load-key`: the header gives the party index, and the same bytes the key. -/
def loadFile (D : PointDecoder C) (data : List UInt8) : Option (UInt16 × LindellDkgOutput C) := do
  let header ← KeyFileHeader.layout.deserialize data
  let keyData ← LindellKeyData.layout.deserialize data
  let output ← LindellDkgOutput.fromKeyData D keyData
  return (header.partyIndex, output)

/-- `--save-key`. -/
def saveFile (myIndex : UInt16) (output : LindellDkgOutput C) : List UInt8 :=
  LindellKeyData.layout.write (output.toKeyData myIndex)

/-- The header and the key data of a saved key are found again. -/
theorem loadFile_saveFile_eq (D : PointDecoder C) (i : UInt16) (out : LindellDkgOutput C) :
    loadFile D (saveFile i out) =
      (LindellDkgOutput.fromKeyData D (out.toKeyData i)).map fun out' => (i, out') := by
  have hname : "lindell".utf8ByteSize < 256 ^ 8 := by decide
  have hfits : LindellKeyData.layout.Fits (out.toKeyData i) := fits_keyFields hname ..
  have hheader : KeyFileHeader.layout.deserialize (saveFile i out) = some ⟨"lindell", i⟩ :=
    deserialize_header hfits
  rw [loadFile, hheader, saveFile, Layout.deserialize_write _ hfits]
  simp only [Option.bind_eq_bind, Option.bind_some]
  cases LindellDkgOutput.fromKeyData D (out.toKeyData i) <;> rfl

/-- **A saved key** is not loaded as another one. -/
theorem eq_of_loadFile_saveFile {i j : UInt16} {out out' : LindellDkgOutput C}
    (h : loadFile D (saveFile i out) = some (j, out')) : j = i ∧ out' = out := by
  rw [loadFile_saveFile_eq, Option.map_eq_some_iff] at h
  obtain ⟨loaded, hloaded, hpair⟩ := h
  obtain ⟨rfl, rfl⟩ := Prod.mk.inj hpair
  rw [LindellDkgOutput.fromKeyData, Option.map_eq_some_iff] at hloaded
  obtain ⟨⟨s, P⟩, hkey, rfl⟩ := hloaded
  obtain ⟨rfl, rfl⟩ := eq_of_loadKey_save hkey
  exact ⟨rfl, rfl⟩

/-- And it is loaded, unless its public key is the identity. -/
theorem loadFile_saveFile (D : PointDecoder C) (i : UInt16) {out : LindellDkgOutput C}
    (hout : out.publicKey ≠ 0) : loadFile D (saveFile i out) = some (i, out) := by
  rw [loadFile_saveFile_eq, LindellDkgOutput.fromKeyData, LindellDkgOutput.toKeyData,
    loadKey_save D _ _ hout]
  rfl

/-! ### Sessions -/

/-- What a session runs. -/
inductive SessionKind where
  | keygen
  | refresh
deriving DecidableEq, Repr

/-- A session of `n` honest parties, and what they draw.  The threshold 2 is at most `n`, or `main`
    refuses. -/
structure Session (C : Curve) where
  kind : SessionKind
  n : ℕ
  two_le : 2 ≤ n
  n_lt : n < 2 ^ 16
  sid : List UInt8
  coins : ℕ → DealerCoins C

namespace Session

/-- The network that runs a session, given the keys that the parties have loaded. -/
def setup (H : Hash) (s : Session C) (held : ℕ → Option (LindellDkgOutput C)) :
    Setup (Msg C) (Res DkgError (LindellDkgOutput C)) :=
  match s.kind with
  | .keygen => dkgSetup H s.n 2 s.sid s.coins fun _ => False
  | .refresh => refreshSetup H s.n 2 s.sid (fun i => (held i).getD ⟨0, 0⟩)
      (fun i => (s.coins i).draw) fun _ => False

/-- What `--save-key` writes at the end of a session: after a refresh, the new share and the loaded
    master key. -/
def saved (s : Session C) (held : Option (LindellDkgOutput C)) (output : LindellDkgOutput C) :
    LindellDkgOutput C :=
  match s.kind with
  | .keygen => output
  | .refresh => ⟨output.secretShare, (held.getD ⟨0, 0⟩).publicKey⟩

/-- The sum of the intercepts: the secret of a key generation. -/
def secret (s : Session C) : C.Scalar := ∑ d ∈ Finset.range s.n, (s.coins d).intercept

/-- The sum of the other coefficients. -/
def slope (s : Session C) : C.Scalar := ∑ d ∈ Finset.range s.n, (s.coins d).draw 0

end Session

/-- What a party takes away from a session. -/
noncomputable def Session.outcome (s : Session C) (held : Option (LindellDkgOutput C)) (i : ℕ) :
    LindellDkgOutput C :=
  match s.kind with
  | .keygen => ⟨s.secret + node C i * s.slope, s.secret • C.generator⟩
  | .refresh => ⟨(held.getD ⟨0, 0⟩).secretShare + node C i * s.slope, (held.getD ⟨0, 0⟩).publicKey⟩

/-- **Every session** can be run to its end, and ends in one way. -/
theorem Session.completes (H : Hash) (s : Session C) (held : ℕ → Option (LindellDkgOutput C)) :
    Completes (s.setup H held) fun i => .ok (s.outcome (held i) i) := by
  unfold setup outcome
  cases s.kind with
  | keygen =>
    have h := (dkgSetup_runsVss H s.n 2 s.sid s.coins fun _ => False).completes fun _ _ => not_false
    refine h.congr fun i _ => congrArg Except.ok (congrArg₂ LindellDkgOutput.mk ?_ ?_)
    · exact eval_jointPoly_two s.coins s.n _
    · refine (eval_jointPoly_smul s.n (ownVector s.coins 2) 0).symm.trans ?_
      rw [eval_zero_jointPoly_ownVector]
      rfl
  | refresh =>
    have h := (refreshSetup_runsVss H s.n 2 s.sid (fun i => (held i).getD ⟨0, 0⟩)
      (fun i => (s.coins i).draw) fun _ => False).completes fun _ _ => not_false
    refine h.congr fun i _ => congrArg Except.ok (congrArg₂ LindellDkgOutput.mk (congrArg _ ?_) rfl)
    refine (eval_jointPoly_two _ s.n _).trans ?_
    simp [slope]

/-- What a party of a session saves. -/
theorem Session.saved_eq {s : Session C} {held : ℕ → Option (LindellDkgOutput C)}
    {net : Net (Msg C) (Res DkgError (LindellDkgOutput C))}
    (hnet : Reachable (s.setup H held) net) {i : ℕ} (hi : i < s.n) {out : LindellDkgOutput C}
    (hret : net.Returned i (.ok out)) : s.saved (held i) out = s.outcome (held i) i := by
  have hi' : i < (s.setup H held).n := by
    unfold setup
    cases s.kind <;> exact hi
  rw [Except.ok.inj ((s.completes H held).returns _ hnet i hi' _ hret), saved, outcome]
  cases s.kind <;> rfl

/-! ### The world -/

/-- The files, the keys that parties have loaded for a session, and the networks of the sessions
    that are connected. -/
structure World (C : Curve) (F : Type) where
  files : F → Option (List UInt8)
  held : ℕ → ℕ → Option (LindellDkgOutput C)
  net : ℕ → Option (Net (Msg C) (Res DkgError (LindellDkgOutput C)))

/-- No files, and no session has begun. -/
def World.start : World C F where
  files _ := none
  held _ _ := none
  net _ := none

/-- **The steps.** -/
inductive World.Step [DecidableEq F] (H : Hash) (D : PointDecoder C) (plan : ℕ → Session C) :
    World C F → World C F → Prop where
  /-- A party loads its key file for a refresh, before it connects. -/
  | join {w : World C F} {k i : ℕ} {f : F} {data : List UInt8} {j : UInt16}
      {out : LindellDkgOutput C} (hkind : (plan k).kind = .refresh) (hi : i < (plan k).n)
      (hnone : w.held k i = none) (hf : w.files f = some data)
      (hload : loadFile D data = some (j, out)) (hj : j.toNat = i) :
      World.Step H D plan w { w with
        held := Function.update w.held k (Function.update (w.held k) i (some out)) }
  /-- All parties of a session connect. -/
  | connect {w : World C F} {k : ℕ} (hnone : w.net k = none)
      (hall : (plan k).kind = .refresh → ∀ i < (plan k).n, (w.held k i).isSome) :
      World.Step H D plan w { w with
        net := Function.update w.net k (some ((plan k).setup H (w.held k)).init) }
  /-- The protocol goes on. -/
  | run {w : World C F} {k : ℕ} {s s' : Net (Msg C) (Res DkgError (LindellDkgOutput C))}
      (hs : w.net k = some s) (hstep : Rounds.Step ((plan k).setup H (w.held k)) s s') :
      World.Step H D plan w { w with net := Function.update w.net k (some s') }
  /-- A party that has succeeded saves its key. -/
  | save {w : World C F} {k i : ℕ} {s : Net (Msg C) (Res DkgError (LindellDkgOutput C))} (f : F)
      {out : LindellDkgOutput C} (hs : w.net k = some s) (hi : i < (plan k).n)
      (hret : s.Returned i (.ok out)) :
      World.Step H D plan w { w with
        files := Function.update w.files f
          (some (saveFile (UInt16.ofNat i) ((plan k).saved (w.held k i) out))) }
  /-- A loaded key is saved without a refresh. -/
  | resave {w : World C F} {f : F} (g : F) {data : List UInt8} {j : UInt16}
      {out : LindellDkgOutput C} (hf : w.files f = some data)
      (hload : loadFile D data = some (j, out)) :
      World.Step H D plan w { w with
        files := Function.update w.files g (some (saveFile j out)) }
  /-- A file is deleted. -/
  | delete {w : World C F} (f : F) :
      World.Step H D plan w { w with files := Function.update w.files f none }

/-- The worlds that can come about. -/
def World.Reached [DecidableEq F] (H : Hash) (D : PointDecoder C) (plan : ℕ → Session C)
    (w : World C F) : Prop :=
  Relation.ReflTransGen (World.Step H D plan) World.start w

/-! ### Lineages -/

/-- The key `out` of party `i` comes from the key generation `k₀` and has gone through the
    refreshes `ks`, each of which it has joined once. -/
structure Lineage (plan : ℕ → Session C) (held : ℕ → ℕ → Option (LindellDkgOutput C)) (i k₀ : ℕ)
    (ks : List ℕ) (out : LindellDkgOutput C) : Prop where
  keygen : (plan k₀).kind = .keygen
  lt : i < (plan k₀).n
  refresh : ∀ k ∈ ks, (plan k).kind = .refresh ∧ i < (plan k).n
  joined : ∀ k ∈ ks, (held k i).isSome
  nodup : ks.Nodup
  share_eq : out.secretShare = (plan k₀).secret +
    node C i * ((plan k₀).slope + (ks.map fun k => (plan k).slope).sum)
  publicKey_eq : out.publicKey = (plan k₀).secret • C.generator

/-- The invariant of every run. -/
structure World.Sound (H : Hash) (plan : ℕ → Session C) (w : World C F) : Prop where
  /-- Every file holds the key of its lineage. -/
  files : ∀ f data, w.files f = some data → ∃ i k₀ ks out, i < 2 ^ 16 ∧
    Lineage plan w.held i k₀ ks out ∧ data = saveFile (UInt16.ofNat i) out
  /-- So does every party that has joined a refresh, and the refresh is not yet among it. -/
  held : ∀ k i out, w.held k i = some out → ∃ k₀ ks, Lineage plan w.held i k₀ ks out ∧ k ∉ ks
  /-- A refresh connects when all have joined. -/
  connected : ∀ k s, w.net k = some s → (plan k).kind = .refresh →
    ∀ i < (plan k).n, (w.held k i).isSome
  /-- The networks run the sessions. -/
  net : ∀ k s, w.net k = some s → Reachable ((plan k).setup H (w.held k)) s

section Steps

variable {plan : ℕ → Session C} {w w' : World C F} {held held' : ℕ → ℕ → Option (LindellDkgOutput C)}
  {i k₀ : ℕ} {ks : List ℕ} {out : LindellDkgOutput C}

/-- A lineage stands when more parties join. -/
theorem Lineage.mono (h : Lineage plan held i k₀ ks out)
    (hheld : ∀ k i, (held k i).isSome → (held' k i).isSome) : Lineage plan held' i k₀ ks out :=
  { h with joined := fun k hk => hheld k i (h.joined k hk) }

/-- A key that a key generation returns. -/
theorem Lineage.of_keygen {k : ℕ} (hkind : (plan k).kind = .keygen) (hi : i < (plan k).n)
    (hout : out = ⟨(plan k).secret + node C i * (plan k).slope,
      (plan k).secret • C.generator⟩) : Lineage plan held i k [] out where
  keygen := hkind
  lt := hi
  refresh k hk := absurd hk List.not_mem_nil
  joined k hk := absurd hk List.not_mem_nil
  nodup := List.nodup_nil
  share_eq := by simp [hout]
  publicKey_eq := by simp [hout]

/-- A key that a refresh returns. -/
theorem Lineage.concat {k : ℕ} {old : LindellDkgOutput C} (h : Lineage plan held i k₀ ks old)
    (hkind : (plan k).kind = .refresh) (hi : i < (plan k).n) (hheld : (held k i).isSome)
    (hk : k ∉ ks)
    (hout : out = ⟨old.secretShare + node C i * (plan k).slope, old.publicKey⟩) :
    Lineage plan held i k₀ (ks ++ [k]) out where
  keygen := h.keygen
  lt := h.lt
  refresh k' hk' := by
    rcases List.mem_append.mp hk' with hk' | hk'
    · exact h.refresh k' hk'
    · rw [List.mem_singleton.mp hk']
      exact ⟨hkind, hi⟩
  joined k' hk' := by
    rcases List.mem_append.mp hk' with hk' | hk'
    · exact h.joined k' hk'
    · rwa [List.mem_singleton.mp hk']
  nodup := by
    refine List.nodup_append.mpr ⟨h.nodup, List.nodup_singleton k, fun a ha b hb => ?_⟩
    rw [List.mem_singleton.mp hb]
    rintro rfl
    exact hk ha
  share_eq := by
    simp only [hout, h.share_eq, List.map_append, List.sum_append, List.map_cons, List.map_nil,
      List.sum_singleton]
    ring
  publicKey_eq := by rw [hout, h.publicKey_eq]

/-- What is loaded from a file is the key of its lineage. -/
theorem World.Sound.loaded (hw : w.Sound H plan) {f : F} {data : List UInt8} {j : UInt16}
    (hf : w.files f = some data) (hload : loadFile D data = some (j, out)) :
    ∃ k₀ ks, Lineage plan w.held j.toNat k₀ ks out := by
  obtain ⟨i, k₀, ks, out', hi, hline, rfl⟩ := hw.files f data hf
  obtain ⟨rfl, rfl⟩ := eq_of_loadFile_saveFile hload
  refine ⟨k₀, ks, ?_⟩
  rwa [UInt16.toNat_ofNat_of_lt' hi]

/-- What is saved at the end of a session is the key of a lineage. -/
theorem World.Sound.saved (hw : w.Sound H plan) {k : ℕ}
    {s : Net (Msg C) (Res DkgError (LindellDkgOutput C))} (hs : w.net k = some s)
    (hi : i < (plan k).n) (hret : s.Returned i (.ok out)) :
    ∃ k₀ ks, Lineage plan w.held i k₀ ks ((plan k).saved (w.held k i) out) := by
  have hout := Session.saved_eq (hw.net k s hs) hi hret
  unfold Session.outcome at hout
  cases hkind : (plan k).kind with
  | keygen =>
    rw [hkind] at hout
    exact ⟨k, [], .of_keygen hkind hi hout⟩
  | refresh =>
    rw [hkind] at hout
    obtain ⟨old, hold⟩ := Option.isSome_iff_exists.mp (hw.connected k s hs hkind i hi)
    obtain ⟨k₀, ks, hline, hk⟩ := hw.held k i old hold
    rw [hold] at hout
    refine ⟨k₀, ks ++ [k], hline.concat hkind hi (by rw [hold]; rfl) hk ?_⟩
    rw [hold]
    exact hout

/-- More parties joining keeps what has been said about the files. -/
theorem World.Sound.files_mono (hw : w.Sound H plan)
    (hheld : ∀ k i, (w.held k i).isSome → (held k i).isSome) {f : F} {data : List UInt8}
    (hf : w.files f = some data) : ∃ i k₀ ks out, i < 2 ^ 16 ∧ Lineage plan held i k₀ ks out ∧
      data = saveFile (UInt16.ofNat i) out := by
  obtain ⟨i, k₀, ks, out, hi, hline, hdata⟩ := hw.files f data hf
  exact ⟨i, k₀, ks, out, hi, hline.mono hheld, hdata⟩

variable [DecidableEq F]

/-- Writing a key that has a lineage keeps the invariant. -/
theorem World.Sound.write (hw : w.Sound H plan) (f : F) (hi : i < 2 ^ 16)
    (hline : Lineage plan w.held i k₀ ks out) : World.Sound H plan { w with
      files := Function.update w.files f (some (saveFile (UInt16.ofNat i) out)) } :=
  { hw with
    files := by
      intro g data hg
      by_cases hgf : g = f
      · subst hgf
        simp only [Function.update_self, Option.some.injEq] at hg
        exact ⟨i, k₀, ks, out, hi, hline, hg.symm⟩
      · simp only [Function.update_of_ne hgf] at hg
        exact hw.files g data hg }

/-- So does deleting a file. -/
theorem World.Sound.delete (hw : w.Sound H plan) (f : F) :
    World.Sound H plan { w with files := Function.update w.files f none } :=
  { hw with
    files := by
      intro g data hg
      by_cases hgf : g = f
      · subst hgf
        simp at hg
      · simp only [Function.update_of_ne hgf] at hg
        exact hw.files g data hg }

omit [DecidableEq F] in
/-- So does a network that runs its session. -/
theorem World.Sound.setNet (hw : w.Sound H plan) {k : ℕ}
    {s : Net (Msg C) (Res DkgError (LindellDkgOutput C))}
    (hall : (plan k).kind = .refresh → ∀ i < (plan k).n, (w.held k i).isSome)
    (hs : Reachable ((plan k).setup H (w.held k)) s) :
    World.Sound H plan { w with net := Function.update w.net k (some s) } :=
  { hw with
    connected := by
      intro k' s' hs' hkind
      by_cases hk : k' = k
      · subst hk
        exact hall hkind
      · simp only [Function.update_of_ne hk] at hs'
        exact hw.connected k' s' hs' hkind
    net := by
      intro k' s' hs'
      by_cases hk : k' = k
      · subst hk
        simp only [Function.update_self, Option.some.injEq] at hs'
        subst hs'
        exact hs
      · simp only [Function.update_of_ne hk] at hs'
        exact hw.net k' s' hs' }

omit [DecidableEq F] in
/-- Whoever has joined stays. -/
theorem isSome_held_join {held : ℕ → ℕ → Option (LindellDkgOutput C)} {k i k' i' : ℕ}
    {out : LindellDkgOutput C} (h : (held k' i').isSome) :
    (Function.update held k (Function.update (held k) i (some out)) k' i').isSome := by
  by_cases hk : k' = k
  · subst hk
    by_cases hi : i' = i
    · subst hi
      simp
    · simpa [Function.update_of_ne hi] using h
  · rwa [Function.update_of_ne hk]

omit [DecidableEq F] in
/-- **Joining.** The key that is loaded has not gone through this refresh: the party would have
    joined it before. -/
theorem World.Sound.join (hw : w.Sound H plan) {k : ℕ} (hkind : (plan k).kind = .refresh)
    (hi : i < (plan k).n) (hnone : w.held k i = none) (hline : Lineage plan w.held i k₀ ks out) :
    World.Sound H plan { w with
      held := Function.update w.held k (Function.update (w.held k) i (some out)) } := by
  set held' := Function.update w.held k (Function.update (w.held k) i (some out)) with hheld'
  have hself : held' k i = some out := by simp [hheld']
  have hother : ∀ k' i', ¬ (k' = k ∧ i' = i) → held' k' i' = w.held k' i' := by
    intro k' i' hne
    by_cases hk : k' = k
    · subst hk
      have hi' : i' ≠ i := fun h => hne ⟨rfl, h⟩
      simp [hheld', Function.update_of_ne hi']
    · simp [hheld', Function.update_of_ne hk]
  have hmono : ∀ k' i', (w.held k' i').isSome → (held' k' i').isSome :=
    fun _ _ => isSome_held_join
  -- the session is not connected yet, as this party was missing
  have hnet : w.net k = none := by
    cases hs : w.net k with
    | none => rfl
    | some s =>
      have h := hw.connected k s hs hkind i hi
      rw [hnone] at h
      cases h
  refine ⟨fun f data hf => hw.files_mono hmono hf, ?_, ?_, ?_⟩
  · intro k' i' out' hout'
    by_cases heq : k' = k ∧ i' = i
    · obtain ⟨rfl, rfl⟩ := heq
      obtain rfl := Option.some.inj (hself.symm.trans hout')
      refine ⟨k₀, ks, hline.mono hmono, fun hk => ?_⟩
      have h := hline.joined k' hk
      rw [hnone] at h
      cases h
    · obtain ⟨k₁, ks', hline', hk'⟩ := hw.held k' i' out' ((hother k' i' heq).symm.trans hout')
      exact ⟨k₁, ks', hline'.mono hmono, hk'⟩
  · intro k' s hs hkind' i' hi'
    exact hmono k' i' (hw.connected k' s hs hkind' i' hi')
  · intro k' s hs
    have hk : k' ≠ k := by
      rintro rfl
      rw [hnet] at hs
      cases hs
    have hsame : held' k' = w.held k' := funext fun i' => hother k' i' fun h => hk h.1
    simp only [hsame]
    exact hw.net k' s hs

/-- **Step lemma.** Every step keeps the invariant. -/
theorem World.Sound.step (hw : w.Sound H plan) (h : World.Step H D plan w w') :
    w'.Sound H plan := by
  cases h with
  | join hkind hi hnone hf hload hj =>
    obtain ⟨k₀, ks, hline⟩ := hw.loaded hf hload
    subst hj
    exact hw.join hkind hi hnone hline
  | connect hnone hall => exact hw.setNet hall .refl
  | @run k s s' hs hstep =>
    exact hw.setNet (fun hkind => hw.connected k s hs hkind) ((hw.net k s hs).tail hstep)
  | @save k i s f out hs hi hret =>
    obtain ⟨k₀, ks, hline⟩ := hw.saved hs hi hret
    exact hw.write f (lt_trans hi (plan k).n_lt) hline
  | @resave f g data j out hf hload =>
    obtain ⟨k₀, ks, hline⟩ := hw.loaded hf hload
    have h := hw.write g j.toNat_lt hline
    rwa [UInt16.ofNat_toNat] at h
  | delete f => exact hw.delete f

/-- **Run lemma.** -/
theorem World.Reached.sound (h : World.Reached H D plan w) : w.Sound H plan := by
  induction h with
  | refl =>
    refine ⟨fun f data hf => ?_, fun k i out hout => ?_, fun k s hs => ?_, fun k s hs => ?_⟩
    · cases hf
    · cases hout
    · cases hs
    · cases hs
  | tail _ hs ih => exact ih.step hs

end Steps

/-! ### Progress -/

section Progress

variable [DecidableEq F] {plan : ℕ → Session C} {w : World C F} {k : ℕ}

/-- A connected session goes on in the world. -/
theorem World.run_of_steps {s s' : Net (Msg C) (Res DkgError (LindellDkgOutput C))}
    (h : Relation.ReflTransGen (Rounds.Step ((plan k).setup H (w.held k))) s s') :
    Relation.ReflTransGen (World.Step H D plan)
      { w with net := Function.update w.net k (some s) }
      { w with net := Function.update w.net k (some s') } := by
  induction h with
  | refl => exact .refl
  | @tail s₁ s₂ _ hs ih =>
    refine ih.tail ?_
    set w₁ : World C F := { w with net := Function.update w.net k (some s₁) } with hw₁
    have hs₁ : w₁.net k = some s₁ := Function.update_self k (some s₁) w.net
    have hnext : World.Step H D plan w₁ { w₁ with net := Function.update w₁.net k (some s₂) } :=
      .run hs₁ hs
    simpa [hw₁] using hnext

/-- The parties of a session that has ended save their keys, one after the other. -/
theorem World.run_of_saves {s : Net (Msg C) (Res DkgError (LindellDkgOutput C))}
    (hs : w.net k = some s) {out : ℕ → LindellDkgOutput C} {m : ℕ} (hm : m ≤ (plan k).n)
    (hret : ∀ i < (plan k).n, s.Returned i (.ok (out i))) {f : ℕ → F} (hf : Function.Injective f) :
    ∃ w', Relation.ReflTransGen (World.Step H D plan) w w' ∧ w'.held = w.held ∧ w'.net = w.net ∧
      ∀ i < m, w'.files (f i) =
        some (saveFile (UInt16.ofNat i) ((plan k).saved (w.held k i) (out i))) := by
  induction m with
  | zero => exact ⟨w, .refl, rfl, rfl, fun i hi => absurd hi (Nat.not_lt_zero i)⟩
  | succ m ih =>
    obtain ⟨w', hrun, hheld, hnet, hfiles⟩ := ih (by omega)
    refine ⟨_, hrun.tail (.save (f m) (hnet ▸ hs) hm (hret m hm)), hheld, hnet, fun i hi => ?_⟩
    by_cases him : i = m
    · subst him
      simp [hheld]
    · have hne : f i ≠ f m := fun h => him (hf h)
      simp only [Function.update_of_ne hne]
      exact hfiles i (by omega)

/-- **Progress.** A session that can connect can be run to its end and saved. -/
theorem World.exists_saved (H : Hash) (D : PointDecoder C) (hnone : w.net k = none)
    (hall : (plan k).kind = .refresh → ∀ i < (plan k).n, (w.held k i).isSome)
    {f : ℕ → F} (hf : Function.Injective f) :
    ∃ w', Relation.ReflTransGen (World.Step H D plan) w w' ∧ w'.held = w.held ∧
      (∀ k' ≠ k, w'.net k' = w.net k') ∧ ∀ i < (plan k).n, w'.files (f i) =
        some (saveFile (UInt16.ofNat i) ((plan k).outcome (w.held k i) i)) := by
  have hn : ((plan k).setup H (w.held k)).n = (plan k).n := by
    unfold Session.setup
    cases (plan k).kind <;> rfl
  obtain ⟨s, hs, hret⟩ := ((plan k).completes H (w.held k)).reaches _ .refl
  rw [hn] at hret
  have hrun := World.run_of_steps (D := D) (w := w) hs
  obtain ⟨w', hrun', hheld, hnet, hfiles⟩ := World.run_of_saves (H := H) (D := D)
    (w := { w with net := Function.update w.net k (some s) }) (Function.update_self k (some s) w.net)
    le_rfl hret hf
  refine ⟨w', (Relation.ReflTransGen.head (.connect hnone hall) hrun).trans hrun', hheld,
    fun k' hk' => ?_, fun i hi => ?_⟩
  · rw [hnet]
    exact Function.update_of_ne hk' _ _
  · rw [hfiles i hi, (plan k).saved_eq hs hi (hret i hi)]

end Progress

/-! ### Three parties -/

/-- Three parties generate the secret one, and refresh it. -/
def smallPlan (k : ℕ) : Session smallCurve where
  kind := if k = 0 then .keygen else .refresh
  n := 3
  two_le := by decide
  n_lt := three_lt_indices
  sid := []
  coins d := if d = 0 then ⟨-1, fun _ => -1⟩ else ⟨1, fun _ => 1⟩

/-- The key of a party. -/
def smallKey (i : ℕ) : LindellDkgOutput smallCurve := ⟨1 + node smallCurve i, smallCurve.generator⟩

theorem smallPlan_values : (smallPlan 0).secret = 1 ∧ (smallPlan 0).slope = 1 := by decide

/-- A world in which they have saved their keys. -/
theorem exists_small_world : ∃ w : World smallCurve ℕ,
    World.Reached lastBytes smallDecoder smallPlan w ∧ (∀ k i, w.held k i = none) ∧
      w.net 1 = none ∧ ∀ i < 3, w.files i = some (saveFile (UInt16.ofNat i) (smallKey i)) := by
  have hkeygen : (smallPlan 0).kind = .refresh →
      ∀ i < (smallPlan 0).n, ((World.start : World smallCurve ℕ).held 0 i).isSome :=
    fun h => nomatch h
  obtain ⟨w, hw, hheld, hnet, hfiles⟩ :=
    World.exists_saved lastBytes smallDecoder rfl hkeygen Function.injective_id
  refine ⟨w, hw, fun k i => by rw [hheld]; rfl, hnet 1 (by decide),
    fun i hi => (hfiles i hi).trans ?_⟩
  have hkey : (smallPlan 0).outcome none i =
      ⟨(smallPlan 0).secret + node smallCurve i * (smallPlan 0).slope,
        (smallPlan 0).secret • smallCurve.generator⟩ := rfl
  rw [smallPlan_values.1, smallPlan_values.2, mul_one, one_smul] at hkey
  exact congrArg (fun key => some (saveFile (UInt16.ofNat i) key)) hkey

/-- Its files load. -/
theorem loadFile_smallKey (i : ℕ) : loadFile smallDecoder (saveFile (UInt16.ofNat i) (smallKey i)) =
    some (UInt16.ofNat i, smallKey i) :=
  loadFile_saveFile smallDecoder _ smallCurve.generator_ne_zero

/-! ### Refreshing through files -/

section Refreshing

variable [DecidableEq F] {plan : ℕ → Session C} {w : World C F} {k : ℕ}

/-- The parties of a refresh load their files, one after the other. -/
theorem World.run_of_joins (H : Hash) {f : ℕ → F} {old : ℕ → LindellDkgOutput C}
    (hkind : (plan k).kind = .refresh) (hnone : ∀ i < (plan k).n, w.held k i = none)
    (hload : ∀ i < (plan k).n, ∃ data, w.files (f i) = some data ∧
      loadFile D data = some (UInt16.ofNat i, old i)) {m : ℕ} (hm : m ≤ (plan k).n) :
    ∃ w', Relation.ReflTransGen (World.Step H D plan) w w' ∧ w'.files = w.files ∧ w'.net = w.net ∧
      (∀ k' i, (w.held k' i).isSome → (w'.held k' i).isSome) ∧
      ∀ i < (plan k).n, w'.held k i = if i < m then some (old i) else none := by
  induction m with
  | zero => exact ⟨w, .refl, rfl, rfl, fun _ _ h => h, fun i hi => by rw [hnone i hi]; rfl⟩
  | succ m ih =>
    obtain ⟨w', hrun, hfiles, hnet, hmono, hheld⟩ := ih (by omega)
    obtain ⟨data, hf, hdata⟩ := hload m hm
    have hlt : m < 2 ^ 16 := lt_trans hm (plan k).n_lt
    have hm' : w'.held k m = none := by rw [hheld m hm, if_neg (lt_irrefl m)]
    refine ⟨_, hrun.tail (.join hkind hm hm' (by rw [hfiles, hf]) hdata
      (UInt16.toNat_ofNat_of_lt' hlt)), hfiles, hnet, fun k' i h => ?_, fun i hi => ?_⟩
    · exact isSome_held_join (hmono k' i h)
    · by_cases him : i = m
      · subst him
        simp
      · simp only [Function.update_self, Function.update_of_ne him, hheld i hi]
        have hiff : i < m ↔ i < m + 1 := by omega
        simp only [hiff]

end Refreshing

section Pair

variable {plan : ℕ → Session C} {held : ℕ → ℕ → Option (LindellDkgOutput C)} {i j k₀ : ℕ}
  {ks ks' : List ℕ} {a b : LindellDkgOutput C}

/-- The offset that a key has picked up in its refreshes. -/
def offset (plan : ℕ → Session C) (ks : List ℕ) : C.Scalar := (ks.map fun k => (plan k).slope).sum

/-- The shares of two signers. -/
def pairShare (i : ℕ) (a b : LindellDkgOutput C) (x : ℕ) : C.Scalar :=
  if x = i then a.secretShare else b.secretShare

/-- The node of a party that has a lineage. -/
theorem Lineage.index_lt (ha : Lineage plan held i k₀ ks a) : i + 1 < 2 ^ 16 := by
  have h := ha.lt
  have hn := (plan k₀).n_lt
  omega

/-- **What two keys of one key generation combine to**: the secret, up to the difference between
    their offsets. -/
theorem combine_of_lineages (hij : i ≠ j) (ha : Lineage plan held i k₀ ks a)
    (hb : Lineage plan held j k₀ ks' b) :
    combine [i, j] (pairShare i a b) = some ((plan k₀).secret +
      weight [i, j].toFinset (node C) j * (node C j * (offset plan ks' - offset plan ks))) := by
  have hnd : [i, j].Nodup := by simpa using hij
  have hs : ∀ x ∈ [i, j], x + 1 < 2 ^ 16 := by
    intro x hx
    rcases List.mem_pair.mp hx with rfl | rfl
    · exact ha.index_lt
    · exact hb.index_lt
  -- the line through the share of `i` and the secret
  have hline := combine_eq hs hnd
    (f := Polynomial.C ((plan k₀).slope + offset plan ks) * Polynomial.X +
      Polynomial.C (plan k₀).secret)
    (lt_of_le_of_lt Polynomial.degree_linear_le (by norm_num))
  rw [combine_eq_sum hs hnd, Option.some.injEq, List.sum_toFinset _ hnd] at hline ⊢
  simp only [List.map_cons, List.map_nil, List.sum_cons, List.sum_nil, add_zero, pairShare,
    if_true, if_neg hij.symm, Polynomial.eval_add, Polynomial.eval_mul, Polynomial.eval_C,
    Polynomial.eval_X, mul_zero, zero_add] at hline ⊢
  rw [← hline, ha.share_eq, hb.share_eq, offset, offset]
  ring

/-- They combine to the secret exactly if the offsets agree. -/
theorem combine_eq_secret_iff (hij : i ≠ j) (ha : Lineage plan held i k₀ ks a)
    (hb : Lineage plan held j k₀ ks' b) :
    combine [i, j] (pairShare i a b) = some (plan k₀).secret ↔
      offset plan ks = offset plan ks' := by
  have hweight : weight [i, j].toFinset (node C) j ≠ 0 := by
    refine weight_node_ne_zero (fun x hx => ?_) (by simp)
    rcases List.mem_pair.mp hx with rfl | rfl
    · exact ha.index_lt
    · exact hb.index_lt
  rw [combine_of_lineages hij ha hb, Option.some.injEq, add_eq_left, mul_eq_zero, mul_eq_zero,
    or_iff_right hweight, or_iff_right (node_ne_zero hb.index_lt), sub_eq_zero, eq_comm]

end Pair

end Govis.Cli
