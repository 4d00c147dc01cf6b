import Govis.Cggmp21.EndToEnd
import Govis.Cggmp21.KeygenAdversary
import Govis.Lindell.DkgRuns
import Govis.Tcp.Scripts
import Govis.Tcp.WireFormat

namespace Govis.Tcp

open Bytes Curve Shamir Framing Transition Rounds
open Lindell (DkgError LindellDkgOutput DealerCoins dkgSetup runDkg runVss vssScript ownVector vecWith)
open Cggmp21 (KeygenMsg KeygenError Cggmp21KeygenOutput KeygenCoins keygenSetup runKeygen)

/-!
# The transport: key generation

`run_dkg` and `run_keygen` over the transport.

* `dkg_publicKey`, `keygen_publicKey` — the key of a party that succeeds, from what its rounds handed
  over;
* `dkgCodec` — the codec for the messages of `run_dkg`;
* `exists_shown_run` — a run in which a corrupt dealer shows every party a vector of its own, and
  every party succeeds.
-/

variable {C : Curve} {H : Hash} {n t : ℕ} {sid : List UInt8} {corrupt : ℕ → Prop} {i j : ℕ}


/-- The rounds of `run_vss`: two reliable broadcasts, and shares. -/
def dkgKind (r : ℕ) : MessageType := if r < 2 then .broadcast true else .p2p

/-- `run_dkg` over the transport. -/
def dkgDeployment (codec : Codec (AnyMsg (Lindell.Msg C))) (rounds : RoundInput (Lindell.Msg C))
    (H : Hash) (n t : ℕ) (sid : List UInt8) (coins : ℕ → DealerCoins C) (corrupt : ℕ → Prop) :
    Deployment (Lindell.Msg C) (Res DkgError (LindellDkgOutput C)) where
  setup := dkgSetup H n t sid coins corrupt
  kind := dkgKind
  codec := codec
  rounds := rounds

/-- `run_keygen` over the transport. -/
def keygenDeployment (codec : Codec (AnyMsg (KeygenMsg C))) (rounds : RoundInput (KeygenMsg C))
    (H : Hash) (n t : ℕ) (sid : List UInt8) (coins : ℕ → KeygenCoins C) (corrupt : ℕ → Prop) :
    Deployment (KeygenMsg C) (Res KeygenError (Cggmp21KeygenOutput C)) where
  setup := keygenSetup H n t sid coins corrupt
  kind _ := .broadcast true
  codec := codec
  rounds := rounds

/-- What a revealed vector contributes to the public key. -/
def firstPoint (m : Lindell.RevealMsg C) : C.Point := m.publicCoeffs.headD 0

/-- What the coefficient points of a party contribute to it. -/
def firstKeygenPoint (m : Cggmp21.Round3Msg C) : C.Point := m.polynomialCoeffPoints.headD 0

section Dkg

variable {codec : Codec (AnyMsg (Lindell.Msg C))} {rounds : RoundInput (Lindell.Msg C)}
  {coins : ℕ → DealerCoins C} {w : World (Lindell.Msg C) (Res DkgError (LindellDkgOutput C))}

/-- The public key of a party that succeeds adds up what round 1 has handed over. -/
theorem dkg_publicKey (h : WorldReached (dkgDeployment codec rounds H n t sid coins corrupt) w)
    (hi : i < n) {out : LindellDkgOutput C} (hout : w.Returned i (.ok out)) :
    ∃ vec : ℕ → Lindell.RevealMsg C, (∀ d < n, d ≠ i → (w.party i).got 1 d = some (vec d)) ∧
      out.publicKey = (coins i).intercept • C.generator +
        ∑ d ∈ (Finset.range n).erase i, firstPoint (vec d) := by
  have hsound := h.party i
  have hres := hsound.result hout
  change (runDkg H i n t sid (coins i).intercept (coins i).draw).exec _ = _ at hres
  rw [runDkg, Proc.exec_map] at hres
  cases hvss : (runVss H i n t sid (coins i).intercept (coins i).draw).exec
      ((w.party i).inbox n i) with
  | error e =>
    change Except.map _ ((runVss H i n t sid _ _).exec ((w.party i).inbox n i)) = _ at hres
    rw [hvss] at hres
    cases hres
  | ok res =>
    change Except.map _ ((runVss H i n t sid _ _).exec ((w.party i).inbox n i)) = _ at hres
    rw [hvss] at hres
    have hends : (runDkg H i n t sid (coins i).intercept (coins i).draw).ends
        ((w.party i).inbox n i) = 3 := by
      rw [runDkg, Proc.ends_map]
      exact Lindell.runVss_ends_of_ok hvss
    have hfull : ∀ r < 3, ∀ d < n, d ≠ i → ∃ m, (w.party i).got r d = some m :=
      fun r hr d hd hdi => hsound.full hout (lt_of_lt_of_eq hr hends.symm) hd hdi
    obtain ⟨commit, hcommit⟩ := exists_row (hfull 0 (by decide))
    obtain ⟨vec, hvec⟩ := exists_row (hfull 1 (by decide))
    obtain ⟨share, hshare⟩ := exists_row (hfull 2 (by decide))
    have hok := (Lindell.runVss_exec_ok hi (collect_eq_map_others hcommit)
      (collect_eq_map_others hvec) (collect_eq_map_others hshare)).mp hvss
    refine ⟨vec, hvec, ?_⟩
    rw [← Except.ok.inj hres]
    exact hok.2.2

/-- What an honest party reveals. -/
theorem dkg_sends {d k : ℕ} {inb : Inbox (Lindell.Msg C)} {m : Lindell.RevealMsg C}
    (h : ((dkgSetup H n t sid coins corrupt).prog d).Sends inb 1 k m) :
    firstPoint m = (coins d).intercept • C.generator := by
  change ((runVss H d n t sid _ _).map _).Sends inb 1 k m at h
  rw [Proc.sends_map_iff] at h
  rw [Lindell.runVss_sends_reveal.mp h]
  rfl

end Dkg

section Keygen

variable {codec : Codec (AnyMsg (KeygenMsg C))} {rounds : RoundInput (KeygenMsg C)}
  {coins : ℕ → KeygenCoins C} {w : World (KeygenMsg C) (Res KeygenError (Cggmp21KeygenOutput C))}

/-- The same for `run_keygen` and its round 2. -/
theorem keygen_publicKey (h : WorldReached (keygenDeployment codec rounds H n t sid coins corrupt) w)
    {out : Cggmp21KeygenOutput C} (hout : w.Returned i (.ok out)) :
    ∃ msg : ℕ → Cggmp21.Round3Msg C, (∀ d < n, d ≠ i → (w.party i).got 2 d = some (msg d)) ∧
      out.publicKey = (coins i).ecSecret • C.generator +
        ∑ d ∈ (Finset.range n).erase i, firstKeygenPoint (msg d) := by
  have hsound := h.party i
  have hres := hsound.result hout
  change (runKeygen H i n t sid (coins i)).exec ((w.party i).inbox n i) = _ at hres
  have hends : (runKeygen H i n t sid (coins i)).ends ((w.party i).inbox n i) = 3 :=
    Cggmp21.runKeygen_ends_of_ok hres
  have : Nonempty (Cggmp21.Round3Msg C) := ⟨⟨[], [], [], ⟨0, 0⟩⟩⟩
  obtain ⟨msg, hmsg⟩ : ∃ f : ℕ → Cggmp21.Round3Msg C, ∀ d < n, d ≠ i →
      (w.party i).got 2 d = some (f d) := exists_row fun d hd hdi =>
    hsound.full (r := 2) hout (lt_of_lt_of_eq (Nat.lt_succ_self 2) hends.symm) hd hdi
  exact ⟨msg, hmsg, (Cggmp21.runKeygen_exec_ok (collect_eq_map_others hmsg) hres).2⟩

theorem keygen_sends {d k : ℕ} {inb : Inbox (KeygenMsg C)} {m : Cggmp21.Round3Msg C}
    (h : ((keygenSetup H n t sid coins corrupt).prog d).Sends inb 2 k m) :
    firstKeygenPoint m = (coins d).ecSecret • C.generator := by
  rw [firstKeygenPoint, Cggmp21.runKeygen_sends_points h]
  rfl

end Keygen

/-! ### The messages of `run_dkg` on the wire -/

/-- A message of `run_dkg`: four bytes for the variant, then its field. -/
def serializeDkg : AnyMsg (Lindell.Msg C) → Option (List UInt8)
  | ⟨0, m⟩ => some ([0, 0, 0, 0] ++ (m : Lindell.CommitMsg).commitment.toList)
  | ⟨1, m⟩ => some ([1, 0, 0, 0] ++ (toBE 8 (m : Lindell.RevealMsg C).publicCoeffs.length).reverse ++
      (m : Lindell.RevealMsg C).publicCoeffs.flatMap (toBytes true))
  | ⟨2, m⟩ => some ([2, 0, 0, 0] ++ toBeBytes (m : Lindell.ShareMsg C).share)
  | ⟨_ + 3, _⟩ => none

theorem serializeDkg_injective {m m' : AnyMsg (Lindell.Msg C)} {bytes : List UInt8}
    (h : serializeDkg m = some bytes) (h' : serializeDkg m' = some bytes) : m = m' := by
  obtain ⟨r, m⟩ := m
  obtain ⟨r', m'⟩ := m'
  have heq := h.trans h'.symm
  rcases r with _ | _ | _ | r
  · rcases r' with _ | _ | _ | r'
    · have hbytes := List.append_cancel_left (Option.some.inj heq)
      obtain ⟨commitment⟩ := (m : Lindell.CommitMsg)
      obtain ⟨commitment'⟩ := (m' : Lindell.CommitMsg)
      obtain rfl := Vector.toList_inj.mp hbytes
      rfl
    · cases heq
    · cases heq
    · cases heq
  · rcases r' with _ | _ | _ | r'
    · cases heq
    · -- the lengths have eight bytes each
      have hbytes := (List.append_inj (Option.some.inj heq) (by simp)).2
      obtain ⟨v⟩ := (m : Lindell.RevealMsg C)
      obtain ⟨v'⟩ := (m' : Lindell.RevealMsg C)
      obtain rfl := flatMap_toBytes_injective hbytes
      rfl
    · cases heq
    · cases heq
  · rcases r' with _ | _ | _ | r'
    · cases heq
    · cases heq
    · have hbytes := List.append_cancel_left (Option.some.inj heq)
      obtain ⟨share⟩ := (m : Lindell.ShareMsg C)
      obtain ⟨share'⟩ := (m' : Lindell.ShareMsg C)
      obtain rfl : share = share' := by
        rw [← fromBeBytesModOrder_toBeBytes share, hbytes, fromBeBytesModOrder_toBeBytes]
      rfl
    · cases heq
  · cases h

/-- The codec for them. -/
noncomputable def dkgCodec (C : Curve) : Codec (AnyMsg (Lindell.Msg C)) :=
  wireCodec (.ofInjective serializeDkg serializeDkg_injective) maxFrameLength maxFrameLength_lt

/-- Commitments and shares fit a frame. -/
theorem carries_vssScript (hn : n ≤ 2 ^ 16) {vec : ℕ → List C.Point} {share : ℕ → ℕ → C.Scalar} {d : ℕ}
    (hvec : 33 * (vec d).length + 19 ≤ maxFrameLength) {r : ℕ} (hr : r < 3) (j : ℕ) :
    (dkgCodec C).Carries n ⟨r, vssScript H sid vec share r d j⟩ := by
  have hmax : 43 ≤ maxFrameLength := by decide
  obtain rfl | rfl | rfl : r = 0 ∨ r = 1 ∨ r = 2 := by omega
  · refine carries_wireCodec maxFrameLength_lt hn rfl ?_
    simpa using hmax
  · refine carries_wireCodec maxFrameLength_lt hn rfl ?_
    show ([1, 0, 0, 0] ++ (toBE 8 (vec d).length).reverse ++
      (vec d).flatMap (toBytes true)).length + 7 ≤ maxFrameLength
    simp
    omega
  · refine carries_wireCodec maxFrameLength_lt hn rfl ?_
    simpa using hmax

/-! ### Vectors that differ from party to party -/

/-- The script in which dealer `d` shows party `j` the vector `view j d`, with its commitment. -/
def shownScript (H : Hash) (sid : List UInt8) (view : ℕ → ℕ → List C.Point) (share : ℕ → ℕ → C.Scalar) :
    (r : ℕ) → ℕ → ℕ → Lindell.Msg C r :=
  fun r d j => vssScript H sid (view j) share r d j

/-- Only the vector of the dealer matters for what it says. -/
theorem vssScript_congr {vec vec' : ℕ → List C.Point} {share : ℕ → ℕ → C.Scalar} {d : ℕ}
    (h : vec d = vec' d) (r j : ℕ) :
    vssScript H sid vec share r d j = vssScript H sid vec' share r d j := by
  rcases r with _ | _ | r
  · rw [vssScript, vssScript, h]
  · rw [vssScript, vssScript, h]
  · rfl

/-- The shares of dealer `c` are `sh`, the others deal honestly. -/
def shareWith (coins : ℕ → DealerCoins C) (t c : ℕ) (sh : ℕ → C.Scalar) (d j : ℕ) : C.Scalar :=
  if d = c then sh j else evalAt (node C j) (dealing (coins d).intercept (coins d).draw t)

/-- An honest dealer shows everybody the same. -/
theorem vecWith_eq {coins : ℕ → DealerCoins C} {c d : ℕ} (hd : d ≠ c) {v v' : List C.Point} :
    vecWith coins t c v d = vecWith coins t c v' d := by
  rw [vecWith, if_neg hd, vecWith, if_neg hd]

/-- **A story of its own for every party.**  A party that is shown the vector `v` by dealer `c`, with a
    share that matches, succeeds with the key of that vector. -/
theorem runDkg_shown {coins : ℕ → DealerCoins C} {c : ℕ} {v : ℕ → List C.Point} {sh : ℕ → C.Scalar}
    (hi : i < n) (hic : i ≠ c) (hv : v i ≠ []) (hsh : sh i • C.generator = evalAt (node C i) (v i)) :
    Follows n i (shownScript H sid (fun j => vecWith coins t c (v j)) (shareWith coins t c sh)) 3
      (.ok ⟨(jointPoly n (vecWith coins t c (v i))).eval (node C i),
        jointAt n (vecWith coins t c (v i)) 0⟩)
      (runDkg H i n t sid (coins i).intercept (coins i).draw) := by
  have hown : Lindell.DealsHonestly coins n t (vecWith coins t c (v i)) (shareWith coins t c sh) i :=
    ⟨if_neg hic, fun j _ => if_neg hic⟩
  have hne : ∀ d < n, vecWith coins t c (v i) d ≠ [] := by
    intro d _
    unfold vecWith
    split
    · exact hv
    · exact List.cons_ne_nil _ _
  have hmatch : ∀ d < n, d ≠ i →
      shareWith coins t c sh d i • C.generator = evalAt (node C i) (vecWith coins t c (v i) d) := by
    intro d _ _
    by_cases hdc : d = c
    · rw [shareWith, if_pos hdc, vecWith, if_pos hdc, hsh]
    · rw [shareWith, if_neg hdc, vecWith, if_neg hdc, ownVector, evalAt_map_smul]
  have hfollows : Follows n i (vssScript H sid (vecWith coins t c (v i)) (shareWith coins t c sh)) 3 _
      (runVss H i n t sid (coins i).intercept (coins i).draw) := Lindell.runVss_follows hown hne
  rw [Lindell.runVss_exec_script hi hown hne hmatch] at hfollows
  have hshown : Follows n i
      (shownScript H sid (fun j => vecWith coins t c (v j)) (shareWith coins t c sh)) 3 _
      (runVss H i n t sid (coins i).intercept (coins i).draw) :=
    hfollows.congr fun r _ j _ _ => ⟨vssScript_congr (vecWith_eq hic) r j, rfl⟩
  exact hshown.map fun res : Res DkgError (C.Scalar × C.Point) => res.map fun out =>
    (⟨out.1, out.2⟩ : LindellDkgOutput C)

/-- **Some run over the transport** has dealer `c` show every party the vector `v j` with a matching
    share, and every party succeed. -/
theorem exists_shown_run (H : Hash) (sid : List UInt8) (coins : ℕ → DealerCoins C) (hn : n ≤ 2 ^ 16)
    (ht : 33 * t + 52 ≤ maxFrameLength) (c : ℕ) (v : ℕ → List C.Point) (sh : ℕ → C.Scalar)
    (hv : ∀ j < n, v j ≠ [] ∧ 33 * (v j).length + 19 ≤ maxFrameLength)
    (hsh : ∀ j < n, sh j • C.generator = evalAt (node C j) (v j)) :
    ∃ w, WorldReached (dkgDeployment (dkgCodec C) firstInput H n t sid coins (· = c)) w ∧
      (∀ i < n, i ≠ c → w.Returned i (.ok ⟨(jointPoly n (vecWith coins t c (v i))).eval (node C i),
        jointAt n (vecWith coins t c (v i)) 0⟩)) ∧
      ∀ g h inc, (g, .ok inc) ∈ w.sys.yields h → inc.sender = g ∧ ∃ r, inc.msg =
        ⟨r, shownScript H sid (fun j => vecWith coins t c (v j)) (shareWith coins t c sh) r g h⟩ := by
  refine exists_world_run (D := dkgDeployment (dkgCodec C) firstInput H n t sid coins (· = c))
    (k := 3) (fun r hr d hd j hj hjd => ?_) (fun g hg r reliable hkind j hj j' hj' _ _ => ?_) rfl
    fun i hi hic => runDkg_shown hi hic (hv i hi).1 (hsh i hi)
  · have hlen : 33 * (vecWith coins t c (v j) d).length + 19 ≤ maxFrameLength := by
      by_cases hdc : d = c
      · rw [vecWith, if_pos hdc]
        exact (hv j hj).2
      · have hown : (ownVector coins t d).length ≤ t + 1 := by
          simp only [ownVector, dealing, List.length_map, List.length_cons, List.length_range]
          omega
        rw [vecWith, if_neg hdc]
        omega
    exact carries_vssScript hn hlen hr j
  · have hr : r < 2 := by
      by_contra hr
      change dkgKind r = _ at hkind
      rw [dkgKind, if_neg hr] at hkind
      cases hkind
    have hsame : ∀ r', vssScript H sid (vecWith coins t c (v j)) (shareWith coins t c sh) r' g j =
        vssScript H sid (vecWith coins t c (v j')) (shareWith coins t c sh) r' g j :=
      fun r' => vssScript_congr (vecWith_eq hg) r' j
    obtain rfl | rfl : r = 0 ∨ r = 1 := by omega
    · exact hsame 0
    · exact hsame 1

/-! ### Key generation by the script -/

/-- **Key generation can be completed over the transport**, by any codec that has room for the messages.
    A corrupt party may keep to the protocol: it names itself and shows everybody its own points. -/
theorem exists_keygen_run {x : Cggmp21.KeygenSession C H} (T : x.Transcript) (corrupt : ℕ → Prop)
    {codec : Codec (AnyMsg (KeygenMsg C))}
    (hcarry : CarriesScript (keygenDeployment codec firstInput H x.n x.t x.sid x.coins corrupt) T.msgs 3) :
    ∃ w, WorldReached (keygenDeployment codec firstInput H x.n x.t x.sid x.coins corrupt) w ∧
      (∀ i < x.n, ¬ corrupt i → w.Returned i (.ok (x.output i))) ∧
      ∀ g h inc, (g, .ok inc) ∈ w.sys.yields h → inc.sender = g ∧
        ∀ m : Cggmp21.Round3Msg C, inc.msg = ⟨2, m⟩ → m.polynomialCoeffPoints = x.vec g := by
  obtain ⟨w, hw, hret, hstory⟩ := exists_world_run hcarry
    (fun g _ r reliable _ j _ j' _ _ _ => Cggmp21.keygenScript_broadcasts r g j j') rfl
    fun i hi _ => T.follows i hi
  refine ⟨w, hw, hret, fun g h inc hinc => ?_⟩
  obtain ⟨hsender, r, hmsg⟩ := hstory g h inc hinc
  refine ⟨hsender, fun m hm => ?_⟩
  cases hm.symm.trans hmsg
  rfl

end Govis.Tcp
