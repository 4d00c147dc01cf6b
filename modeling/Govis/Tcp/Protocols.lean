import Govis.Lindell.SignRuns
import Govis.Tcp.Agreement
import Govis.Tcp.Honest
import Govis.Tcp.MessageSizes

namespace Govis.Tcp

open Bytes Framing Transition Rounds Curve Shamir Lindell Cggmp21

/-!
# The transport: the interactive protocols over it

`run_dkg`, `run_refresh`, `run_sign` and `run_keygen` of parties that all follow the program, each
started with arguments of its own, connected by `connect_tcp`.

* `dkg_over_tcp`, `keygen_over_tcp`, `signing_over_tcp` — with matching arguments the protocols
  succeed: no party can return anything else, and all of them can always still return;
* `outcome_eq_lockstep` — whatever the arguments, what a party returns depends on them alone.
-/

variable {C : Curve} {H : Hash} {n t : ℕ} {sid : List UInt8}

/-! ### Programs that keep order -/

/-- `run_vss`: two broadcasts, then shares. -/
theorem runVss_tidy (i : ℕ) (intercept : C.Scalar) (draw : ℕ → C.Scalar) :
    (runVss H i n t sid intercept draw).Tidy fun r => ∃ reliable, dkgKind r = .broadcast reliable := by
  refine Proc.tidy_send_recv (fun _ _ _ => rfl) fun commitments => ?_
  refine Proc.tidy_send_recv (fun _ _ _ => rfl) fun reveals => ?_
  refine Proc.tidy_attempt fun opened => ?_
  refine Proc.tidy_send_recv ?_ fun shares => Proc.tidy_attempt fun _ => trivial
  -- the shares go from party to party
  rintro ⟨reliable, hkind⟩
  cases hkind

/-- `run_sign`: three broadcasts.  `P1` checks its signature between sending it and receiving. -/
theorem runSign_tidy (i : ℕ) (signers : ℕ × ℕ) (share : C.Scalar) (publicKey : C.Point)
    (msgDigest : Vector UInt8 32) (p1Coins : P1Coins C) (p2Coins : P2Coins) (broadcast : ℕ → Prop) :
    (runSign H i n signers share publicKey msgDigest p1Coins p2Coins).Tidy broadcast := by
  refine Proc.tidy_attempt fun _ => Proc.tidy_attempt fun lambda => Proc.tidy_attempt fun offer => ?_
  refine Proc.tidy_send_recv (fun _ _ _ => rfl) fun msgs1 => Proc.tidy_attempt fun answer => ?_
  refine Proc.tidy_send_recv (fun _ _ _ => rfl) fun msgs2 => ?_
  show (if i = signers.1 then _ else _ : Proc (SignMsg C) (Res SignError SignOutput) 2).Tidy broadcast
  split
  · refine Proc.tidy_attempt fun sig => ⟨fun _ _ _ => rfl, Proc.quiet_attempt fun _ => trivial, ?_⟩
    exact Proc.tidy_attempt fun _ _ => trivial
  · exact Proc.tidy_send_recv (fun _ _ _ => rfl) fun _ => trivial

/-- `run_keygen`: three broadcasts. -/
theorem runKeygen_tidy (i : ℕ) (coins : KeygenCoins C) (broadcast : ℕ → Prop) :
    (runKeygen H i n t sid coins).Tidy broadcast := by
  refine Proc.tidy_attempt fun blumProof => ?_
  refine Proc.tidy_send_recv (fun _ _ _ => rfl) fun msgs1 => Proc.tidy_attempt fun pks => ?_
  refine Proc.tidy_send_recv (fun _ _ _ => rfl) fun msgs2 => Proc.tidy_attempt fun msg3 => ?_
  exact Proc.tidy_send_recv (fun _ _ _ => rfl) fun msgs3 => Proc.tidy_attempt fun _ => trivial

/-! ### Matching arguments -/

/-- `run_refresh` over the transport. -/
def refreshDeployment (codec : Codec (AnyMsg (Lindell.Msg C))) (rounds : RoundInput (Lindell.Msg C))
    (H : Hash) (n t : ℕ) (sid : List UInt8) (old : ℕ → LindellDkgOutput C) (draw : ℕ → ℕ → C.Scalar)
    (corrupt : ℕ → Prop) : Deployment (Lindell.Msg C) (Res DkgError (LindellDkgOutput C)) where
  setup := refreshSetup H n t sid old draw corrupt
  kind := dkgKind
  codec := codec
  rounds := rounds

/-- `run_sign` over the transport.  Its rounds take broadcasts of both kinds; all that are sent are
    reliable. -/
noncomputable def signDeployment (codec : Codec (AnyMsg (SignMsg C)))
    (rounds : RoundInput (SignMsg C)) (H : Hash) (x : SignSession C) :
    Deployment (SignMsg C) (Res SignError SignOutput) where
  setup := x.setup H
  kind _ := .broadcast true
  codec := codec
  rounds := rounds

/-- Parties that run `run_vss` follow a script. -/
theorem RunsVss.scripted {R : Type} {coins : ℕ → DealerCoins C} {rounds : RoundInput (Lindell.Msg C)}
    {S : Setup (Lindell.Msg C) R} {out : ℕ → Res DkgError (C.Scalar × C.Point) → R} {res : ℕ → R}
    (hS : RunsVss H t sid coins S out) (hh : ∀ i, ¬ S.corrupt i) (hc : Completes S res)
    (htn : t ≤ S.n) (hn : S.n < 2 ^ 16) (hrounds : rounds = firstInput) :
    Scripted ⟨S, dkgKind, dkgCodec C, rounds⟩
      (vssScript H sid (ownVector coins t) (ownShare coins t)) 3 res := by
  have hmax : 33 * 2 ^ 16 + 52 ≤ maxFrameLength := by decide
  refine .of_completes hh hc (fun g r reliable hkind j _ j' _ _ _ => ?_) (fun j hj => ?_)
    (fun r hr i hi j _ _ => ?_) hrounds
  · -- a broadcast is a commitment or a vector
    have hr : r < 2 := by
      by_contra hr
      change dkgKind r = _ at hkind
      rw [dkgKind, if_neg hr] at hkind
      cases hkind
    obtain rfl | rfl : r = 0 ∨ r = 1 := by omega
    · rfl
    · rfl
  · have hown : DealsHonestly coins S.n t (ownVector coins t) (ownShare coins t) j :=
      ⟨rfl, fun j _ => rfl⟩
    show ∃ x, Follows S.n j _ 3 x (S.prog j)
    rw [hS.prog_eq]
    exact ⟨_, (runVss_follows hown fun d _ => List.cons_ne_nil _ _).map (out j)⟩
  · refine carries_vssScript hn.le ?_ hr j
    have hlen : (ownVector coins t i).length ≤ t + 1 := by
      simp only [ownVector, dealing, List.length_map, List.length_cons, List.length_range]
      omega
    omega

/-- So they get through. -/
theorem RunsVss.getsThrough {R : Type} {coins : ℕ → DealerCoins C} {rounds : RoundInput (Lindell.Msg C)}
    {S : Setup (Lindell.Msg C) R} {out : ℕ → Res DkgError (C.Scalar × C.Point) → R} {res : ℕ → R}
    (hS : RunsVss H t sid coins S out) (hh : ∀ i, ¬ S.corrupt i) (hc : Completes S res)
    (htn : t ≤ S.n) (hn : S.n < 2 ^ 16) (hrounds : rounds = firstInput) :
    GetsThrough ⟨S, dkgKind, dkgCodec C, rounds⟩ res := by
  refine (RunsVss.scripted hS hh hc htn hn hrounds).getsThrough fun i hi => ?_
  show (S.prog i).Tidy _
  rw [hS.prog_eq]
  exact (runVss_tidy i _ _).map _

/-- Parties that run `run_keygen` follow their transcript. -/
theorem keygen_scripted {x : KeygenSession C H} (T : x.Transcript) {codec : Codec (AnyMsg (KeygenMsg C))}
    (hcarry : CarriesScript (keygenDeployment codec firstInput H x.n x.t x.sid x.coins fun _ => False)
      T.msgs 3) :
    Scripted (keygenDeployment codec firstInput H x.n x.t x.sid x.coins fun _ => False) T.msgs 3
      fun i => .ok (x.output i) where
  honest _ := not_false
  broadcasts g r _ _ j _ j' _ _ _ := keygenScript_broadcasts r g j j'
  follows := T.follows
  carries := hcarry
  rounds_eq := rfl

/-- **CGGMP21 key generation over the transport.**  For any codec that has room for the messages, two or
    more parties get through. -/
theorem keygen_over_tcp (H : Hash) (x : KeygenSession C H) (_hn : 2 ≤ x.n) :
    ∃ T : x.Transcript, ∀ codec,
      CarriesScript (keygenDeployment codec firstInput H x.n x.t x.sid x.coins fun _ => False)
        T.msgs 3 →
      GetsThrough (keygenDeployment codec firstInput H x.n x.t x.sid x.coins fun _ => False)
        fun i => .ok (x.output i) := by
  obtain ⟨T⟩ := x.exists_transcript
  exact ⟨T, fun codec hcarry => (keygen_scripted T hcarry).getsThrough
    fun i _ => runKeygen_tidy i (x.coins i) _⟩

/-- The small key generation. -/
theorem keygen_over_tcp_small : ∃ w, WorldReached (keygenDeployment (keygenCodec smallCurve) firstInput
    oneHash 3 2 [] smallKeygen.coins fun _ => False) w ∧
      ∀ i < 3, w.Returned i (.ok (smallKeygen.output i)) := by
  obtain ⟨T, hall⟩ := keygen_over_tcp oneHash smallKeygen (by decide)
  obtain ⟨w, hw, hret⟩ := (hall (keygenCodec smallCurve) smallKeygen_carries).2 _ (Run.refl _)
  exact ⟨w, allows_of_open hw, hret⟩

section Sign

variable {x : SignSession C}

/-- Parties that sign follow their transcript. -/
theorem sign_scripted (T : x.Transcript H) (hs : x.s ≠ 0) {codec : Codec (AnyMsg (SignMsg C))}
    (hcarry : CarriesScript (signDeployment codec firstInput H x) T.msgs 3) :
    Scripted (signDeployment codec firstInput H x) T.msgs 3 fun _ => .ok x.output where
  honest _ := not_false
  broadcasts g r _ _ j _ j' _ _ _ := by
    rcases r with _ | _ | r
    · rfl
    · rfl
    · rfl
  follows := T.follows hs
  carries := hcarry
  rounds_eq := rfl

/-- So they get through. -/
theorem sign_getsThrough (T : x.Transcript H) (hs : x.s ≠ 0) {codec : Codec (AnyMsg (SignMsg C))}
    (hcarry : CarriesScript (signDeployment codec firstInput H x) T.msgs 3) :
    GetsThrough (signDeployment codec firstInput H x) fun _ => .ok x.output :=
  (sign_scripted T hs hcarry).getsThrough fun i _ => runSign_tidy i x.signers _ _ _ _ _ _

/-- **Lindell signing over the transport.**  For any codec that has room for the messages, the parties
    get through with the signature. -/
theorem signing_over_tcp (H : Hash) (x : SignSession C) (hs : x.s ≠ 0) :
    ∃ T : x.Transcript H, ∀ codec,
      CarriesScript (signDeployment codec firstInput H x) T.msgs 3 →
      GetsThrough (signDeployment codec firstInput H x) fun _ => .ok x.output := by
  obtain ⟨T⟩ := x.exists_transcript H
  exact ⟨T, fun codec hcarry => sign_getsThrough T hs hcarry⟩

/-- The small session. -/
theorem signing_over_tcp_small : ∃ w, WorldReached (signDeployment (signCodec smallCurve) firstInput
    oneHash Lindell.smallSession) w ∧ ∀ i < 3, w.Returned i (.ok Lindell.smallSession.output) := by
  have hs : Lindell.smallSession.s ≠ 0 := by
    rw [Lindell.smallSession_values.2]
    exact one_ne_zero
  obtain ⟨T, hall⟩ := signing_over_tcp oneHash Lindell.smallSession hs
  obtain ⟨w, hw, hret⟩ := (hall (signCodec smallCurve) smallSession_carries).2 _ (Run.refl _)
  exact ⟨w, allows_of_open hw, hret⟩

end Sign

/-! ### Any arguments -/

/-- The program calls `run_dkg` or `run_refresh`, with any arguments. -/
def CallsVss (H : Hash) (i n : ℕ) (p : Proc (Lindell.Msg C) (Res DkgError (LindellDkgOutput C)) 0) :
    Prop :=
  (∃ t sid intercept draw, p = runDkg H i n t sid intercept draw) ∨
    ∃ t sid oldShare masterPk draw, p = runRefresh H i n t sid oldShare masterPk draw

/-- The program calls `run_sign`, with any arguments. -/
def CallsSign (H : Hash) (i n : ℕ) (p : Proc (SignMsg C) (Res SignError SignOutput) 0) : Prop :=
  ∃ signers share publicKey msgDigest p1Coins p2Coins,
    p = runSign H i n signers share publicKey msgDigest p1Coins p2Coins

/-- The program calls `run_keygen`, with any arguments. -/
def CallsKeygen (H : Hash) (i n : ℕ)
    (p : Proc (KeygenMsg C) (Res KeygenError (Cggmp21KeygenOutput C)) 0) : Prop :=
  ∃ t sid coins, p = runKeygen H i n t sid coins

/-- Two or more parties follow programs of the kind `calls`. -/
structure HonestCalls {Msg : ℕ → Type} {R : Type} (D : Deployment Msg R) (kind : ℕ → MessageType)
    (calls : ℕ → ℕ → Proc Msg R 0 → Prop) : Prop where
  kind_eq : D.kind = kind
  two_le : 2 ≤ D.setup.n
  honest : ∀ i < D.setup.n, ¬ D.setup.corrupt i
  calls : ∀ i < D.setup.n, calls i D.setup.n (D.setup.prog i)

/-- In every run, a party whose rounds all complete returns what it returns when all parties move in
    lockstep. -/
def KeepsStep {Msg : ℕ → Type} {R : Type} (D : Deployment Msg R) : Prop :=
  ∀ w, WorldReached D w → ∀ i < D.setup.n, ∀ res, w.Returned i res →
    res = (D.setup.prog i).exec (D.setup.lockstepInbox i)

theorem HonestCalls.keepsStep {Msg : ℕ → Type} {R : Type} {D : Deployment Msg R}
    {kind : ℕ → MessageType} {calls : ℕ → ℕ → Proc Msg R 0 → Prop} (h : HonestCalls D kind calls)
    (htidy : ∀ i n p, calls i n p → p.Tidy fun r => ∃ reliable, kind r = .broadcast reliable) :
    KeepsStep D := by
  intro w hw i _ res hres
  refine (hw.result_eq_lockstep (fun j hj => ?_) h.honest hres).symm
  rw [h.kind_eq]
  exact htidy _ _ _ (h.calls j hj)

/-- **The outcome of a session is determined.**  If two or more parties all run the program, each with
    any arguments, then whatever the order in which programs, tasks and connections move, a party of a
    key generation, a refresh or a signing whose rounds all complete returns what it returns in
    lockstep.  A party that the others leave before a round is complete waits, or returns the error of
    that round. -/
theorem outcome_eq_lockstep (C : Curve) (H : Hash) :
    (∀ D, HonestCalls D dkgKind (CallsVss (C := C) H) → KeepsStep D) ∧
    (∀ D, HonestCalls D (fun _ => .broadcast true) (CallsKeygen (C := C) H) → KeepsStep D) ∧
    ∀ D, HonestCalls D (fun _ => .broadcast true) (CallsSign (C := C) H) → KeepsStep D := by
  refine ⟨fun D h => h.keepsStep ?_, fun D h => h.keepsStep ?_, fun D h => h.keepsStep ?_⟩
  · rintro i n p (⟨t, sid, intercept, draw, rfl⟩ | ⟨t, sid, oldShare, masterPk, draw, rfl⟩)
    · exact (runVss_tidy i intercept draw).map _
    · exact (runVss_tidy i 0 draw).map _
  · rintro i n p ⟨t, sid, coins, rfl⟩
    exact runKeygen_tidy i coins _
  · rintro i n p ⟨signers, share, publicKey, msgDigest, p1Coins, p2Coins, rfl⟩
    exact runSign_tidy i signers share publicKey msgDigest p1Coins p2Coins _

/-- Three small sessions in lockstep: what party 0 returns in some run. -/
theorem outcome_eq_lockstep_three :
    (∃ D, HonestCalls D dkgKind (CallsVss (C := smallCurve) oneHash) ∧ ∃ out, .ok out =
      (D.setup.prog 0).exec (D.setup.lockstepInbox 0)) ∧
    (∃ D, HonestCalls D (fun _ => .broadcast true) (CallsKeygen (C := smallCurve) oneHash) ∧
      .ok (smallKeygen.output 0) = (D.setup.prog 0).exec (D.setup.lockstepInbox 0)) ∧
    ∃ D, HonestCalls D (fun _ => .broadcast true) (CallsSign (C := smallCurve) oneHash) ∧
      .ok Lindell.smallSession.output = (D.setup.prog 0).exec (D.setup.lockstepInbox 0) := by
  obtain ⟨hdkg, hkeygen, hsign⟩ := outcome_eq_lockstep smallCurve oneHash
  refine ⟨?_, ?_, ?_⟩
  · set D := dkgDeployment (dkgCodec smallCurve) firstInput oneHash 3 2 [] oneCoins fun _ => False
      with hD
    have hcalls : HonestCalls D dkgKind (CallsVss oneHash) :=
      ⟨rfl, show 2 ≤ 3 by decide, fun _ _ => not_false, fun i _ => .inl ⟨2, [], _, _, rfl⟩⟩
    obtain ⟨out, hc, -⟩ := @runDkg_completes smallCurve oneHash 3 2 []
      (show 1 ≤ 2 by decide) oneCoins
    obtain ⟨w, hw, hret⟩ := (RunsVss.getsThrough (dkgSetup_runsVss oneHash 3 2 [] oneCoins
      fun _ => False) (fun _ => not_false) hc (by decide) (by decide) rfl).2 _ (Run.refl _)
    exact ⟨D, hcalls, out 0, hdkg D hcalls w (allows_of_open hw) 0 (by decide) _ (hret 0 (by decide))⟩
  · obtain ⟨T⟩ := smallKeygen.exists_transcript
    obtain ⟨w, hw, hret, -⟩ := exists_keygen_run T (fun _ => False) smallKeygen_carries
    have hcalls : HonestCalls (keygenDeployment (keygenCodec smallCurve) firstInput oneHash 3 2 []
        smallKeygen.coins fun _ => False) (fun _ => .broadcast true) (CallsKeygen oneHash) :=
      ⟨rfl, show 2 ≤ 3 by decide, fun _ _ => not_false, fun i _ => ⟨2, [], _, rfl⟩⟩
    exact ⟨_, hcalls, hkeygen _ hcalls w hw 0 (show 0 < 3 by decide) _
      (hret 0 (show 0 < 3 by decide) not_false)⟩
  · have hs : Lindell.smallSession.s ≠ 0 := by
      rw [Lindell.smallSession_values.2]
      exact one_ne_zero
    obtain ⟨T⟩ := Lindell.smallSession.exists_transcript oneHash
    have hcarry : CarriesScript (signDeployment (signCodec smallCurve) firstInput oneHash
      Lindell.smallSession) T.msgs 3 := smallSession_carries
    obtain ⟨w, hw, hret⟩ := (sign_getsThrough T hs hcarry).2 _ (Run.refl _)
    have hcalls : HonestCalls (signDeployment (signCodec smallCurve) firstInput oneHash
        Lindell.smallSession) (fun _ => .broadcast true) (CallsSign oneHash) :=
      ⟨rfl, show 2 ≤ 3 by decide, fun _ _ => not_false, fun i _ => ⟨_, _, _, _, _, _, rfl⟩⟩
    exact ⟨_, hcalls, hsign _ hcalls w (allows_of_open hw) 0 (show 0 < 3 by decide) _
      (hret 0 (show 0 < 3 by decide))⟩

end Govis.Tcp
