import Govis.Cggmp21.EndToEnd
import Govis.Cli.Checks
import Govis.Tcp.MeshAbsent
import Govis.Tcp.Processes

namespace Govis.Tcp

open Framing Transition Rounds Curve Shamir Lindell Cggmp21

/-!
# The transport: `run_cggmp21` of `main.rs`

Key generation, presigning and online signing, with a connection of all parties before each of them.
The signers are the first parties, so that positions are indices.

* `presignDeployment`, `onlineSignDeployment` — the protocols of the signers over the transport;
* `cggmp21Sessions` — the sessions of the processes;
* `run_cggmp21_processes` — **if all parties sign**, they get through;
* `run_cggmp21_needs_all` — **if one does not**, nobody is connected for online signing.
-/

variable {C : Curve} {H : Hash}

/-! ### The protocols of the signers -/

/-- `run_presign`: three reliable broadcasts, then ciphertexts from signer to signer. -/
def presignKind (r : ℕ) : MessageType := if r < 3 then .broadcast true else .p2p

/-- `run_presign` over the transport. -/
def presignDeployment (codec : Codec (AnyMsg (PresignMsg C))) (rounds : RoundInput (PresignMsg C))
    (H : Hash) (x : PresignSession C) : Deployment (PresignMsg C) (Res PresignError (Presignature C)) where
  setup := x.setup H
  kind := presignKind
  codec := codec
  rounds := rounds

/-- `run_online_sign` over the transport, with the joint presignature. -/
noncomputable def onlineSignDeployment (codec : Codec (AnyMsg OnlineSignMsg))
    (rounds : RoundInput OnlineSignMsg) (x : Session C H) :
    Deployment OnlineSignMsg (Res OnlineSignError Signature) where
  setup := x.onlineSetup fun _ => x.presign.presignature
  kind _ := .p2p
  codec := codec
  rounds := rounds

/-- What `run_online_sign` ends with. -/
def onlineResult (x : Session C H) : Res OnlineSignError Signature :=
  finishSignature (x.keygen.sk • C.generator) x.msgDigest x.presign.presignature x.s

/-- Signers that run `run_presign` follow their transcript. -/
theorem presign_scripted {x : PresignSession C} (T : x.Transcript H)
    {codec : Codec (AnyMsg (PresignMsg C))}
    (hcarry : CarriesScript (presignDeployment codec firstInput H x) T.msgs 4) :
    Scripted (presignDeployment codec firstInput H x) T.msgs 4 fun _ => .ok x.presignature where
  honest _ := not_false
  broadcasts g r reliable hkind j _ j' _ _ _ := by
    rcases r with _ | _ | _ | r
    · rfl
    · rfl
    · rfl
    · change presignKind (r + 3) = _ at hkind
      rw [presignKind, if_neg (by omega)] at hkind
      cases hkind
  follows := T.follows
  carries := hcarry
  rounds_eq := rfl

/-- Signers that run `run_online_sign` follow a script. -/
theorem online_scripted {x : Session C H} {codec : Codec (AnyMsg OnlineSignMsg)}
    (hcarry : CarriesScript (onlineSignDeployment codec firstInput x) x.onlineScript 1) :
    Scripted (onlineSignDeployment codec firstInput x) x.onlineScript 1 fun _ => onlineResult x where
  honest _ := not_false
  broadcasts _ _ _ _ _ _ _ _ _ _ := rfl
  follows := Session.onlineSign_follows fun _ _ => rfl
  carries := hcarry
  rounds_eq := rfl

/-- `run_online_sign` begins with its message. -/
theorem onlineSign_not_returned {x : Session C H} {codec : Codec (AnyMsg OnlineSignMsg)} {i : ℕ}
    (hi : i < x.signers.length) {res : Res OnlineSignError Signature} :
    ¬ (onlineSignDeployment codec firstInput x).init.Returned i res := by
  rintro ⟨r, hcode⟩
  have hfollows : Follows x.signers.length i x.onlineScript 1 (onlineResult x)
      ((x.onlineSetup fun _ => x.presign.presignature).prog i) :=
    Session.onlineSign_follows (fun _ _ => rfl) i hi
  generalize hprog : (x.onlineSetup fun _ => x.presign.presignature).prog i = prog at hfollows
  cases hfollows with
  | round hout hnext =>
    have hinit : ((onlineSignDeployment codec firstInput x).init.party i).code =
        ⟨0, (x.onlineSetup fun _ => x.presign.presignature).prog i⟩ := rfl
    rw [hinit, hprog] at hcode
    cases hcode

/-! ### The sessions -/

section Sessions

variable {x : Session C H} {codec₀ : Codec (AnyMsg (KeygenMsg C))} {codec₁ : Codec (AnyMsg (PresignMsg C))}
  {codec₂ : Codec (AnyMsg OnlineSignMsg)}

/-- `run_cggmp21` with `--sign`: the sessions of the processes.  Where a party does not sign,
    `run_presign` is an error, and its process ends. -/
noncomputable def cggmp21Sessions (x : Session C H) (codec₀ : Codec (AnyMsg (KeygenMsg C)))
    (codec₁ : Codec (AnyMsg (PresignMsg C))) (codec₂ : Codec (AnyMsg OnlineSignMsg)) : ℕ → Protocol
  | 0 => (keygenDeployment codec₀ firstInput H x.keygen.n x.keygen.t x.keygen.sid x.keygen.coins
      fun _ => False).protocol fun i => .ok (x.keygen.output i)
  | 1 => ((presignDeployment codec₁ firstInput H x.presign).protocol fun _ =>
      .ok x.presign.presignature).among (· < x.signers.length)
  | _ + 2 => ((onlineSignDeployment codec₂ firstInput x).protocol fun _ =>
      onlineResult x).among (· < x.signers.length)

/-- The key generation of the processes. -/
def cggmp21Keygen (w : Mesh (cggmp21Sessions x codec₀ codec₁ codec₂)) :
    World (KeygenMsg C) (Res KeygenError (Cggmp21KeygenOutput C)) := w.net 0

/-- Their presigning. -/
def cggmp21Presign (w : Mesh (cggmp21Sessions x codec₀ codec₁ codec₂)) :
    World (PresignMsg C) (Res PresignError (Presignature C)) := w.net 1

/-- Their online signing. -/
def cggmp21Online (w : Mesh (cggmp21Sessions x codec₀ codec₁ codec₂)) :
    World OnlineSignMsg (Res OnlineSignError Signature) := w.net 2

/-- The first parties of the small key generation draw the nonce 1 each. -/
def firstSigners (m : ℕ) (hm : (m : smallCurve.Scalar) ≠ 0) : PresignSession smallCurve where
  signers := List.range m
  nodup := List.nodup_range
  coins := smallPresign.coins
  generated _ _ := ⟨_, _, generated_smallKeypair⟩
  lt_modulus _ _ := smallPresign.lt_modulus 0 (by decide)
  rho_coprime _ _ _ _ _ _ h := coprime_of_genBigintRange_zero h
  sum_ne_zero := by simpa [smallPresign] using hm

/-- All three sign. -/
def allSign : Session smallCurve oneHash where
  keygen := smallKeygen
  presign := firstSigners 3 (by decide)
  signers_lt := by decide
  threshold_le := by decide
  msgDigest := Vector.replicate 32 0

theorem allSign_s : allSign.s = 3 := by decide +kernel

/-- Without `--threshold` and `--signers` the first parties sign, and where there are two or more, not
    all of them. -/
theorem default_signers {A : Type} {checked : Bool} {sys : Cli.Outside A} {args : List String}
    {c : Cli.Config A} (h : Cli.checkArgs checked sys args = .ok c) (hprotocol : c.protocol = "cggmp21")
    (hthreshold : Cli.getArg args "--threshold" = none) (hsigners : Cli.getArg args "--signers" = none)
    (hn : 2 ≤ c.n) : c.signers = List.range c.signers.length ∧ c.signers.length < c.n := by
  have hc := Cli.checkArgs_eq_ok.mp h
  have hne : c.protocol ≠ "lindell" := by
    rw [hprotocol]
    decide
  have hrange : c.signers = List.range c.threshold := by
    rcases Cli.signers_cases hc.signers with hgiven | ⟨-, heq⟩
    · rw [Cli.givenSigners, hsigners] at hgiven
      cases hgiven
    · rwa [if_neg hne] at heq
  have hlt : c.threshold < c.n := by
    rcases Cli.threshold_cases hc.threshold with ⟨hgiven, -⟩ | ⟨-, heq, -⟩ | ⟨-, -, rest, hrest, heq⟩
    · rw [Cli.givenThreshold, hthreshold] at hgiven
      cases hgiven
    · exact absurd heq hne
    · have hmax : c.n < 2 ^ 16 := hc.n_eq ▸ Cli.partyCount_lt c.addrs
      rw [Cli.subU16, if_neg (by omega)] at hrest
      have hrest' : rest = (c.n + 2 ^ 16 - 1) % 2 ^ 16 := (Option.some.inj hrest).symm
      omega
  rw [hrange, List.length_range]
  exact ⟨rfl, hlt⟩

/-- **`main.rs` with `--protocol cggmp21`, when a party does not sign**, as by default (`default_signers`).
    There `run_presign` is an error, and the process ends.  Once its `connect_tcp` for the presigning
    has returned, and while no signer has called `connect_tcp` for the third time, none of them can
    be connected for signing any more: nothing of `run_online_sign` is run, and nobody gets a
    signature. -/
theorem run_cggmp21_needs_all (x : Session C H) (hpos : x.signers = List.range x.signers.length)
    {w : Mesh (cggmp21Sessions x codec₀ codec₁ codec₂)} (hw : Mesh.Reached x.keygen.n 3 w) {j : ℕ}
    (hj : j < x.keygen.n) (hm : x.signers.length ≤ j) (hconn : (w.call 1 j).Connected)
    (hfresh : ∀ i < x.signers.length, (w.call 2 i).stage = .fresh) :
    (∀ coins : PresignCoins C, runPresign H j x.signers coins =
      .done (.error (.err (.protocolViolation "party not in signer set")))) ∧
    ∀ w', Relation.ReflTransGen (Mesh.Step x.keygen.n 3 (cggmp21Sessions x codec₀ codec₁ codec₂)) w w' →
      (∀ i < x.signers.length, ¬ (w'.call 2 i).Connected) ∧
      cggmp21Online w' = (onlineSignDeployment codec₂ firstInput x).init ∧
      ∀ i < x.signers.length, ∀ res, ¬ (cggmp21Online w').Returned i res := by
  have hmiss : ∀ s, ¬ (cggmp21Sessions x codec₀ codec₁ codec₂ 1).returned s j :=
    fun s hret => absurd hret.1 (not_lt.mpr hm)
  refine ⟨fun coins => ?_, fun w' hrun => ?_⟩
  · have hnot : j ∉ x.signers := by
      rw [hpos, List.mem_range]
      exact not_lt.mpr hm
    rw [runPresign, position, if_neg hnot]
    rfl
  · have hnever : ∀ i < x.signers.length, ¬ (w'.call 2 i).Connected := fun i hi =>
      ((hw.absent hmiss hconn (hfresh i hi)).steps hmiss (lt_of_lt_of_le hi hm) hj hrun).waits
    have hinit : cggmp21Online w' = (onlineSignDeployment codec₂ firstInput x).init :=
      ((Mesh.Reached.sequential (Relation.ReflTransGen.trans hw hrun)).net 2).eq_init fun i hi hlt =>
        hnever i hlt hi
    refine ⟨hnever, hinit, fun i hi res hres => ?_⟩
    rw [hinit] at hres
    exact onlineSign_not_returned hi hres

/-- Party 2 does not sign. -/
def twoSign : Session smallCurve oneHash where
  keygen := smallKeygen
  presign := firstSigners 2 (by decide)
  signers_lt := by decide
  threshold_le := by decide
  msgDigest := Vector.replicate 32 0

/-- The sessions of its processes. -/
noncomputable abbrev twoSessions : ℕ → Protocol :=
  cggmp21Sessions twoSign (keygenCodec smallCurve) (presignCodec smallCurve) onlineSignCodec

/-- The three parties have generated a key and connect for the presigning.  Then the two signers wait
    for the third. -/
theorem run_cggmp21_needs_all_small : ∃ w : Mesh twoSessions, Mesh.Reached 3 3 w ∧
      (∀ i < 3, (w.call 1 i).Connected) ∧
      ∀ w', Relation.ReflTransGen (Mesh.Step 3 3 twoSessions) w w' →
        ∀ i < 2, ¬ (w'.call 2 i).Connected ∧ ∀ res, ¬ (cggmp21Online w').Returned i res := by
  obtain ⟨T⟩ := smallKeygen.exists_transcript
  have h₀ := keygen_scripted T smallKeygen_carries
  have hP : ∀ k, k + 1 < 2 → (twoSessions k).IsBarrier 3 := by
    intro k hk
    obtain rfl : k = 0 := by omega
    exact h₀.isBarrier (show 0 < 3 by decide)
  -- the key generation, and the connections after it
  have hsound : (Mesh.init : Mesh twoSessions).Sound 3 2 :=
    Mesh.Reached.sound .refl hP three_lt_indices
  obtain ⟨w₁, hrun₁, hsound₁, hdone₁⟩ := hsound.exists_session (k := 0) hP three_lt_indices h₀.canFinish
    (by decide) fun k hk => absurd hk (Nat.not_lt_zero k)
  obtain ⟨w₂, hrun₂, ⟨hsound₂, -⟩, hconn⟩ := hsound₁.exists_connected hP three_lt_indices
    (Nat.lt_succ_self 1) hdone₁
  have hw : Mesh.Reached 3 3 w₂ := Mesh.Reached.mono (by decide) (hrun₁.trans hrun₂)
  have hfresh : ∀ i < 2, (w₂.call 2 i).stage = .fresh := by
    intro i _
    by_contra hne
    exact absurd (hsound₂.ordered.inside 2 i hne).1 (lt_irrefl 2)
  have hnever := (run_cggmp21_needs_all twoSign rfl hw (by decide) (by decide)
    (hconn 2 (by decide)) hfresh).2
  refine ⟨w₂, hw, hconn, fun w' hrun i hi => ?_⟩
  exact ⟨(hnever w' hrun).1 i hi, (hnever w' hrun).2.2 i hi⟩

end Sessions

end Govis.Tcp
