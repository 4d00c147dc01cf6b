import Govis.Tcp.MeshProgress
import Govis.Tcp.Protocols

namespace Govis.Tcp

open Framing Transition Rounds Curve Shamir Lindell Cggmp21

/-!
# The transport: the processes of `main.rs`

From `connect_tcp` to the last result: every process connects to all others, runs a protocol, connects
again and runs the next one.

* `Deployment.protocol` — a protocol over the transport, as one session of the processes;
* `Scripted.isBarrier`, `Scripted.canFinish` — it keeps the processes together, and ends;
* `connect_tcp_pairs` — whatever protocols they run, **the processes are connected in pairs**;
* `run_lindell_processes` — key generation and signing, from the first dial to the signature.
-/

variable {Msg : ℕ → Type} {R : Type} {D : Deployment Msg R} {M : (r : ℕ) → ℕ → ℕ → Msg r} {k : ℕ}
  {res : ℕ → R} {w w' : World Msg R} {i j : ℕ}

/-! ### Sessions over the transport -/

/-- A protocol over the transport, with the values that the parties return. -/
def Deployment.protocol (D : Deployment Msg R) (res : ℕ → R) : Protocol where
  State := World Msg R
  init := D.init
  step i w w' := ∃ a : WorldAct Msg, a.party = i ∧ D.Open a ∧ worldStep D a w = some w'
  returned w i := w.Returned i (res i)

/-- Only parties move. -/
theorem party_lt {a : WorldAct Msg} (ha : D.Open a) (hs : worldStep D a w = some w') :
    a.party < D.setup.n := by
  cases a with
  | net a =>
    obtain ⟨s, hstep, -⟩ := Option.map_eq_some_iff.mp hs
    cases step_cases hstep with
    | send hg => exact hg
    | flush hg => exact hg
    | close hg => exact hg
    | next hh => exact hh
    | write hl => exact hl.1
    | inject _ hl => exact hl.1
    | arrive _ hl => exact hl.2.1
    | read hl => exact hl.2.1
  | emit i => exact ha.1.1
  | complete i => exact ha.1.1

/-- The runs of the protocol are those of the deployment. -/
theorem reachedBy_open {A : ℕ → Prop} (h : (D.protocol res).ReachedBy A w) : OpenReached D w := by
  refine Relation.ReflTransGen.mono (fun w w' hs => ?_) _ _ h
  obtain ⟨i, -, a, -, ha, hs⟩ := hs
  exact ⟨a, ha, hs⟩

theorem stepOf_of_run (h : Run (worldStep D) D.Open w w') :
    Relation.ReflTransGen ((D.protocol res).StepOf (· < D.setup.n)) w w' := by
  refine Relation.ReflTransGen.mono (fun w w' hs => ?_) _ _ h
  obtain ⟨a, ha, hs⟩ := hs
  exact ⟨a.party, party_lt ha hs, a, rfl, ha, hs⟩

/-- Whoever has not moved has sent nothing. -/
theorem sent_nil_of_reachedBy {A : ℕ → Prop} (h : (D.protocol res).ReachedBy A w) (hj : ¬ A j) :
    w.sys.sent j = [] := by
  induction h with
  | refl => rfl
  | tail _ hs ih =>
    obtain ⟨i, hi, a, rfl, ha, hs⟩ := hs
    have hij : j ≠ a.party := by
      rintro rfl
      exact hj hi
    cases a with
    | net a =>
      obtain ⟨s, hstep, rfl⟩ := Option.map_eq_some_iff.mp hs
      rcases step_sent hstep j with hsame | ⟨item, rfl, -⟩
      · exact hsame.trans ih
      · exact ha.1.elim
    | emit i =>
      obtain ⟨r, out, next, -, hsend, -⟩ := emit_eq_some hs
      exact ((sendAll_spec hsend).2.1 j hij).trans ih
    | complete i =>
      obtain ⟨r, next, msgs, -, -, hsys, -⟩ := completeRound_eq_some hs
      rw [hsys]
      exact ih

namespace Scripted

variable (hD : Scripted D M k res)

include hD

/-- **A protocol over the transport is a barrier**: whoever has returned has heard from all others. -/
theorem isBarrier (hk : 0 < k) : (D.protocol res).IsBarrier D.setup.n := by
  intro A w hw i hi hret j hj hji
  have hopen := reachedBy_open hw
  have hround : 0 < (w.party i).code.1 := by rwa [hD.code_of_returned hopen hi hret]
  obtain ⟨m, id, -, item, hitem, -⟩ := hD.exists_yielded hopen hround hj hji
  by_contra hA
  rw [sent_nil_of_reachedBy hw hA] at hitem
  cases hitem

/-- **It ends.** -/
theorem canFinish : (D.protocol res).CanFinish D.setup.n := by
  intro w hw
  obtain ⟨w', hrun, hret⟩ := hD.exists_returned (reachedBy_open hw)
  exact ⟨w', stepOf_of_run hrun, hret⟩

end Scripted

/-! ### Any protocols -/

/-- **The processes are connected in pairs.**  If the protocols of all sessions but the last one are
    barriers, then whenever and in whatever order the processes call `connect_tcp`, it never
    panics, and whoever it has returned to has one connection to each other process of the same
    session, the one that this process has to it.  If the protocols can be finished, all sessions
    can. -/
theorem connect_tcp_pairs {P : ℕ → Protocol} {n K : ℕ} (hP : ∀ k, k + 1 < K → (P k).IsBarrier n)
    (hn : n < 2 ^ 16) {w : Mesh P} (hw : Mesh.Reached n K w) :
    (∀ k i, (w.call k i).stage ≠ .panicked ∧
      ∀ peers, (w.call k i).stage = .connected peers → peers = meshTable n k i) ∧
    (∀ k, ∀ i < n, ∀ j < n, i ≠ j → ∀ peers peers',
      (w.call k i).stage = .connected peers → (w.call k j).stage = .connected peers' →
        ∃ l, peers[j]? = some (some l) ∧ peers'[i]? = some (some l)) ∧
    ((∀ k < K, (P k).CanFinish n) →
      ∃ w', Relation.ReflTransGen (Mesh.Step n K P) w w' ∧ w'.Done n K) := by
  have hsound := hw.sound hP hn
  have htable : ∀ k i peers, (w.call k i).stage = .connected peers → peers = meshTable n k i :=
    fun k i => (hsound.tasks.calls k i).table
  refine ⟨fun k i => ⟨(hsound.tasks.calls k i).not_panicked, htable k i⟩, ?_,
    fun hF => hw.exists_done hP hn hF⟩
  intro k i hi j hj hij peers peers' hpeers hpeers'
  rw [htable k i peers hpeers, htable k j peers' hpeers']
  refine ⟨linkBetween k i j, meshTable_getElem? hj hij, ?_⟩
  rw [linkBetween_comm k hij]
  exact meshTable_getElem? hi hij.symm

/-- Three processes that generate a key twice. -/
theorem connect_tcp_pairs_three : ∃ (P : ℕ → Protocol) (w : Mesh P), Mesh.Reached 3 2 w ∧
    w.Done 3 2 ∧ (w.call 1 0).stage = .connected (meshTable 3 1 0) := by
  have hruns := dkgSetup_runsVss (C := smallCurve) oneHash 3 2 [] oneCoins fun _ => False
  have hdkg := RunsVss.scripted hruns (fun _ => not_false) (hruns.completes fun _ _ => not_false)
    (show 2 ≤ 3 by decide) (show 3 < 2 ^ 16 by decide) rfl
  have hP : ∀ k, k + 1 < 2 → (Deployment.protocol _ _).IsBarrier 3 :=
    fun _ _ => hdkg.isBarrier (show 0 < 3 by decide)
  obtain ⟨w, hw, hdone⟩ := (connect_tcp_pairs hP (by decide) .refl).2.2 fun _ _ => hdkg.canFinish
  obtain ⟨peers, hpeers⟩ := (hdone 1 (by decide) 0 (by decide)).1
  refine ⟨_, w, hw, hdone, ?_⟩
  rw [hpeers, ((connect_tcp_pairs hP (by decide) hw).1 1 0).2 peers hpeers]

/-! ### Lindell: key generation and signing -/

section Lindell

variable {C : Curve} {H : Hash} {x : SignSession C} {sid : List UInt8} {coins : ℕ → DealerCoins C}
  {codec : Codec (AnyMsg (SignMsg C))}

/-- The share that party `i` obtains in the key generation. -/
noncomputable def dkgShare (n : ℕ) (coins : ℕ → DealerCoins C) (i : ℕ) : C.Scalar :=
  (jointPoly n (ownVector coins 2)).eval (node C i)

/-- `run_lindell` with `--sign`: the sessions of the processes. -/
noncomputable def lindellSessions (codec : Codec (AnyMsg (SignMsg C))) (H : Hash) (x : SignSession C)
    (sid : List UInt8) (coins : ℕ → DealerCoins C) : ℕ → Protocol
  | 0 => (dkgDeployment (dkgCodec C) firstInput H x.n 2 sid coins fun _ => False).protocol
      fun i => .ok ⟨dkgShare x.n coins i, x.publicKey⟩
  | _ + 1 => (signDeployment codec firstInput H x).protocol fun _ => .ok x.output

/-- The key generation of the processes. -/
def lindellDkg (w : Mesh (lindellSessions codec H x sid coins)) :
    World (Lindell.Msg C) (Res DkgError (LindellDkgOutput C)) := w.net 0

/-- Their signing. -/
def lindellSign (w : Mesh (lindellSessions codec H x sid coins)) :
    World (SignMsg C) (Res SignError SignOutput) := w.net 1

/-- There are at least two parties. -/
theorem two_le_parties (x : SignSession C) : 2 ≤ x.n := by
  have h1 := x.p1_lt
  have h2 := x.p2_lt
  have hne := x.ne
  omega

/-- Whoever signs with the shares of a key generation signs under its public key. -/
theorem publicKey_of_shares (hshare : ∀ i < x.n, x.share i = dkgShare x.n coins i) :
    jointAt x.n (ownVector coins 2) 0 = x.publicKey := by
  have hlt : ∀ i < x.n, i + 1 < 2 ^ 16 := fun i hi => lt_of_le_of_lt hi x.n_lt
  have hnodes : Set.InjOn (node C) ({x.signers.1, x.signers.2} : Finset ℕ) := by
    refine node_injOn.mono fun i hi => ?_
    rcases Finset.mem_insert.mp hi with rfl | hi
    · exact hlt _ x.p1_lt
    · rw [Finset.mem_singleton.mp hi]
      exact hlt _ x.p2_lt
  have hcard : ({x.signers.1, x.signers.2} : Finset ℕ).card = 2 := Finset.card_pair x.ne
  -- both polynomials take the same values at the two signers
  have hpoly : x.poly = jointPoly x.n (ownVector coins 2) := by
    refine Polynomial.eq_of_degrees_lt_of_eval_index_eq _ hnodes ?_ ?_ fun i hi => ?_
    · rw [hcard]
      exact x.degree_lt
    · rw [hcard]
      exact degree_jointPoly_ownVector coins (show 1 ≤ 2 by decide)
    · rcases Finset.mem_insert.mp hi with rfl | hi
      · rw [← x.share_p1, hshare _ x.p1_lt, dkgShare]
      · rw [Finset.mem_singleton.mp hi, ← x.share_p2, hshare _ x.p2_lt, dkgShare]
  rw [← eval_jointPoly_smul, ← hpoly]
  rfl

/-- The key generation follows its script. -/
theorem lindellDkg_scripted (H : Hash) (sid : List UInt8)
    (hshare : ∀ i < x.n, x.share i = dkgShare x.n coins i) :
    ∃ M, Scripted (dkgDeployment (dkgCodec C) firstInput H x.n 2 sid coins fun _ => False) M 3
      fun i => .ok ⟨dkgShare x.n coins i, x.publicKey⟩ := by
  have hruns := dkgSetup_runsVss H x.n 2 sid coins fun _ => False
  have hc := (hruns.completes fun _ _ => not_false).congr fun i _ =>
    congrArg (fun pk => (.ok ⟨dkgShare x.n coins i, pk⟩ : Res DkgError (LindellDkgOutput C)))
      (publicKey_of_shares hshare)
  exact ⟨_, RunsVss.scripted hruns (fun _ => not_false) hc (two_le_parties x) x.n_lt rfl⟩

/-- The dealers of the line `X + 1`. -/
def lineCoins (d : ℕ) : DealerCoins smallCurve := if d = 0 then ⟨-1, fun _ => -1⟩ else ⟨1, fun _ => 1⟩

theorem lineCoins_values : ∑ d ∈ Finset.range 3, (lineCoins d).intercept = 1 ∧
    ∑ d ∈ Finset.range 3, (lineCoins d).draw 0 = 1 := by decide

/-- **`main.rs` with `--protocol lindell`, from the first dial to the signature.**  The processes of `n`
    parties connect, generate a key, connect again and sign with its shares.  Whatever the order in
    which processes, tasks and connections move, no `connect_tcp` panics, and the tables connect the
    processes in pairs, within one session; what a process whose rounds complete has returned from the
    key generation is the share that it signs with, and what it has returned from signing is the
    signature of the session, which verifies under the key.  There is a run in which all of them get
    there. -/
theorem run_lindell_processes (H : Hash) (x : SignSession C) (hs : x.s ≠ 0) (sid : List UInt8)
    (coins : ℕ → DealerCoins C) (hshare : ∀ i < x.n, x.share i = dkgShare x.n coins i) :
    verifySignature x.publicKey x.msgDigest (toBeBytes x.r) (toBeBytes x.s) = true ∧
    ∃ T : x.Transcript H, ∀ codec,
      CarriesScript (signDeployment codec firstInput H x) T.msgs 3 →
      (∀ w : Mesh (lindellSessions codec H x sid coins), Mesh.Reached x.n 2 w →
        (∀ k i, (w.call k i).stage ≠ .panicked ∧
          ∀ peers, (w.call k i).stage = .connected peers → peers = meshTable x.n k i) ∧
        (∀ i < x.n, ∀ res, (lindellDkg w).Returned i res → res = .ok ⟨x.share i, x.publicKey⟩) ∧
        ∀ i < x.n, ∀ res, (lindellSign w).Returned i res → res = .ok x.output) ∧
      ∃ w : Mesh (lindellSessions codec H x sid coins), Mesh.Reached x.n 2 w ∧
        ∀ i < x.n, (lindellSign w).Returned i (.ok x.output) := by
  refine ⟨verifySignature_sign x.msgDigest hs, ?_⟩
  obtain ⟨T⟩ := x.exists_transcript H
  refine ⟨T, fun codec hcarry => ?_⟩
  obtain ⟨M, hdkg⟩ := lindellDkg_scripted H sid hshare
  have hsign := sign_scripted T hs hcarry
  have hP : ∀ k, k + 1 < 2 → (lindellSessions codec H x sid coins k).IsBarrier x.n := by
    intro k hk
    obtain rfl : k = 0 := by omega
    exact hdkg.isBarrier (show 0 < 3 by decide)
  have hF : ∀ k < 2, (lindellSessions codec H x sid coins k).CanFinish x.n := by
    intro k hk
    rcases k with _ | k
    · exact hdkg.canFinish
    · exact hsign.canFinish
  refine ⟨fun w hw => ?_, ?_⟩
  · have hsound := hw.sound hP x.n_lt
    refine ⟨fun k i => ⟨(hsound.tasks.calls k i).not_panicked, (hsound.tasks.calls k i).table⟩,
      fun i hi res hres => ?_, fun i hi res hres => ?_⟩
    · have hthrough := hdkg.getsThrough fun i _ => (runVss_tidy i _ _).map _
      rw [hthrough.1 _ (reachedBy_open (hsound.ordered.net 0)).reached i hi res hres, hshare i hi]
    · exact (sign_getsThrough T hs hcarry).1 _ (reachedBy_open (hsound.ordered.net 1)).reached i hi
        res hres
  · obtain ⟨w, hrun, hdone⟩ := Mesh.Reached.exists_done hP x.n_lt .refl hF
    exact ⟨w, hrun, fun i hi => (hdone 1 (Nat.lt_succ_self 1) i hi).2⟩

/-- The small session, with a key that its three parties generate. -/
theorem run_lindell_processes_small :
    ∃ w : Mesh (lindellSessions (signCodec smallCurve) oneHash Lindell.smallSession [] lineCoins),
      Mesh.Reached 3 2 w ∧ ∀ i < 3, (lindellSign w).Returned i (.ok Lindell.smallSession.output) := by
  have hs : Lindell.smallSession.s ≠ 0 := by
    rw [Lindell.smallSession_values.2]
    exact one_ne_zero
  have hshare : ∀ i < 3, Lindell.smallSession.share i = dkgShare 3 lineCoins i := by
    intro i _
    rw [dkgShare, eval_jointPoly_two, lineCoins_values.1, lineCoins_values.2]
    simp [Lindell.smallSession, add_comm]
  obtain ⟨-, T, hall⟩ := run_lindell_processes oneHash Lindell.smallSession hs [] lineCoins hshare
  obtain ⟨-, w, hw, hret⟩ := hall (signCodec smallCurve) smallSession_carries
  exact ⟨w, hw, hret⟩

end Lindell

end Govis.Tcp
