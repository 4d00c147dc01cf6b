import Govis.Tcp.KeyGeneration
import Govis.Tcp.MessageSizes

namespace Govis.Tcp

open Curve Shamir Framing Transition Rounds
open Lindell (DkgError LindellDkgOutput DealerCoins dkgSetup vecWith)
open Cggmp21 (KeygenMsg keygenSetup)

/-!
# The transport: agreement on the key

`run_dkg` and `run_keygen` over the transport, with corrupt parties that put any bytes on their
connections.  The transport reads the flag of a reliable broadcast back from the wire and does
nothing for it.

* `Truthful` — what comes from a corrupt party in a round names that party and shows everybody the
  same;
* `WorldReached.got_eq` — then two honest parties have the same from every party in that round;
* `publicKey_agreement` — then all honest parties that succeed return the same key.
-/

/-! ### One round -/

section Round

variable {Msg : ℕ → Type} {R A : Type} {D : Deployment Msg R} {w : World Msg R} {r : ℕ} {val : Msg r → A}

/-- What the honest parties are given in round `r` from the connection of a corrupt party names that
    party, and has one value for all of them. -/
structure Truthful (D : Deployment Msg R) (w : World Msg R) (r : ℕ) (val : Msg r → A) : Prop where
  sender : ∀ g h, D.setup.corrupt g → ¬ D.setup.corrupt h → ∀ inc,
    (g, .ok inc) ∈ w.sys.yields h → inc.msg.1 = r → inc.sender = g
  same : ∀ g h h', D.setup.corrupt g → ¬ D.setup.corrupt h → ¬ D.setup.corrupt h' →
    ∀ inc inc' m m', (g, .ok inc) ∈ w.sys.yields h → (g, .ok inc') ∈ w.sys.yields h' →
      inc.msg = ⟨r, m⟩ → inc'.msg = ⟨r, m'⟩ → val m = val m'

variable {own : ℕ → A} {i j d : ℕ}

/-- What a round has handed over came from the party it names. -/
theorem WorldReached.got_cases (h : WorldReached D w) (ht : Truthful D w r val)
    (hown : ∀ d inb j m, (D.setup.prog d).Sends inb r j m → val m = own d)
    (hi : ¬ D.setup.corrupt i) {m : Msg r} (hm : (w.party i).got r d = some m) :
    (¬ D.setup.corrupt d ∧ val m = own d) ∨
      (D.setup.corrupt d ∧ ∃ inc, (d, .ok inc) ∈ w.sys.yields i ∧ inc.msg = ⟨r, m⟩) := by
  obtain ⟨g, id, hitem⟩ := (h.party i).yielded r d m hm
  by_cases hg : D.setup.corrupt g
  · have hsender := ht.sender g i hg hi _ hitem rfl
    obtain rfl : d = g := hsender
    exact .inr ⟨hg, _, hitem, rfl⟩
  · obtain ⟨hsender, inb, k, hsends⟩ := h.honest_item hg hitem
    obtain rfl : d = g := hsender
    exact .inl ⟨hg, hown d inb k m hsends⟩

/-- **One view.**  Two honest parties have the same value from every party. -/
theorem WorldReached.got_eq (h : WorldReached D w) (ht : Truthful D w r val)
    (hown : ∀ d inb j m, (D.setup.prog d).Sends inb r j m → val m = own d)
    (hi : ¬ D.setup.corrupt i) (hj : ¬ D.setup.corrupt j) {m m' : Msg r}
    (hm : (w.party i).got r d = some m) (hm' : (w.party j).got r d = some m') : val m = val m' := by
  rcases h.got_cases ht hown hi hm with ⟨hd, hval⟩ | ⟨hd, inc, hinc, hmsg⟩
  · rcases h.got_cases ht hown hj hm' with ⟨-, hval'⟩ | ⟨hd', -⟩
    · exact hval.trans hval'.symm
    · exact absurd hd' hd
  · rcases h.got_cases ht hown hj hm' with ⟨hd', -⟩ | ⟨-, inc', hinc', hmsg'⟩
    · exact absurd hd hd'
    · exact ht.same d i j hd hi hj inc inc' m m' hinc hinc' hmsg hmsg'

/-- The value of an honest party is its own. -/
theorem WorldReached.got_own (h : WorldReached D w) (ht : Truthful D w r val)
    (hown : ∀ d inb j m, (D.setup.prog d).Sends inb r j m → val m = own d)
    (hi : ¬ D.setup.corrupt i) (hd : ¬ D.setup.corrupt d) {m : Msg r}
    (hm : (w.party i).got r d = some m) : val m = own d := by
  rcases h.got_cases ht hown hi hm with ⟨-, hval⟩ | ⟨hd', -⟩
  · exact hval
  · exact absurd hd' hd

/-- The sum of the own value and those of the others, at two parties that have the same. -/
theorem sum_eq_of_same [AddCommMonoid A] {n : ℕ} (own : ℕ → A) (hi : i < n) (hj : j < n) {f f' : ℕ → A}
    (hsame : ∀ d < n, d ≠ i → d ≠ j → f d = f' d) (hfj : j ≠ i → f j = own j)
    (hfi : i ≠ j → f' i = own i) :
    own i + ∑ d ∈ (Finset.range n).erase i, f d = own j + ∑ d ∈ (Finset.range n).erase j, f' d := by
  have hleft : own i + ∑ d ∈ (Finset.range n).erase i, f d =
      ∑ d ∈ Finset.range n, Function.update f i (own i) d := by
    rw [← Finset.add_sum_erase _ _ (Finset.mem_range.mpr hi), Function.update_self]
    refine congrArg _ (Finset.sum_congr rfl fun d hd => ?_)
    rw [Function.update_of_ne (Finset.ne_of_mem_erase hd)]
  have hright : own j + ∑ d ∈ (Finset.range n).erase j, f' d =
      ∑ d ∈ Finset.range n, Function.update f' j (own j) d := by
    rw [← Finset.add_sum_erase _ _ (Finset.mem_range.mpr hj), Function.update_self]
    refine congrArg _ (Finset.sum_congr rfl fun d hd => ?_)
    rw [Function.update_of_ne (Finset.ne_of_mem_erase hd)]
  rw [hleft, hright]
  refine Finset.sum_congr rfl fun d hd => ?_
  by_cases hdi : d = i
  · subst hdi
    by_cases hdj : d = j
    · rw [hdj, Function.update_self, Function.update_self]
    · rw [Function.update_self, Function.update_of_ne hdj, hfi hdj]
  · rw [Function.update_of_ne hdi]
    by_cases hdj : d = j
    · subst hdj
      rw [Function.update_self, hfj hdi]
    · rw [Function.update_of_ne hdj]
      exact hsame d (Finset.mem_range.mp hd) hdi hdj

end Round

/-! ### Key generation -/

/-- **Agreement on the key.**  Where what the honest parties are given from corrupt ones in the round
    of the coefficient points names its sender and shows all of them the same first point, all honest
    parties that succeed return one public key; for `run_dkg` and for `run_keygen`. -/
theorem publicKey_agreement {C : Curve} (H : Hash) (n t : ℕ) (sid : List UInt8) (corrupt : ℕ → Prop) {i j : ℕ}
    (hi : i < n) (hci : ¬ corrupt i) (hj : j < n) (hcj : ¬ corrupt j) :
    (∀ (codec : Codec (AnyMsg (Lindell.Msg C))) rounds coins w,
      WorldReached (dkgDeployment codec rounds H n t sid coins corrupt) w →
      Truthful (dkgDeployment codec rounds H n t sid coins corrupt) w 1 firstPoint →
      ∀ out out', w.Returned i (.ok out) → w.Returned j (.ok out') → out.publicKey = out'.publicKey) ∧
    ∀ (codec : Codec (AnyMsg (KeygenMsg C))) rounds coins w,
      WorldReached (keygenDeployment codec rounds H n t sid coins corrupt) w →
      Truthful (keygenDeployment codec rounds H n t sid coins corrupt) w 2 firstKeygenPoint →
      ∀ out out', w.Returned i (.ok out) → w.Returned j (.ok out') → out.publicKey = out'.publicKey := by
  constructor
  · intro codec rounds coins w h ht out out' hout hout'
    obtain ⟨vec, hvec, hpk⟩ := dkg_publicKey h hi hout
    obtain ⟨vec', hvec', hpk'⟩ := dkg_publicKey h hj hout'
    have hown : ∀ d inb k m, ((dkgSetup H n t sid coins corrupt).prog d).Sends inb 1 k m →
        firstPoint m = (coins d).intercept • C.generator := fun _ _ _ _ hsends => dkg_sends hsends
    rw [hpk, hpk']
    refine sum_eq_of_same (fun d => (coins d).intercept • C.generator) hi hj
      (fun d hd hdi hdj => ?_) (fun hji => ?_) fun hij => ?_
    · exact h.got_eq ht hown hci hcj (hvec d hd hdi) (hvec' d hd hdj)
    · exact h.got_own ht hown hci hcj (hvec j hj hji)
    · exact h.got_own ht hown hcj hci (hvec' i hi hij)
  · intro codec rounds coins w h ht out out' hout hout'
    obtain ⟨msg, hmsg, hpk⟩ := keygen_publicKey h hout
    obtain ⟨msg', hmsg', hpk'⟩ := keygen_publicKey h hout'
    have hown : ∀ d inb k m, ((keygenSetup H n t sid coins corrupt).prog d).Sends inb 2 k m →
        firstKeygenPoint m = (coins d).ecSecret • C.generator := fun _ _ _ _ hsends => keygen_sends hsends
    rw [hpk, hpk']
    refine sum_eq_of_same (fun d => (coins d).ecSecret • C.generator) hi hj
      (fun d hd hdi hdj => ?_) (fun hji => ?_) fun hij => ?_
    · exact h.got_eq ht hown hci hcj (hmsg d hd hdi) (hmsg' d hd hdj)
    · exact h.got_own ht hown hci hcj (hmsg j hj hji)
    · exact h.got_own ht hown hcj hci (hmsg' i hi hij)

/-! ### Two runs of three parties -/

/-- Every dealer draws the constant polynomial's coefficients as one. -/
def oneCoins (_ : ℕ) : DealerCoins smallCurve := ⟨1, fun _ => 1⟩

/-- Three parties run `run_dkg` with threshold two; party 2 is corrupt. -/
noncomputable def smallDkg : Deployment (Lindell.Msg smallCurve)
    (Res DkgError (LindellDkgOutput smallCurve)) :=
  dkgDeployment (dkgCodec smallCurve) firstInput oneHash 3 2 [] oneCoins (· = 2)

/-- Party 2 shows party `j` the constant polynomial `a j`, in commitment, points and share. -/
theorem exists_smallDkg_run (a : ℕ → smallCurve.Scalar) :
    ∃ w, ∃ out : ℕ → LindellDkgOutput smallCurve, WorldReached smallDkg w ∧
      (∀ i < 2, w.Returned i (.ok (out i)) ∧ (out i).publicKey = (2 + a i) • smallCurve.generator) ∧
      ((∀ i j, a i = a j) → Truthful smallDkg w 1 firstPoint) := by
  set v : ℕ → List smallCurve.Point := fun j => [a j • smallCurve.generator, 0] with hv
  have hshort : 33 * 2 + 19 ≤ maxFrameLength := by decide
  have hshare : ∀ j, a j • smallCurve.generator = evalAt (node smallCurve j) (v j) := by
    intro j
    rw [hv]
    simp
  obtain ⟨w, hw, hret, hstory⟩ := exists_shown_run oneHash [] oneCoins (n := 3) (t := 2) (by decide)
    (by decide) 2 v a (fun j _ => ⟨List.cons_ne_nil _ _, hshort⟩) fun j _ => hshare j
  refine ⟨w, _, hw, fun i hi => ⟨hret i (by omega) (by omega), ?_⟩, fun ha => ⟨?_, ?_⟩⟩
  · -- the two honest constants are one
    have hvec : ∀ d, (vecWith oneCoins 2 2 (v i) d).headD 0 =
        (if d = 2 then a i else 1) • smallCurve.generator := by
      intro d
      by_cases hd : d = 2
      · rw [vecWith, if_pos hd, if_pos hd]
        rfl
      · rw [vecWith, if_neg hd, if_neg hd]
        rfl
    have hsum : ∑ d ∈ Finset.range 3, (if d = 2 then a i else 1) = 2 + a i := by
      simp [Finset.sum_range_succ, one_add_one_eq_two]
    rw [jointAt_zero, Finset.sum_congr rfl fun d _ => hvec d, ← Finset.sum_smul, hsum]
  · intro g h _ _ inc hinc _
    exact (hstory g h inc hinc).1
  · intro g h h' _ _ _ inc inc' m m' hinc hinc' hm hm'
    obtain ⟨-, r, hr⟩ := hstory g h inc hinc
    obtain ⟨-, r', hr'⟩ := hstory g h' inc' hinc'
    have hsame : v h = v h' := by
      rw [hv]
      simp only [ha h h']
    cases hm.symm.trans hr
    cases hm'.symm.trans hr'
    show (vecWith oneCoins 2 2 (v h) g).headD 0 = (vecWith oneCoins 2 2 (v h') g).headD 0
    rw [hsame]

/-- **Two keys.**  Party 2 shows the two honest parties different polynomials.  Both succeed, with
    different public keys. -/
theorem publicKey_disagreement :
    ¬ ∀ w out out', WorldReached smallDkg w → w.Returned 0 (.ok out) → w.Returned 1 (.ok out') →
      out.publicKey = out'.publicKey := by
  intro hall
  obtain ⟨w, out, hw, hret, -⟩ := exists_smallDkg_run fun j => j
  obtain ⟨hret0, hpk0⟩ := hret 0 (by decide)
  obtain ⟨hret1, hpk1⟩ := hret 1 (by decide)
  have heq := hall w (out 0) (out 1) hw hret0 hret1
  rw [hpk0, hpk1] at heq
  exact absurd (generator_smul_eq_iff.mp heq) (by decide)

/-- **One key.**  Party 2 is corrupt, and shows both the same. -/
theorem publicKey_agreement_runs :
    (∃ w out out', WorldReached smallDkg w ∧ w.Returned 0 (.ok out) ∧ w.Returned 1 (.ok out') ∧
      out.publicKey = out'.publicKey) ∧
    ∃ w out out', WorldReached (keygenDeployment (keygenCodec smallCurve) firstInput oneHash 3 2 []
        Cggmp21.smallKeygen.coins (· = 2)) w ∧
      w.Returned 0 (.ok out) ∧ w.Returned 1 (.ok out') ∧ out.publicKey = out'.publicKey := by
  constructor
  · obtain ⟨w, out, hw, hret, ht⟩ := exists_smallDkg_run fun _ => 1
    obtain ⟨hret0, -⟩ := hret 0 (by decide)
    obtain ⟨hret1, -⟩ := hret 1 (by decide)
    exact ⟨w, out 0, out 1, hw, hret0, hret1, (publicKey_agreement oneHash 3 2 [] (· = 2)
      (i := 0) (by decide) (by decide) (j := 1) (by decide) (by decide)).1 _ _ _ w hw
      (ht fun _ _ => rfl) _ _ hret0 hret1⟩
  · obtain ⟨T⟩ := Cggmp21.smallKeygen.exists_transcript
    obtain ⟨w, hw, hret, hstory⟩ := exists_keygen_run T (· = 2) smallKeygen_carries
    have hret0 := hret 0 (show 0 < 3 by decide) (by decide)
    have hret1 := hret 1 (show 1 < 3 by decide) (by decide)
    have ht : Truthful (keygenDeployment (keygenCodec smallCurve) firstInput oneHash 3 2 []
        Cggmp21.smallKeygen.coins (· = 2)) w 2 firstKeygenPoint := by
      refine ⟨fun g h _ _ inc hinc _ => (hstory g h inc hinc).1, ?_⟩
      intro g h h' _ _ _ inc inc' m m' hinc hinc' hm hm'
      have hpoints := (hstory g h inc hinc).2 m hm
      have hpoints' := (hstory g h' inc' hinc').2 m' hm'
      rw [firstKeygenPoint, firstKeygenPoint, hpoints, hpoints']
    exact ⟨w, _, _, hw, hret0, hret1, (publicKey_agreement oneHash 3 2 [] (· = 2)
      (i := 0) (by decide) (by decide) (j := 1) (by decide) (by decide)).2 (keygenCodec smallCurve) _ _ w hw ht _ _
      hret0 hret1⟩

end Govis.Tcp
