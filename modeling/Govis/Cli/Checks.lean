import Govis.Cli.Options
import Govis.KeyFiles

namespace Govis.Cli

/-!
# The command line: the signing group

The checks of `main` and `run_lindell` on the threshold and the signers.  They compare lengths: they
let through a threshold of zero and a list that names a signer twice, and they take a protocol that
is neither of the two for Lindell but not its threshold.

* `checkArgs` — `main` up to the point where it starts a run;
* `Accepted`, `checkArgs_eq_ok` — what it has checked then;
* `interpolates_iff` — the thresholds up to which a list of signers recovers the secret;
* `groupCanSign_iff` — the accepted command lines that describe a group that can sign;
* `groupCannotSign` — three that do not.
-/

variable {A : Type} {C : Curve}

/-! ### Numbers -/

/-- `str::parse` at an unsigned type: a sign `+` is allowed. -/
def parseUnsigned (bits : ℕ) (s : String) : Option ℕ :=
  let digits : List Char := match s.toList with
    | '+' :: rest => rest
    | cs => cs
  let value := digits.foldl (fun v c => 10 * v + (c.toNat - '0'.toNat)) (0 : ℕ)
  if digits ≠ [] ∧ digits.all Char.isDigit ∧ value < 2 ^ bits then some value else none

/-- A difference of 16-bit numbers: without overflow checks it wraps around. -/
def subU16 (checked : Bool) (a b : ℕ) : Option ℕ :=
  if checked ∧ a < b then none else some ((a + 2 ^ 16 - b) % 2 ^ 16)

/-! ### The checks -/

/-- What `main` uses from outside: the addresses it can read, the files, and what the library says
    of a file that is no key file. -/
structure Outside (A : Type) where
  parseAddr : String → Option A
  readFile : String → Except String (List UInt8)
  bincodeError : List UInt8 → String

/-- What `main` runs with. -/
structure Config (A : Type) where
  myIndex : ℕ
  doRefresh : Bool
  addrs : List A
  n : ℕ
  protocol : String
  threshold : ℕ
  paillierBits : Option ℕ
  signers : List ℕ
  sid : String
deriving DecidableEq

/-- `my_index`: from the key file if there is one. -/
def readIndex (sys : Outside A) (args : List String) : Res String ℕ :=
  match getArg args "--load-key" with
  | some path =>
    match sys.readFile path with
    | .error e => .error (.err s!"Failed to read --load-key {path}: {e}")
    | .ok data =>
      match KeyFileHeader.layout.deserialize data with
      | none =>
        let e := sys.bincodeError data
        .error (.err s!"Failed to parse key file {path}: {e}")
      | some header => .ok header.partyIndex.toNat
  | none =>
    match getArg args "--index" with
    | some s => orPanic (parseUnsigned 16 s)
    | none =>
      match args with
      | [] => .error .panic
      | program :: _ => .error (.err (s!"Usage: {program} --index <i> --addrs <host:port,...> " ++
          "[--protocol <lindell|cggmp21>] [--threshold <t>] [--signers <i,j,...>] [--sid <id>] " ++
          "[--sign <hex> | --file <path>] [--refresh --old-share <hex> --master-pk <hex>] " ++
          "[--save-key <file>] [--load-key <file>] [--paillier-bits <bits>]"))

/-- `addrs.len() as u16`. -/
def partyCount (addrs : List A) : ℕ := addrs.length % 2 ^ 16

/-- `protocol`. -/
def readProtocol (args : List String) : String := (getArg args "--protocol").getD "lindell"

/-- `threshold`. -/
def readThreshold (checked : Bool) (protocol : String) (n : ℕ) (args : List String) :
    Res String ℕ :=
  match getArg args "--threshold" with
  | some s => do
    let t ← orPanic (parseUnsigned 16 s)
    if protocol = "lindell" ∧ t ≠ 2 then
      .error (.err s!"Error: Lindell protocol requires threshold 2, got {t}")
    else return t
  | none =>
    if protocol = "lindell" then return 2
    else do
      let rest ← orPanic (subU16 checked n 1)
      let f := rest / 3
      return 2 * f + 1

/-- The argument of `set_paillier_bits`. -/
def readPaillierBits (args : List String) : Res String (Option ℕ) :=
  match getArg args "--paillier-bits" with
  | some s => do
    let bits ← orPanic (parseUnsigned 64 s)
    return some bits
  | none => return none

/-- `signers`. -/
def readSigners (protocol : String) (threshold : ℕ) (args : List String) : Res String (List ℕ) :=
  match getArg args "--signers" with
  | some s => orPanic ((splitComma s).mapM (parseUnsigned 16))
  | none => return if protocol = "lindell" then [0, 1] else List.range threshold

/-- The three comparisons of `main`. -/
def checkGroup (checked : Bool) (protocol : String) (n threshold : ℕ) (signers : List ℕ) :
    Res String Unit :=
  if protocol = "cggmp21" ∧ signers.length < threshold then
    let got := signers.length
    .error (.err s!"Error: CGGMP21 requires at least --threshold ({threshold}) signers, got {got}")
  else if n < threshold then
    .error (.err
      s!"Error: --threshold ({threshold}) cannot exceed the number of parties ({n})")
  else
    match signers.find? (n ≤ ·) with
    | some s => do
      let last ← orPanic (subU16 checked n 1)
      .error (.err s!"Error: signer index {s} is out of range (max index is {last})")
    | none => return

/-- `main`, up to the point where it starts a refresh or a run of `protocol`. -/
def checkArgs (checked : Bool) (sys : Outside A) (args : List String) : Res String (Config A) := do
  let myIndex ← readIndex sys args
  let addrs ← orPanic (readAddrs sys.parseAddr args)
  if addrs.isEmpty then .error (.err "Error: --addrs requires at least one address")
  else
    let n := partyCount addrs
    let protocol := readProtocol args
    let threshold ← readThreshold checked protocol n args
    let paillierBits ← readPaillierBits args
    let signers ← readSigners protocol threshold args
    checkGroup checked protocol n threshold signers
    let sid := (getArg args "--sid").getD "dkg-session"
    if doRefresh args ∧ protocol = "cggmp21" then
      .error (.err ("Error: --refresh is not yet supported for CGGMP21. " ++
        "Use --protocol lindell or omit --refresh."))
    else
      return { myIndex, doRefresh := doRefresh args, addrs, n, protocol, threshold, paillierBits,
               signers, sid }

/-- The signers that `run_lindell` passes on. -/
def lindellPair (signers : List ℕ) : Res String (ℕ × ℕ) :=
  match signers with
  | [a, b] => .ok (a, b)
  | _ =>
    let got := signers.length
    .error (.err s!"Error: Lindell signing requires exactly 2 signers (got {got})")

/-! ### What is accepted -/

/-- What `main` has checked when it starts a run. -/
structure Accepted (checked : Bool) (sys : Outside A) (args : List String) (c : Config A) : Prop where
  index : readIndex sys args = .ok c.myIndex
  refresh_eq : c.doRefresh = doRefresh args
  addrs : readAddrs sys.parseAddr args = some c.addrs
  addrs_ne : c.addrs ≠ []
  n_eq : c.n = partyCount c.addrs
  protocol_eq : c.protocol = readProtocol args
  threshold : readThreshold checked c.protocol c.n args = .ok c.threshold
  bits : readPaillierBits args = .ok c.paillierBits
  signers : readSigners c.protocol c.threshold args = .ok c.signers
  enough : c.protocol = "cggmp21" → c.threshold ≤ c.signers.length
  le_n : c.threshold ≤ c.n
  lt_n : ∀ s ∈ c.signers, s < c.n
  sid_eq : c.sid = (getArg args "--sid").getD "dkg-session"
  supported : c.doRefresh = true → c.protocol ≠ "cggmp21"

theorem checkGroup_eq_ok (checked : Bool) {protocol : String} {n threshold : ℕ}
    {signers : List ℕ} : checkGroup checked protocol n threshold signers = .ok () ↔
      (protocol = "cggmp21" → threshold ≤ signers.length) ∧ threshold ≤ n ∧
        ∀ s ∈ signers, s < n := by
  unfold checkGroup
  split
  · rename_i hfew
    simp only [reduceCtorEq, false_iff]
    rintro ⟨henough, -⟩
    exact absurd (henough hfew.1) (by omega)
  · rename_i hfew
    have henough : protocol = "cggmp21" → threshold ≤ signers.length := fun h =>
      not_lt.mp fun hlt => hfew ⟨h, hlt⟩
    split
    · rename_i hlt
      simp only [reduceCtorEq, false_iff]
      rintro ⟨-, hle, -⟩
      omega
    · rename_i hle
      cases hfind : signers.find? (n ≤ ·) with
      | some s =>
        have hs : n ≤ s := by simpa using List.find?_some hfind
        have hmem := List.mem_of_find?_eq_some hfind
        constructor
        · intro h
          obtain ⟨last, -, h⟩ := bind_eq_ok.mp h
          cases h
        · rintro ⟨-, -, hlt⟩
          exact absurd (hlt s hmem) (by omega)
      | none =>
        refine iff_of_true rfl ⟨henough, not_lt.mp hle, fun s hs => ?_⟩
        simpa using List.find?_eq_none.mp hfind s hs

theorem lindellPair_eq_ok {signers : List ℕ} {a b : ℕ} :
    lindellPair signers = .ok (a, b) ↔ signers = [a, b] := by
  constructor
  · intro h
    unfold lindellPair at h
    split at h
    · cases h
      rfl
    · cases h
  · rintro rfl
    rfl

/-- **Acceptance.** -/
theorem checkArgs_eq_ok {checked : Bool} {sys : Outside A} {args : List String} {c : Config A} :
    checkArgs checked sys args = .ok c ↔ Accepted checked sys args c := by
  unfold checkArgs
  constructor
  · intro h
    obtain ⟨myIndex, hindex, h⟩ := bind_eq_ok.mp h
    obtain ⟨addrs, haddrs, h⟩ := bind_eq_ok.mp h
    split at h
    · cases h
    · rename_i hne
      obtain ⟨threshold, hthreshold, h⟩ := bind_eq_ok.mp h
      obtain ⟨paillierBits, hbits, h⟩ := bind_eq_ok.mp h
      obtain ⟨signers, hsigners, h⟩ := bind_eq_ok.mp h
      obtain ⟨u, hgroup, h⟩ := bind_eq_ok.mp h
      obtain ⟨henough, hle, hlt⟩ := (checkGroup_eq_ok checked).mp hgroup
      split at h
      · cases h
      · rename_i hrefresh
        cases h
        exact {
          index := hindex, refresh_eq := rfl, addrs := orPanic_eq_ok.mp haddrs
          addrs_ne := by simpa using hne
          n_eq := rfl, protocol_eq := rfl, threshold := hthreshold, bits := hbits
          signers := hsigners, enough := henough, le_n := hle, lt_n := hlt, sid_eq := rfl
          supported := fun hr hp => hrefresh ⟨hr, hp⟩ }
  · intro h
    have hne : c.addrs.isEmpty = false := by simpa using h.addrs_ne
    have hgroup := (checkGroup_eq_ok checked).mpr ⟨h.enough, h.le_n, h.lt_n⟩
    simp only [h.index, h.addrs, orPanic_some, ok_bind, hne, ← h.n_eq, ← h.protocol_eq,
      h.threshold, h.bits, h.signers, hgroup, ← h.refresh_eq, ← h.sid_eq, Bool.false_eq_true,
      if_false]
    rw [if_neg fun hr => h.supported hr.1 hr.2]
    rfl

/-! ### Groups that can sign -/

/-- A list of signers recovers the secret of every polynomial with `t` coefficients. -/
def Interpolates (C : Curve) (signers : List ℕ) (t : ℕ) : Prop :=
  ∀ f : Polynomial C.Scalar, f.degree < t →
    combine signers (fun i => f.eval (node C i)) = some (f.eval 0)

/-- **Recovery** takes as many signers as there are coefficients. -/
theorem interpolates_iff {signers : List ℕ} {t : ℕ} (hs : ∀ j ∈ signers, j + 1 < 2 ^ 16)
    (hnd : signers.Nodup) : Interpolates C signers t ↔ t ≤ signers.length := by
  constructor
  · intro h
    by_contra hlt
    -- the polynomial that vanishes at all signers
    let f : Polynomial C.Scalar := Lagrange.nodal signers.toFinset (node C)
    have hdegree : f.degree < t := by
      rw [Lagrange.degree_nodal, List.toFinset_card_of_nodup hnd]
      exact_mod_cast not_le.mp hlt
    have hshares : ∀ i ∈ signers, f.eval (node C i) = (0 : Polynomial C.Scalar).eval (node C i) :=
      fun i hi => by
        rw [Lagrange.eval_nodal_at_node (List.mem_toFinset.mpr hi), Polynomial.eval_zero]
    have hsecret : f.eval 0 ≠ 0 := Lagrange.eval_nodal_not_at_node fun i hi =>
      (node_ne_zero (hs i (List.mem_toFinset.mp hi))).symm
    have hnothing := combine_eq hs hnd (f := (0 : Polynomial C.Scalar)) (by simp)
    rw [← combine_congr hshares, h f hdegree, Polynomial.eval_zero] at hnothing
    exact hsecret (Option.some.inj hnothing)
  · intro hle f hf
    exact combine_eq hs hnd (lt_of_lt_of_le hf (by exact_mod_cast hle))

/-- A configuration with which the parties can generate a key and sign. -/
structure GroupCanSign (C : Curve) (c : Config A) : Prop where
  one_le : 1 ≤ c.threshold
  le_n : c.threshold ≤ c.n
  nodup : c.signers.Nodup
  lt_n : ∀ s ∈ c.signers, s < c.n
  cggmp21 : c.protocol = "cggmp21" →
    c.threshold ≤ c.signers.length ∧ Interpolates C c.signers c.threshold
  lindell : c.protocol ≠ "cggmp21" → ∀ a b, lindellPair c.signers = .ok (a, b) →
    a ≠ b ∧ Interpolates C [a, b] c.threshold
  coefficients : ∀ (intercept : C.Scalar) draw,
    (evaluatePolynomial intercept draw c.threshold c.n).1.length = c.threshold

/-! ### The options that describe one -/

/-- The value of `--threshold`, if it is there and a number. -/
def givenThreshold (args : List String) : Option ℕ :=
  (getArg args "--threshold").bind (parseUnsigned 16)

/-- The value of `--signers`, if it is there and a list of numbers. -/
def givenSigners (args : List String) : Option (List ℕ) :=
  (getArg args "--signers").bind fun s => (splitComma s).mapM (parseUnsigned 16)

/-- One of the two protocols, or not a pair of signers, or a threshold of at most two: a given one, or
    the default for at most three parties. -/
def SoundPair (sys : Outside A) (args : List String) : Prop :=
  readProtocol args = "lindell" ∨ readProtocol args = "cggmp21" ∨
    (∀ a b, givenSigners args ≠ some [a, b]) ∨ (∃ t ≤ 2, givenThreshold args = some t) ∨
    (getArg args "--threshold" = none ∧
      ∀ addrs, readAddrs sys.parseAddr args = some addrs → partyCount addrs ≤ 3)

/-- No threshold of zero, no signer twice, and no pair that is too small. -/
structure SoundOptions (sys : Outside A) (args : List String) : Prop where
  threshold : givenThreshold args ≠ some 0
  signers : ∀ signers, givenSigners args = some signers → signers.Nodup
  pair : SoundPair sys args

theorem partyCount_lt (addrs : List A) : partyCount addrs < 2 ^ 16 := Nat.mod_lt _ (by norm_num)

/-- Where the threshold comes from. -/
theorem threshold_cases {checked : Bool} {protocol : String} {n t : ℕ} {args : List String}
    (h : readThreshold checked protocol n args = .ok t) :
    givenThreshold args = some t ∧ (protocol = "lindell" → t = 2) ∨
    getArg args "--threshold" = none ∧ protocol = "lindell" ∧ t = 2 ∨
    getArg args "--threshold" = none ∧ protocol ≠ "lindell" ∧
      ∃ rest, subU16 checked n 1 = some rest ∧ t = 2 * (rest / 3) + 1 := by
  unfold readThreshold at h
  cases hget : getArg args "--threshold" with
  | some s =>
    simp only [hget] at h
    obtain ⟨t', ht', h⟩ := bind_eq_ok.mp h
    split at h
    · cases h
    · rename_i hok
      cases h
      refine .inl ⟨?_, fun hl => not_not.mp fun ht => hok ⟨hl, ht⟩⟩
      rw [givenThreshold, hget, Option.bind_some, orPanic_eq_ok.mp ht']
  | none =>
    simp only [hget] at h
    split at h
    · rename_i hl
      cases h
      exact .inr (.inl ⟨rfl, hl, rfl⟩)
    · rename_i hl
      obtain ⟨rest, hrest, h⟩ := bind_eq_ok.mp h
      cases h
      exact .inr (.inr ⟨rfl, hl, rest, orPanic_eq_ok.mp hrest, rfl⟩)

/-- Where the signers come from. -/
theorem signers_cases {protocol : String} {t : ℕ} {args : List String} {signers : List ℕ}
    (h : readSigners protocol t args = .ok signers) :
    givenSigners args = some signers ∨
    givenSigners args = none ∧ signers = if protocol = "lindell" then [0, 1] else List.range t := by
  unfold readSigners at h
  cases hget : getArg args "--signers" with
  | some s =>
    simp only [hget] at h
    left
    rw [givenSigners, hget, Option.bind_some, orPanic_eq_ok.mp h]
  | none =>
    simp only [hget] at h
    cases h
    exact .inr ⟨by rw [givenSigners, hget, Option.bind_none], rfl⟩

section Accepted

variable {checked : Bool} {sys : Outside A} {args : List String} {c : Config A}

theorem Accepted.one_le_iff (h : Accepted checked sys args c) :
    1 ≤ c.threshold ↔ givenThreshold args ≠ some 0 := by
  rcases threshold_cases h.threshold with ⟨hgiven, -⟩ | ⟨hget, -, ht⟩ | ⟨hget, -, rest, -, ht⟩
  · rw [hgiven, ne_eq, Option.some.injEq]
    omega
  · simp [givenThreshold, hget, ht]
  · simp [givenThreshold, hget, ht]

theorem Accepted.nodup_iff (h : Accepted checked sys args c) :
    c.signers.Nodup ↔ ∀ signers, givenSigners args = some signers → signers.Nodup := by
  rcases signers_cases h.signers with hgiven | ⟨hgiven, hdefault⟩
  · simp [hgiven]
  · refine iff_of_true ?_ fun signers hs => ?_
    · rw [hdefault]
      split
      · decide
      · exact List.nodup_range
    · rw [hgiven] at hs
      cases hs

/-- The default threshold is at most two for at most three parties. -/
theorem default_le_two_iff {n rest t : ℕ} (hrest : subU16 checked n 1 = some rest)
    (ht : t = 2 * (rest / 3) + 1) (hlt : n < 2 ^ 16) (hle : t ≤ n) : t ≤ 2 ↔ n ≤ 3 := by
  unfold subU16 at hrest
  split at hrest
  · cases hrest
  · rw [Option.some.injEq] at hrest
    rcases Nat.eq_zero_or_pos n with rfl | hn
    · omega
    · have hsub : rest = n - 1 := by omega
      omega

/-- **Two signers** for at most two coefficients. -/
theorem Accepted.pair_iff (h : Accepted checked sys args c) :
    c.protocol = "cggmp21" ∨ c.signers.length ≠ 2 ∨ c.threshold ≤ 2 ↔ SoundPair sys args := by
  rw [SoundPair, ← h.protocol_eq]
  by_cases hlindell : c.protocol = "lindell"
  · have ht : c.threshold = 2 := by
      rcases threshold_cases h.threshold with ⟨-, ht⟩ | ⟨-, -, ht⟩ | ⟨-, hne, -⟩
      · exact ht hlindell
      · exact ht
      · exact absurd hlindell hne
    exact iff_of_true (.inr (.inr ht.le)) (.inl hlindell)
  · rcases signers_cases h.signers with hgiven | ⟨hgiven, hdefault⟩
    · have hpair : (∀ a b, givenSigners args ≠ some [a, b]) ↔ c.signers.length ≠ 2 := by
        rw [ne_eq, List.length_eq_two, hgiven]
        simp
      rw [hpair]
      rcases threshold_cases h.threshold with ⟨ht, -⟩ | ⟨-, hl, -⟩ | ⟨hget, -, rest, hrest, ht⟩
      · have hget : getArg args "--threshold" ≠ none := by
          intro hget
          rw [givenThreshold, hget] at ht
          cases ht
        simp [hlindell, ht, hget]
      · exact absurd hl hlindell
      · have htwo := default_le_two_iff hrest ht (h.n_eq ▸ partyCount_lt c.addrs) h.le_n
        simp [hlindell, givenThreshold, hget, h.addrs, ← h.n_eq, htwo]
    · refine iff_of_true ?_ (.inr (.inr (.inl fun a b hab => ?_)))
      · right
        rw [hdefault, if_neg hlindell, List.length_range]
        omega
      · rw [hgiven] at hab
        cases hab

end Accepted

/-- **The group.**  An accepted command line describes a group that can sign exactly if its options are
    sound. -/
theorem groupCanSign_iff (C : Curve) {checked : Bool} {sys : Outside A} {args : List String}
    {c : Config A} (h : checkArgs checked sys args = .ok c) :
    GroupCanSign C c ↔ SoundOptions sys args := by
  have hacc := checkArgs_eq_ok.mp h
  have hsmall : ∀ s ∈ c.signers, s + 1 < 2 ^ 16 := fun s hs => by
    have hlt := hacc.lt_n s hs
    have hn := hacc.n_eq ▸ partyCount_lt c.addrs
    omega
  constructor
  · intro hcan
    refine ⟨hacc.one_le_iff.mp hcan.one_le, hacc.nodup_iff.mp hcan.nodup, hacc.pair_iff.mp ?_⟩
    by_cases hp : c.protocol = "cggmp21"
    · exact .inl hp
    · by_cases hlen : c.signers.length = 2
      · obtain ⟨a, b, hab⟩ := List.length_eq_two.mp hlen
        have hrecovers := (hcan.lindell hp a b (lindellPair_eq_ok.mpr hab)).2
        rw [← hab, interpolates_iff hsmall hcan.nodup, hlen] at hrecovers
        exact .inr (.inr hrecovers)
      · exact .inr (.inl hlen)
  · intro hsound
    have hone := hacc.one_le_iff.mpr hsound.threshold
    have hnd := hacc.nodup_iff.mpr hsound.signers
    exact {
      one_le := hone, le_n := hacc.le_n, nodup := hnd, lt_n := hacc.lt_n
      cggmp21 := fun hp =>
        ⟨hacc.enough hp, (interpolates_iff hsmall hnd).mpr (hacc.enough hp)⟩
      lindell := by
        intro hp a b hpair
        have hab := lindellPair_eq_ok.mp hpair
        have hle : c.threshold ≤ 2 := by
          rcases hacc.pair_iff.mpr hsound.pair with hp' | hlen | hle
          · exact absurd hp' hp
          · exact absurd (by rw [hab]; rfl) hlen
          · exact hle
        rw [hab] at hnd hsmall
        exact ⟨by simpa using hnd, (interpolates_iff hsmall hnd).mpr hle⟩
      coefficients := fun intercept draw => by
        rw [evaluatePolynomial, List.length_map, length_dealing _ _ hone] }

/-- Every word is an address, and there are no files. -/
def noFiles : Outside String where
  parseAddr := some
  readFile _ := .error "not found"
  bincodeError _ := "unexpected end of file"

/-- Party `0` of five, with the options that follow. -/
def fiveParties (options : List String) : List String :=
  ["govis", "--index", "0", "--addrs", "h:1,h:2,h:3", "h:4,h:5"] ++ options

/-- What `main` runs with then. -/
def fiveConfig (protocol : String) (threshold : ℕ) (signers : List ℕ) : Config String where
  myIndex := 0
  doRefresh := false
  addrs := ["h:1", "h:2", "h:3", "h:4", "h:5"]
  n := 5
  protocol := protocol
  threshold := threshold
  paillierBits := none
  signers := signers
  sid := "dkg-session"

/-- Three of five with CGGMP21. -/
theorem groupCanSign_iff_three : GroupCanSign smallCurve (fiveConfig "cggmp21" 3 [0, 1, 2]) := by
  have haccepted : checkArgs true noFiles
      (fiveParties ["--protocol", "cggmp21", "--threshold", "3", "--signers", "0,1,2"]) =
        .ok (fiveConfig "cggmp21" 3 [0, 1, 2]) := by decide +kernel
  refine (groupCanSign_iff smallCurve haccepted).mpr
    ⟨by decide +kernel, fun signers h => ?_, .inr (.inl (by decide +kernel))⟩
  have hgiven : givenSigners
      (fiveParties ["--protocol", "cggmp21", "--threshold", "3", "--signers", "0,1,2"]) =
        some [0, 1, 2] := by decide +kernel
  rw [hgiven, Option.some.injEq] at h
  rw [← h]
  decide

/-- A threshold of zero, a signer that is there twice, and an unknown protocol with three coefficients
    and two signers: all of them are accepted. -/
theorem groupCannotSign :
    (checkArgs true noFiles (fiveParties ["--protocol", "cggmp21", "--threshold", "0"]) =
        .ok (fiveConfig "cggmp21" 0 []) ∧
      ¬ GroupCanSign smallCurve (fiveConfig "cggmp21" 0 [])) ∧
    (checkArgs true noFiles (fiveParties ["--signers", "0,0"]) =
        .ok (fiveConfig "lindell" 2 [0, 0]) ∧
      ¬ GroupCanSign smallCurve (fiveConfig "lindell" 2 [0, 0])) ∧
    checkArgs true noFiles (fiveParties ["--protocol", "gg18", "--signers", "0,1"]) =
        .ok (fiveConfig "gg18" 3 [0, 1]) ∧
      ¬ GroupCanSign smallCurve (fiveConfig "gg18" 3 [0, 1]) := by
  refine ⟨⟨by decide +kernel, fun h => ?_⟩, ⟨by decide +kernel, fun h => ?_⟩,
    by decide +kernel, fun h => ?_⟩
  · exact absurd h.one_le (by decide)
  · exact absurd h.nodup (by decide)
  · have hrecovers := (h.lindell (by decide) 0 1 rfl).2
    rw [fiveConfig, interpolates_iff (by decide) (by decide)] at hrecovers
    exact absurd hrecovers (by decide)

end Govis.Cli
