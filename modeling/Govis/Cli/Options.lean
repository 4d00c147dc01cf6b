import Mathlib.Data.List.Nodup

namespace Govis.Cli

/-!
# The command line: reading options

`get_arg` and the two options that `main` reads without it.  An option is looked up at the first
word that is its name; `--refresh` is bare, but `main` asks for the word behind it.

* `OptionGroup`, `commandLine` — what the usage text and the README offer;
* `getArg_valued_iff`, `addrWords_iff`, `doRefresh_iff` — what a command line says, whatever its
  order;
* `sameReading_iff` — the reorderings that change nothing;
* `not_sameReading` — one that turns a refresh into a key generation.
-/

/-! ### Words -/

/-- `a.starts_with("--")`. -/
def startsWithDashes (a : String) : Bool := "--".toList.isPrefixOf a.toList

/-- `s.split(',')`. -/
def splitComma (s : String) : List String := (s.toList.splitOn ',').map String.ofList

/-- `get_arg`. -/
def getArg (args : List String) (name : String) : Option String :=
  (args.findIdx? (· == name)).bind fun i => args[i + 1]?

/-- `do_refresh`. -/
def doRefresh (args : List String) : Bool := (getArg args "--refresh").isSome

/-- The words behind `--addrs`; none if it is missing. -/
def addrWords (args : List String) : Option (List String) :=
  (args.findIdx? (· == "--addrs")).map fun addrsPos =>
    (args.drop (addrsPos + 1)).takeWhile fun a => !startsWithDashes a

/-- The addresses.  Without `--addrs`, and at a word that is not an address, `main` panics. -/
def readAddrs {A : Type} (parse : String → Option A) (args : List String) : Option (List A) := do
  let words ← addrWords args
  (words.flatMap splitComma).mapM parse

/-! ### Option groups -/

/-- A word that does not start with `--`. -/
abbrev PlainWord : Type := { a : String // startsWithDashes a = false }

/-- The options that take a value. -/
inductive ValuedOption where
  | index
  | protocol
  | threshold
  | signers
  | sid
  | sign
  | file
  | oldShare
  | masterPk
  | saveKey
  | loadKey
  | paillierBits
deriving DecidableEq, Repr

def ValuedOption.name : ValuedOption → String
  | index => "--index"
  | protocol => "--protocol"
  | threshold => "--threshold"
  | signers => "--signers"
  | sid => "--sid"
  | sign => "--sign"
  | file => "--file"
  | oldShare => "--old-share"
  | masterPk => "--master-pk"
  | saveKey => "--save-key"
  | loadKey => "--load-key"
  | paillierBits => "--paillier-bits"

/-- An option with what belongs to it. -/
inductive OptionGroup where
  | valued (option : ValuedOption) (value : PlainWord)
  | addrs (first : PlainWord) (rest : List PlainWord)
  | refresh
deriving DecidableEq

def OptionGroup.name : OptionGroup → String
  | valued option _ => option.name
  | addrs _ _ => "--addrs"
  | refresh => "--refresh"

def OptionGroup.values : OptionGroup → List String
  | valued _ value => [value.val]
  | addrs first rest => (first :: rest).map Subtype.val
  | refresh => []

def OptionGroup.words (g : OptionGroup) : List String := g.name :: g.values

/-- The arguments of the program, its own name first. -/
def commandLine (program : String) (groups : List OptionGroup) : List String :=
  program :: groups.flatMap OptionGroup.words

/-- Two command lines say the same. -/
structure SameReading {A : Type} (parse : String → Option A) (args args' : List String) : Prop where
  addrs : readAddrs parse args = readAddrs parse args'
  refresh : doRefresh args = doRefresh args'
  getArg : ∀ option : ValuedOption, getArg args option.name = getArg args' option.name

theorem ValuedOption.startsWithDashes_name (o : ValuedOption) : startsWithDashes o.name = true := by
  cases o <;> decide

theorem startsWithDashes_name (g : OptionGroup) : startsWithDashes g.name = true := by
  cases g with
  | valued option value => exact option.startsWithDashes_name
  | addrs first rest => exact (by decide : startsWithDashes "--addrs" = true)
  | refresh => exact (by decide : startsWithDashes "--refresh" = true)

theorem startsWithDashes_values {g : OptionGroup} {a : String} (ha : a ∈ g.values) :
    startsWithDashes a = false := by
  cases g with
  | valued option value =>
    rw [List.mem_singleton.mp ha]
    exact value.property
  | addrs first rest =>
    obtain ⟨w, -, rfl⟩ := List.mem_map.mp ha
    exact w.property
  | refresh => cases ha

theorem ValuedOption.name_injective : Function.Injective ValuedOption.name := by
  intro o o' h
  cases o <;> cases o' <;> first | rfl | exact absurd h (by decide)

theorem ValuedOption.name_ne (o : ValuedOption) : o.name ≠ "--addrs" ∧ o.name ≠ "--refresh" := by
  cases o <;> decide

/-- A name belongs to one kind of group. -/
theorem eq_valued_of_name {g : OptionGroup} {o : ValuedOption} (h : g.name = o.name) :
    ∃ w, g = .valued o w := by
  cases g with
  | valued o' w =>
    obtain rfl := ValuedOption.name_injective h
    exact ⟨w, rfl⟩
  | addrs first rest => exact absurd h.symm o.name_ne.1
  | refresh => exact absurd h.symm o.name_ne.2

theorem eq_addrs_of_name {g : OptionGroup} (h : g.name = "--addrs") :
    ∃ first rest, g = .addrs first rest := by
  cases g with
  | valued o w => exact absurd h o.name_ne.1
  | addrs first rest => exact ⟨first, rest, rfl⟩
  | refresh => exact absurd h (by decide)

theorem eq_refresh_of_name {g : OptionGroup} (h : g.name = "--refresh") : g = .refresh := by
  cases g with
  | valued o w => exact absurd h o.name_ne.2
  | addrs first rest => exact absurd h (by decide : ¬ "--addrs" = "--refresh")
  | refresh => rfl

/-! ### Looking up -/

theorem findIdx?_of_notMem {args : List String} {name : String} (h : name ∉ args) :
    args.findIdx? (· == name) = none := by
  rw [List.findIdx?_eq_none_iff]
  intro a ha
  exact beq_false_of_ne fun heq => h (heq ▸ ha)

/-- The first occurrence of a word. -/
theorem findIdx?_append_cons {pre rest : List String} {name : String} (h : name ∉ pre) :
    (pre ++ name :: rest).findIdx? (· == name) = some pre.length := by
  rw [List.findIdx?_append, findIdx?_of_notMem h, List.findIdx?_cons]
  simp

theorem getArg_append_cons {pre : List String} {name : String} (h : name ∉ pre)
    (rest : List String) :
    getArg (pre ++ name :: rest) name = rest.head? := by
  rw [getArg, findIdx?_append_cons h, Option.bind_some, List.getElem?_append_right (by omega)]
  simp [List.head?_eq_getElem?]

theorem getArg_of_notMem {args : List String} {name : String} (h : name ∉ args) :
    getArg args name = none := by
  rw [getArg, findIdx?_of_notMem h, Option.bind_none]

theorem addrWords_append_cons {pre : List String} (h : "--addrs" ∉ pre) (rest : List String) :
    addrWords (pre ++ "--addrs" :: rest) = some (rest.takeWhile fun a => !startsWithDashes a) := by
  have hdrop : (pre ++ "--addrs" :: rest).drop (pre.length + 1) = rest := by
    rw [← List.drop_drop, List.drop_left, List.drop_succ_cons, List.drop_zero]
  rw [addrWords, findIdx?_append_cons h, Option.map_some, hdrop]

/-- Words up to the next option. -/
theorem takeWhile_words {vs : List String} (hvs : ∀ a ∈ vs, startsWithDashes a = false)
    (after : List OptionGroup) :
    (vs ++ after.flatMap OptionGroup.words).takeWhile (fun a => !startsWithDashes a) = vs := by
  have hrest : (after.flatMap OptionGroup.words).takeWhile (fun a => !startsWithDashes a) = [] := by
    cases after with
    | nil => rfl
    | cons g after => simp [OptionGroup.words, startsWithDashes_name g]
  rw [List.takeWhile_append_of_pos (by simpa using hvs), hrest, List.append_nil]

section CommandLine

variable {program : String} {groups groups' : List OptionGroup}
  (hprogram : startsWithDashes program = false)

include hprogram

/-- A name stands where its group is and nowhere else. -/
theorem mem_commandLine {g : OptionGroup} :
    g.name ∈ commandLine program groups ↔ g.name ∈ groups.map OptionGroup.name := by
  have hdashes := startsWithDashes_name g
  rw [commandLine, List.mem_cons, List.mem_flatMap, List.mem_map]
  constructor
  · rintro (heq | ⟨g', hg', hmem⟩)
    · rw [heq, hprogram] at hdashes
      cases hdashes
    · rcases List.mem_cons.mp hmem with heq | hvalue
      · exact ⟨g', hg', heq.symm⟩
      · rw [startsWithDashes_values hvalue] at hdashes
        cases hdashes
  · rintro ⟨g', hg', heq⟩
    exact .inr ⟨g', hg', List.mem_cons.mpr (.inl heq.symm)⟩

/-- **The place of a group** in the command line. -/
theorem exists_split (hnd : (groups.map OptionGroup.name).Nodup) {g : OptionGroup}
    (hg : g ∈ groups) : ∃ before after, groups = before ++ g :: after ∧
      g.name ∉ commandLine program before ∧
      commandLine program groups =
        commandLine program before ++ g.name :: (g.values ++ after.flatMap OptionGroup.words) := by
  obtain ⟨before, after, rfl⟩ := List.append_of_mem hg
  refine ⟨before, after, rfl, ?_, ?_⟩
  · rw [mem_commandLine hprogram]
    rw [List.map_append, List.map_cons, List.nodup_append] at hnd
    exact fun hmem => hnd.2.2 _ hmem _ List.mem_cons_self rfl
  · simp [commandLine, OptionGroup.words]

/-- **A valued option** is read wherever it stands. -/
theorem getArg_valued_iff (hnd : (groups.map OptionGroup.name).Nodup) (o : ValuedOption)
    (v : String) : getArg (commandLine program groups) o.name = some v ↔
      ∃ w : PlainWord, .valued o w ∈ groups ∧ w.val = v := by
  have hread : ∀ w, OptionGroup.valued o w ∈ groups →
      getArg (commandLine program groups) o.name = some w.val := by
    intro w hw
    obtain ⟨before, after, -, hfirst, hline⟩ := exists_split hprogram hnd hw
    rw [hline]
    exact getArg_append_cons hfirst _
  constructor
  · intro h
    by_cases hmem : ∃ w, OptionGroup.valued o w ∈ groups
    · obtain ⟨w, hw⟩ := hmem
      exact ⟨w, hw, Option.some.inj ((hread w hw).symm.trans h)⟩
    · -- no other group has this name
      have hnot : o.name ∉ commandLine program groups := by
        intro hin
        refine hmem ?_
        have hname := (mem_commandLine hprogram (g := .valued o ⟨"", by decide⟩)).mp hin
        obtain ⟨g, hg, hname⟩ := List.mem_map.mp hname
        obtain ⟨w, rfl⟩ := eq_valued_of_name hname
        exact ⟨w, hg⟩
      rw [getArg_of_notMem hnot] at h
      cases h
  · rintro ⟨w, hw, rfl⟩
    exact hread w hw

/-- **The addresses** are read wherever they stand. -/
theorem addrWords_iff (hnd : (groups.map OptionGroup.name).Nodup) (ws : List String) :
    addrWords (commandLine program groups) = some ws ↔
      ∃ first rest, OptionGroup.addrs first rest ∈ groups ∧
        (first :: rest).map Subtype.val = ws := by
  have hread : ∀ first rest, OptionGroup.addrs first rest ∈ groups →
      addrWords (commandLine program groups) = some ((first :: rest).map Subtype.val) := by
    intro first rest hg
    obtain ⟨before, after, -, hfirst, hline⟩ := exists_split hprogram hnd hg
    have hread := addrWords_append_cons hfirst
      ((OptionGroup.addrs first rest).values ++ after.flatMap OptionGroup.words)
    rw [takeWhile_words fun a ha => startsWithDashes_values ha] at hread
    rw [hline]
    exact hread
  constructor
  · intro h
    by_cases hmem : ∃ first rest, OptionGroup.addrs first rest ∈ groups
    · obtain ⟨first, rest, hg⟩ := hmem
      exact ⟨first, rest, hg, Option.some.inj ((hread first rest hg).symm.trans h)⟩
    · have hnot : "--addrs" ∉ commandLine program groups := by
        intro hin
        have hname := (mem_commandLine hprogram (g := .addrs ⟨"", by decide⟩ [])).mp hin
        obtain ⟨g, hg, hname⟩ := List.mem_map.mp hname
        obtain ⟨first, rest, rfl⟩ := eq_addrs_of_name hname
        exact hmem ⟨first, rest, hg⟩
      rw [addrWords, findIdx?_of_notMem hnot] at h
      cases h
  · rintro ⟨first, rest, hg, rfl⟩
    exact hread first rest hg

/-- **A refresh** is noticed unless `--refresh` is the last word. -/
theorem doRefresh_iff (hnd : (groups.map OptionGroup.name).Nodup) :
    doRefresh (commandLine program groups) = true ↔
      .refresh ∈ groups ∧ groups.getLast? ≠ some .refresh := by
  by_cases hmem : OptionGroup.refresh ∈ groups
  · obtain ⟨before, after, hgroups, hfirst, hline⟩ := exists_split hprogram hnd hmem
    have hread := getArg_append_cons hfirst
      (OptionGroup.refresh.values ++ after.flatMap OptionGroup.words)
    rw [doRefresh, hline, show "--refresh" = OptionGroup.refresh.name from rfl, hread]
    cases hlast : after.getLast? with
    | none =>
      obtain rfl := List.getLast?_eq_none_iff.mp hlast
      simp [hgroups, OptionGroup.values]
    | some g =>
      -- nothing behind it has the same name
      have hg : g ≠ .refresh := by
        rintro rfl
        have hin := List.mem_of_getLast? hlast
        rw [hgroups, List.map_append, List.map_cons, List.nodup_append, List.nodup_cons] at hnd
        exact hnd.2.1.1 (List.mem_map_of_mem hin)
      have hne : after ≠ [] := by
        rintro rfl
        cases hlast
      obtain ⟨g', after', rfl⟩ := List.exists_cons_of_ne_nil hne
      simp [hgroups, OptionGroup.values, OptionGroup.words, List.getLast?_append, hlast, hg]
  · have hnot : "--refresh" ∉ commandLine program groups := by
      intro hin
      have hname := (mem_commandLine hprogram (g := .refresh)).mp hin
      obtain ⟨g, hg, hname⟩ := List.mem_map.mp hname
      rw [eq_refresh_of_name hname] at hg
      exact hmem hg
    simp [doRefresh, getArg_of_notMem hnot, hmem]

/-- **Two orders** are read alike but for `--refresh`. -/
theorem sameReading_perm_iff {A : Type} (parse : String → Option A)
    (hnd : (groups.map OptionGroup.name).Nodup) (hperm : groups'.Perm groups) :
    SameReading parse (commandLine program groups) (commandLine program groups') ↔
      (groups.getLast? = some .refresh ↔ groups'.getLast? = some .refresh) := by
  have hnd' : (groups'.map OptionGroup.name).Nodup := (hperm.map _).nodup_iff.mpr hnd
  have hwords : addrWords (commandLine program groups) =
      addrWords (commandLine program groups') := by
    refine Option.ext fun ws => ?_
    rw [addrWords_iff hprogram hnd, addrWords_iff hprogram hnd']
    simp only [hperm.mem_iff]
  have hvalued : ∀ option : ValuedOption, getArg (commandLine program groups) option.name =
      getArg (commandLine program groups') option.name := by
    intro option
    refine Option.ext fun v => ?_
    rw [getArg_valued_iff hprogram hnd, getArg_valued_iff hprogram hnd']
    simp only [hperm.mem_iff]
  have hrefresh : doRefresh (commandLine program groups) =
      doRefresh (commandLine program groups') ↔
        (groups.getLast? = some .refresh ↔ groups'.getLast? = some .refresh) := by
    rw [Bool.eq_iff_iff, doRefresh_iff hprogram hnd, doRefresh_iff hprogram hnd', hperm.mem_iff]
    by_cases hmem : OptionGroup.refresh ∈ groups
    · simp only [hmem, true_and, ne_eq]
      exact not_iff_not
    · have hlast : groups.getLast? ≠ some .refresh := fun h => hmem (List.mem_of_getLast? h)
      have hlast' : groups'.getLast? ≠ some .refresh := fun h =>
        hmem (hperm.mem_iff.mp (List.mem_of_getLast? h))
      simp [hmem, hlast, hlast']
  rw [← hrefresh]
  refine ⟨fun h => h.refresh, fun h => ⟨?_, h, hvalued⟩⟩
  rw [readAddrs, readAddrs, hwords]

end CommandLine

/-- An element that is last in all orders or in none is alone or not there. -/
theorem forall_perm_getLast?_iff {α : Type} {l : List α} (hnd : l.Nodup) (x : α) :
    (∀ l' : List α, l'.Perm l → (l.getLast? = some x ↔ l'.getLast? = some x)) ↔
      x ∉ l ∨ l = [x] := by
  constructor
  · intro hall
    by_cases hmem : x ∈ l
    · right
      obtain ⟨before, after, rfl⟩ := List.append_of_mem hmem
      -- put it last, and put it first
      have hback : (before ++ after ++ [x]).Perm (before ++ x :: after) := by
        rw [List.append_assoc]
        exact List.Perm.append_left _ (List.perm_append_singleton _ _)
      have hfront : (x :: (before ++ after)).Perm (before ++ x :: after) := List.perm_middle.symm
      have hlast := (hall _ hfront).symm.trans (hall _ hback)
      rw [List.getLast?_concat] at hlast
      have hend := hlast.mpr rfl
      cases hrest : (before ++ after).getLast? with
      | none =>
        obtain ⟨rfl, rfl⟩ := List.append_eq_nil_iff.mp (List.getLast?_eq_none_iff.mp hrest)
        rfl
      | some y =>
        rw [List.getLast?_cons, hrest, Option.getD_some, Option.some.injEq] at hend
        subst hend
        rw [← hfront.nodup_iff, List.nodup_cons] at hnd
        exact absurd (List.mem_of_getLast? hrest) hnd.1
    · exact .inl hmem
  · rintro (hmem | rfl) l' hperm
    · refine iff_of_false (fun h => hmem (List.mem_of_getLast? h)) fun h => ?_
      exact hmem (hperm.mem_iff.mp (List.mem_of_getLast? h))
    · rw [List.perm_singleton.mp hperm]

/-- **Order.**  Two orders of the same options are read alike exactly if `--refresh` is last in both of
    them or in neither; all orders are, exactly if `--refresh` is not there or alone. -/
theorem sameReading_iff {A : Type} (parse : String → Option A) {program : String}
    {groups : List OptionGroup} (hprogram : startsWithDashes program = false)
    (hnd : (groups.map OptionGroup.name).Nodup) :
    (∀ groups' : List OptionGroup, groups'.Perm groups →
      (SameReading parse (commandLine program groups) (commandLine program groups') ↔
        (groups.getLast? = some .refresh ↔ groups'.getLast? = some .refresh))) ∧
    ((∀ groups' : List OptionGroup, groups'.Perm groups →
      SameReading parse (commandLine program groups) (commandLine program groups')) ↔
      .refresh ∉ groups ∨ groups = [.refresh]) := by
  have hpair : ∀ groups' : List OptionGroup, groups'.Perm groups →
      (SameReading parse (commandLine program groups) (commandLine program groups') ↔
        (groups.getLast? = some .refresh ↔ groups'.getLast? = some .refresh)) :=
    fun groups' hperm => sameReading_perm_iff hprogram parse hnd hperm
  refine ⟨hpair, ?_⟩
  rw [← forall_perm_getLast?_iff (List.Nodup.of_map _ hnd)]
  exact forall₂_congr hpair

/-- The options of a key generation with a session id, an address and a key to save. -/
def saveGroups : List OptionGroup :=
  [.valued .sid ⟨"s", by decide⟩, .addrs ⟨"a:1", by decide⟩ [], .valued .saveKey ⟨"k", by decide⟩]

/-- The other way round they are read alike. -/
theorem sameReading_iff_saveGroups :
    SameReading some (commandLine "govis" saveGroups) (commandLine "govis" saveGroups.reverse) :=
  ((sameReading_iff some (by decide) (by decide)).2.mpr (.inl (by decide))) _
    (List.reverse_perm saveGroups)

/-- A refresh as the README writes it, and with `--refresh` last: it becomes a key generation. -/
theorem not_sameReading :
    (doRefresh (commandLine "govis" [.refresh, .valued .loadKey ⟨"k", by decide⟩]) = true ∧
      doRefresh (commandLine "govis" [.valued .loadKey ⟨"k", by decide⟩, .refresh]) = false) ∧
    ¬ ∀ groups groups' : List OptionGroup, (groups.map OptionGroup.name).Nodup →
      groups'.Perm groups →
      SameReading some (commandLine "govis" groups) (commandLine "govis" groups') := by
  refine ⟨⟨by decide, by decide⟩, fun h => ?_⟩
  have hsame := h [.refresh, .valued .loadKey ⟨"k", by decide⟩]
    [.valued .loadKey ⟨"k", by decide⟩, .refresh] (by decide) (by decide)
  exact absurd hsame.refresh (by decide)

end Govis.Cli
