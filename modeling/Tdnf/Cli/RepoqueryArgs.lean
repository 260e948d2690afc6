import Tdnf.Common.Strings
import Tdnf.Library.Rearrangement

/-!
# Options of a repoquery

`TDNFCliParseRepoQueryArgs` walks over the list of options and fills in the
arguments of a query. A query format and an option for dependencies are accepted
at the end of the list only.
-/

namespace Tdnf.Cli

open PathText Common Rearrangement

/-- The codes of a parse -/
inductive CliError where
  | invalidArgument
  | oneDepOnly
  | invalidMixedQueryQueryformat
  | tdnf (e : TdnfError)
deriving DecidableEq, Repr

/-- `TDNF_CMD_OPT`; the value may be NULL. -/
structure CmdOpt where
  pszOptName : Text
  pszOptValue : Option Text
deriving DecidableEq, Repr

/-- `AddSetOptWithValues` -/
def addSetOptWithValues (pSetOpt : List CmdOpt) (opt : CmdOpt) : Except TdnfError (List CmdOpt) :=
  if opt.pszOptName = [] then .error .invalidParameter
  else do
    let pszOptName ← allocateString opt.pszOptName
    match opt.pszOptValue with
    | none => pure (pSetOpt ++ [⟨pszOptName, none⟩])
    | some value =>
      let value ← allocateString value
      pure (pSetOpt ++ [⟨pszOptName, some value⟩])

/-- Options that are added one after another stand in the list in the order of the calls. -/
theorem foldlM_addSetOptWithValues {opts : List CmdOpt} (before : List CmdOpt)
    (h : ∀ opt ∈ opts, opt.pszOptName ≠ [] ∧ allocateString opt.pszOptName = .ok opt.pszOptName ∧
      ∀ value, opt.pszOptValue = some value → allocateString value = .ok value) :
    opts.foldlM addSetOptWithValues before = .ok (before ++ opts) := by
  induction opts generalizing before with
  | nil =>
      rw [List.append_nil]
      rfl
  | cons opt opts ih =>
      obtain ⟨⟨hname, hcopy, hvalue⟩, hrest⟩ := List.forall_mem_cons.mp h
      have hadd : addSetOptWithValues before opt = .ok (before ++ [opt]) := by
        obtain ⟨name, value⟩ := opt
        rw [addSetOptWithValues, if_neg hname, hcopy]
        cases value with
        | none => rfl
        | some value =>
            dsimp only
            rw [hvalue value rfl]
            rfl
      calc (opt :: opts).foldlM addSetOptWithValues before
          = opts.foldlM addSetOptWithValues (before ++ [opt]) := by
            rw [List.foldlM_cons, hadd]
            rfl
        _ = .ok (before ++ [opt] ++ opts) := ih _ hrest
        _ = .ok (before ++ opt :: opts) := by
            rw [List.append_assoc, List.singleton_append]

/-- `TDNF_REPOQUERY_ARGS` -/
structure RepoqueryArgs where
  pszSpec : Option Text
  nAvailable : Bool
  nDuplicates : Bool
  nExtras : Bool
  nInstalled : Bool
  nUpgrades : Bool
  nUserInstalled : Bool
  pszFile : Option Text
  pppszWhatKeys : List (Option (List Text))
  ppszArchs : Option (List Text)
  nChangeLogs : Bool
  depKeySet : ℕ
  nList : Bool
  pszQueryFormat : Option Text
  nSource : Bool
deriving DecidableEq, Repr

/-- `depKeys` -/
def depKeys : List Text :=
  ["provides".toList, "obsoletes".toList, "conflicts".toList, "requires".toList,
    "recommends".toList, "suggests".toList, "supplements".toList, "enhances".toList,
    "depends".toList, "requires-pre".toList]

/-- `whatKeys` -/
def whatKeys : List Text :=
  ["whatprovides".toList, "whatobsoletes".toList, "whatconflicts".toList,
    "whatrequires".toList, "whatrecommends".toList, "whatsuggests".toList,
    "whatsupplements".toList, "whatenhances".toList, "whatdepends".toList]

/-- `TDNF_REPOQUERY_MAXARCHS` -/
def maxArchs : ℕ := 10

/-- The options that set a field to 1 -/
inductive Flag where
  | changeLogs
  | available
  | installed
  | extras
  | duplicates
  | list
  | source
  | upgrades
  | userInstalled
deriving DecidableEq, Repr

/-- What the parser does with an option -/
inductive OptKind where
  | arch
  | file
  | flag (f : Flag)
  | qf
  | dep (depKey : ℕ)
  | what (whatKey : ℕ)
deriving DecidableEq, Repr

/-- The names in the order in which the parser compares them -/
def optKinds : List (Text × OptKind) :=
  [("arch".toList, .arch), ("file".toList, .file), ("changelogs".toList, .flag .changeLogs),
    ("available".toList, .flag .available), ("installed".toList, .flag .installed),
    ("extras".toList, .flag .extras), ("duplicates".toList, .flag .duplicates),
    ("list".toList, .flag .list), ("qf".toList, .qf), ("source".toList, .flag .source),
    ("upgrades".toList, .flag .upgrades), ("userinstalled".toList, .flag .userInstalled)] ++
  depKeys.zipIdx.map (fun entry => (entry.1, .dep entry.2)) ++
  whatKeys.zipIdx.map fun entry => (entry.1, .what entry.2)

/-- The first name that is equal up to case; other options are left out. -/
def CmdOpt.kind (pSetOpt : CmdOpt) : Option OptKind :=
  (optKinds.find? fun entry => equalsCase pSetOpt.pszOptName entry.1).map (·.2)

/-- The assignment for an option without a value -/
def RepoqueryArgs.setFlag (args : RepoqueryArgs) : Flag → RepoqueryArgs
  | .changeLogs => { args with nChangeLogs := true }
  | .available => { args with nAvailable := true }
  | .installed => { args with nInstalled := true }
  | .extras => { args with nExtras := true }
  | .duplicates => { args with nDuplicates := true }
  | .list => { args with nList := true }
  | .source => { args with nSource := true }
  | .upgrades => { args with nUpgrades := true }
  | .userInstalled => { args with nUserInstalled := true }

/-- `TDNFAllocateString` of a value that may be NULL -/
def allocateValue : Option Text → Except CliError Text
  | none => .error (.tdnf .invalidParameter)
  | some value => (allocateString value).mapError .tdnf

/-- The body of the loop, with whether `pNext` is NULL -/
def parseKind (kind : OptKind) (value : Option Text) (last : Bool) (args : RepoqueryArgs) :
    Except CliError RepoqueryArgs :=
  match kind with
  | .arch =>
    let archs := args.ppszArchs.getD []
    if archs.length < maxArchs then do
      let arch ← allocateValue value
      pure { args with ppszArchs := some (archs ++ [arch]) }
    else pure { args with ppszArchs := some archs }
  | .file => do
    let file ← allocateValue value
    pure { args with pszFile := some file }
  | .flag f => pure (args.setFlag f)
  | .qf =>
    if last = false then throw .invalidMixedQueryQueryformat
    else do
      let format ← allocateValue value
      pure { args with pszQueryFormat := some format }
  | .dep depKey =>
    if args.depKeySet.testBit depKey then throw .oneDepOnly
    else if last = false then throw .invalidMixedQueryQueryformat
    else pure { args with depKeySet := args.depKeySet ||| 1 <<< depKey }
  | .what whatKey =>
    match value with
    | none => throw (.tdnf .invalidParameter)
    | some value =>
      pure { args with
        pppszWhatKeys := args.pppszWhatKeys.set whatKey (some (splitStringToArray value ',')) }

def parseSetOpt (pSetOpt : CmdOpt) (last : Bool) (args : RepoqueryArgs) :
    Except CliError RepoqueryArgs :=
  match pSetOpt.kind with
  | none => pure args
  | some kind => parseKind kind pSetOpt.pszOptValue last args

/-- The loop over the options -/
def parseSetOpts : List CmdOpt → RepoqueryArgs → Except CliError RepoqueryArgs
  | [], args => pure args
  | pSetOpt :: rest, args => do parseSetOpts rest (← parseSetOpt pSetOpt rest.isEmpty args)

/-- The package that is asked for, behind the name of the command -/
def parseSpec (ppszCmds : List Text) (args : RepoqueryArgs) : Except CliError RepoqueryArgs :=
  if 2 < ppszCmds.length then throw .invalidArgument
  else
    match ppszCmds[1]? with
    | none => pure args
    | some spec => do
      let spec ← (allocateString spec).mapError .tdnf
      pure { args with pszSpec := some spec }

/-- The arguments as `TDNFAllocateMemory` clears them -/
def noArgs : RepoqueryArgs :=
  ⟨none, false, false, false, false, false, false, none,
    List.replicate whatKeys.length none, none, false, 0, false, none, false⟩

/-- `TDNFCliParseRepoQueryArgs` -/
def parseRepoQueryArgs (ppszCmds : List Text) (pSetOpt : List CmdOpt) :
    Except CliError RepoqueryArgs := do
  parseSpec ppszCmds (← parseSetOpts pSetOpt noArgs)

/-! ## Orders of options -/

/-- What makes two options the same one -/
def CmdOpt.key (pSetOpt : CmdOpt) : Text := pSetOpt.pszOptName.map Char.toLower

/-- Both are rejected, or both are accepted with equal arguments. -/
def SameOutcome (ppszCmds : List Text) (xs ys : List CmdOpt) : Prop :=
  (∃ e e', parseRepoQueryArgs ppszCmds xs = .error e ∧
      parseRepoQueryArgs ppszCmds ys = .error e') ∨
    ∃ args, parseRepoQueryArgs ppszCmds xs = .ok args ∧ parseRepoQueryArgs ppszCmds ys = .ok args

/-- The option has to be the last one. -/
def CmdOpt.isFormat (pSetOpt : CmdOpt) : Bool :=
  match pSetOpt.kind with
  | some .qf => true
  | some (.dep _) => true
  | _ => false

/-- No format and no option for dependencies stands before another option. -/
def FormatLast (pSetOpt : List CmdOpt) : Prop := ∀ opt ∈ pSetOpt.dropLast, opt.isFormat = false

instance (pSetOpt : List CmdOpt) : Decidable (FormatLast pSetOpt) :=
  inferInstanceAs (Decidable (∀ opt ∈ pSetOpt.dropLast, opt.isFormat = false))

/-- A value that can be copied -/
def Copies (value : Option Text) : Prop := ∃ s, value = some s ∧ strlen s ≤ 16384000

/-- All that is copied from the options behind `n` architectures can be copied: the values of files
and formats, and those of the first architectures. The lists are not NULL. -/
structure CopiedFrom (n : ℕ) (pSetOpt : List CmdOpt) : Prop where
  archs : ∀ opt ∈ (pSetOpt.filter fun opt => opt.kind = some .arch).take (maxArchs - n),
    Copies opt.pszOptValue
  texts : ∀ opt ∈ pSetOpt, opt.kind = some .file ∨ opt.kind = some .qf → Copies opt.pszOptValue
  lists : ∀ opt ∈ pSetOpt, ∀ whatKey, opt.kind = some (.what whatKey) → opt.pszOptValue ≠ none

/-- The package and the options can be copied. -/
structure Copied (ppszCmds : List Text) (pSetOpt : List CmdOpt) : Prop where
  cmds : ppszCmds.length ≤ 2
  spec : ∀ spec, ppszCmds[1]? = some spec → strlen spec ≤ 16384000
  options : CopiedFrom 0 pSetOpt

/-! ## Writes of options -/

section Writes

/-- What an option writes into the arguments -/
inductive Change where
  | archs (archs : List Text)
  | file (file : Text)
  | flag (f : Flag)
  | format (format : Text)
  | key (depKey : ℕ)
  | list (whatKey : ℕ) (names : List Text)

/-- The options that write it -/
def Change.kind : Change → OptKind
  | .archs _ => .arch
  | .file _ => .file
  | .flag f => .flag f
  | .format _ => .qf
  | .key depKey => .dep depKey
  | .list whatKey _ => .what whatKey

def RepoqueryArgs.write (args : RepoqueryArgs) : Change → RepoqueryArgs
  | .archs archs => { args with ppszArchs := some archs }
  | .file file => { args with pszFile := some file }
  | .flag f => args.setFlag f
  | .format format => { args with pszQueryFormat := some format }
  | .key depKey => { args with depKeySet := args.depKeySet ||| 1 <<< depKey }
  | .list whatKey names =>
    { args with pppszWhatKeys := args.pppszWhatKeys.set whatKey (some names) }

/-- What the last option would write, unless it is rejected -/
def change (kind : OptKind) (value : Option Text) (args : RepoqueryArgs) : Option Change :=
  match kind with
  | .arch =>
    if (args.ppszArchs.getD []).length < maxArchs then
      (allocateValue value).toOption.map fun arch => .archs (args.ppszArchs.getD [] ++ [arch])
    else some (.archs (args.ppszArchs.getD []))
  | .file => (allocateValue value).toOption.map .file
  | .flag f => some (.flag f)
  | .qf => (allocateValue value).toOption.map .format
  | .dep depKey => if args.depKeySet.testBit depKey then none else some (.key depKey)
  | .what whatKey => value.map fun value => .list whatKey (splitStringToArray value ',')

variable {args : RepoqueryArgs} {value : Option Text} {k : OptKind} {c c' : Change}

theorem toOption_parseKind :
    (parseKind k value true args).toOption = (change k value args).map args.write := by
  cases k with
  | arch =>
      dsimp only [parseKind, change]
      split
      · cases allocateValue value <;> rfl
      · rfl
  | file =>
      dsimp only [parseKind, change]
      cases allocateValue value <;> rfl
  | flag f => rfl
  | qf =>
      dsimp only [parseKind, change]
      cases allocateValue value <;> rfl
  | dep depKey =>
      dsimp only [parseKind, change]
      split <;> rfl
  | what whatKey => cases value <;> rfl

theorem kind_of_change (h : change k value args = some c) : c.kind = k := by
  cases k with
  | arch =>
      rw [change] at h
      split at h
      · obtain ⟨arch, -, rfl⟩ := Option.map_eq_some_iff.mp h
        rfl
      · obtain rfl := Option.some.inj h
        rfl
  | file =>
      obtain ⟨file, -, rfl⟩ := Option.map_eq_some_iff.mp h
      rfl
  | flag f =>
      obtain rfl := Option.some.inj h
      rfl
  | qf =>
      obtain ⟨format, -, rfl⟩ := Option.map_eq_some_iff.mp h
      rfl
  | dep depKey =>
      obtain ⟨-, hc⟩ := Option.ite_none_left_eq_some.mp h
      obtain rfl := Option.some.inj hc
      rfl
  | what whatKey =>
      obtain ⟨names, -, rfl⟩ := Option.map_eq_some_iff.mp h
      rfl

/-- A write for other options is not read. -/
theorem change_write (h : c.kind ≠ k) : change k value (args.write c) = change k value args := by
  cases c with
  | archs archs =>
      cases k with
      | arch => exact absurd rfl h
      | _ => rfl
  | flag f => cases k <;> cases f <;> rfl
  | key depKey =>
      cases k with
      | dep depKey' =>
          have hne : depKey' ≠ depKey := fun heq => h (heq ▸ rfl)
          simp [change, RepoqueryArgs.write, Nat.one_shiftLeft, Nat.testBit_or,
            hne.symm]
      | _ => rfl
  | _ => cases k <;> rfl

theorem setFlag_comm (f g : Flag) : (args.setFlag f).setFlag g = (args.setFlag g).setFlag f := by
  cases f <;> cases g <;> rfl

theorem write_setFlag (f : Flag) : (args.setFlag f).write c = (args.write c).setFlag f := by
  cases c with
  | flag g => exact setFlag_comm f g
  | _ => cases f <;> rfl

/-- Writes for different options can be made in either order. -/
theorem write_comm (h : c.kind ≠ c'.kind) :
    (args.write c).write c' = (args.write c').write c := by
  cases c with
  | archs archs =>
    cases c' with
    | archs archs' => exact absurd rfl h
    | flag f => exact (write_setFlag f).symm
    | _ => rfl
  | file file =>
    cases c' with
    | file file => exact absurd rfl h
    | flag f => exact (write_setFlag f).symm
    | _ => rfl
  | flag f => exact write_setFlag f
  | format =>
    cases c' with
    | format => exact absurd rfl h
    | flag f => exact (write_setFlag f).symm
    | _ => rfl
  | key depKey =>
    cases c' with
    | key depKey' =>
        simp only [RepoqueryArgs.write, Nat.or_assoc, Nat.or_comm (1 <<< depKey)]
    | flag f => exact (write_setFlag f).symm
    | _ => rfl
  | list whatKey names =>
    cases c' with
    | list whatKey' names' =>
      have hne : whatKey ≠ whatKey' := fun heq => h (heq ▸ rfl)
      simp only [RepoqueryArgs.write, List.set_comm _ _ hne]
    | flag f => exact (write_setFlag f).symm
    | _ => rfl

end Writes

/-! ## Runs over the options -/

section Runs

variable {args : RepoqueryArgs} {value : Option Text} {k k' : OptKind} {opt : CmdOpt}
  {xs rest : List CmdOpt}

/-- An option that is taken as the last one -/
def accept (opt : CmdOpt) (args : RepoqueryArgs) : Option RepoqueryArgs :=
  (parseSetOpt opt true args).toOption

theorem accept_of_none (h : opt.kind = none) : accept opt args = some args := by
  rw [accept, parseSetOpt, h]
  rfl

theorem accept_of_some (h : opt.kind = some k) :
    accept opt args = (change k opt.pszOptValue args).map args.write := by
  rw [accept, parseSetOpt, h]
  exact toOption_parseKind

theorem mem_optKinds (h : opt.kind = some k) : (opt.key, k) ∈ optKinds := by
  obtain ⟨entry, hfind, rfl⟩ := Option.map_eq_some_iff.mp h
  have hequal := List.find?_some hfind
  have hname : opt.key = entry.1 := eq_of_beq hequal
  rw [hname]
  exact List.mem_of_find?_eq_some hfind

theorem optKinds_injective : ∀ e ∈ optKinds, ∀ e' ∈ optKinds, e.2 = e'.2 → e.1 = e'.1 := by
  decide +kernel

theorem kind_ne_of_key_ne {opt' : CmdOpt} (h : opt.key ≠ opt'.key) (hk : opt.kind = some k)
    (hk' : opt'.kind = some k') : k ≠ k' :=
  fun heq => h (optKinds_injective _ (mem_optKinds hk) _ (mem_optKinds hk') heq)

theorem accept_independent : Independent CmdOpt.key accept := by
  intro a b s hkey
  cases ha : a.kind with
  | none =>
      have hid : accept a = some := funext fun t => accept_of_none ha
      rw [hid, Option.bind_some, Option.bind_fun_some]
  | some k =>
      cases hb : b.kind with
      | none =>
          have hid : accept b = some := funext fun t => accept_of_none hb
          rw [hid, Option.bind_some, Option.bind_fun_some]
      | some k' =>
          have hne := kind_ne_of_key_ne hkey ha hb
          rw [accept_of_some ha, accept_of_some hb]
          cases hc : change k a.pszOptValue s with
          | none =>
              cases hc' : change k' b.pszOptValue s with
              | none => rfl
              | some c' =>
                  have hkind : c'.kind ≠ k := by
                    rw [kind_of_change hc']
                    exact hne.symm
                  simp only [Option.map_none, Option.map_some, Option.bind_none, Option.bind_some,
                    accept_of_some ha, change_write hkind, hc]
          | some c =>
              have hkind : c.kind ≠ k' := by
                rw [kind_of_change hc]
                exact hne
              cases hc' : change k' b.pszOptValue s with
              | none =>
                  simp only [Option.map_none, Option.map_some, Option.bind_none, Option.bind_some,
                    accept_of_some hb, change_write hkind, hc']
              | some c' =>
                  have hkind' : c'.kind ≠ k := by
                    rw [kind_of_change hc']
                    exact hne.symm
                  have hwrites : c.kind ≠ c'.kind := by
                    rw [kind_of_change hc, kind_of_change hc']
                    exact hne
                  simp only [Option.map_some, Option.bind_some, accept_of_some ha,
                    accept_of_some hb, change_write hkind, change_write hkind', hc, hc']
                  rw [write_comm hwrites]

theorem parseSetOpt_of_not_format (h : opt.isFormat = false) (last : Bool) :
    parseSetOpt opt last args = parseSetOpt opt true args := by
  rw [parseSetOpt, parseSetOpt]
  cases hk : opt.kind with
  | none => rfl
  | some k =>
      cases k with
      | qf => simp [CmdOpt.isFormat, hk] at h
      | dep depKey => simp [CmdOpt.isFormat, hk] at h
      | _ => rfl

theorem formatLast_cons : FormatLast (opt :: rest) ↔
    (rest ≠ [] → opt.isFormat = false) ∧ FormatLast rest := by
  cases rest with
  | nil => simp [FormatLast]
  | cons next rest =>
      rw [FormatLast, List.dropLast_cons_cons, List.forall_mem_cons]
      exact and_congr_left fun _ => ⟨fun h _ => h, fun h => h (List.cons_ne_nil _ _)⟩

/-- Where formats stand at the end, the loop accepts each option as if it was the last one. -/
theorem parseSetOpts_of_formatLast (h : FormatLast xs) :
    (parseSetOpts xs args).toOption = run accept xs args := by
  induction xs generalizing args with
  | nil => rfl
  | cons opt rest ih =>
      obtain ⟨hopt, hrest⟩ := formatLast_cons.mp h
      have hfirst : parseSetOpt opt rest.isEmpty args = parseSetOpt opt true args := by
        cases rest with
        | nil => rfl
        | cons next rest => exact parseSetOpt_of_not_format (hopt (List.cons_ne_nil _ _)) _
      rw [parseSetOpts, hfirst, run, accept]
      cases parseSetOpt opt true args with
      | error e => rfl
      | ok s => exact ih hrest

/-- A format that stands before another option is rejected. -/
theorem parseSetOpts_of_not_formatLast (h : ¬ FormatLast xs) :
    (parseSetOpts xs args).toOption = none := by
  induction xs generalizing args with
  | nil => exact absurd (fun opt hopt => by cases hopt) h
  | cons opt rest ih =>
      rw [parseSetOpts]
      cases hopt : parseSetOpt opt rest.isEmpty args with
      | error e => rfl
      | ok s =>
          refine ih fun hrest => h (formatLast_cons.mpr ⟨fun hne => ?_, hrest⟩)
          have hmore : rest.isEmpty = false := by simpa using hne
          rw [hmore, parseSetOpt] at hopt
          rw [CmdOpt.isFormat]
          cases hk : opt.kind with
          | none => rfl
          | some k =>
              rw [hk] at hopt
              cases k with
              | qf => cases hopt
              | dep depKey =>
                  dsimp only [parseKind] at hopt
                  split at hopt
                  · cases hopt
                  · cases hopt
              | _ => rfl

/-! ### What is copied -/

theorem copies_iff : Copies value ↔ (allocateValue value).toOption.isSome := by
  cases value with
  | none => simp [Copies, allocateValue, Except.toOption]
  | some s =>
      rw [allocateValue, allocateString]
      by_cases hlong : 16384000 < strlen s
      · rw [if_pos hlong]
        simpa [Copies, Except.mapError, Except.toOption] using hlong
      · rw [if_neg hlong]
        simpa [Copies, Except.mapError, Except.toOption] using hlong

theorem copiedFrom_full {n : ℕ} (h : maxArchs ≤ n) :
    CopiedFrom (n + 1) xs ↔ CopiedFrom n xs := by
  have htake : maxArchs - (n + 1) = maxArchs - n := by omega
  constructor
  · rintro ⟨harchs, htexts, hlists⟩
    exact ⟨htake ▸ harchs, htexts, hlists⟩
  · rintro ⟨harchs, htexts, hlists⟩
    exact ⟨htake ▸ harchs, htexts, hlists⟩

theorem copiedFrom_arch {n : ℕ} (hk : opt.kind = some .arch) :
    CopiedFrom n (opt :: rest) ↔
      (n < maxArchs → Copies opt.pszOptValue) ∧ CopiedFrom (n + 1) rest := by
  have htexts : ¬ (opt.kind = some .file ∨ opt.kind = some .qf) := by simp [hk]
  have hlists (whatKey : ℕ) : opt.kind ≠ some (.what whatKey) := by simp [hk]
  have harchs : (∀ o ∈ ((opt :: rest).filter fun o => o.kind = some .arch).take (maxArchs - n),
      Copies o.pszOptValue) ↔ (n < maxArchs → Copies opt.pszOptValue) ∧
        ∀ o ∈ (rest.filter fun o => o.kind = some .arch).take (maxArchs - (n + 1)),
          Copies o.pszOptValue := by
    rw [List.filter_cons_of_pos (by simpa using hk)]
    by_cases hn : n < maxArchs
    · obtain ⟨m, hm⟩ : ∃ m, maxArchs - n = m + 1 := ⟨maxArchs - n - 1, by omega⟩
      have hm' : maxArchs - (n + 1) = m := by omega
      rw [hm, hm', List.take_succ_cons, List.forall_mem_cons]
      exact and_congr_left fun _ => ⟨fun h _ => h, fun h => h hn⟩
    · have hzero : maxArchs - n = 0 := by omega
      have hzero' : maxArchs - (n + 1) = 0 := by omega
      simp [hn, hzero, hzero']
  constructor
  · rintro ⟨ha, ht, hl⟩
    obtain ⟨hfirst, hrest⟩ := harchs.mp ha
    exact ⟨hfirst, hrest, (List.forall_mem_cons.mp ht).2, (List.forall_mem_cons.mp hl).2⟩
  · rintro ⟨hfirst, ha, ht, hl⟩
    refine ⟨harchs.mpr ⟨hfirst, ha⟩, List.forall_mem_cons.mpr ⟨fun h => absurd h htexts, ht⟩,
      List.forall_mem_cons.mpr ⟨fun whatKey h => absurd h (hlists whatKey), hl⟩⟩

theorem copiedFrom_other {n : ℕ} (hk : opt.kind ≠ some .arch) :
    CopiedFrom n (opt :: rest) ↔
      (opt.kind = some .file ∨ opt.kind = some .qf → Copies opt.pszOptValue) ∧
        (∀ whatKey, opt.kind = some (.what whatKey) → opt.pszOptValue ≠ none) ∧
          CopiedFrom n rest := by
  have hfilter : (opt :: rest).filter (fun o => o.kind = some .arch) =
      rest.filter fun o => o.kind = some .arch :=
    List.filter_cons_of_neg (by simpa using hk)
  constructor
  · rintro ⟨ha, ht, hl⟩
    rw [hfilter] at ha
    obtain ⟨htext, ht⟩ := List.forall_mem_cons.mp ht
    obtain ⟨hlist, hl⟩ := List.forall_mem_cons.mp hl
    exact ⟨htext, hlist, ha, ht, hl⟩
  · rintro ⟨htext, hlist, ha, ht, hl⟩
    refine ⟨?_, List.forall_mem_cons.mpr ⟨htext, ht⟩, List.forall_mem_cons.mpr ⟨hlist, hl⟩⟩
    rw [hfilter]
    exact ha

@[simp] theorem setFlag_depKeySet (f : Flag) : (args.setFlag f).depKeySet = args.depKeySet := by
  cases f <;> rfl

@[simp] theorem setFlag_ppszArchs (f : Flag) : (args.setFlag f).ppszArchs = args.ppszArchs := by
  cases f <;> rfl

/-- The options are accepted exactly where all that is copied can be copied. -/
theorem run_accept_isSome_iff (h : FormatLast xs) (hkeys : args.depKeySet = 0) :
    (run accept xs args).isSome ↔ CopiedFrom (args.ppszArchs.getD []).length xs := by
  induction xs generalizing args with
  | nil =>
      refine iff_of_true rfl ⟨?_, ?_, ?_⟩ <;> intro o ho <;> simp at ho
  | cons opt rest ih =>
      obtain ⟨hopt, hrest⟩ := formatLast_cons.mp h
      rw [run]
      cases hk : opt.kind with
      | none =>
          rw [accept_of_none hk, Option.bind_some, ih hrest hkeys, copiedFrom_other (by simp [hk])]
          simp [hk]
      | some k =>
          rw [accept_of_some hk]
          cases k with
          | arch =>
              rw [copiedFrom_arch hk, change]
              by_cases hn : (args.ppszArchs.getD []).length < maxArchs
              · rw [if_pos hn, copies_iff]
                cases allocateValue opt.pszOptValue with
                | error e => simp [Except.toOption, hn]
                | ok arch =>
                    have hmore := @ih (args.write (.archs (args.ppszArchs.getD [] ++ [arch])))
                      hrest hkeys
                    simpa [Except.toOption, hn, RepoqueryArgs.write] using hmore
              · rw [if_neg hn, copiedFrom_full (by omega)]
                have hmore := @ih (args.write (.archs (args.ppszArchs.getD []))) hrest hkeys
                simpa [hn, RepoqueryArgs.write] using hmore
          | file =>
              rw [copiedFrom_other (by simp [hk]), copies_iff, change]
              cases allocateValue opt.pszOptValue with
              | error e => simp [Except.toOption, hk]
              | ok file =>
                  have hmore := @ih (args.write (.file file)) hrest hkeys
                  simpa [Except.toOption, hk, RepoqueryArgs.write] using hmore
          | flag f =>
              have hmore := @ih (args.setFlag f) hrest (by rw [setFlag_depKeySet, hkeys])
              rw [copiedFrom_other (by simp [hk])]
              simpa [change, hk, RepoqueryArgs.write] using hmore
          | qf =>
              rw [copiedFrom_other (by simp [hk]), copies_iff, change]
              cases allocateValue opt.pszOptValue with
              | error e => simp [Except.toOption, hk]
              | ok format =>
                  have hmore := @ih (args.write (.format format)) hrest hkeys
                  simpa [Except.toOption, hk, RepoqueryArgs.write] using hmore
          | dep depKey =>
              -- nothing follows, and no key was set before
              have hlast : rest = [] := by
                by_contra hne
                simpa [CmdOpt.isFormat, hk] using hopt hne
              subst hlast
              have hnone : CopiedFrom (args.ppszArchs.getD []).length [] := by
                refine ⟨?_, ?_, ?_⟩ <;> intro o ho <;> simp at ho
              rw [copiedFrom_other (by simp [hk])]
              simp [change, hkeys, hk, run, hnone]
          | what whatKey =>
              rw [copiedFrom_other (by simp [hk]), change]
              cases hvalue : opt.pszOptValue with
              | none => simp [hk]
              | some value =>
                  have hmore := @ih (args.write (.list whatKey (splitStringToArray value ',')))
                    hrest hkeys
                  simpa [hk, RepoqueryArgs.write] using hmore

end Runs

/-! ## The outcome -/

section Outcomes

variable {ppszCmds : List Text} {xs ys : List CmdOpt}

theorem toOption_parseRepoQueryArgs :
    (parseRepoQueryArgs ppszCmds xs).toOption =
      (parseSetOpts xs noArgs).toOption.bind fun args => (parseSpec ppszCmds args).toOption := by
  rw [parseRepoQueryArgs]
  cases parseSetOpts xs noArgs <;> rfl

theorem parseSpec_isSome_iff (args : RepoqueryArgs) :
    (parseSpec ppszCmds args).toOption.isSome ↔
      ppszCmds.length ≤ 2 ∧ ∀ spec, ppszCmds[1]? = some spec → strlen spec ≤ 16384000 := by
  rw [parseSpec]
  by_cases hmany : 2 < ppszCmds.length
  · rw [if_pos hmany]
    exact iff_of_false Bool.false_ne_true fun h => by omega
  · rw [if_neg hmany]
    cases hspec : ppszCmds[1]? with
    | none => simpa [Except.toOption, pure, Except.pure] using hmany
    | some spec =>
        have hcopies : (allocateString spec).toOption.isSome ↔ strlen spec ≤ 16384000 := by
          rw [allocateString]
          by_cases hlong : 16384000 < strlen spec
          · rw [if_pos hlong]
            exact iff_of_false Bool.false_ne_true (by omega)
          · rw [if_neg hlong]
            exact iff_of_true rfl (by omega)
        simp only [Option.some.injEq, forall_eq', ← hcopies]
        cases allocateString spec with
        | error e => exact iff_of_false Bool.false_ne_true fun h => Bool.false_ne_true h.2
        | ok spec => exact iff_of_true rfl ⟨by omega, rfl⟩

/-- The parser accepts the options exactly where formats stand at the end and all can be copied. -/
theorem accepts_iff :
    (parseRepoQueryArgs ppszCmds xs).toOption.isSome ↔ FormatLast xs ∧ Copied ppszCmds xs := by
  rw [toOption_parseRepoQueryArgs]
  by_cases hlast : FormatLast xs
  · have hrun : (run accept xs noArgs).isSome ↔ CopiedFrom 0 xs :=
      run_accept_isSome_iff hlast rfl
    rw [parseSetOpts_of_formatLast hlast]
    cases hargs : run accept xs noArgs with
    | none =>
        rw [hargs] at hrun
        refine iff_of_false (by simp) fun h => ?_
        exact Bool.false_ne_true (hrun.mpr h.2.options)
    | some args =>
        rw [hargs] at hrun
        rw [Option.bind_some, parseSpec_isSome_iff]
        constructor
        · rintro ⟨hcmds, hspec⟩
          exact ⟨hlast, hcmds, hspec, hrun.mp rfl⟩
        · rintro ⟨-, hcmds, hspec, -⟩
          exact ⟨hcmds, hspec⟩
  · rw [parseSetOpts_of_not_formatLast hlast]
    exact iff_of_false (by simp) fun h => hlast h.1

theorem sameOutcome_iff_toOption : SameOutcome ppszCmds xs ys ↔
    (parseRepoQueryArgs ppszCmds xs).toOption = (parseRepoQueryArgs ppszCmds ys).toOption := by
  rw [SameOutcome]
  cases parseRepoQueryArgs ppszCmds xs <;> cases parseRepoQueryArgs ppszCmds ys <;>
    simp [Except.toOption, eq_comm]

theorem kind_eq_arch_iff {opt : CmdOpt} : opt.kind = some .arch ↔ opt.key = "arch".toList := by
  constructor
  · intro h
    exact optKinds_injective _ (mem_optKinds h) ("arch".toList, .arch) (by decide) rfl
  · intro h
    have hkey : opt.kind = (optKinds.find? fun entry => opt.key == entry.1).map (·.2) := rfl
    rw [hkey, h]
    rfl

theorem copied_of_rearranges (h : Rearranges CmdOpt.key xs ys) (hcopied : Copied ppszCmds xs) :
    Copied ppszCmds ys := by
  obtain ⟨hcmds, hspec, harchs, htexts, hlists⟩ := hcopied
  have hmem (opt : CmdOpt) (hopt : opt ∈ ys) : opt ∈ xs := h.perm.mem_iff.mpr hopt
  refine ⟨hcmds, hspec, ?_, fun opt hopt => htexts opt (hmem opt hopt),
    fun opt hopt => hlists opt (hmem opt hopt)⟩
  have hfilter := h "arch".toList
  simp only [kind_eq_arch_iff] at harchs ⊢
  rw [← hfilter]
  exact harchs

end Outcomes

/-- Two orders of the options have the same outcome exactly where something cannot be copied, or a
format stands before another option in both or in none of them. -/
theorem sameOutcome_iff {ppszCmds : List Text} {xs ys : List CmdOpt}
    (h : Rearranges CmdOpt.key xs ys) :
    SameOutcome ppszCmds xs ys ↔ ¬ Copied ppszCmds xs ∨ (FormatLast xs ↔ FormatLast ys) := by
  have hcopied : Copied ppszCmds xs ↔ Copied ppszCmds ys :=
    ⟨copied_of_rearranges h, copied_of_rearranges h.symm⟩
  have hxs : (parseRepoQueryArgs ppszCmds xs).toOption.isSome ↔ _ := accepts_iff
  have hys : (parseRepoQueryArgs ppszCmds ys).toOption.isSome ↔ _ := accepts_iff
  rw [← hcopied] at hys
  rw [sameOutcome_iff_toOption]
  constructor
  · intro hsame
    rw [hsame, hys] at hxs
    by_cases hall : Copied ppszCmds xs
    · exact .inr ⟨fun hlast => (hxs.mpr ⟨hlast, hall⟩).1, fun hlast => (hxs.mp ⟨hlast, hall⟩).1⟩
    · exact .inl hall
  · intro hcond
    by_cases hboth : FormatLast xs ∧ FormatLast ys
    · rw [toOption_parseRepoQueryArgs, toOption_parseRepoQueryArgs,
        parseSetOpts_of_formatLast hboth.1, parseSetOpts_of_formatLast hboth.2,
        run_eq_of_rearranges accept_independent h]
    · -- both are rejected
      have hnone : ¬ (FormatLast xs ∧ Copied ppszCmds xs) ∧
          ¬ (FormatLast ys ∧ Copied ppszCmds xs) := by
        tauto
      rw [← hxs, ← hys, Option.not_isSome_iff_eq_none, Option.not_isSome_iff_eq_none] at hnone
      rw [hnone.1, hnone.2]

/-- The installed packages in a format of their own -/
def formatInstalled : List CmdOpt :=
  [⟨"qf".toList, some "name".toList⟩, ⟨"installed".toList, some "1".toList⟩]

theorem rearranges_formatInstalled :
    Rearranges CmdOpt.key formatInstalled formatInstalled.reverse :=
  rearranges_swap (by decide)

theorem sameOutcome_archs :
    SameOutcome ["repoquery".toList]
      [⟨"arch".toList, some "noarch".toList⟩, ⟨"list".toList, some "1".toList⟩]
      [⟨"list".toList, some "1".toList⟩, ⟨"arch".toList, some "noarch".toList⟩] := by
  refine (sameOutcome_iff (rearranges_swap (by decide))).mpr (.inr (iff_of_true ?_ ?_))
  · decide +kernel
  · decide +kernel

/-- With the format at the end the options are accepted, with the format first they are not. -/
theorem format_before_installed_rejected :
    Rearranges CmdOpt.key formatInstalled formatInstalled.reverse ∧
      ¬ SameOutcome ["repoquery".toList] formatInstalled formatInstalled.reverse := by
  refine ⟨rearranges_formatInstalled, ?_⟩
  rw [sameOutcome_iff_toOption]
  decide +kernel

end Tdnf.Cli
