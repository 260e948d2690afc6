import Tdnf.Common.SetOpt
import Tdnf.Library.BitMap
import Tdnf.Solv.Sack
import Mathlib.Data.Option.Basic

/-!
# Excluded packages and minimal versions

Before the solver runs, packages are taken out of its sight: those whose names
match an exclude of the configuration or of the command line, and those below
the minimal version given for their name. Two functions collect the packages
in maps of their own and take them from the map of the pool, which either of
them may have to create.
-/

namespace Tdnf.Client

open PathText Common Solv BitMap
open Common.SetOpt (allocateString_eq_ok_iff)

namespace Considered

/-- What the C library and libsolv decide about names and versions. -/
structure NameHost where
  /-- `fnmatch`, of a pattern and a name -/
  fnmatch : Text → Text → Bool
  /-- `pool_evrcmp_str`, with `EVRCMP_COMPARE` -/
  evrcmp : Text → Text → ℤ

/-- The fields of `TDNF_CONF` in use here; arrays may be NULL. -/
structure Conf where
  ppszExcludes : Option (List Text)
  ppszMinVersions : Option (List Text)

/-- The fields of `TDNF_CMD_ARGS` in use here. -/
structure CmdArgs where
  nDisableExcludes : Bool
  pSetOpt : List SetOpt.CmdOpt

/-- The kinds of search in use. -/
inductive SearchFlags where
  | string
  | glob
deriving DecidableEq, Repr

/-- `TDNFAllocateString` of a text that may be NULL -/
def allocatePresent : Option Text → Except TdnfError Text
  | none => .error .invalidParameter
  | some pszSrc => allocateString pszSrc

/-- The configured excludes, unless they are disabled. -/
def confExcludes (conf : Conf) (args : CmdArgs) : List Text :=
  if args.nDisableExcludes then [] else conf.ppszExcludes.getD []

/-- The options that exclude packages. -/
def excludeOpts (args : CmdArgs) : List SetOpt.CmdOpt :=
  args.pSetOpt.filter fun pSetOpt => equalsCase pSetOpt.pszOptName "exclude".toList

/-- `TDNFPkgsToExclude`. The configured excludes are counted twice, once for the size of the
array and once when they are copied. -/
def pkgsToExclude (conf : Conf) (args : CmdArgs) :
    Except TdnfError (ℕ × Option (List Text)) :=
  let dwCount := (confExcludes conf args).length + (excludeOpts args).length
  if 0 < dwCount then do
    let fromConf ← (confExcludes conf args).mapM allocateString
    let fromOpts ← (excludeOpts args).mapM fun pSetOpt => allocatePresent pSetOpt.pszOptValue
    return (dwCount + (confExcludes conf args).length, some (fromConf ++ fromOpts))
  else .ok (dwCount, none)

section Code

variable (host : NameHost) (sack : Sack)

/-- What a search by name compares. -/
def datamatch (flags : SearchFlags) (pattern name : Text) : Bool :=
  match flags with
  | .string => name == pattern
  | .glob => host.fnmatch pattern name

/-- The solvables over which a data iterator on `SOLVABLE_NAME` steps. -/
def dataiterator (flags : SearchFlags) (pattern : Text) : List ℕ :=
  sack.ids.filter fun p => datamatch host flags pattern (sack.solvable p).name

/-- The flags that `SolvDataIterator` searches with. -/
def searchFlags (pszPkg : Text) : SearchFlags := if isGlob pszPkg then .glob else .string

/-- `SolvDataIterator` -/
def solvDataIterator (ppszExcludes : List Text) (pMap : Map) : Map :=
  ppszExcludes.foldl (fun pMap pszPkg =>
    (dataiterator host sack (searchFlags pszPkg) pszPkg).foldl Map.set pMap) pMap

/-- `SolvAddExcludes`; a pool without a map gets one in which everything is considered -/
def solvAddExcludes (ppszExcludes : List Text) (considered : Option Map) : Option Map :=
  let pExcludes := solvDataIterator host sack ppszExcludes .none
  some ((considered.getD .all).subtract pExcludes)

/-- The call of `SolvAddExcludes` in `TDNFSolv`. -/
def addExcludes (dwExcludeCount : ℕ) (ppszExcludes : Option (List Text))
    (considered : Option Map) : Option Map :=
  match ppszExcludes with
  | none => considered
  | some ppszExcludes =>
      if dwExcludeCount = 0 then considered
      else solvAddExcludes host sack ppszExcludes considered

/-- What `TDNFSolvAddMinVersions` does with the parts of an entry; without a version it does
nothing. -/
def addMinVersionTokens (ppszTokens : List Text) (pMapMinVersions : Map) : Map :=
  match ppszTokens with
  | pszName :: pszEvr :: _ =>
      (dataiterator host sack .string pszName).foldl (fun pMap p =>
        if decide (host.evrcmp (sack.solvable p).evr pszEvr < 0) then pMap.set p else pMap)
        pMapMinVersions
  | _ => pMapMinVersions

/-- The round of `TDNFSolvAddMinVersions` for one entry. -/
def addMinVersion (pMapMinVersions : Map) (pszPkg : Text) : Except TdnfError Map := do
  let pszTmp ← allocateString pszPkg
  return addMinVersionTokens host sack (splitStringToArray pszTmp '=') pMapMinVersions

/-- `TDNFSolvAddMinVersions` -/
def solvAddMinVersions (conf : Conf) (considered : Option Map) : Except TdnfError (Option Map) :=
  match conf.ppszMinVersions with
  | none => .ok considered
  | some ppszPackages => do
      let pMapMinVersions ← ppszPackages.foldlM (addMinVersion host sack) .none
      return some ((considered.getD .all).subtract pMapMinVersions)

/-- The two functions that take packages from the map. -/
inductive Step where
  | excludes
  | minVersions
deriving DecidableEq, Repr

/-- `TDNFPkgsToExclude` and the two functions, of which either may run first. -/
def hidePackages (first : Step) (conf : Conf) (args : CmdArgs) (considered : Option Map) :
    Except TdnfError (Option Map) := do
  let excludes ← pkgsToExclude conf args
  match first with
  | .excludes =>
      solvAddMinVersions host sack conf (addExcludes host sack excludes.1 excludes.2 considered)
  | .minVersions =>
      return addExcludes host sack excludes.1 excludes.2
        (← solvAddMinVersions host sack conf considered)

end Code

/-! ## What is to be hidden -/

/-- A minimal version for a name; neither has a `=`. -/
structure MinVersion where
  name : Text
  evr : Text
  name_ne : name ≠ []
  evr_ne : evr ≠ []
  name_plain : '=' ∉ name
  evr_plain : '=' ∉ evr

/-- The entry of the configuration. -/
def MinVersion.text (v : MinVersion) : Text := v.name ++ '=' :: v.evr

/-- The bit of a solvable is clear; without a map everything is considered. -/
def Clear (considered : Option Map) (p : ℕ) : Prop := ∃ m, considered = some m ∧ m p = false

/-- The excludes that are in effect. -/
def EffectiveExclude (conf : Conf) (args : CmdArgs) (x : Text) : Prop :=
  (args.nDisableExcludes = false ∧ ∃ xs, conf.ppszExcludes = some xs ∧ x ∈ xs) ∨
    ∃ o ∈ args.pSetOpt, equalsCase o.pszOptName "exclude".toList = true ∧ o.pszOptValue = some x

/-- A name matches an exclude literally, or by glob if the exclude is a glob. -/
def Matches (host : NameHost) (x name : Text) : Prop :=
  if isGlob x then host.fnmatch x name = true else name = x

instance (host : NameHost) (x name : Text) : Decidable (Matches host x name) :=
  inferInstanceAs (Decidable (if isGlob x then host.fnmatch x name = true else name = x))

/-! ## The maps that the two functions collect -/

/-- Take the collected packages, if there is a collection, from the map of the pool. -/
def take (hidden considered : Option Map) : Option Map :=
  match hidden with
  | none => considered
  | some s => some ((considered.getD .all).subtract s)

/-- What is taken away is clear afterwards. -/
theorem clear_take_iff (hidden considered : Option Map) (p : ℕ) :
    Clear (take hidden considered) p ↔
      Clear considered p ∨ ∃ s, hidden = some s ∧ s p = true := by
  cases hidden with
  | none => simp [take]
  | some s =>
      cases considered with
      | none => simp [take, Clear, Map.subtract, Map.all]
      | some m =>
          cases hm : m p with
          | false => simp [take, Clear, Map.subtract, hm]
          | true => simp [take, Clear, Map.subtract, hm]

/-- It makes no difference what is taken away first. -/
theorem take_comm (hidden hidden' considered : Option Map) :
    take hidden (take hidden' considered) = take hidden' (take hidden considered) := by
  cases hidden with
  | none => rfl
  | some s =>
      cases hidden' with
      | none => rfl
      | some s' =>
          simp only [take, Option.getD_some, subtract_subtract, Bool.or_comm]

section Maps

variable (host : NameHost) (sack : Sack)

/-- The solvables that an exclude finds. -/
def excludeMap (x : Text) : Map := fun p =>
  (dataiterator host sack (searchFlags x) x).contains p

/-- The solvables of a name that are below a version. -/
def belowMap (pszName pszEvr : Text) : Map := fun p =>
  (dataiterator host sack .string pszName).contains p &&
    decide (host.evrcmp (sack.solvable p).evr pszEvr < 0)

/-- The solvables that are below the minimal version of an entry. -/
def minVersionMap (entry : Text) : Map :=
  match splitStringToArray entry '=' with
  | pszName :: pszEvr :: _ => belowMap host sack pszName pszEvr
  | _ => .none

theorem solvDataIterator_eq (xs : List Text) (m : Map) :
    solvDataIterator host sack xs m = fun p => m p || xs.any fun x => excludeMap host sack x p := by
  apply foldl_adds
  intro m x
  have hset := foldl_set (fun _ => true) (dataiterator host sack (searchFlags x) x) m
  simpa [excludeMap] using hset

theorem addMinVersionTokens_eq (entry : Text) (m : Map) :
    addMinVersionTokens host sack (splitStringToArray entry '=') m =
      fun p => m p || minVersionMap host sack entry p := by
  rw [minVersionMap]
  cases splitStringToArray entry '=' with
  | nil => simp [addMinVersionTokens, Map.none]
  | cons pszName rest =>
      cases rest with
      | nil => simp [addMinVersionTokens, Map.none]
      | cons pszEvr rest => exact foldl_set _ _ _

theorem addMinVersion_eq_ok_iff (m : Map) (entry : Text) (m' : Map) :
    addMinVersion host sack m entry = .ok m' ↔
      SetOpt.Fits entry ∧ m' = fun p => m p || minVersionMap host sack entry p := by
  rw [addMinVersion, ← addMinVersionTokens_eq]
  constructor
  · intro h
    obtain ⟨pszTmp, hcopy, hround⟩ := Procedure.exists_of_bind_ok h
    obtain ⟨hfits, rfl⟩ := allocateString_eq_ok_iff.mp hcopy
    exact ⟨hfits, (Except.ok.inj hround).symm⟩
  · rintro ⟨hfits, rfl⟩
    rw [SetOpt.allocateString_of_fits hfits]
    rfl

/-- The map of all entries of the configuration, if there are any. -/
def versionsMap (conf : Conf) : Option Map :=
  conf.ppszMinVersions.map fun entries p => entries.any fun x => minVersionMap host sack x p

theorem solvAddMinVersions_eq_ok_iff (conf : Conf) (considered after : Option Map) :
    solvAddMinVersions host sack conf considered = .ok after ↔
      (∀ entries ∈ conf.ppszMinVersions, ∀ x ∈ entries, SetOpt.Fits x) ∧
        after = take (versionsMap host sack conf) considered := by
  rw [solvAddMinVersions, versionsMap]
  cases conf.ppszMinVersions with
  | none => simp [take, eq_comm]
  | some entries =>
      have hloop (m : Map) : entries.foldlM (addMinVersion host sack) .none = .ok m ↔
          (∀ x ∈ entries, SetOpt.Fits x) ∧
            m = entries.foldl (fun m x p => m p || minVersionMap host sack x p) Map.none :=
        Procedure.foldlM_eq_ok_iff (addMinVersion_eq_ok_iff host sack)
      rw [foldl_adds fun _ _ => rfl] at hloop
      constructor
      · intro h
        obtain ⟨m, hm, h⟩ := Procedure.exists_of_bind_ok h
        obtain ⟨hfits, rfl⟩ := (hloop m).mp hm
        cases h
        exact ⟨by simpa using hfits, rfl⟩
      · rintro ⟨hfits, rfl⟩
        change (entries.foldlM (addMinVersion host sack) Map.none >>= _) = _
        rw [(hloop _).mpr ⟨by simpa using hfits, rfl⟩]
        rfl

/-- The excludes that are searched for. -/
def excludeList (conf : Conf) (args : CmdArgs) : List Text :=
  confExcludes conf args ++ (excludeOpts args).map fun o => o.pszOptValue.getD []

/-- The map of all excludes, if there are any. -/
def excludesMap (conf : Conf) (args : CmdArgs) : Option Map :=
  if excludeList conf args = [] then none
  else some fun p => (excludeList conf args).any fun x => excludeMap host sack x p

/-- All texts that are copied have a length that can be copied, and no exclude is NULL. -/
structure CanCopy (conf : Conf) (args : CmdArgs) : Prop where
  fromConf : ∀ x ∈ confExcludes conf args, SetOpt.Fits x
  fromOpts : ∀ o ∈ excludeOpts args, ∃ x, o.pszOptValue = some x ∧ SetOpt.Fits x
  versions : ∀ entries ∈ conf.ppszMinVersions, ∀ x ∈ entries, SetOpt.Fits x

theorem allocatePresent_eq_ok_iff (o : SetOpt.CmdOpt) (x : Text) :
    allocatePresent o.pszOptValue = .ok x ↔
      (∃ y, o.pszOptValue = some y ∧ SetOpt.Fits y) ∧ x = o.pszOptValue.getD [] := by
  cases o.pszOptValue with
  | none => simp [allocatePresent]
  | some y => simp [allocatePresent, allocateString_eq_ok_iff]

/-- The array is the list of all excludes, or NULL. -/
theorem pkgsToExclude_eq_ok_iff (conf : Conf) (args : CmdArgs)
    (r : ℕ × Option (List Text)) :
    pkgsToExclude conf args = .ok r ↔
      ((∀ x ∈ confExcludes conf args, SetOpt.Fits x) ∧
        ∀ o ∈ excludeOpts args, ∃ x, o.pszOptValue = some x ∧ SetOpt.Fits x) ∧
      r = if excludeList conf args = [] then (0, none)
        else ((confExcludes conf args).length + (excludeOpts args).length +
          (confExcludes conf args).length, some (excludeList conf args)) := by
  have hconf (l : List Text) : (confExcludes conf args).mapM allocateString = .ok l ↔
      (∀ x ∈ confExcludes conf args, SetOpt.Fits x) ∧ l = (confExcludes conf args).map id :=
    Procedure.mapM_eq_ok_iff fun _ _ => allocateString_eq_ok_iff
  have hopts (l : List Text) :
      (excludeOpts args).mapM (fun o => allocatePresent o.pszOptValue) = .ok l ↔
        (∀ o ∈ excludeOpts args, ∃ x, o.pszOptValue = some x ∧ SetOpt.Fits x) ∧
          l = (excludeOpts args).map fun o => o.pszOptValue.getD [] :=
    Procedure.mapM_eq_ok_iff allocatePresent_eq_ok_iff
  rw [List.map_id] at hconf
  rw [pkgsToExclude, excludeList]
  by_cases hempty : confExcludes conf args = [] ∧ excludeOpts args = []
  · simp [hempty, eq_comm]
  · have hcount : 0 < (confExcludes conf args).length + (excludeOpts args).length := by
      by_contra hzero
      exact hempty (by simpa using hzero)
    rw [if_pos hcount, if_neg (by simpa using hempty)]
    constructor
    · intro h
      obtain ⟨fromConf, hfrom, h⟩ := Procedure.exists_of_bind_ok h
      obtain ⟨fromOpts, hfrom', h⟩ := Procedure.exists_of_bind_ok h
      obtain ⟨hfits, rfl⟩ := (hconf fromConf).mp hfrom
      obtain ⟨hfits', rfl⟩ := (hopts fromOpts).mp hfrom'
      cases h
      exact ⟨⟨hfits, hfits'⟩, rfl⟩
    · rintro ⟨⟨hfits, hfits'⟩, rfl⟩
      rw [(hconf _).mpr ⟨hfits, rfl⟩, (hopts _).mpr ⟨hfits', rfl⟩]
      rfl

theorem addExcludes_eq (conf : Conf) (args : CmdArgs) (considered : Option Map)
    {r : ℕ × Option (List Text)} (h : pkgsToExclude conf args = .ok r) :
    addExcludes host sack r.1 r.2 considered =
      take (excludesMap host sack conf args) considered := by
  obtain ⟨-, rfl⟩ := (pkgsToExclude_eq_ok_iff conf args r).mp h
  rw [excludesMap]
  split_ifs with hempty
  · rfl
  · have hcount : (confExcludes conf args).length + (excludeOpts args).length +
        (confExcludes conf args).length ≠ 0 := by
      intro hzero
      apply hempty
      rw [excludeList, List.append_eq_nil_iff, List.map_eq_nil_iff]
      exact ⟨List.eq_nil_of_length_eq_zero (by omega), List.eq_nil_of_length_eq_zero (by omega)⟩
    rw [addExcludes, if_neg hcount, solvAddExcludes, solvDataIterator_eq]
    rfl

/-- The functions succeed when everything can be copied, and take the excluded packages and
those below their minimal versions. -/
theorem hidePackages_eq_ok_iff (first : Step) (conf : Conf) (args : CmdArgs)
    (considered after : Option Map) :
    hidePackages host sack first conf args considered = .ok after ↔
      CanCopy conf args ∧
        after = take (versionsMap host sack conf)
          (take (excludesMap host sack conf args) considered) := by
  rw [hidePackages]
  cases hexcludes : pkgsToExclude conf args with
  | error e =>
      constructor
      · intro h
        cases h
      · rintro ⟨hcopy, -⟩
        have hok := (pkgsToExclude_eq_ok_iff conf args _).mpr
          ⟨⟨hcopy.fromConf, hcopy.fromOpts⟩, rfl⟩
        rw [hexcludes] at hok
        cases hok
  | ok r =>
      obtain ⟨⟨hconf, hopts⟩, -⟩ := (pkgsToExclude_eq_ok_iff conf args r).mp hexcludes
      have hcopy : CanCopy conf args ↔
          ∀ entries ∈ conf.ppszMinVersions, ∀ x ∈ entries, SetOpt.Fits x :=
        ⟨fun h => h.versions, fun h => ⟨hconf, hopts, h⟩⟩
      rw [hcopy]
      cases first with
      | excludes =>
          change solvAddMinVersions host sack conf _ = _ ↔ _
          rw [solvAddMinVersions_eq_ok_iff, addExcludes_eq host sack conf args _ hexcludes]
      | minVersions =>
          rw [take_comm]
          change (solvAddMinVersions host sack conf considered >>= fun m =>
            Except.ok (addExcludes host sack r.1 r.2 m)) = _ ↔ _
          constructor
          · intro h
            obtain ⟨m, hm, h⟩ := Procedure.exists_of_bind_ok h
            obtain ⟨hfits, rfl⟩ := (solvAddMinVersions_eq_ok_iff host sack conf _ _).mp hm
            cases h
            exact ⟨hfits, addExcludes_eq host sack conf args _ hexcludes⟩
          · rintro ⟨hfits, rfl⟩
            have hrun := (solvAddMinVersions_eq_ok_iff host sack conf considered _).mpr ⟨hfits, rfl⟩
            rw [hrun, ← addExcludes_eq host sack conf args _ hexcludes]
            rfl

end Maps

/-! ## The law -/

section Law

variable (host : NameHost) (sack : Sack)

theorem mem_excludeList_iff {conf : Conf} {args : CmdArgs} (h : CanCopy conf args) (x : Text) :
    x ∈ excludeList conf args ↔ EffectiveExclude conf args x := by
  rw [excludeList, List.mem_append, EffectiveExclude]
  apply or_congr
  · rw [confExcludes]
    cases args.nDisableExcludes with
    | true => simp
    | false => cases hxs : conf.ppszExcludes <;> simp
  · simp only [List.mem_map, excludeOpts, List.mem_filter]
    constructor
    · rintro ⟨o, ⟨ho, hname⟩, rfl⟩
      obtain ⟨y, hy, -⟩ := h.fromOpts o (List.mem_filter.mpr ⟨ho, hname⟩)
      exact ⟨o, ho, hname, by rw [hy]; rfl⟩
    · rintro ⟨o, ho, hname, hx⟩
      exact ⟨o, ⟨ho, hname⟩, by rw [hx]; rfl⟩

theorem excludeMap_iff {p : ℕ} (hp : p ∈ sack.ids) (x : Text) :
    excludeMap host sack x p = true ↔ Matches host x (sack.solvable p).name := by
  have hfound : excludeMap host sack x p =
      datamatch host (searchFlags x) x (sack.solvable p).name := by
    rw [excludeMap, dataiterator, Bool.eq_iff_iff]
    simp [hp]
  rw [hfound, searchFlags, Matches]
  by_cases hglob : isGlob x = true <;> simp [hglob, datamatch]

/-- The excludes take away the solvables whose names they match. -/
theorem excludesMap_iff {conf : Conf} {args : CmdArgs} (h : CanCopy conf args) {p : ℕ}
    (hp : p ∈ sack.ids) :
    (∃ s, excludesMap host sack conf args = some s ∧ s p = true) ↔
      ∃ x, EffectiveExclude conf args x ∧ Matches host x (sack.solvable p).name := by
  simp only [← mem_excludeList_iff h, ← excludeMap_iff host sack hp]
  rw [excludesMap]
  split_ifs with hempty
  · simp [hempty]
  · simp

/-- An entry is cut into the name and the version. -/
theorem splitStringToArray_text (v : MinVersion) :
    splitStringToArray v.text '=' = [v.name, v.evr] := by
  rw [splitStringToArray, MinVersion.text,
    List.splitOn_append_cons_self_of_not_mem v.name_plain, List.splitOn_eq_singleton v.evr_plain]
  simp [v.name_ne, v.evr_ne]

/-- The minimal versions take away the solvables of their names that are below them. -/
theorem versionsMap_iff {conf : Conf} {versions : Option (List MinVersion)}
    (hconf : conf.ppszMinVersions = versions.map (List.map MinVersion.text)) {p : ℕ}
    (hp : p ∈ sack.ids) :
    (∃ s, versionsMap host sack conf = some s ∧ s p = true) ↔
      ∃ vs, versions = some vs ∧ ∃ v ∈ vs, (sack.solvable p).name = v.name ∧
        host.evrcmp (sack.solvable p).evr v.evr < 0 := by
  have hbelow (v : MinVersion) : minVersionMap host sack v.text p = true ↔
      (sack.solvable p).name = v.name ∧ host.evrcmp (sack.solvable p).evr v.evr < 0 := by
    rw [minVersionMap, splitStringToArray_text]
    simp [belowMap, dataiterator, datamatch, hp]
  rw [versionsMap, hconf]
  cases versions with
  | none => simp
  | some vs => simp [hbelow]

/-- The same entries in another order. -/
structure Reordered (conf conf' : Conf) (args args' : CmdArgs) : Prop where
  excludes : Option.Rel List.Perm conf.ppszExcludes conf'.ppszExcludes
  versions : Option.Rel List.Perm conf.ppszMinVersions conf'.ppszMinVersions
  disabled : args.nDisableExcludes = args'.nDisableExcludes
  options : args.pSetOpt.Perm args'.pSetOpt

section Arrays

variable {a b : Option (List Text)}

theorem getD_perm (h : Option.Rel List.Perm a b) : (a.getD []).Perm (b.getD []) := by
  cases h with
  | some hperm => exact hperm
  | none => exact .refl _

theorem map_any_eq (h : Option.Rel List.Perm a b) (f : Text → Map) :
    (a.map fun l p => l.any fun x => f x p) = b.map fun l p => l.any fun x => f x p := by
  cases h with
  | some hperm => simp only [Option.map_some, hperm.any_eq]
  | none => rfl

theorem forall_mem_of_rel (h : Option.Rel List.Perm a b) {P : Text → Prop}
    (ha : ∀ l ∈ a, ∀ x ∈ l, P x) : ∀ l ∈ b, ∀ x ∈ l, P x := by
  cases h with
  | some hperm => simpa [hperm.mem_iff] using ha
  | none => simp

end Arrays

variable {host sack} {conf conf' : Conf} {args args' : CmdArgs}

namespace Reordered

theorem confExcludes (h : Reordered conf conf' args args') :
    (Considered.confExcludes conf args).Perm (Considered.confExcludes conf' args') := by
  rw [Considered.confExcludes, Considered.confExcludes, h.disabled]
  split_ifs
  · exact .refl _
  · exact getD_perm h.excludes

theorem excludeOpts (h : Reordered conf conf' args args') :
    (Considered.excludeOpts args).Perm (Considered.excludeOpts args') :=
  h.options.filter _

theorem excludesMap (h : Reordered conf conf' args args') :
    Considered.excludesMap host sack conf args = Considered.excludesMap host sack conf' args' := by
  have hperm : (excludeList conf args).Perm (excludeList conf' args') :=
    h.confExcludes.append (h.excludeOpts.map _)
  have hempty : excludeList conf args = [] ↔ excludeList conf' args' = [] := by
    constructor
    · intro hnil
      exact (hnil ▸ hperm).nil_eq.symm
    · intro hnil
      exact (hnil ▸ hperm).eq_nil
  simp only [Considered.excludesMap, hempty, hperm.any_eq]

theorem versionsMap (h : Reordered conf conf' args args') :
    Considered.versionsMap host sack conf = Considered.versionsMap host sack conf' :=
  map_any_eq h.versions _

theorem canCopy (h : Reordered conf conf' args args') (hcopy : CanCopy conf args) :
    CanCopy conf' args' where
  fromConf := fun x hx => hcopy.fromConf x (h.confExcludes.mem_iff.mpr hx)
  fromOpts := fun o ho => hcopy.fromOpts o (h.excludeOpts.mem_iff.mpr ho)
  versions := forall_mem_of_rel h.versions hcopy.versions

end Reordered

/-- The bit of a solvable is clear afterwards exactly if it was clear before, an effective
exclude matches its name, or a minimal version of its name is greater than its own. Neither the
order of the entries nor that of the two functions matters. -/
theorem hidePackages_spec (host : NameHost) (sack : Sack) (excludes : Option (List Text))
    (versions : Option (List MinVersion)) (args : CmdArgs) (first : Step)
    (considered after : Option Map)
    (h : hidePackages host sack first ⟨excludes, versions.map (List.map MinVersion.text)⟩ args
      considered = .ok after) :
    (∀ p ∈ sack.ids, Clear after p ↔ Clear considered p ∨
      (∃ x, EffectiveExclude ⟨excludes, versions.map (List.map MinVersion.text)⟩ args x ∧
        Matches host x (sack.solvable p).name) ∨
      ∃ vs, versions = some vs ∧ ∃ v ∈ vs, (sack.solvable p).name = v.name ∧
        host.evrcmp (sack.solvable p).evr v.evr < 0) ∧
    ∀ first' conf' args',
      Reordered ⟨excludes, versions.map (List.map MinVersion.text)⟩ conf' args args' →
        hidePackages host sack first' conf' args' considered = .ok after := by
  obtain ⟨hcopy, rfl⟩ := (hidePackages_eq_ok_iff host sack first _ args considered after).mp h
  constructor
  · intro p hp
    rw [clear_take_iff, clear_take_iff, excludesMap_iff host sack hcopy hp,
      versionsMap_iff host sack rfl hp, or_assoc]
  · intro first' conf' args' hreordered
    rw [hidePackages_eq_ok_iff, ← hreordered.excludesMap, ← hreordered.versionsMap]
    exact ⟨hreordered.canCopy hcopy, rfl⟩

/-- A host that compares names by glob with a star at the end, and versions by their text. -/
def sampleHost : NameHost where
  fnmatch pattern name := (pattern.takeWhile (· ≠ '*')).isPrefixOf name
  evrcmp evr evr' := if evr = evr' then 0 else if evr < evr' then -1 else 1

/-- Three packages. -/
def sampleSack : Sack where
  repos := ownRepos
  installed := 0
  ids := [1, 2, 3]
  solvable p :=
    if p = 1 then ⟨"kernel-core".toList, "6.1-1".toList, "x86_64".toList, 1⟩
    else if p = 2 then ⟨"vim".toList, "8.1-1".toList, "x86_64".toList, 1⟩
    else ⟨"vim".toList, "9.0-1".toList, "x86_64".toList, 1⟩
  nodup := by decide
  owned := by decide
  system := ownRepos_system
  cmdline := ownRepos_cmdline

/-- `vim` from version 9 on. -/
def sampleVersion : MinVersion where
  name := "vim".toList
  evr := "9.0-1".toList
  name_ne := by decide
  evr_ne := by decide
  name_plain := by decide
  evr_plain := by decide

/-- An exclude for the kernel and a minimal version for `vim` leave the newer `vim`. -/
theorem hidePackages_spec_sample : ∃ after,
    hidePackages sampleHost sampleSack .excludes
        ⟨some ["kernel*".toList], some [sampleVersion.text]⟩ ⟨false, []⟩ none = .ok after ∧
      Clear after 1 ∧ Clear after 2 ∧ ¬ Clear after 3 := by
  have hcopy : CanCopy ⟨some ["kernel*".toList], some [sampleVersion.text]⟩ ⟨false, []⟩ :=
    ⟨by decide, by simp [excludeOpts], by decide⟩
  obtain ⟨after, hrun⟩ : ∃ after, hidePackages sampleHost sampleSack .excludes
      ⟨some ["kernel*".toList], some [sampleVersion.text]⟩ ⟨false, []⟩ none = .ok after :=
    ⟨_, (hidePackages_eq_ok_iff _ _ _ _ _ _ _).mpr ⟨hcopy, rfl⟩⟩
  have hspec := (hidePackages_spec sampleHost sampleSack (some ["kernel*".toList])
    (some [sampleVersion]) ⟨false, []⟩ .excludes none after hrun).1
  refine ⟨after, hrun, ?_, ?_, ?_⟩
  · apply (hspec 1 (by decide)).mpr
    exact .inr (.inl ⟨"kernel*".toList, .inl ⟨rfl, _, rfl, List.mem_singleton_self _⟩, by decide⟩)
  · apply (hspec 2 (by decide)).mpr
    exact .inr (.inr ⟨_, rfl, sampleVersion, List.mem_singleton_self _, by decide, by decide⟩)
  · rw [hspec 3 (by decide)]
    rintro (⟨m, hm, -⟩ | ⟨x, ⟨-, xs, hxs, hx⟩ | ⟨o, ho, -⟩, hmatch⟩ | ⟨vs, hvs, v, hv, -, hless⟩)
    · cases hm
    · cases hxs
      obtain rfl := List.mem_singleton.mp hx
      exact absurd hmatch (by decide)
    · cases ho
    · cases hvs
      obtain rfl := List.mem_singleton.mp hv
      exact absurd hless (by decide)

end Law

end Considered

end Tdnf.Client
