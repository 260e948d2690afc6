import Mathlib.Data.List.Dedup
import Mathlib.Data.List.Infix
import Mathlib.Data.List.Sort
import Tdnf.Common.SetOpt
import Tdnf.Solv.Query

/-!
# The search command

Every term is searched for in names, summaries and descriptions. The packages
found for one term are each listed once, and the lists of all terms are put one
behind the other. The first argument is a keyword if it starts with `all`.
-/

namespace Tdnf.Client

open PathText Common Procedure
open Common.SetOpt (allocateString_eq_ok_iff)

namespace Search

/-- The texts of a solvable that are searched, as `solvable_lookup_str` finds them. -/
structure Texts where
  name : Text
  summary : Option Text
  description : Option Text
deriving DecidableEq, Repr

/-- The pool, and the refresh before a search. -/
structure SearchHost where
  /-- `TDNFRefresh` -/
  refresh : Except TdnfError Unit
  /-- `FOR_POOL_SOLVABLES` -/
  ids : List ℕ
  texts : ℕ → Texts

/-- An entry of the result: the package, `pszName` and `pszSummary`. -/
structure Found where
  id : ℕ
  pszName : Text
  pszSummary : Text
deriving DecidableEq, Repr

/-- `strcasestr`, as a test -/
def strcasestr (haystack needle : Text) : Bool :=
  (haystack.map Char.toLower).tails.any fun s => (needle.map Char.toLower).isPrefixOf s

/-- `strncasecmp` with a lower case text -/
def startsWithCase (s lower : Text) : Bool := equalsCase (s.take lower.length) lower

/-- `selection_solvables`: the selected solvables in the order of their ids, each once -/
def selectionSolvables (queueSel : List ℕ) : List ℕ := (queueSel.mergeSort (· ≤ ·)).dedup

section Code

variable (host : SearchHost)

/-- The solvables that a data iterator with `SEARCH_SUBSTRING|SEARCH_NOCASE` steps over. -/
def dataiterator (key : Texts → Option Text) (term : Text) : List ℕ :=
  host.ids.filter fun p => (key (host.texts p)).any fun value => strcasestr value term

/-- `queueSel` for one term -/
def searchTerm (term : Text) : List ℕ :=
  dataiterator host (fun t => some t.name) term ++ dataiterator host Texts.summary term ++
    dataiterator host Texts.description term

/-- `SolvApplySearch` -/
def solvApplySearch (ppszSearchStrings : List Text) (dwStartIndex : ℕ) : List ℕ :=
  (ppszSearchStrings.drop dwStartIndex).flatMap fun term =>
    selectionSolvables (searchTerm host term)

/-- `nStartArgIndex` -/
def startArgIndex (ppszCmds : List Text) : ℕ :=
  match ppszCmds[1]? with
  | none => 1
  | some first => if startsWithCase first "all".toList then 2 else 1

/-- The entry for one package; there is no data where there is no summary. -/
def lookUp (id : ℕ) : Except TdnfError Found := do
  let pszName ← allocateString (host.texts id).name
  match (host.texts id).summary with
  | none => throw .noData
  | some pszTemp => do
      let pszSummary ← allocateString pszTemp
      return ⟨id, pszName, pszSummary⟩

/-- The end of `TDNFSearchCommand`: the error that nothing matches gets another name. -/
def cleanup (result : Except TdnfError (List Found)) : Except TdnfError (List Found) :=
  match result with
  | .ok found => .ok found
  | .error e => .error (if e = .noMatch then .noSearchResults else e)

/-- `TDNFSearchCommand` -/
def searchCommand (ppszCmds : List Text) : Except TdnfError (List Found) :=
  cleanup do
    host.refresh
    let pkgs ← Solv.getQueryResult (solvApplySearch host ppszCmds (startArgIndex ppszCmds))
    pkgs.mapM (lookUp host)

end Code

/-- A text contains a term, up to case. -/
def ContainsCase (s term : Text) : Prop := term.map Char.toLower <:+: s.map Char.toLower

/-- The name, the summary or the description of a package contains a term. -/
def Matches (host : SearchHost) (term : Text) (p : ℕ) : Prop :=
  ContainsCase (host.texts p).name term ∨
    (∃ s, (host.texts p).summary = some s ∧ ContainsCase s term) ∨
    ∃ s, (host.texts p).description = some s ∧ ContainsCase s term

/-- The terms behind the command and, if it is given, the keyword. -/
def searchTerms (ppszCmds : List Text) : List Text :=
  match ppszCmds[1]? with
  | none => ppszCmds.drop 1
  | some first => if equalsCase first "all".toList then ppszCmds.drop 2 else ppszCmds.drop 1

/-- The packages that match a term. -/
def Wanted (host : SearchHost) (ppszCmds : List Text) (p : ℕ) : Prop :=
  p ∈ host.ids ∧ ∃ term ∈ searchTerms ppszCmds, Matches host term p

/-- A search as it should be. -/
structure SearchesRight (host : SearchHost) (ppszCmds : List Text) : Prop where
  /-- only the keyword is skipped -/
  keyword : startArgIndex ppszCmds = 2 →
    ∃ first, ppszCmds[1]? = some first ∧ equalsCase first "all".toList = true
  /-- every package that matches is listed once, and no other one -/
  found : (∃ p, Wanted host ppszCmds p) → ∃ found, searchCommand host ppszCmds = .ok found ∧
    (found.map Found.id).Nodup ∧ ∀ p, p ∈ found.map Found.id ↔ Wanted host ppszCmds p
  /-- it is an error if there is none -/
  missing : (¬ ∃ p, Wanted host ppszCmds p) → searchCommand host ppszCmds = .error .noSearchResults

/-- When the source does so. -/
structure Served (host : SearchHost) (ppszCmds : List Text) : Prop where
  /-- no other word that starts like the keyword comes first -/
  keyword : ∀ first, ppszCmds[1]? = some first → startsWithCase first "all".toList = true →
    equalsCase first "all".toList = true
  /-- no package matches two of the terms -/
  apart : (searchTerms ppszCmds).Pairwise fun term term' =>
    ∀ p ∈ host.ids, ¬ (Matches host term p ∧ Matches host term' p)
  /-- the packages that match have summaries, and short enough texts -/
  texts : ∀ p, Wanted host ppszCmds p → SetOpt.Fits (host.texts p).name ∧
    ∃ s, (host.texts p).summary = some s ∧ SetOpt.Fits s

section Terms

variable (host : SearchHost) {term : Text} {p : ℕ}

theorem strcasestr_iff {s : Text} : strcasestr s term = true ↔ ContainsCase s term := by
  rw [strcasestr, ContainsCase, List.infix_iff_prefix_suffix]
  simp [and_comm]

/-- One term finds the packages that match it, each once. -/
theorem mem_selection_iff :
    p ∈ selectionSolvables (searchTerm host term) ↔ p ∈ host.ids ∧ Matches host term p := by
  have hkey (key : Texts → Option Text) : p ∈ dataiterator host key term ↔
      p ∈ host.ids ∧ ∃ s, key (host.texts p) = some s ∧ ContainsCase s term := by
    simp only [dataiterator, List.mem_filter, Option.any_eq_true, strcasestr_iff]
  rw [selectionSolvables, List.mem_dedup, List.mem_mergeSort, searchTerm, List.mem_append,
    List.mem_append, hkey, hkey, hkey, Matches]
  simp only [Option.some.injEq, exists_eq_left', ← and_or_left, or_assoc]

theorem selection_nodup (term : Text) : (selectionSolvables (searchTerm host term)).Nodup :=
  List.nodup_dedup _

/-- What `SolvApplySearch` finds for the terms. -/
def foundFor (terms : List Text) : List ℕ :=
  terms.flatMap fun term => selectionSolvables (searchTerm host term)

theorem mem_foundFor_iff {terms : List Text} :
    p ∈ foundFor host terms ↔ p ∈ host.ids ∧ ∃ term ∈ terms, Matches host term p := by
  simp only [foundFor, List.mem_flatMap, mem_selection_iff]
  constructor
  · rintro ⟨term, hterm, hp, hmatch⟩
    exact ⟨hp, term, hterm, hmatch⟩
  · rintro ⟨hp, term, hterm, hmatch⟩
    exact ⟨term, hterm, hp, hmatch⟩

/-- A package is found twice exactly if it matches two of the terms. -/
theorem foundFor_nodup_iff {terms : List Text} :
    (foundFor host terms).Nodup ↔ terms.Pairwise fun term term' =>
      ∀ p ∈ host.ids, ¬ (Matches host term p ∧ Matches host term' p) := by
  rw [foundFor, List.nodup_flatMap, and_iff_right fun term _ => selection_nodup host term]
  apply iff_of_eq
  congr 1
  funext term term'
  apply propext
  change List.Disjoint _ _ ↔ _
  rw [List.disjoint_iff_ne]
  constructor
  · rintro hapart p hp ⟨hmatch, hmatch'⟩
    exact hapart p ((mem_selection_iff host).mpr ⟨hp, hmatch⟩) p
      ((mem_selection_iff host).mpr ⟨hp, hmatch'⟩) rfl
  · rintro hapart p hp _ hp' rfl
    obtain ⟨hmem, hmatch⟩ := (mem_selection_iff host).mp hp
    exact hapart p hmem ⟨hmatch, ((mem_selection_iff host).mp hp').2⟩

end Terms

section Keyword

variable {ppszCmds : List Text}

theorem startsWithCase_of_equalsCase {s lower : Text} (h : equalsCase s lower = true) :
    startsWithCase s lower = true := by
  have hlength : s.length = lower.length := by
    rw [← beq_iff_eq.mp h, List.length_map]
  rw [startsWithCase, ← hlength, List.take_length]
  exact h

/-- Only the keyword is skipped if no other word that starts like it comes first. -/
theorem keyword_iff :
    (startArgIndex ppszCmds = 2 →
      ∃ first, ppszCmds[1]? = some first ∧ equalsCase first "all".toList = true) ↔
    ∀ first, ppszCmds[1]? = some first → startsWithCase first "all".toList = true →
      equalsCase first "all".toList = true := by
  rw [startArgIndex]
  cases ppszCmds[1]? with
  | none => simp
  | some first => cases startsWithCase first "all".toList <;> simp

/-- The terms are then those searched for. -/
theorem drop_startArgIndex (h : ∀ first, ppszCmds[1]? = some first →
      startsWithCase first "all".toList = true → equalsCase first "all".toList = true) :
    ppszCmds.drop (startArgIndex ppszCmds) = searchTerms ppszCmds := by
  rw [startArgIndex, searchTerms]
  cases hfirst : ppszCmds[1]? with
  | none => rfl
  | some first =>
      have hsame : startsWithCase first "all".toList = equalsCase first "all".toList := by
        rw [Bool.eq_iff_iff]
        exact ⟨h first hfirst, startsWithCase_of_equalsCase⟩
      change ppszCmds.drop (if startsWithCase first "all".toList then 2 else 1) =
        if equalsCase first "all".toList then ppszCmds.drop 2 else ppszCmds.drop 1
      rw [hsame]
      split_ifs <;> rfl

end Keyword

section Running

variable {host : SearchHost} {ppszCmds : List Text} {found : List Found}

/-- The texts of a package can be copied. -/
def HasTexts (host : SearchHost) (p : ℕ) : Prop :=
  SetOpt.Fits (host.texts p).name ∧ ∃ s, (host.texts p).summary = some s ∧ SetOpt.Fits s

theorem lookUp_eq_ok_iff (p : ℕ) (entry : Found) :
    lookUp host p = .ok entry ↔ HasTexts host p ∧
      entry = ⟨p, (host.texts p).name, (host.texts p).summary.getD []⟩ := by
  rw [lookUp, HasTexts]
  constructor
  · intro h
    obtain ⟨pszName, hname, htail⟩ := exists_of_bind_ok h
    obtain ⟨hfits, rfl⟩ := allocateString_eq_ok_iff.mp hname
    cases hsummary : (host.texts p).summary with
    | none =>
        rw [hsummary] at htail
        cases htail
    | some s =>
        rw [hsummary] at htail
        obtain ⟨pszSummary, hcopy, hentry⟩ := exists_of_bind_ok htail
        obtain ⟨hfits', rfl⟩ := allocateString_eq_ok_iff.mp hcopy
        cases hentry
        exact ⟨⟨hfits, pszSummary, rfl, hfits'⟩, rfl⟩
  · rintro ⟨⟨hfits, s, hs, hfits'⟩, rfl⟩
    rw [SetOpt.allocateString_of_fits hfits, hs]
    change (allocateString s >>= _) = _
    rw [SetOpt.allocateString_of_fits hfits']
    rfl

/-- What is listed for a package. -/
def entryOf (host : SearchHost) (p : ℕ) : Found :=
  ⟨p, (host.texts p).name, (host.texts p).summary.getD []⟩

theorem searchCommand_eq (hrefresh : host.refresh = .ok ()) {terms : List Text}
    (hterms : ppszCmds.drop (startArgIndex ppszCmds) = terms) :
    searchCommand host ppszCmds = if foundFor host terms = [] then .error .noSearchResults
      else cleanup ((foundFor host terms).mapM (lookUp host)) := by
  rw [searchCommand, hrefresh]
  change cleanup (Solv.getQueryResult (foundFor host (ppszCmds.drop (startArgIndex ppszCmds))) >>=
    fun pkgs => pkgs.mapM (lookUp host)) = _
  rw [hterms, Solv.getQueryResult]
  split_ifs <;> rfl

theorem cleanup_eq_ok_iff {result : Except TdnfError (List Found)} :
    cleanup result = .ok found ↔ result = .ok found := by
  cases result with
  | ok l => rfl
  | error e => simp [cleanup]

/-- The command lists what it finds if that is not nothing and has all its texts. -/
theorem searchCommand_eq_ok_iff (hrefresh : host.refresh = .ok ()) {terms : List Text}
    (hterms : ppszCmds.drop (startArgIndex ppszCmds) = terms) :
    searchCommand host ppszCmds = .ok found ↔ foundFor host terms ≠ [] ∧
      (∀ p ∈ foundFor host terms, HasTexts host p) ∧
      found = (foundFor host terms).map (entryOf host) := by
  have hloop : (foundFor host terms).mapM (lookUp host) = .ok found ↔
      (∀ p ∈ foundFor host terms, HasTexts host p) ∧
        found = (foundFor host terms).map (entryOf host) :=
    mapM_eq_ok_iff lookUp_eq_ok_iff
  rw [searchCommand_eq hrefresh hterms]
  split_ifs with hempty
  · simp [hempty]
  · rw [cleanup_eq_ok_iff, hloop, and_iff_right hempty]

theorem map_id_entryOf (l : List ℕ) : (l.map (entryOf host)).map Found.id = l := by
  rw [List.map_map]
  exact List.map_id l

end Running

section Right

variable {host : SearchHost} {ppszCmds : List Text}

theorem mem_foundFor_searchTerms_iff {p : ℕ} :
    p ∈ foundFor host (searchTerms ppszCmds) ↔ Wanted host ppszCmds p :=
  mem_foundFor_iff host

theorem foundFor_eq_nil_iff :
    foundFor host (searchTerms ppszCmds) = [] ↔ ¬ ∃ p, Wanted host ppszCmds p := by
  rw [List.eq_nil_iff_forall_not_mem, not_exists]
  exact forall_congr' fun p => not_congr mem_foundFor_searchTerms_iff

end Right

/-- A search is right exactly when no other word that starts with `all` comes first, no package
matches two of its terms, and the packages that match have their texts. -/
theorem searchesRight_iff (host : SearchHost) (ppszCmds : List Text)
    (hrefresh : host.refresh = .ok ()) : SearchesRight host ppszCmds ↔ Served host ppszCmds := by
  constructor
  · intro h
    have hkeyword := keyword_iff.mp h.keyword
    have hterms := drop_startArgIndex hkeyword
    by_cases hsome : ∃ p, Wanted host ppszCmds p
    · obtain ⟨found, hrun, hnodup, -⟩ := h.found hsome
      obtain ⟨-, htexts, rfl⟩ := (searchCommand_eq_ok_iff hrefresh hterms).mp hrun
      rw [map_id_entryOf] at hnodup
      exact ⟨hkeyword, (foundFor_nodup_iff host).mp hnodup,
        fun p hp => htexts p (mem_foundFor_searchTerms_iff.mpr hp)⟩
    · have hnil := foundFor_eq_nil_iff.mpr hsome
      exact ⟨hkeyword, (foundFor_nodup_iff host).mp (hnil ▸ List.nodup_nil),
        fun p hp => absurd ⟨p, hp⟩ hsome⟩
  · intro h
    have hterms := drop_startArgIndex h.keyword
    refine ⟨keyword_iff.mpr h.keyword, fun hsome => ?_, fun hnone => ?_⟩
    · have hne : foundFor host (searchTerms ppszCmds) ≠ [] := fun hnil =>
        foundFor_eq_nil_iff.mp hnil hsome
      have htexts : ∀ p ∈ foundFor host (searchTerms ppszCmds), HasTexts host p := fun p hp =>
        h.texts p (mem_foundFor_searchTerms_iff.mp hp)
      refine ⟨_, (searchCommand_eq_ok_iff hrefresh hterms).mpr ⟨hne, htexts, rfl⟩, ?_, ?_⟩
      · rw [map_id_entryOf]
        exact (foundFor_nodup_iff host).mpr h.apart
      · intro p
        rw [map_id_entryOf]
        exact mem_foundFor_searchTerms_iff
    · rw [searchCommand_eq hrefresh hterms, if_pos (foundFor_eq_nil_iff.mpr hnone)]

/-- A pool with one package. -/
def onePackage : SearchHost where
  refresh := .ok ()
  ids := [2]
  texts _ := ⟨"foobar".toList, some "a package".toList, none⟩

/-- A search for its name finds the package. -/
theorem searchesRight_foobar :
    SearchesRight onePackage ["search".toList, "foobar".toList] := by
  refine (searchesRight_iff onePackage _ rfl).mpr ⟨?_, ?_, ?_⟩
  · rintro first hfirst hstarts
    cases hfirst
    exact absurd hstarts (by decide)
  · exact List.pairwise_singleton _ _
  · exact fun p _ => ⟨show SetOpt.Fits "foobar".toList by decide +kernel, "a package".toList, rfl,
      by decide +kernel⟩

/-- A search for two parts of its name lists it twice, and `allegro` is no term to search for. -/
theorem two_terms_list_twice :
    ¬ SearchesRight onePackage ["search".toList, "foo".toList, "bar".toList] ∧
      ¬ SearchesRight onePackage ["search".toList, "allegro".toList] := by
  constructor
  · intro h
    have hwanted : Wanted onePackage ["search".toList, "foo".toList, "bar".toList] 2 :=
      mem_foundFor_searchTerms_iff.mp (by decide +kernel)
    obtain ⟨found, hrun, hnodup, -⟩ := h.found ⟨2, hwanted⟩
    have htwice : (searchCommand onePackage ["search".toList, "foo".toList, "bar".toList]).toOption
        = some [⟨2, "foobar".toList, "a package".toList⟩,
          ⟨2, "foobar".toList, "a package".toList⟩] := by
      decide +kernel
    rw [hrun] at htwice
    cases htwice
    simp at hnodup
  · intro h
    obtain ⟨first, hfirst, hequals⟩ := h.keyword (by decide +kernel)
    cases hfirst
    exact absurd hequals (by decide +kernel)

end Search

end Tdnf.Client
