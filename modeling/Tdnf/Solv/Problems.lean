import Tdnf.Common.Error
import Tdnf.Library.Buffer
import Tdnf.Library.Json

/-!
# Problems of the solver

The problems are reported one after the other. Of one about a requirement the
dependency is taken from its text, without spaces, into a buffer of 256 bytes,
and compared with that of the problem before, which is kept in another one. The
copy has no bound of its own.
-/

namespace Tdnf.Solv

open Buffer
open Json (Bytes ascii decimal)

namespace Problems

/-- The kinds of rules that are told apart; of the others, whether they have the bit
`SOLVER_RULE_PKG`. -/
inductive RuleInfo where
  | pkgNotInstallable
  | pkgRequires
  | pkgSelfConflict
  | pkgConflicts
  | pkgObsoletes
  | pkgImplicitObsoletes
  | pkgInstalledObsoletes
  | other (pkgRule : Bool)
deriving DecidableEq, Repr

/-- The bits of `TDNF_SKIPPROBLEM_TYPE`. -/
structure SkipProblem where
  conflicts : Bool
  obsoletes : Bool
  disabled : Bool
  broken : Bool
deriving DecidableEq, Repr

/-- `SKIPPROBLEM_NONE` -/
def SkipProblem.none : SkipProblem := ⟨false, false, false, false⟩

/-- A problem: its kind, whether its source is a disabled solvable, and its text. -/
structure Problem where
  type : RuleInfo
  disabled : Bool
  pszProblem : Bytes
deriving DecidableEq, Repr

/-- What reporting did: the lines printed, `total_prblms`, the error, and `prv_pkgname`. -/
structure Report where
  lines : List Bytes
  totalPrblms : ℕ
  dwError : Option TdnfError
  prvPkgname : Bytes
deriving DecidableEq, Repr

/-- What a look for providers did: the lines printed, the result, and `prv_pkgname`. -/
structure Look where
  lines : List Bytes
  result : Except TdnfError Unit
  prvPkgname : Bytes

/-- `SkipBasedOnType` -/
def skipBasedOnType (problem : Problem) (dwSkipProblem : SkipProblem) : Bool :=
  (dwSkipProblem.conflicts &&
    (problem.type = .pkgConflicts || problem.type = .pkgSelfConflict)) ||
  (dwSkipProblem.obsoletes &&
    (problem.type = .pkgObsoletes || problem.type = .pkgImplicitObsoletes ||
      problem.type = .pkgInstalledObsoletes)) ||
  (dwSkipProblem.broken && problem.type ≠ .other false) ||
  (dwSkipProblem.disabled && problem.type = .pkgNotInstallable && problem.disabled)

/-- `strstr`: the text from the first occurrence on -/
def strstr (needle : Bytes) : Bytes → Option Bytes
  | [] => if needle = [] then some [] else none
  | c :: s => if needle.isPrefixOf (c :: s) then some (c :: s) else strstr needle s

/-- `strcpy`, of the string that starts in the first cell of `src` -/
def strcpy (dst src : Bytes) : Option Bytes :=
  (stringAt 0 src 0).bind fun s => writeAll dst 0 (s ++ [0])

/-- `" requires "` -/
def requiresText : Bytes := ascii " requires "

def comma : UInt8 := ','.toUInt8

def space : UInt8 := ' '.toUInt8

/-- A buffer as it is declared, `char name[256] = {0}`. -/
def zeroed : Bytes := List.replicate 256 0

/-- The loop that copies what is from `beg` up to `end`. -/
def copyLoop (pkgname : Bytes) (i : ℕ) : Bytes → Option Bytes
  | [] => some pkgname
  | c :: rest =>
    if c ≠ space then (write pkgname i c).bind fun pkgname => copyLoop pkgname (i + 1) rest
    else copyLoop pkgname i rest

/-- What is from `beg` up to `end`, the next comma, if both are found. -/
def copied (pszProblem : Bytes) : Option Bytes :=
  (strstr requiresText pszProblem).bind fun s => stringAt comma (s.drop requiresText.length) 0

section Code

variable (findAvailablePkgByName : Bytes → Except TdnfError Unit)

/-- `check_for_providers`; nothing is outside of the buffers -/
def checkForProviders (type : RuleInfo) (pszProblem prvPkgname : Bytes) : Option Look :=
  if type ≠ .pkgRequires then some ⟨[], .ok (), prvPkgname⟩
  else
    match copied pszProblem with
    | none => some ⟨[ascii "Error while trying to resolve"], .error .solvFailed, prvPkgname⟩
    | some dep => do
        let pkgname ← copyLoop zeroed 0 dep
        let new ← stringAt 0 pkgname 0
        let prv ← stringAt 0 prvPkgname 0
        if new = prv then some ⟨[], .ok (), prvPkgname⟩
        else do
          let prvPkgname ← strcpy prvPkgname pkgname
          return ⟨[], findAvailablePkgByName new, prvPkgname⟩

/-- A problem is printed with its number. -/
def reportLine (report : Report) (problem : Problem) : Report :=
  { report with
    lines := report.lines ++
      [decimal (report.totalPrblms + 1 : ℕ) ++ ascii ". " ++ problem.pszProblem]
    totalPrblms := report.totalPrblms + 1
    dwError := some .solvFailed }

/-- The providers of a problem's dependency are looked for. -/
def Checked (dwSkipProblem : SkipProblem) (problem : Problem) : Prop :=
  skipBasedOnType problem dwSkipProblem = false ∧ dwSkipProblem ≠ .none ∧
    problem.type = .pkgRequires

instance (dwSkipProblem : SkipProblem) (problem : Problem) :
    Decidable (Checked dwSkipProblem problem) :=
  inferInstanceAs (Decidable (_ ∧ _ ∧ _))

/-- The round of the loop in `SolvReportProblems` for one problem. -/
def reportProblem (dwSkipProblem : SkipProblem) (report : Report) (problem : Problem) :
    Option Report :=
  if skipBasedOnType problem dwSkipProblem then some report
  else if dwSkipProblem ≠ .none ∧ problem.type = .pkgRequires then do
    let look ← checkForProviders findAvailablePkgByName problem.type problem.pszProblem
      report.prvPkgname
    let report :=
      { report with lines := report.lines ++ look.lines, prvPkgname := look.prvPkgname }
    match look.result with
    | .ok () => some report
    | .error _ => some (reportLine report problem)
  else some (reportLine report problem)

/-- `SolvReportProblems`, for the problems in the order in which they are counted down -/
def solvReportProblems (dwSkipProblem : SkipProblem) (problems : List Problem) :
    Option Report := do
  let report ← problems.foldlM (reportProblem findAvailablePkgByName dwSkipProblem)
    ⟨[], 0, none, zeroed⟩
  if report.dwError.isSome then
    return { report with
      lines := report.lines ++ [ascii "Found " ++ decimal report.totalPrblms ++
        ascii " problem(s) while resolving"] }
  else return report

end Code

/-- The text is about the requirement of a dependency, which reaches from behind the first
`" requires "` up to the next comma. -/
structure Requires (text dep : Bytes) : Prop where
  split : ∃ head tail, text = head ++ (requiresText ++ (dep ++ comma :: tail)) ∧
    ∀ head' tail', text = head' ++ (requiresText ++ tail') → head.length ≤ head'.length
  plain : comma ∉ dep

/-- A dependency with its spaces removed. -/
def compact (dep : Bytes) : Bytes := dep.filter (· ≠ space)

/-- The dependency, without spaces, and a terminator fit into 256 bytes. -/
def Fits (dep : Bytes) : Prop := (compact dep).length ≤ 255

instance (dep : Bytes) : Decidable (Fits dep) := inferInstanceAs (Decidable (_ ≤ _))

/-- The buffer holds a string that ends inside of it. -/
def Terminated (b : Bytes) : Prop := b.length = 256 ∧ ∃ s, stringAt 0 b 0 = some s

/-! ## The dependency in a text -/

/-- The search finds the first occurrence. -/
theorem strstr_eq_some_iff {needle text s : Bytes} (hne : needle ≠ []) :
    strstr needle text = some s ↔ ∃ head, text = head ++ s ∧ needle <+: s ∧
      ∀ head' s', text = head' ++ s' → needle <+: s' → head.length ≤ head'.length := by
  induction text with
  | nil =>
      rw [strstr, if_neg hne]
      constructor
      · intro h
        cases h
      · rintro ⟨head, htext, hfound, -⟩
        obtain ⟨-, rfl⟩ := List.append_eq_nil_iff.mp htext.symm
        exact absurd (List.prefix_nil.mp hfound) hne
  | cons c text ih =>
      rw [strstr]
      by_cases hhere : needle.isPrefixOf (c :: text) = true
      · rw [if_pos hhere]
        have hfound := Iff.mp List.isPrefixOf_iff_prefix hhere
        constructor
        · intro h
          cases h
          exact ⟨[], rfl, hfound, fun _ _ _ _ => Nat.zero_le _⟩
        · rintro ⟨head, htext, -, hfirst⟩
          have hzero := hfirst [] (c :: text) rfl hfound
          obtain rfl := List.length_eq_zero_iff.mp (Nat.le_zero.mp hzero)
          rw [htext, List.nil_append]
      · rw [if_neg hhere, ih]
        have hnot : ¬ needle <+: c :: text := fun h => hhere (Iff.mpr List.isPrefixOf_iff_prefix h)
        constructor
        · rintro ⟨head, rfl, hfound, hfirst⟩
          refine ⟨c :: head, rfl, hfound, fun head' s' htext hfound' => ?_⟩
          cases head' with
          | nil => exact absurd (htext ▸ hfound') hnot
          | cons d head' =>
              obtain ⟨-, htext⟩ := List.cons.inj htext
              exact Nat.succ_le_succ (hfirst head' s' htext hfound')
        · rintro ⟨head, htext, hfound, hfirst⟩
          cases head with
          | nil => exact absurd (htext ▸ hfound) hnot
          | cons d head =>
              obtain ⟨rfl, rfl⟩ := List.cons.inj htext
              refine ⟨head, rfl, hfound, fun head' s' htext' hfound' => ?_⟩
              have hle := hfirst (c :: head') s' (by rw [htext', List.cons_append]) hfound'
              exact Nat.le_of_succ_le_succ hle

/-- What is copied is the dependency of the text. -/
theorem copied_eq_some_iff {text dep : Bytes} : copied text = some dep ↔ Requires text dep := by
  have hne : requiresText ≠ [] := by decide
  rw [copied, Option.bind_eq_some_iff]
  constructor
  · rintro ⟨s, hfound, hend⟩
    obtain ⟨head, rfl, ⟨rest, rfl⟩, hfirst⟩ := (strstr_eq_some_iff hne).mp hfound
    rw [List.drop_left] at hend
    obtain ⟨hplain, tail, htail⟩ := stringAt_eq_some_iff.mp hend
    rw [List.drop_zero] at htail
    refine ⟨⟨head, tail, by rw [htail], fun head' tail' htext => ?_⟩, hplain⟩
    exact hfirst head' _ htext ( List.prefix_append _ _)
  · rintro ⟨⟨head, tail, rfl, hfirst⟩, hplain⟩
    refine ⟨requiresText ++ (dep ++ comma :: tail), ?_, ?_⟩
    · refine (strstr_eq_some_iff hne).mpr ⟨head, rfl, ( List.prefix_append _ _), ?_⟩
      rintro head' s' htext ⟨tail', rfl⟩
      exact hfirst head' tail' htext
    · rw [List.drop_left]
      exact stringAt_eq_some_iff.mpr ⟨hplain, tail, rfl⟩

/-! ## The buffers -/

/-- The loop writes what is left without spaces. -/
theorem copyLoop_eq_writeAll (b : Bytes) (i : ℕ) (dep : Bytes) :
    copyLoop b i dep = writeAll b i (compact dep) := by
  induction dep generalizing b i with
  | nil => rfl
  | cons c dep ih =>
      rw [copyLoop, compact]
      by_cases hc : c ≠ space
      · rw [if_pos hc, List.filter_cons_of_pos (by simpa using hc), writeAll]
        exact congrArg _ (funext fun b => ih b (i + 1))
      · rw [if_neg hc, List.filter_cons_of_neg (by simpa using hc)]
        exact ih b i

/-- A string and its terminator at the start of a buffer. -/
theorem stringAt_start {s more : Bytes} (hs : 0 ∉ s) : stringAt 0 (s ++ 0 :: more) 0 = some s :=
  stringAt_eq_some_iff.mpr ⟨hs, more, rfl⟩

/-- The copy of a dependency that fits is a string. -/
theorem copyLoop_of_fits {dep : Bytes} (hnul : 0 ∉ dep) (h : Fits dep) :
    ∃ pkgname, copyLoop zeroed 0 dep = some pkgname ∧ pkgname.length = 256 ∧
      stringAt 0 pkgname 0 = some (compact dep) := by
  have hzeroed : zeroed.length = 256 := List.length_replicate
  have hwrite := writeAll_eq [] zeroed (compact dep)
  rw [if_pos (by rw [hzeroed]; exact Nat.le_succ_of_le h)] at hwrite
  obtain ⟨k, hk⟩ : ∃ k, 256 - (compact dep).length = k + 1 :=
    ⟨255 - (compact dep).length, by rw [Fits] at h; omega⟩
  have hrest : zeroed.drop (compact dep).length = 0 :: List.replicate k 0 := by
    rw [zeroed, List.drop_replicate, hk, List.replicate_succ]
  refine ⟨compact dep ++ 0 :: List.replicate k 0, ?_, ?_, stringAt_start ?_⟩
  · rw [copyLoop_eq_writeAll, ← hrest]
    exact hwrite
  · rw [List.length_append, List.length_cons, List.length_replicate]
    omega
  · exact fun hmem => hnul (List.mem_of_mem_filter hmem)

/-- A dependency that does not fit is written over the end, or leaves no terminator. -/
theorem copyLoop_of_not_fits {dep : Bytes} (hnul : 0 ∉ dep) (h : ¬ Fits dep) :
    (copyLoop zeroed 0 dep).bind (fun pkgname => stringAt 0 pkgname 0) = none := by
  have hzeroed : zeroed.length = 256 := List.length_replicate
  have hwrite := writeAll_eq [] zeroed (compact dep)
  rw [List.nil_append, List.length_nil, hzeroed] at hwrite
  rw [copyLoop_eq_writeAll, hwrite]
  split
  · next hle =>
      have hfull : (compact dep).length = 256 := by
        rw [Fits] at h
        omega
      have hnone : 0 ∉ compact dep := fun hmem => hnul (List.mem_of_mem_filter hmem)
      rw [List.drop_of_length_le (by rw [hzeroed, hfull]), List.append_nil, List.nil_append,
        Option.bind_some, stringAt, List.drop_zero, if_neg hnone]
  · rfl

theorem terminated_zeroed : Terminated zeroed :=
  ⟨List.length_replicate, [], by decide⟩

/-- A string that fits into a buffer is copied with its terminator. -/
theorem strcpy_eq {dst src s : Bytes} (hdst : dst.length = 256) (hsrc : stringAt 0 src 0 = some s)
    (hs : s.length ≤ 255) : ∃ dst', strcpy dst src = some dst' ∧ Terminated dst' := by
  have hnul := (stringAt_eq_some_iff.mp hsrc).1
  have hlength : (s ++ [(0 : UInt8)]).length = s.length + 1 := by simp
  have hwrite := writeAll_eq [] dst (s ++ [0])
  rw [if_pos (by rw [hlength, hdst]; omega), List.nil_append, List.nil_append] at hwrite
  refine ⟨_, by rw [strcpy, hsrc]; exact hwrite, ?_, s, ?_⟩
  · rw [List.length_append, List.length_drop, hlength, hdst]
    omega
  · rw [List.append_assoc]
    exact stringAt_start hnul

/-! ## Reporting all problems -/

/-- The dependencies of the problems that are looked at all fit into the buffers. -/
def AllFit (dwSkipProblem : SkipProblem) (problems : List Problem) : Prop :=
  ∀ problem ∈ problems, Checked dwSkipProblem problem →
    ∀ dep, Requires problem.pszProblem dep → Fits dep

/-- Nothing is accessed outside of the buffers, both end as strings, and every dependency looked
at is copied without its spaces. -/
def CopiesRight (find : Bytes → Except TdnfError Unit) (dwSkipProblem : SkipProblem)
    (problems : List Problem) : Prop :=
  (∃ report, solvReportProblems find dwSkipProblem problems = some report ∧
    Terminated report.prvPkgname) ∧
  ∀ problem ∈ problems, Checked dwSkipProblem problem →
    ∀ dep, Requires problem.pszProblem dep →
      ∃ pkgname, copyLoop zeroed 0 dep = some pkgname ∧ pkgname.length = 256 ∧
        stringAt 0 pkgname 0 = some (compact dep)

section Running

variable (find : Bytes → Except TdnfError Unit) {dwSkipProblem : SkipProblem}
  {problem : Problem} {report : Report} {text dep prv : Bytes}

theorem Requires.not_mem (h : Requires text dep) (hnul : 0 ∉ text) : 0 ∉ dep := by
  obtain ⟨head, tail, rfl, -⟩ := h.split
  intro hmem
  apply hnul
  simp [hmem]

theorem checkForProviders_of_fits (hnul : 0 ∉ text) (hprv : Terminated prv)
    (hfits : ∀ dep, Requires text dep → Fits dep) (type : RuleInfo) :
    ∃ look, checkForProviders find type text prv = some look ∧ Terminated look.prvPkgname := by
  rw [checkForProviders]
  by_cases htype : type ≠ .pkgRequires
  · exact ⟨_, if_pos htype, hprv⟩
  · rw [if_neg htype]
    cases hcopied : copied text with
    | none => exact ⟨_, rfl, hprv⟩
    | some dep =>
        have hrequires := copied_eq_some_iff.mp hcopied
        have hfit := hfits dep hrequires
        obtain ⟨pkgname, hcopy, -, hstring⟩ := copyLoop_of_fits (hrequires.not_mem hnul) hfit
        obtain ⟨old, hold⟩ := hprv.2
        obtain ⟨prv', hstrcpy, hprv'⟩ := strcpy_eq hprv.1 hstring hfit
        by_cases hsame : compact dep = old
        · refine ⟨⟨[], .ok (), prv⟩, ?_, hprv⟩
          simp [hcopy, hstring, hold, hsame]
        · refine ⟨⟨[], find (compact dep), prv'⟩, ?_, hprv'⟩
          simp [hcopy, hstring, hold, hsame, hstrcpy]

theorem checkForProviders_of_not_fits (hnul : 0 ∉ text) (hrequires : Requires text dep)
    (hfits : ¬ Fits dep) (prv : Bytes) : checkForProviders find .pkgRequires text prv = none := by
  have hcopy := copyLoop_of_not_fits (hrequires.not_mem hnul) hfits
  rw [checkForProviders, if_neg (by simp), copied_eq_some_iff.mpr hrequires]
  cases hloop : copyLoop zeroed 0 dep with
  | none => simp [hloop]
  | some pkgname =>
      rw [hloop, Option.bind_some] at hcopy
      simp [hloop, hcopy]

theorem reportProblem_of_fits (hnul : 0 ∉ problem.pszProblem)
    (hprv : Terminated report.prvPkgname)
    (hfits : Checked dwSkipProblem problem → ∀ dep, Requires problem.pszProblem dep → Fits dep) :
    ∃ report', reportProblem find dwSkipProblem report problem = some report' ∧
      Terminated report'.prvPkgname := by
  rw [reportProblem]
  split_ifs with hskip hcheck
  · exact ⟨report, rfl, hprv⟩
  · obtain ⟨look, hlook, hprv'⟩ := checkForProviders_of_fits find hnul hprv
      (hfits ⟨by simpa using hskip, hcheck⟩) problem.type
    rw [hlook, Option.bind_eq_bind, Option.bind_some]
    cases look.result with
    | ok _ => exact ⟨_, rfl, hprv'⟩
    | error e => exact ⟨_, rfl, hprv'⟩
  · exact ⟨_, rfl, hprv⟩

theorem reportProblem_of_not_fits (hnul : 0 ∉ problem.pszProblem)
    (hchecked : Checked dwSkipProblem problem) (hrequires : Requires problem.pszProblem dep)
    (hfits : ¬ Fits dep) (report : Report) :
    reportProblem find dwSkipProblem report problem = none := by
  rw [reportProblem, if_neg (by simp [hchecked.1]), if_pos hchecked.2, hchecked.2.2,
    checkForProviders_of_not_fits find hnul hrequires hfits]
  rfl

/-- The loop ends, with a string in `prv_pkgname`, exactly if all dependencies fit. -/
theorem foldlM_reportProblem_iff {problems : List Problem}
    (hnul : ∀ problem ∈ problems, 0 ∉ problem.pszProblem) (hprv : Terminated report.prvPkgname) :
    (∃ report', problems.foldlM (reportProblem find dwSkipProblem) report = some report' ∧
      Terminated report'.prvPkgname) ↔ AllFit dwSkipProblem problems := by
  induction problems generalizing report with
  | nil =>
      constructor
      · intro _ problem hmem
        cases hmem
      · exact fun _ => ⟨report, rfl, hprv⟩
  | cons problem problems ih =>
      obtain ⟨hnul, hrest⟩ := List.forall_mem_cons.mp hnul
      rw [List.foldlM_cons, AllFit, List.forall_mem_cons]
      by_cases hfits : Checked dwSkipProblem problem →
          ∀ dep, Requires problem.pszProblem dep → Fits dep
      · obtain ⟨report', hround, hprv'⟩ := reportProblem_of_fits find hnul hprv hfits
        rw [hround, Option.bind_eq_bind, Option.bind_some, and_iff_right hfits]
        exact ih hrest hprv'
      · constructor
        · rintro ⟨report', hrun, -⟩
          push Not at hfits
          obtain ⟨hchecked, dep, hrequires, hnot⟩ := hfits
          rw [reportProblem_of_not_fits find hnul hchecked hrequires hnot] at hrun
          cases hrun
        · exact fun hall => absurd hall.1 hfits

/-- The report ends like its loop. -/
theorem exists_report_iff {problems : List Problem} :
    (∃ report, solvReportProblems find dwSkipProblem problems = some report ∧
      Terminated report.prvPkgname) ↔
    ∃ report, problems.foldlM (reportProblem find dwSkipProblem) ⟨[], 0, none, zeroed⟩ =
      some report ∧ Terminated report.prvPkgname := by
  rw [solvReportProblems]
  cases problems.foldlM (reportProblem find dwSkipProblem) ⟨[], 0, none, zeroed⟩ with
  | none => simp
  | some report =>
      rw [Option.bind_eq_bind, Option.bind_some]
      split_ifs
      · simp [Terminated]
      · simp

end Running

/-- Over any number of problems the copies stay in bounds and are right exactly if no dependency
looked at has more than 255 bytes other than spaces. -/
theorem copiesRight_iff (find : Bytes → Except TdnfError Unit) (dwSkipProblem : SkipProblem)
    (problems : List Problem) (hnul : ∀ problem ∈ problems, 0 ∉ problem.pszProblem) :
    CopiesRight find dwSkipProblem problems ↔ AllFit dwSkipProblem problems := by
  rw [CopiesRight, exists_report_iff, foldlM_reportProblem_iff find hnul terminated_zeroed]
  refine and_iff_left_of_imp fun hfits problem hmem hchecked dep hrequires => ?_
  exact copyLoop_of_fits (hrequires.not_mem (hnul problem hmem))
    (hfits problem hmem hchecked dep hrequires)

/-- A missing dependency, reported while disabled packages are to be skipped. -/
def missing (dep : Bytes) : Problem where
  type := .pkgRequires
  disabled := false
  pszProblem := ascii "package foo-1-1.noarch requires " ++ dep ++
    ascii ", but none of the providers can be installed"

/-- A rich dependency of a usual length is copied. -/
theorem copiesRight_short :
    CopiesRight (fun _ => .error .noMatch) ⟨false, false, true, false⟩
      [missing (ascii "(bar or baz >= 2)"), missing (ascii "bar")] := by
  have hdep (dep : Bytes) (hcopied : copied (missing dep).pszProblem = some dep)
      (hfits : Fits dep) : ∀ dep', Requires (missing dep).pszProblem dep' → Fits dep' := by
    intro dep' hrequires
    have hsame := hcopied.symm.trans (copied_eq_some_iff.mpr hrequires)
    cases hsame
    exact hfits
  refine (copiesRight_iff _ _ _ (by decide +kernel)).mpr fun problem hmem _ => ?_
  obtain rfl | rfl : problem = missing (ascii "(bar or baz >= 2)") ∨
      problem = missing (ascii "bar") := by simpa using hmem
  · exact hdep _ (by decide +kernel) (by decide)
  · exact hdep _ (by decide +kernel) (by decide)

/-- A dependency of 256 bytes is more than the buffers hold. -/
theorem long_dependency_overflows :
    ¬ CopiesRight (fun _ => .error .noMatch) ⟨false, false, true, false⟩
      [missing (List.replicate 256 97)] := by
  rintro ⟨⟨report, hrun, -⟩, -⟩
  have hrequires : Requires (missing (List.replicate 256 97)).pszProblem (List.replicate 256 97) :=
    copied_eq_some_iff.mp (by decide +kernel)
  have hround : reportProblem (fun _ => .error .noMatch) ⟨false, false, true, false⟩
      ⟨[], 0, none, zeroed⟩ (missing (List.replicate 256 97)) = none :=
    reportProblem_of_not_fits _ (by decide +kernel) ⟨by decide, by decide, rfl⟩ hrequires
      (by decide +kernel) _
  rw [solvReportProblems, List.foldlM_cons, hround] at hrun
  cases hrun

end Problems

end Tdnf.Solv
