import Tdnf.History.Flags
import Tdnf.Solv.Query

/-!
# Querying packages

`TDNFRepoQuery` chooses a scope for its query from the options, and filters what
the query selects. With `--duplicates` and `--upgrades` alone the scope is that
of the available packages.
-/

namespace Tdnf.Client

open PathText Solv History

/-- The selection options of `TDNF_REPOQUERY_ARGS` -/
structure RepoqueryArgs where
  nAvailable : Bool
  nDuplicates : Bool
  nExtras : Bool
  nInstalled : Bool
  nUpgrades : Bool
  nUserInstalled : Bool
deriving DecidableEq, Repr

/-- What `TDNFRepoQuery` calls; `sack` is the pool after `TDNFRefresh`. -/
structure RepoqueryHost where
  query : QueryHost
  sack : Sack
  /-- `TDNFRefresh` -/
  refresh : Except TdnfError Unit
  /-- `TDNFGetHistoryCtx` -/
  historyCtx : Except TdnfError HistoryCtx

/-- `history_get_auto_flag`, or nothing if it fails -/
def getAutoFlag (ctx : HistoryCtx) (name : Text) : Option ℤ :=
  match (historyGetAutoFlag (String.ofList name)).run ctx with
  | .ok value _ => some value
  | .error _ _ => none

/-- The checks of `TDNFRepoQuery` -/
def checkRepoqueryArgs (args : RepoqueryArgs) : Bool :=
  -- extra packages are installed by definition
  !(args.nExtras && (args.nInstalled || args.nAvailable || args.nDuplicates)) &&
    -- duplicate packages are also installed by definition
    !(args.nDuplicates && (args.nInstalled || args.nAvailable))

/-- The scope of the query, with the value `nInstalled` has after the checks -/
def repoqueryScope (args : RepoqueryArgs) (nInstalled : Bool) : Scope :=
  if !args.nExtras then
    if !nInstalled || args.nAvailable then .available
    else if nInstalled || args.nDuplicates then .installed
    else if args.nUpgrades then .upgrades
    else .all
  else .all

/-- What the query and the filter for extras or duplicates leave -/
def repoqueryFilter (host : RepoqueryHost) (args : RepoqueryArgs) (nInstalled : Bool) : List ℕ :=
  let result := applyListQuery host.query host.sack (repoqueryScope args nInstalled)
  if args.nExtras then applyExtrasFilter host.sack result
  else if args.nDuplicates then applyDuplicatesFilter host.sack result
  else result

/-- The packages that `TDNFRepoQuery` selects -/
def repoquerySelect (host : RepoqueryHost) (args : RepoqueryArgs) :
    Except TdnfError (List ℕ) := do
  if checkRepoqueryArgs args then pure () else throw .invalidParameter
  host.refresh
  -- userinstalled implies installed
  let result := repoqueryFilter host args (args.nInstalled || args.nUserInstalled)
  if args.nUserInstalled then
    let ctx ← host.historyCtx
    applyUserInstalledFilter host.sack (getAutoFlag ctx) result
  else return result

/-- `TDNFRepoQuery`, for the packages it returns; no match is reported as no data -/
def repoQuery (host : RepoqueryHost) (args : RepoqueryArgs) : Except TdnfError (List ℕ) :=
  match repoquerySelect host args >>= getQueryResult with
  | .error e => .error (if e = .noMatch then .noData else e)
  | .ok result => .ok result

/-! ## What the options are for -/

/-- The package was installed by the user. -/
def UserInstalled (host : RepoqueryHost) (p : ℕ) : Prop :=
  host.sack.isInstalled p = true ∧ ∃ ctx, host.historyCtx = .ok ctx ∧
    getAutoFlag ctx (host.sack.solvable p).name = some 0

/-- The packages that the options ask for, before those are kept that the user installed. -/
def Asked (host : RepoqueryHost) (args : RepoqueryArgs) (p : ℕ) : Prop :=
  if args.nExtras then host.sack.Extra p
  else if args.nDuplicates then host.sack.Duplicate p
  else if args.nAvailable then host.sack.Available p
  else if args.nInstalled || args.nUserInstalled then host.sack.Installed p
  else if args.nUpgrades then host.sack.Upgrade host.query.evrcmp p
  else host.sack.Available p

/-- The packages that are to be selected. -/
def Reference (host : RepoqueryHost) (args : RepoqueryArgs) (p : ℕ) : Prop :=
  Asked host args p ∧ (args.nUserInstalled = true → UserInstalled host p)

/-- What is selected are the packages that the options ask for. -/
def SelectsReference (host : RepoqueryHost) (args : RepoqueryArgs) : Prop :=
  ∀ result, repoquerySelect host args = .ok result → ∀ p, p ∈ result ↔ Reference host args p

/-- Where the scope of the available packages and the filter for duplicates do no harm. -/
def Harmless (host : RepoqueryHost) (args : RepoqueryArgs) : Prop :=
  if args.nExtras then True
  else if args.nDuplicates then
    if args.nUserInstalled then
      ∀ ctx, host.historyCtx = .ok ctx →
        (∀ p, host.sack.Duplicate p → getAutoFlag ctx (host.sack.solvable p).name ≠ none) →
        ∀ p, host.sack.Duplicate p → getAutoFlag ctx (host.sack.solvable p).name ≠ some 0
    else ∀ p, ¬ host.sack.Duplicate p
  else if args.nUserInstalled || (args.nInstalled && !args.nAvailable) then True
  else if args.nUpgrades && !args.nAvailable then
    ∀ p, host.sack.Available p →
      (host.sack.Visible p ↔ host.sack.Upgrade host.query.evrcmp p)
  else ∀ p, host.sack.Available p → host.sack.Visible p

section Select

variable {host : RepoqueryHost} {args : RepoqueryArgs} {nInstalled : Bool} {p : ℕ}

/-! ## What the filters leave -/

theorem mem_filter_extras (hextras : args.nExtras = true) :
    p ∈ repoqueryFilter host args nInstalled ↔ host.sack.Extra p := by
  have hscope : repoqueryScope args nInstalled = .all := by simp [repoqueryScope, hextras]
  rw [repoqueryFilter, hscope]
  simp only [hextras, if_true, mem_applyExtrasFilter, mem_applyListQuery_all, Sack.Extra,
    Sack.Installed, Sack.Available]
  constructor
  · rintro ⟨hpkg, hinstalled, hno⟩
    refine ⟨⟨hpkg, hinstalled⟩, ?_⟩
    rintro ⟨q, ⟨hq, havailable⟩, hsame, hevr⟩
    exact hno q hq havailable hsame hevr
  · rintro ⟨⟨hpkg, hinstalled⟩, hno⟩
    refine ⟨hpkg, hinstalled, fun q hq havailable hsame hevr => ?_⟩
    exact hno ⟨q, ⟨hq, havailable⟩, hsame, hevr⟩

theorem filter_eq_query (hextras : args.nExtras = false) (hdup : args.nDuplicates = false) :
    repoqueryFilter host args nInstalled =
      applyListQuery host.query host.sack (repoqueryScope args nInstalled) := by
  simp [repoqueryFilter, hextras, hdup]

theorem filter_duplicates (hextras : args.nExtras = false) (hdup : args.nDuplicates = true) :
    repoqueryFilter host args nInstalled = applyDuplicatesFilter host.sack
      (applyListQuery host.query host.sack (repoqueryScope args nInstalled)) := by
  simp [repoqueryFilter, hextras, hdup]

theorem scope_available (hextras : args.nExtras = false)
    (h : nInstalled = false ∨ args.nAvailable = true) :
    repoqueryScope args nInstalled = .available := by
  obtain h | h := h
  · simp [repoqueryScope, hextras, h]
  · simp [repoqueryScope, hextras, h]

theorem scope_installed (hextras : args.nExtras = false) (hinstalled : nInstalled = true)
    (havailable : args.nAvailable = false) : repoqueryScope args nInstalled = .installed := by
  simp [repoqueryScope, hextras, hinstalled, havailable]

/-- Visible packages are available. -/
theorem visible_available :
    host.sack.IsPackage p ∧ host.sack.Visible p ↔ host.sack.Available p ∧ host.sack.Visible p := by
  constructor
  · rintro ⟨hpkg, hvisible⟩
    exact ⟨⟨hpkg, not_isInstalled_of_visible hvisible⟩, hvisible⟩
  · rintro ⟨⟨hpkg, -⟩, hvisible⟩
    exact ⟨hpkg, hvisible⟩

theorem mem_filter_available (hextras : args.nExtras = false) (hdup : args.nDuplicates = false)
    (h : nInstalled = false ∨ args.nAvailable = true) :
    p ∈ repoqueryFilter host args nInstalled ↔
      host.sack.Available p ∧ host.sack.Visible p := by
  rw [filter_eq_query hextras hdup, scope_available hextras h, mem_applyListQuery_available,
    visible_available]

theorem mem_filter_installed (hextras : args.nExtras = false) (hdup : args.nDuplicates = false)
    (hinstalled : nInstalled = true) (havailable : args.nAvailable = false) :
    p ∈ repoqueryFilter host args nInstalled ↔ host.sack.Installed p := by
  rw [filter_eq_query hextras hdup, scope_installed hextras hinstalled havailable,
    mem_applyListQuery_installed]

/-- Among available packages there are no installed duplicates. -/
theorem filter_duplicates_available (hextras : args.nExtras = false)
    (hdup : args.nDuplicates = true) (hinstalled : nInstalled = false) :
    repoqueryFilter host args nInstalled = [] := by
  rw [filter_duplicates hextras hdup, scope_available hextras (.inl hinstalled)]
  apply applyDuplicatesFilter_of_not_installed
  intro p hp
  exact not_isInstalled_of_visible (mem_applyListQuery_available.mp hp).2

theorem installed_nodup (host : RepoqueryHost) :
    (applyListQuery host.query host.sack .installed).Nodup := by
  have hquery : applyListQuery host.query host.sack .installed =
      repoSolvables host.sack host.sack.installed := by
    simp [applyListQuery, applyScopeFilter]
  rw [hquery]
  exact host.sack.nodup.filter _

/-! ## Duplicates that the user installed -/

variable {getFlag : Text → Option ℤ} {out : List ℕ}

/-- The flag of a package is that of every other package of the name. -/
theorem flag_of_sameNameArch {q : ℕ} (h : sameNameArch host.sack p q = true) :
    getFlag (host.sack.solvable q).name = getFlag (host.sack.solvable p).name := by
  rw [(sameNameArch_iff.mp h).1]

/-- What the filters leave of the installed packages is right exactly if nothing is to be
left. -/
theorem duplicates_userInstalled_iff
    (h : applyUserInstalledFilter host.sack getFlag (applyDuplicatesFilter host.sack
      (applyListQuery host.query host.sack .installed)) = .ok out) :
    (∀ p, p ∈ out ↔ host.sack.Duplicate p ∧ getFlag (host.sack.solvable p).name = some 0) ↔
      ∀ p, host.sack.Duplicate p → getFlag (host.sack.solvable p).name ≠ some 0 := by
  constructor
  · intro hright p hp hflag
    obtain ⟨q, hq, hinstalled, hsame, hmiss⟩ := applyDuplicatesFilter_misses
      (installed_nodup host) (mem_applyListQuery_installed.mpr hp.1) hp.1.2
    have hqdup : host.sack.Duplicate q := by
      by_cases heq : q = p
      · rw [heq]
        exact hp
      · exact ⟨mem_applyListQuery_installed.mp hq, p, hp.1, Ne.symm heq, sameNameArch_symm hsame⟩
    have hqout := (hright q).mpr ⟨hqdup, (flag_of_sameNameArch hsame).trans hflag⟩
    exact hmiss ((mem_applyUserInstalledFilter h).mp hqout).1
  · intro hnone p
    refine ⟨fun hp => ?_, fun ⟨hp, hflag⟩ => absurd hflag (hnone p hp)⟩
    obtain ⟨hmem, hinstalled, hflag⟩ := (mem_applyUserInstalledFilter h).mp hp
    obtain ⟨-, q, hq, hqinstalled, hne, hsame⟩ :=
      applyDuplicatesFilter_sound (installed_nodup host) hmem
    have hpdup : host.sack.Duplicate p :=
      ⟨mem_applyListQuery_installed.mp (mem_of_mem_applyDuplicatesFilter hmem), q,
        mem_applyListQuery_installed.mp hq, hne, hsame⟩
    exact ⟨hpdup, hflag⟩

/-- The flags of the selected duplicates can be read exactly if those of all duplicates can. -/
theorem duplicates_readable_iff :
    (∃ out, applyUserInstalledFilter host.sack getFlag (applyDuplicatesFilter host.sack
      (applyListQuery host.query host.sack .installed)) = .ok out) ↔
      ∀ p, host.sack.Duplicate p → getFlag (host.sack.solvable p).name ≠ none := by
  rw [applyUserInstalledFilter_isOk]
  constructor
  · rintro h p ⟨hp, q, hq, hne, hsame⟩
    have hmem (q : ℕ) (hq : host.sack.Installed q) :
        q ∈ applyListQuery host.query host.sack .installed := mem_applyListQuery_installed.mpr hq
    obtain ⟨r, hr, hsame'⟩ :=
      applyDuplicatesFilter_selects (hmem p hp) (hmem q hq) hne hp.2 hq.2 hsame
    have hrinstalled := (applyDuplicatesFilter_sound (installed_nodup host) hr).1
    have hflag : getFlag (host.sack.solvable r).name = getFlag (host.sack.solvable p).name :=
      flag_of_sameNameArch hsame'
    rw [← hflag]
    exact h r hr hrinstalled
  · intro h p hp _
    obtain ⟨-, q, hq, -, hne, hsame⟩ := applyDuplicatesFilter_sound (installed_nodup host) hp
    exact h p ⟨mem_applyListQuery_installed.mp (mem_of_mem_applyDuplicatesFilter hp), q,
      mem_applyListQuery_installed.mp hq, hne, hsame⟩

/-! ## When the selection is right -/

theorem select_rejected (h : checkRepoqueryArgs args = false ∨ ∃ e, host.refresh = .error e) :
    ∃ e, repoquerySelect host args = .error e := by
  rw [repoquerySelect]
  cases hcheck : checkRepoqueryArgs args with
  | false => exact ⟨.invalidParameter, rfl⟩
  | true =>
      obtain h | ⟨e, he⟩ := h
      · cases hcheck.symm.trans h
      · rw [he]
        exact ⟨e, rfl⟩

theorem select_all (hcheck : checkRepoqueryArgs args = true) (hrefresh : host.refresh = .ok ())
    (huser : args.nUserInstalled = false) :
    repoquerySelect host args = .ok (repoqueryFilter host args args.nInstalled) := by
  rw [repoquerySelect, hcheck, hrefresh, huser, Bool.or_false]
  rfl

theorem select_user (hcheck : checkRepoqueryArgs args = true) (hrefresh : host.refresh = .ok ())
    (huser : args.nUserInstalled = true) :
    repoquerySelect host args = (do
      let ctx ← host.historyCtx
      applyUserInstalledFilter host.sack (getAutoFlag ctx) (repoqueryFilter host args true)) := by
  rw [repoquerySelect, hcheck, hrefresh, huser, Bool.or_true]
  rfl

/-- Without `--userinstalled` all that the filters leave is selected. -/
theorem selectsReference_all_iff (hcheck : checkRepoqueryArgs args = true)
    (hrefresh : host.refresh = .ok ()) (huser : args.nUserInstalled = false) :
    SelectsReference host args ↔
      ∀ p, p ∈ repoqueryFilter host args args.nInstalled ↔ Asked host args p := by
  rw [SelectsReference, select_all hcheck hrefresh huser]
  simp [Reference, huser]

/-- With `--userinstalled` those are kept that the user installed. -/
theorem selectsReference_user_of (hcheck : checkRepoqueryArgs args = true)
    (hrefresh : host.refresh = .ok ()) (huser : args.nUserInstalled = true)
    (h : ∀ p, UserInstalled host p →
      (p ∈ repoqueryFilter host args true ↔ Asked host args p)) :
    SelectsReference host args := by
  intro result hresult p
  rw [select_user hcheck hrefresh huser] at hresult
  obtain ⟨ctx, hctx, hfilter⟩ := Procedure.exists_of_bind_ok hresult
  rw [mem_applyUserInstalledFilter hfilter, Reference]
  constructor
  · rintro ⟨hp, hinstalled, hflag⟩
    have hpuser : UserInstalled host p := ⟨hinstalled, ctx, hctx, hflag⟩
    exact ⟨(h p hpuser).mp hp, fun _ => hpuser⟩
  · rintro ⟨hasked, hpuser⟩
    obtain ⟨hinstalled, ctx', hctx', hflag⟩ := hpuser huser
    cases hctx.symm.trans hctx'
    exact ⟨(h p (hpuser huser)).mpr hasked, hinstalled, hflag⟩

theorem selectsReference_duplicates_user_iff (hcheck : checkRepoqueryArgs args = true)
    (hrefresh : host.refresh = .ok ()) (huser : args.nUserInstalled = true)
    (hextras : args.nExtras = false) (hdup : args.nDuplicates = true) :
    SelectsReference host args ↔ ∀ ctx, host.historyCtx = .ok ctx →
      (∀ p, host.sack.Duplicate p → getAutoFlag ctx (host.sack.solvable p).name ≠ none) →
      ∀ p, host.sack.Duplicate p → getAutoFlag ctx (host.sack.solvable p).name ≠ some 0 := by
  have havailable : args.nAvailable = false := by
    simp only [checkRepoqueryArgs, hdup, Bool.true_and, Bool.and_eq_true, Bool.not_eq_true',
      Bool.or_eq_false_iff] at hcheck
    exact hcheck.2.2
  have hreference : ∀ ctx, host.historyCtx = .ok ctx → ∀ p, Reference host args p ↔
      host.sack.Duplicate p ∧ getAutoFlag ctx (host.sack.solvable p).name = some 0 := by
    intro ctx hctx p
    simp only [Reference, Asked, hextras, hdup, huser, if_true, forall_const, UserInstalled,
      Bool.false_eq_true, if_false]
    constructor
    · rintro ⟨hp, -, ctx', hctx', hflag⟩
      cases hctx.symm.trans hctx'
      exact ⟨hp, hflag⟩
    · rintro ⟨hp, hflag⟩
      exact ⟨hp, hp.1.2, ctx, hctx, hflag⟩
  rw [SelectsReference, select_user hcheck hrefresh huser, filter_duplicates hextras hdup,
    scope_installed hextras rfl havailable]
  cases hctx : host.historyCtx with
  | error e => simp [bind, Except.bind]
  | ok ctx =>
      have hright := hreference ctx hctx
      constructor
      · rintro h _ ⟨⟩ hreadable
        obtain ⟨out, hout⟩ := duplicates_readable_iff.mpr hreadable
        refine (duplicates_userInstalled_iff hout).mp fun p => ?_
        rw [h out hout, hright]
      · intro h out hout p
        have hreadable := duplicates_readable_iff.mp ⟨out, hout⟩
        rw [hright]
        exact (duplicates_userInstalled_iff hout).mpr (h ctx rfl hreadable) p

/-- Without the filters for extras and duplicates the scope decides. -/
theorem selectsReference_scope_iff (hcheck : checkRepoqueryArgs args = true)
    (hrefresh : host.refresh = .ok ()) (hextras : args.nExtras = false)
    (hdup : args.nDuplicates = false) :
    SelectsReference host args ↔
      if args.nUserInstalled || (args.nInstalled && !args.nAvailable) then True
      else if args.nUpgrades && !args.nAvailable then
        ∀ p, host.sack.Available p →
          (host.sack.Visible p ↔ host.sack.Upgrade host.query.evrcmp p)
      else ∀ p, host.sack.Available p → host.sack.Visible p := by
  have hasked : ∀ p, Asked host args p ↔
      if args.nAvailable then host.sack.Available p
      else if args.nInstalled || args.nUserInstalled then host.sack.Installed p
      else if args.nUpgrades then host.sack.Upgrade host.query.evrcmp p
      else host.sack.Available p := by
    intro p
    simp [Asked, hextras, hdup]
  cases huser : args.nUserInstalled with
  | true =>
      refine iff_of_true (selectsReference_user_of hcheck hrefresh huser ?_) (by simp)
      rintro p ⟨hpinstalled, -⟩
      rw [hasked]
      cases havailable : args.nAvailable with
      | true =>
          -- no package is both available and installed
          rw [mem_filter_available hextras hdup (.inr havailable), if_pos rfl]
          refine iff_of_false ?_ ?_
          · rintro ⟨⟨-, hp⟩, -⟩
            cases hpinstalled.symm.trans hp
          · rintro ⟨-, hp⟩
            cases hpinstalled.symm.trans hp
      | false =>
          rw [mem_filter_installed hextras hdup rfl havailable]
          simp [huser]
  | false =>
      rw [selectsReference_all_iff hcheck hrefresh huser]
      cases havailable : args.nAvailable with
      | true =>
          simp only [hasked, mem_filter_available hextras hdup (.inr havailable), havailable,
            if_true, Bool.not_true, Bool.and_false, Bool.or_false, Bool.false_eq_true, if_false]
          exact forall_congr' fun p => and_iff_left_iff_imp
      | false =>
          cases hinstalled : args.nInstalled with
          | true =>
              simp [hasked, mem_filter_installed hextras hdup rfl havailable, havailable,
                hinstalled]
          | false =>
              simp only [hasked, mem_filter_available hextras hdup (.inl rfl), havailable,
                hinstalled, huser, Bool.or_false, Bool.false_eq_true, if_false,
                Bool.not_false, Bool.and_true]
              cases hupgrades : args.nUpgrades with
              | true =>
                  simp only [if_true]
                  refine forall_congr' fun p =>
                    ⟨fun h hp => ?_, fun h => ⟨fun hp => ?_, fun hp => ?_⟩⟩
                  · rw [← h, and_iff_right hp]
                  · exact (h hp.1).mp hp.2
                  · exact ⟨hp.1, (h hp.1).mpr hp⟩
              | false =>
                  simp only [Bool.false_eq_true, if_false]
                  exact forall_congr' fun p => and_iff_left_iff_imp

/-- The selection is right exactly where the scope of the available packages and the filter for
duplicates do no harm. -/
theorem repoquery_selects_iff (host : RepoqueryHost) (args : RepoqueryArgs) :
    SelectsReference host args ↔
      (checkRepoqueryArgs args = true → host.refresh = .ok () → Harmless host args) := by
  by_cases hrejected : checkRepoqueryArgs args = false ∨ ∃ e, host.refresh = .error e
  · obtain ⟨e, he⟩ := select_rejected hrejected
    refine iff_of_true (fun result hresult => ?_) fun hcheck hrefresh => ?_
    · cases he.symm.trans hresult
    · obtain h | ⟨e, he⟩ := hrejected
      · cases hcheck.symm.trans h
      · cases hrefresh.symm.trans he
  · rw [not_or, Bool.not_eq_false] at hrejected
    obtain ⟨hcheck, hrefresh⟩ := hrejected
    have hrefresh : host.refresh = .ok () := by
      cases hr : host.refresh with
      | error e => exact absurd ⟨e, hr⟩ hrefresh
      | ok _ => rfl
    rw [imp_iff_right hcheck, imp_iff_right hrefresh, Harmless]
    cases hextras : args.nExtras with
    | true =>
        refine iff_of_true ?_ trivial
        have hasked : ∀ p nInstalled, p ∈ repoqueryFilter host args nInstalled ↔
            Asked host args p := by
          intro p nInstalled
          rw [mem_filter_extras hextras, Asked, if_pos hextras]
        cases huser : args.nUserInstalled with
        | false => exact (selectsReference_all_iff hcheck hrefresh huser).mpr fun p => hasked p _
        | true => exact selectsReference_user_of hcheck hrefresh huser fun p _ => hasked p true
    | false =>
        cases hdup : args.nDuplicates with
        | true =>
            cases huser : args.nUserInstalled with
            | true =>
                exact selectsReference_duplicates_user_iff hcheck hrefresh huser hextras hdup
            | false =>
                have hinstalled : args.nInstalled = false := by
                  simp only [checkRepoqueryArgs, hdup, Bool.true_and, Bool.and_eq_true,
                    Bool.not_eq_true', Bool.or_eq_false_iff] at hcheck
                  exact hcheck.2.1
                rw [selectsReference_all_iff hcheck hrefresh huser,
                  filter_duplicates_available hextras hdup hinstalled]
                simp [Asked, hextras, hdup]
        | false => exact selectsReference_scope_iff hcheck hrefresh hextras hdup

end Select

/-- Two versions of a package are installed. -/
def twoKernels : Sack where
  repos := ownRepos
  installed := 0
  ids := [2, 3]
  solvable := fun p => ⟨"kernel".toList, if p = 2 then "1-1".toList else "2-1".toList,
    "x86_64".toList, 0⟩
  nodup := List.nodup_cons.mpr ⟨by decide, List.nodup_singleton 3⟩
  owned := fun _ _ => ⟨⟨0, "@System".toList⟩, List.mem_cons_self, rfl⟩
  system := ownRepos_system
  cmdline := ownRepos_cmdline

/-- `--duplicates` finds neither of them. -/
theorem duplicates_not_found : ¬ SelectsReference
    ⟨⟨fun _ _ => 0, fun _ => []⟩, twoKernels, .ok (), .error .historyError⟩
    ⟨false, true, false, false, false, false⟩ := by
  intro h
  have hdup : twoKernels.Duplicate 2 := by
    refine ⟨⟨⟨by decide, by decide⟩, by decide⟩, 3, ⟨⟨by decide, by decide⟩, by decide⟩, ?_, ?_⟩
    · decide
    · decide
  have hselected := (h [] rfl 2).mpr ⟨hdup, fun huser => by cases huser⟩
  cases hselected

end Tdnf.Client
