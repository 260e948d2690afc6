import Tdnf.Common.Strings
import Tdnf.Library.Procedure
import Tdnf.Solv.Sack

/-!
# Queries without package names

A query selects the solvables of a scope and passes them through filters. The
filters for extra and duplicate packages compare the selected packages with one
another.
-/

namespace Tdnf.Solv

open PathText Common

/-- The scopes of `TDNF_SCOPE` in use here. -/
inductive Scope where
  | all
  | installed
  | available
  | upgrades
deriving DecidableEq, Repr

/-- What the selection of updates calls. -/
structure QueryHost where
  /-- `pool_evrcmp` -/
  evrcmp : Text → Text → ℤ
  /-- `SolvFindAvailablePkgByName` -/
  findAvailablePkgByName : Text → List ℕ

section Code

variable (host : QueryHost) (sack : Sack)

/-- `SolvAddAvailableRepoFilter` -/
def addAvailableRepoFilter : List ℕ :=
  (sack.repos.filter fun repo => !equalsCase repo.name "@system".toList).map SackRepo.repoid

/-- The repositories that `TDNFApplyScopeFilter` adds to the repository filter -/
def applyScopeFilter : Scope → List ℕ
  | .installed => [sack.installed]
  | .available => addAvailableRepoFilter sack
  | _ => []

/-- `FOR_REPO_SOLVABLES`, without pseudo packages -/
def repoSolvables (repoid : ℕ) : List ℕ :=
  sack.ids.filter fun p => (sack.solvable p).repo == repoid && !sack.isPseudo p

/-- `SolvFindUpDownCandidateForSinglePkg`, for upgrades -/
def upCandidates (p : ℕ) : List ℕ :=
  (host.findAvailablePkgByName (sack.solvable p).name).filter fun candidate =>
    0 < host.evrcmp (sack.solvable candidate).evr (sack.solvable p).evr

/-- `SolvApplyListQuery` of a query without package names -/
def applyListQuery (nScope : Scope) : List ℕ :=
  match nScope, applyScopeFilter sack nScope with
  | .upgrades, _ => (repoSolvables sack sack.installed).flatMap (upCandidates host sack)
  | _, [] => sack.ids.filter fun p => !sack.isPseudo p
  | _, repoids => repoids.flatMap (repoSolvables sack)

/-- `SolvGetQueryResult` -/
def getQueryResult (result : List ℕ) : Except TdnfError (List ℕ) :=
  if result = [] then .error .noMatch else .ok result

/-- Two solvables have the same name and the same architecture. -/
def sameNameArch (p q : ℕ) : Bool :=
  (sack.solvable q).name == (sack.solvable p).name &&
    (sack.solvable q).arch == (sack.solvable p).arch

/-- `SolvApplyExtrasFilter` -/
def applyExtrasFilter (result : List ℕ) : List ℕ :=
  (result.zipIdx.filter fun (p, i) => sack.isInstalled p &&
    !result.zipIdx.any fun (q, j) => i != j && !sack.isInstalled q && sameNameArch sack p q &&
      (sack.solvable q).evr == (sack.solvable p).evr).map Prod.fst

/-- `SolvApplyDuplicatesFilter`; every package is compared with those behind it. -/
def applyDuplicatesFilter : List ℕ → List ℕ
  | [] => []
  | p :: rest =>
    if sack.isInstalled p && rest.any fun q => sack.isInstalled q && sameNameArch sack p q then
      p :: applyDuplicatesFilter rest
    else applyDuplicatesFilter rest

/-- `SolvApplyUserInstalledFilter`, with `history_get_auto_flag` -/
def applyUserInstalledFilter (getAutoFlag : Text → Option ℤ) :
    List ℕ → Except TdnfError (List ℕ)
  | [] => .ok []
  | p :: rest =>
    if sack.isInstalled p then
      match getAutoFlag (sack.solvable p).name with
      | none => .error .historyError
      | some value => do
        let rest ← applyUserInstalledFilter getAutoFlag rest
        return if value = 0 then p :: rest else rest
    else applyUserInstalledFilter getAutoFlag rest

end Code

/-! ## What the filters are for -/

namespace Sack

variable (sack : Sack)

/-- A package of the pool. -/
def IsPackage (p : ℕ) : Prop := p ∈ sack.ids ∧ sack.isPseudo p = false

def Installed (p : ℕ) : Prop := sack.IsPackage p ∧ sack.isInstalled p = true

def Available (p : ℕ) : Prop := sack.IsPackage p ∧ sack.isInstalled p = false

/-- Another installed package has the same name and architecture. -/
def Duplicate (p : ℕ) : Prop :=
  sack.Installed p ∧ ∃ q, sack.Installed q ∧ q ≠ p ∧ sameNameArch sack p q = true

/-- No available package has the same name, architecture and version. -/
def Extra (p : ℕ) : Prop :=
  sack.Installed p ∧ ¬ ∃ q, sack.Available q ∧ sameNameArch sack p q = true ∧
    (sack.solvable q).evr = (sack.solvable p).evr

/-- The name is installed, in lower versions only. -/
def Upgrade (evrcmp : Text → Text → ℤ) (p : ℕ) : Prop :=
  sack.Available p ∧ (∃ q, sack.Installed q ∧ (sack.solvable q).name = (sack.solvable p).name) ∧
    ∀ q, sack.Installed q → (sack.solvable q).name = (sack.solvable p).name →
      0 < evrcmp (sack.solvable p).evr (sack.solvable q).evr

/-- The repository of the package is among those that are taken for available. -/
def Visible (p : ℕ) : Prop := (sack.solvable p).repo ∈ addAvailableRepoFilter sack

end Sack

section Selection

variable {host : QueryHost} {sack : Sack} {p q : ℕ} {l : List ℕ}

theorem mem_repoSolvables {repoid : ℕ} :
    p ∈ repoSolvables sack repoid ↔ sack.IsPackage p ∧ (sack.solvable p).repo = repoid := by
  simp [repoSolvables, Sack.IsPackage, and_assoc, and_comm]

theorem mem_applyListQuery_all :
    p ∈ applyListQuery host sack .all ↔ sack.IsPackage p := by
  simp [applyListQuery, applyScopeFilter, Sack.IsPackage]

theorem mem_applyListQuery_installed :
    p ∈ applyListQuery host sack .installed ↔ sack.Installed p := by
  simp [applyListQuery, applyScopeFilter, mem_repoSolvables, Sack.Installed, Sack.isInstalled]

theorem addAvailableRepoFilter_ne_nil : addAvailableRepoFilter sack ≠ [] := by
  obtain ⟨repo, hrepo, hname⟩ := sack.cmdline
  apply List.ne_nil_of_mem (a := repo.repoid)
  apply List.mem_map_of_mem
  rw [List.mem_filter, hname]
  exact ⟨hrepo, by decide⟩

theorem mem_applyListQuery_available :
    p ∈ applyListQuery host sack .available ↔ sack.IsPackage p ∧ sack.Visible p := by
  have hne : addAvailableRepoFilter sack ≠ [] := addAvailableRepoFilter_ne_nil
  obtain ⟨repoid, repoids, hfilter⟩ := List.exists_cons_of_ne_nil hne
  have hquery : applyListQuery host sack .available =
      (addAvailableRepoFilter sack).flatMap (repoSolvables sack) := by
    simp only [applyListQuery, applyScopeFilter, hfilter]
  rw [hquery, List.mem_flatMap]
  constructor
  · rintro ⟨repoid, hmem, hp⟩
    obtain ⟨hpkg, rfl⟩ := mem_repoSolvables.mp hp
    exact ⟨hpkg, hmem⟩
  · rintro ⟨hpkg, hvisible⟩
    exact ⟨_, hvisible, mem_repoSolvables.mpr ⟨hpkg, rfl⟩⟩

/-- What is taken for available is not installed. -/
theorem not_isInstalled_of_visible (h : sack.Visible p) : sack.isInstalled p = false := by
  obtain ⟨repo, hrepo, hid⟩ := List.mem_map.mp h
  obtain ⟨hmem, hname⟩ := List.mem_filter.mp hrepo
  rw [Sack.isInstalled, beq_eq_false_iff_ne]
  intro hinstalled
  rw [sack.system repo hmem (hid.trans hinstalled)] at hname
  exact absurd hname (by decide)

theorem mem_applyExtrasFilter :
    p ∈ applyExtrasFilter sack l ↔ p ∈ l ∧ sack.isInstalled p = true ∧
      ∀ q ∈ l, sack.isInstalled q = false → sameNameArch sack p q = true →
        (sack.solvable q).evr ≠ (sack.solvable p).evr := by
  rw [applyExtrasFilter, List.mem_map]
  constructor
  · rintro ⟨⟨p, i⟩, hmem, rfl⟩
    obtain ⟨hzip, htest⟩ := List.mem_filter.mp hmem
    have hi : l[i]? = some p := List.mk_mem_zipIdx_iff_getElem?.mp hzip
    rw [Bool.and_eq_true, Bool.not_eq_true', List.any_eq_false] at htest
    refine ⟨List.mem_of_getElem? hi, htest.1, fun q hq hinstalled hsame hevr => ?_⟩
    obtain ⟨j, hj⟩ := List.getElem?_of_mem hq
    have hne : i ≠ j := by
      rintro rfl
      cases hi.symm.trans hj
      simp [hinstalled] at htest
    apply htest.2 (q, j) (List.mk_mem_zipIdx_iff_getElem?.mpr hj)
    simp [hne, hinstalled, hsame, hevr]
  · rintro ⟨hp, hinstalled, hno⟩
    obtain ⟨i, hi⟩ := List.getElem?_of_mem hp
    refine ⟨(p, i), List.mem_filter.mpr ⟨List.mk_mem_zipIdx_iff_getElem?.mpr hi, ?_⟩, rfl⟩
    rw [Bool.and_eq_true, Bool.not_eq_true', List.any_eq_false]
    refine ⟨hinstalled, ?_⟩
    rintro ⟨q, j⟩ hq htest
    have hj : l[j]? = some q := List.mk_mem_zipIdx_iff_getElem?.mp hq
    simp only [Bool.and_eq_true, Bool.not_eq_true', beq_iff_eq] at htest
    exact hno q (List.mem_of_getElem? hj) htest.1.1.2 htest.1.2 htest.2

/-! ## Duplicates -/

theorem sameNameArch_iff : sameNameArch sack p q = true ↔
    (sack.solvable q).name = (sack.solvable p).name ∧
      (sack.solvable q).arch = (sack.solvable p).arch := by
  simp [sameNameArch]

theorem sameNameArch_self (p : ℕ) : sameNameArch sack p p = true :=
  sameNameArch_iff.mpr ⟨rfl, rfl⟩

theorem sameNameArch_symm (h : sameNameArch sack p q = true) : sameNameArch sack q p = true := by
  obtain ⟨hname, harch⟩ := sameNameArch_iff.mp h
  exact sameNameArch_iff.mpr ⟨hname.symm, harch.symm⟩

theorem sameNameArch_trans {r : ℕ} (h : sameNameArch sack p q = true)
    (h' : sameNameArch sack q r = true) : sameNameArch sack p r = true := by
  obtain ⟨hname, harch⟩ := sameNameArch_iff.mp h
  obtain ⟨hname', harch'⟩ := sameNameArch_iff.mp h'
  exact sameNameArch_iff.mpr ⟨hname'.trans hname, harch'.trans harch⟩

theorem mem_of_mem_applyDuplicatesFilter (h : p ∈ applyDuplicatesFilter sack l) : p ∈ l := by
  induction l with
  | nil => exact h
  | cons a rest ih =>
      rw [applyDuplicatesFilter] at h
      split_ifs at h with hfound
      · obtain rfl | h := List.mem_cons.mp h
        · exact List.mem_cons_self
        · exact List.mem_cons_of_mem a (ih h)
      · exact List.mem_cons_of_mem a (ih h)

/-- The filter selects duplicates. -/
theorem applyDuplicatesFilter_sound (hl : l.Nodup) (h : p ∈ applyDuplicatesFilter sack l) :
    sack.isInstalled p = true ∧
      ∃ q ∈ l, sack.isInstalled q = true ∧ q ≠ p ∧ sameNameArch sack p q = true := by
  induction l with
  | nil => cases h
  | cons a rest ih =>
      obtain ⟨ha, hrest⟩ := List.nodup_cons.mp hl
      have htail : p ∈ applyDuplicatesFilter sack rest → sack.isInstalled p = true ∧
          ∃ q ∈ a :: rest, sack.isInstalled q = true ∧ q ≠ p ∧ sameNameArch sack p q = true := by
        intro hp
        obtain ⟨hinstalled, q, hq, hfound⟩ := ih hrest hp
        exact ⟨hinstalled, q, List.mem_cons_of_mem a hq, hfound⟩
      rw [applyDuplicatesFilter] at h
      split_ifs at h with hfound
      · obtain rfl | h := List.mem_cons.mp h
        · obtain ⟨hinstalled, hany⟩ := Bool.and_eq_true_iff.mp hfound
          obtain ⟨q, hq, hboth⟩ := List.any_eq_true.mp hany
          obtain ⟨hqinstalled, hsame⟩ := Bool.and_eq_true_iff.mp hboth
          refine ⟨hinstalled, q, List.mem_cons_of_mem p hq, hqinstalled, ?_, hsame⟩
          rintro rfl
          exact ha hq
        · exact htail h
      · exact htail h

/-- The last package of every group is missed. -/
theorem applyDuplicatesFilter_misses (hl : l.Nodup) (hp : p ∈ l)
    (hinstalled : sack.isInstalled p = true) :
    ∃ q ∈ l, sack.isInstalled q = true ∧ sameNameArch sack p q = true ∧
      q ∉ applyDuplicatesFilter sack l := by
  induction l generalizing p with
  | nil => cases hp
  | cons a rest ih =>
      obtain ⟨ha, hrest⟩ := List.nodup_cons.mp hl
      by_cases hlater : ∃ r ∈ rest, sack.isInstalled r = true ∧ sameNameArch sack p r = true
      · obtain ⟨r, hr, hrinstalled, hsame⟩ := hlater
        obtain ⟨q, hq, hqinstalled, hsame', hmiss⟩ := ih hrest hr hrinstalled
        refine ⟨q, List.mem_cons_of_mem a hq, hqinstalled, sameNameArch_trans hsame hsame', ?_⟩
        have hne : q ≠ a := by
          rintro rfl
          exact ha hq
        rw [applyDuplicatesFilter]
        split_ifs with hfound
        · simp [hne, hmiss]
        · exact hmiss
      · -- no package of the group follows, so that `p` is the first element and is not selected
        obtain rfl | hp := List.mem_cons.mp hp
        · refine ⟨p, List.mem_cons_self, hinstalled, sameNameArch_self p, ?_⟩
          rw [applyDuplicatesFilter, if_neg]
          · exact fun hmem => ha (mem_of_mem_applyDuplicatesFilter hmem)
          · rw [hinstalled, Bool.true_and, List.any_eq_true]
            rintro ⟨r, hr, hboth⟩
            exact hlater ⟨r, hr, Bool.and_eq_true_iff.mp hboth⟩
        · exact absurd ⟨p, hp, hinstalled, sameNameArch_self p⟩ hlater

/-- Some package of every group of two is selected. -/
theorem applyDuplicatesFilter_selects (hp : p ∈ l) (hq : q ∈ l) (hne : q ≠ p)
    (hpinstalled : sack.isInstalled p = true) (hqinstalled : sack.isInstalled q = true)
    (hsame : sameNameArch sack p q = true) :
    ∃ r ∈ applyDuplicatesFilter sack l, sameNameArch sack p r = true := by
  induction l with
  | nil => cases hp
  | cons a rest ih =>
      have hfirst : ∀ b, sack.isInstalled a = true → b ∈ rest → sack.isInstalled b = true →
          sameNameArch sack a b = true → a ∈ applyDuplicatesFilter sack (a :: rest) := by
        intro b hainstalled hb hbinstalled hab
        rw [applyDuplicatesFilter, if_pos]
        · exact List.mem_cons_self
        · rw [hainstalled, Bool.true_and, List.any_eq_true]
          exact ⟨b, hb, by rw [hbinstalled, hab]; rfl⟩
      obtain rfl | hp' := List.mem_cons.mp hp
      · have hq' : q ∈ rest := (List.mem_cons.mp hq).resolve_left hne
        exact ⟨p, hfirst q hpinstalled hq' hqinstalled hsame, sameNameArch_self p⟩
      · obtain rfl | hq' := List.mem_cons.mp hq
        · exact ⟨q, hfirst p hqinstalled hp' hpinstalled (sameNameArch_symm hsame), hsame⟩
        · obtain ⟨r, hr, hsame'⟩ := ih hp' hq'
          refine ⟨r, ?_, hsame'⟩
          rw [applyDuplicatesFilter]
          split_ifs with hfound
          · exact List.mem_cons_of_mem a hr
          · exact hr

theorem applyDuplicatesFilter_of_not_installed (h : ∀ p ∈ l, sack.isInstalled p = false) :
    applyDuplicatesFilter sack l = [] := by
  induction l with
  | nil => rfl
  | cons a rest ih =>
      rw [List.forall_mem_cons] at h
      rw [applyDuplicatesFilter, h.1, Bool.false_and, ih h.2]
      rfl

/-! ## User-installed packages -/

variable {getAutoFlag : Text → Option ℤ} {out : List ℕ}

theorem mem_applyUserInstalledFilter
    (h : applyUserInstalledFilter sack getAutoFlag l = .ok out) :
    p ∈ out ↔ p ∈ l ∧ sack.isInstalled p = true ∧
      getAutoFlag (sack.solvable p).name = some 0 := by
  induction l generalizing out with
  | nil =>
      cases h
      simp
  | cons a rest ih =>
      rw [applyUserInstalledFilter] at h
      cases hinstalled : sack.isInstalled a with
      | false =>
          rw [hinstalled] at h
          rw [ih h, List.mem_cons]
          constructor
          · rintro ⟨hp, htest⟩
            exact ⟨.inr hp, htest⟩
          · rintro ⟨rfl | hp, hp', hflag⟩
            · rw [hinstalled] at hp'
              cases hp'
            · exact ⟨hp, hp', hflag⟩
      | true =>
          rw [hinstalled, if_pos rfl] at h
          cases hflag : getAutoFlag (sack.solvable a).name with
          | none =>
              rw [hflag] at h
              cases h
          | some value =>
              rw [hflag] at h
              obtain ⟨out', hout', h⟩ := Procedure.exists_of_bind_ok h
              cases h
              have hrest := ih hout'
              by_cases hzero : value = 0
              · subst hzero
                rw [if_pos rfl, List.mem_cons, List.mem_cons, hrest]
                constructor
                · rintro (rfl | ⟨hp, htest⟩)
                  · exact ⟨.inl rfl, hinstalled, hflag⟩
                  · exact ⟨.inr hp, htest⟩
                · rintro ⟨rfl | hp, htest⟩
                  · exact .inl rfl
                  · exact .inr ⟨hp, htest⟩
              · rw [if_neg hzero, List.mem_cons, hrest]
                constructor
                · rintro ⟨hp, htest⟩
                  exact ⟨.inr hp, htest⟩
                · rintro ⟨rfl | hp, hp', hflag'⟩
                  · cases hflag.symm.trans hflag'
                    exact absurd rfl hzero
                  · exact ⟨hp, hp', hflag'⟩

theorem applyUserInstalledFilter_isOk :
    (∃ out, applyUserInstalledFilter sack getAutoFlag l = .ok out) ↔
      ∀ p ∈ l, sack.isInstalled p = true → getAutoFlag (sack.solvable p).name ≠ none := by
  induction l with
  | nil => simp [applyUserInstalledFilter]
  | cons a rest ih =>
      rw [applyUserInstalledFilter, List.forall_mem_cons, ← ih]
      cases hinstalled : sack.isInstalled a with
      | false => simp
      | true =>
          cases hflag : getAutoFlag (sack.solvable a).name with
          | none => simp
          | some value =>
              cases applyUserInstalledFilter sack getAutoFlag rest with
              | error e => simp [bind, Except.bind]
              | ok out => simp [bind, Except.bind, pure, Except.pure]

end Selection

end Tdnf.Solv
