import Tdnf.Client.Resolve
import Tdnf.Solv.Solver

/-!
# Packages removed by downgrades

A downgrade is an installation together with the removal of what it replaces.
`TDNFGetDownGradePackages` takes the installations from the transaction, and for
each the first installed package of its name as the one to be removed.
-/

namespace Tdnf.Client

open PathText Common Procedure Solv

/-- The parts of `TDNF_PKG_INFO` that are read here: the package and `pszName`. -/
abbrev NamedPkg := ℕ × Text

section Code

variable (host : AlterHost)

/-- `TDNFPopulatePkgInfos`; each package goes to the front of the list. -/
def populatePkgInfos (pkgs : List ℕ) : Except TdnfError (List NamedPkg) := do
  if pkgs = [] then throw .noMatch
  let infos ← pkgs.mapM fun id => do
    let pszName ← poolString (host.pkgName id)
    return (id, pszName)
  return infos.reverse

/-- `SolvQueueToPackageList` -/
def queueToPackageList (queue : List ℕ) : Except TdnfError (List ℕ) :=
  if queue = [] then .error .noData else .ok queue

/-- The end of the functions that take missing data for an empty list. -/
def absorbNoData {α : Type} (x : Except TdnfError (List α)) : Except TdnfError (List α) :=
  match x with
  | .ok infos => .ok infos
  | .error e => if e = .noData then .ok [] else .error e

/-- `TDNFGetPackagesWithSpecifiedType` -/
def getPackagesWithSpecifiedType (pTrans : Transaction) (dwType : TransactionType) :
    Except TdnfError (List NamedPkg) :=
  absorbNoData do
    let pkgs ← queueToPackageList (solvGetTransResultsWithType pTrans dwType)
    populatePkgInfos host pkgs

/-- One round of the loop in `TDNFGetDownGradePackages` -/
def firstInstalled (pInfo : NamedPkg) : Except TdnfError ℕ := do
  let installed ← findPkgByName host .installed pInfo.2
  getPackageId installed 0

/-- `TDNFGetDownGradePackages`: the downgrades, and the packages that they remove -/
def getDownGradePackages (pTrans : Transaction) :
    Except TdnfError (List NamedPkg × List NamedPkg) := do
  let infos ← getPackagesWithSpecifiedType host pTrans .downgrade
  if infos = [] then return ([], [])
  let removed ← absorbNoData do
    let queuePkgToRemove ← infos.mapM (firstInstalled host)
    populatePkgInfos host queuePkgToRemove
  return (infos, removed)

end Code

/-! ## What a downgrade removes -/

/-- The steps that downgrade a package -/
def downgrades (pTrans : Transaction) : List ℕ :=
  solvGetTransResultsWithType pTrans .downgrade

/-- The installed packages of its own name that a step replaces, of all that it obsoletes
(`transaction_all_obs_pkgs`) -/
def replaced (host : AlterHost) (obsoleted : ℕ → List ℕ) (p : ℕ) : List ℕ :=
  (obsoleted p).filter fun q => host.pkgName q = host.pkgName p

/-- What is documented of the solver and of queries: a downgrade replaces an installed package,
and a query for an installed name selects the installed packages of that name. -/
structure DowngradeContract (host : AlterHost) (obsoleted : ℕ → List ℕ)
    (pTrans : Transaction) : Prop where
  steps : pTrans.steps.Nodup
  installed : ∀ p ∈ downgrades pTrans, ∀ q ∈ replaced host obsoleted p, q ∈ host.installed
  replaces : ∀ p ∈ downgrades pTrans, replaced host obsoleted p ≠ []
  named : ∀ q ∈ host.installed, ∃ name, host.pkgName q = some name ∧ name ≠ [] ∧
    strlen name ≤ 16384000
  select : ∀ q ∈ host.installed, ∀ name, host.pkgName q = some name →
    ∀ q', q' ∈ host.select .installed name ↔ q' ∈ host.installed ∧ host.pkgName q' = some name

/-- The packages that are returned as removed are those that the downgrades replace, each
once. -/
def RemovesReplaced (host : AlterHost) (obsoleted : ℕ → List ℕ) (pTrans : Transaction) : Prop :=
  ∃ infos removed, getDownGradePackages host pTrans = .ok (infos, removed) ∧
    (removed.map Prod.fst).Nodup ∧
      ∀ q, q ∈ removed.map Prod.fst ↔ ∃ p ∈ downgrades pTrans, q ∈ replaced host obsoleted p

/-- The installed package that comes first in the query for the name of a package -/
def firstOfName (host : AlterHost) (p : ℕ) : Option ℕ :=
  (host.pkgName p).bind fun name => (host.select .installed name).head?

section Removal

variable {host : AlterHost} {obsoleted : ℕ → List ℕ} {pTrans : Transaction} {p q : ℕ}

theorem poolString_eq_ok {name : Text} (h : strlen name ≤ 16384000) :
    poolString (some name) = .ok name := by
  rw [poolString, allocateString, if_neg (Nat.not_lt.mpr h)]

/-- Packages with names are listed in reverse. -/
theorem populatePkgInfos_eq {pkgs : List ℕ} {name : ℕ → Text} (hne : pkgs ≠ [])
    (hname : ∀ id ∈ pkgs, poolString (host.pkgName id) = .ok (name id)) :
    populatePkgInfos host pkgs = .ok (pkgs.map fun id => (id, name id)).reverse := by
  have hinfos := mapM_eq_ok (f := fun id => do
    let pszName ← poolString (host.pkgName id)
    return (id, pszName)) (g := fun id => (id, name id)) (l := pkgs)
    (fun id hid => by rw [hname id hid]; rfl)
  rw [populatePkgInfos, if_neg hne]
  simp only [bind, Except.bind] at hinfos ⊢
  rw [hinfos]
  rfl

variable (h : DowngradeContract host obsoleted pTrans)

include h

/-- The name of a downgrade, and the installed package of that name that comes first. -/
theorem DowngradeContract.first (hp : p ∈ downgrades pTrans) :
    ∃ name q rest, host.pkgName p = some name ∧ name ≠ [] ∧ strlen name ≤ 16384000 ∧
      host.select .installed name = q :: rest ∧ host.pkgName q = some name := by
  obtain ⟨r, hr⟩ := List.exists_mem_of_ne_nil _ (h.replaces p hp)
  have hinstalled := h.installed p hp r hr
  have hsame : host.pkgName r = host.pkgName p := of_decide_eq_true (List.mem_filter.mp hr).2
  obtain ⟨name, hname, hne, hlen⟩ := h.named r hinstalled
  have hselect := h.select r hinstalled name hname
  have hmem : r ∈ host.select .installed name := (hselect r).mpr ⟨hinstalled, hname⟩
  obtain ⟨q, rest, hcons⟩ := List.exists_cons_of_ne_nil (List.ne_nil_of_mem hmem)
  have hq := (hselect q).mp (hcons ▸ List.mem_cons_self)
  exact ⟨name, q, rest, hsame.symm.trans hname, hne, hlen, hcons, hq.2⟩

/-- The first package of the name of a downgrade has that name. -/
theorem DowngradeContract.firstOfName (hp : p ∈ downgrades pTrans) :
    ∃ q, firstOfName host p = some q ∧ host.pkgName q = host.pkgName p := by
  obtain ⟨name, q, rest, hname, -, -, hselect, hq⟩ := h.first hp
  refine ⟨q, ?_, hq.trans hname.symm⟩
  rw [Client.firstOfName, hname, Option.bind_some, hselect, List.head?_cons]

/-- The downgrades are listed in reverse, and what they remove in their order. -/
theorem getDownGradePackages_eq : ∃ infos removed,
    getDownGradePackages host pTrans = .ok (infos, removed) ∧
      (removed.map Prod.fst).map some = (downgrades pTrans).map (firstOfName host) := by
  by_cases hnone : downgrades pTrans = []
  · refine ⟨[], [], ?_, by rw [hnone]; rfl⟩
    have htrans : solvGetTransResultsWithType pTrans .downgrade = [] := hnone
    rw [getDownGradePackages, getPackagesWithSpecifiedType, htrans]
    rfl
  let name := fun p => (host.pkgName p).getD []
  let first := fun p => (Client.firstOfName host p).getD 0
  have hfirst : ∀ p ∈ downgrades pTrans, poolString (host.pkgName p) = .ok (name p) ∧
      Client.firstOfName host p = some (first p) ∧
        firstInstalled host (p, name p) = .ok (first p) ∧
          host.pkgName (first p) = host.pkgName p := by
    intro p hp
    obtain ⟨n, q, rest, hn, hne, hlen, hselect, hq⟩ := h.first hp
    have hcopy : allocateString n = .ok n := by
      rw [allocateString, if_neg (Nat.not_lt.mpr hlen)]
    have hq' : Client.firstOfName host p = some q := by
      rw [Client.firstOfName, hn, Option.bind_some, hselect, List.head?_cons]
    have hfp : first p = q := by simp only [first, hq', Option.getD_some]
    have hnp : name p = n := by simp only [name, hn, Option.getD_some]
    rw [hfp, hnp, hn]
    refine ⟨poolString_eq_ok hlen, hq', ?_, hq⟩
    rw [firstInstalled, findPkgByName, if_neg hne, hcopy]
    simp [getQueryResult, hselect, getPackageId, bind, Except.bind]
  have hinfos : getPackagesWithSpecifiedType host pTrans .downgrade =
      .ok ((downgrades pTrans).map fun p => (p, name p)).reverse := by
    rw [getPackagesWithSpecifiedType, queueToPackageList]
    rw [downgrades] at hnone hfirst ⊢
    rw [if_neg hnone]
    simp only [bind, Except.bind]
    rw [populatePkgInfos_eq hnone fun p hp => (hfirst p hp).1]
    rfl
  have hqueue : ((downgrades pTrans).map fun p => (p, name p)).reverse.mapM
      (firstInstalled host) = .ok ((downgrades pTrans).map first).reverse := by
    rw [mapM_eq_ok (g := fun info => first info.1), ← List.map_reverse, List.map_map]
    · rw [← List.map_reverse]
      rfl
    · intro info hinfo
      obtain ⟨p, hp, rfl⟩ := List.mem_map.mp (List.mem_reverse.mp hinfo)
      exact (hfirst p hp).2.2.1
  have hremoved : populatePkgInfos host ((downgrades pTrans).map first).reverse =
      .ok (((downgrades pTrans).map first).map fun id => (id, name id)) := by
    have hnames : ∀ id ∈ ((downgrades pTrans).map first).reverse,
        poolString (host.pkgName id) = .ok (name id) := by
      intro id hid
      obtain ⟨p, hp, rfl⟩ := List.mem_map.mp (List.mem_reverse.mp hid)
      obtain ⟨hcopy, -, -, hsame⟩ := hfirst p hp
      have hnp : name (first p) = name p := by simp only [name, hsame]
      rw [hsame, hnp]
      exact hcopy
    rw [populatePkgInfos_eq (by simpa using hnone) hnames, ← List.map_reverse,
      List.reverse_reverse]
  refine ⟨((downgrades pTrans).map fun p => (p, name p)).reverse,
    ((downgrades pTrans).map first).map fun id => (id, name id), ?_, ?_⟩
  · rw [getDownGradePackages, hinfos]
    simp only [bind, Except.bind, hqueue, hremoved, absorbNoData]
    rw [if_neg (by simpa using hnone)]
    rfl
  · rw [List.map_map, List.map_map, List.map_map]
    exact List.map_congr_left fun p hp => (hfirst p hp).2.1.symm

/-- Downgrades have the same name if and only if they remove the same package. -/
theorem firstOfName_eq_iff {p' : ℕ} (hp : p ∈ downgrades pTrans)
    (hp' : p' ∈ downgrades pTrans) :
    firstOfName host p = firstOfName host p' ↔ host.pkgName p = host.pkgName p' := by
  constructor
  · intro heq
    obtain ⟨q, hq, hname⟩ := h.firstOfName hp
    obtain ⟨q', hq', hname'⟩ := h.firstOfName hp'
    obtain rfl : q = q' := Option.some.inj (hq.symm.trans (heq.trans hq'))
    exact hname.symm.trans hname'
  · intro heq
    rw [Client.firstOfName, Client.firstOfName, heq]

/-- What is removed is what is replaced if the downgrades have different names, and each replaces
just the first installed package of its name. -/
theorem removesReplaced_iff : RemovesReplaced host obsoleted pTrans ↔
    ((downgrades pTrans).map host.pkgName).Nodup ∧ ∀ p ∈ downgrades pTrans, ∀ q,
      q ∈ replaced host obsoleted p ↔ firstOfName host p = some q := by
  obtain ⟨infos, removed, hok, hfirst⟩ := getDownGradePackages_eq h
  have hmem : ∀ q, q ∈ removed.map Prod.fst ↔
      ∃ p ∈ downgrades pTrans, firstOfName host p = some q := by
    intro q
    rw [← List.mem_map, ← hfirst, List.mem_map_of_injective (Option.some_injective _)]
  have hsteps : (downgrades pTrans).Nodup := h.steps.filter _
  have hnodup : (removed.map Prod.fst).Nodup ↔
      ((downgrades pTrans).map host.pkgName).Nodup := by
    rw [← List.nodup_map_iff (Option.some_injective _), hfirst,
      List.nodup_map_iff_inj_on hsteps, List.nodup_map_iff_inj_on hsteps]
    constructor
    · exact fun hinj p hp p' hp' heq => hinj p hp p' hp' ((firstOfName_eq_iff h hp hp').mpr heq)
    · exact fun hinj p hp p' hp' heq => hinj p hp p' hp' ((firstOfName_eq_iff h hp hp').mp heq)
  constructor
  · rintro ⟨infos', removed', hok', hdistinct, hexact⟩
    obtain ⟨-, rfl⟩ := Prod.mk.inj (Except.ok.inj (hok.symm.trans hok'))
    have hnames := hnodup.mp hdistinct
    refine ⟨hnames, fun p hp q => ⟨fun hq => ?_, fun hq => ?_⟩⟩
    · obtain ⟨p', hp', hq'⟩ := (hmem q).mp ((hexact q).mpr ⟨p, hp, hq⟩)
      have hsame : host.pkgName q = host.pkgName p := of_decide_eq_true (List.mem_filter.mp hq).2
      obtain ⟨r, hr, hname⟩ := h.firstOfName hp'
      obtain rfl : r = q := Option.some.inj (hr.symm.trans hq')
      rw [(firstOfName_eq_iff h hp hp').mpr (hsame.symm.trans hname)]
      exact hq'
    · obtain ⟨p', hp', hq'⟩ := (hexact q).mp ((hmem q).mpr ⟨p, hp, hq⟩)
      have hsame : host.pkgName q = host.pkgName p' :=
        of_decide_eq_true (List.mem_filter.mp hq').2
      obtain ⟨r, hr, hname⟩ := h.firstOfName hp
      obtain rfl : r = q := Option.some.inj (hr.symm.trans hq)
      obtain rfl : p = p' := (List.nodup_map_iff_inj_on hsteps).mp hnames p hp p' hp'
        (hname.symm.trans hsame)
      exact hq'
  · rintro ⟨hnames, hexact⟩
    refine ⟨infos, removed, hok, hnodup.mpr hnames, fun q => ?_⟩
    rw [hmem]
    constructor
    · rintro ⟨p, hp, hq⟩
      exact ⟨p, hp, (hexact p hp q).mpr hq⟩
    · rintro ⟨p, hp, hq⟩
      exact ⟨p, hp, (hexact p hp q).mp hq⟩

end Removal

/-! ## Two architectures of one name -/

/-- "glibc" is installed for two architectures, and an older one is available for each. -/
def twoArchs : AlterHost :=
  { twoRequirements with
    select := fun _ name => if name = "glibc".toList then [1, 2] else []
    installed := [1, 2]
    pkgName := fun _ => some "glibc".toList }

/-- A transaction that downgrades one package -/
def downgradeOne : Transaction := ⟨[3], fun _ _ => .downgrade⟩

theorem downgradeOne_contract (q : ℕ) (hq : q ∈ [1, 2]) :
    DowngradeContract twoArchs (fun _ => [q]) downgradeOne where
  steps := by decide
  installed := by
    intro p _ q' hq'
    obtain rfl := List.mem_singleton.mp (List.mem_filter.mp hq').1
    exact hq
  replaces := by
    intro p _
    exact List.cons_ne_nil q []
  named := by
    intro q' _
    exact ⟨"glibc".toList, rfl, by decide, by decide⟩
  select := by
    intro q' _ name hname q''
    obtain rfl := Option.some.inj hname
    exact ⟨fun hmem => ⟨hmem, rfl⟩, And.left⟩

/-- Downgrading the first of the two removes it. -/
theorem removesReplaced_downgradeOne :
    RemovesReplaced twoArchs (fun _ => [1]) downgradeOne := by
  refine (removesReplaced_iff (downgradeOne_contract 1 (by decide))).mpr ⟨by decide, ?_⟩
  intro p _ q
  have hfirst : firstOfName twoArchs p = some 1 := rfl
  have hreplaced : replaced twoArchs (fun _ => [1]) p = [1] := rfl
  rw [hfirst, hreplaced, List.mem_singleton, Option.some_inj]
  exact eq_comm

/-- Downgrading the second of the two removes the first. -/
theorem downgrade_removes_other :
    DowngradeContract twoArchs (fun _ => [2]) downgradeOne ∧
      ¬ RemovesReplaced twoArchs (fun _ => [2]) downgradeOne := by
  refine ⟨downgradeOne_contract 2 (by decide), ?_⟩
  rintro ⟨infos, removed, hok, -, hexact⟩
  have hrun : getDownGradePackages twoArchs downgradeOne =
      .ok ([(3, "glibc".toList)], [(1, "glibc".toList)]) := by decide
  obtain ⟨-, rfl⟩ := Prod.mk.inj (Except.ok.inj (hrun.symm.trans hok))
  obtain ⟨p, -, hp⟩ := (hexact 1).mp (by decide)
  have hmem := (List.mem_filter.mp hp).1
  simp at hmem

end Tdnf.Client
