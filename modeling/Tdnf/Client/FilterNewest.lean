import Tdnf.Common.Error
import Tdnf.Common.Strings
import Tdnf.Library.Chain
import Tdnf.Library.Comparison
import Mathlib.Data.Char
import Mathlib.Data.List.Sort

/-!
# Filtering the newest packages

`TDNFPkgInfoFilterNewest` sorts pointers to the nodes of a list of packages and
links the first node of each name in each repository to that of the next. The
caller goes on from the node that was the head before, and the last node keeps its
successor.
-/

namespace Tdnf.Client

open PathText Common Chain Heap Comparison

/-- The fields of `TDNF_PKG_INFO` that reposync reads. -/
structure PkgInfo where
  pszRepoName : Text
  pszName : Text
  pszEVR : Text
  pszArch : Text
  pszLocation : Text
deriving DecidableEq, Repr, Inhabited

/-- `strcmp`, of which only the sign is read -/
def strcmp : Text → Text → ℤ
  | [], [] => 0
  | [], _ :: _ => -1
  | _ :: _, [] => 1
  | a :: s, b :: t => if a = b then strcmp s t else if a < b then -1 else 1

section Filter

variable (evrcmp : Text → Text → ℤ) (qsort : (ℕ → ℕ → ℤ) → List ℕ → List ℕ)

/-- What a pointer points to. -/
def infoAt (h : Heap PkgInfo) (i : ℕ) : PkgInfo := h.nodes.getD i default

/-- `_pkginfo_compare`, with `pool_evrcmp_str` for the versions -/
def pkginfoCompare (p q : PkgInfo) : ℤ :=
  if strcmp p.pszRepoName q.pszRepoName ≠ 0 then strcmp p.pszRepoName q.pszRepoName
  else if strcmp p.pszName q.pszName ≠ 0 then strcmp p.pszName q.pszName
  -- we want newest version first, so reverse it by using the negated value
  else -evrcmp p.pszEVR q.pszEVR

/-- The loop of `TDNFPkgInfoFilterNewest` over the sorted pointers, from `pPkgInfo` on -/
def skipOlder (h : Heap PkgInfo) (pPkgInfo : ℕ) : List ℕ → Heap PkgInfo
  | [] => h
  | i :: rest =>
    if strcmp (infoAt h i).pszRepoName (infoAt h pPkgInfo).pszRepoName ≠ 0 ∨
        strcmp (infoAt h i).pszName (infoAt h pPkgInfo).pszName ≠ 0 then
      skipOlder (h.store (some pPkgInfo) (some i)) i rest
    else skipOlder h pPkgInfo rest

/-- `TDNFPkgInfoFilterNewest`, with the nodes after it; the head is the caller's -/
def pkgInfoFilterNewest (h : Heap PkgInfo) (pPkgInfos : Option ℕ) :
    Except TdnfError (Heap PkgInfo) :=
  let ppPkgInfos := h.follow h.nodes.length pPkgInfos
  -- no memory is allocated for no element
  if ppPkgInfos = [] then .error .invalidParameter
  else
    match qsort (fun i j => pkginfoCompare evrcmp (infoAt h i) (infoAt h j)) ppPkgInfos with
    | [] => .ok h
    | i :: rest => .ok (skipOlder h i rest)

/-- What `TDNFRepoSync` walks after it has called `TDNFPkgInfoFilterNewest`. -/
def afterFilter (h : Heap PkgInfo) (pPkgInfos : Option ℕ) : Heap PkgInfo :=
  match pkgInfoFilterNewest evrcmp qsort h pPkgInfos with
  | .ok h' => h'
  | .error _ => h

end Filter

/-! ## What the filter promises -/

section Promise

variable (evrcmp : Text → Text → ℤ)

/-- A package is listed once for each repository and name. -/
def pkgKey (h : Heap PkgInfo) (i : ℕ) : Text × Text :=
  ((infoAt h i).pszRepoName, (infoAt h i).pszName)

/-- No listed package of the same repository and name is newer. -/
def Newest (h : Heap PkgInfo) (ids : List ℕ) (i : ℕ) : Prop :=
  ∀ j ∈ ids, pkgKey h j = pkgKey h i → 0 ≤ evrcmp (infoAt h i).pszEVR (infoAt h j).pszEVR

/-- The walk over `g` ends and visits, for every repository and name of the list, exactly one
package, a newest one. -/
def VisitsNewest (h g : Heap PkgInfo) (pPkgInfos : Option ℕ) (ids : List ℕ) : Prop :=
  ∃ visited, Leads g pPkgInfos visited ∧ ∀ k ∈ ids.map (pkgKey h), ∃ i,
    visited.filter (fun j => pkgKey h j = k) = [i] ∧ Newest evrcmp h ids i

end Promise

/-! ## The condition -/

section Condition

variable (evrcmp : Text → Text → ℤ) (qsort : (ℕ → ℕ → ℤ) → List ℕ → List ℕ)

/-- The packages that the sort puts first of their repository and name. -/
def keptOf (h : Heap PkgInfo) (ids : List ℕ) : List ℕ :=
  match qsort (fun i j => pkginfoCompare evrcmp (infoAt h i) (infoAt h j)) ids with
  | [] => []
  | i :: rest => i :: heads (pkgKey h) i rest

/-- Where the kept packages stand in the list: the last of them is the one that is sorted last,
and the packages before the first and behind the last of them are newest ones of the
repositories and names that are sorted before that of the first, one for each. -/
structure WellEnded (h : Heap PkgInfo) (ids kept before behind skipped : List ℕ) : Prop where
  starts : ∃ first rest taken, ids = before ++ first :: rest ∧ kept = skipped ++ first :: taken ∧
    ∀ i ∈ before, i ∉ kept
  ends : ∃ left last most, ids = left ++ last :: behind ∧ kept = most ++ [last] ∧
    ∀ i ∈ behind, i ∉ kept
  keys : ((before ++ behind).map (pkgKey h)).Perm (skipped.map (pkgKey h))
  newest : ∀ i ∈ before ++ behind, Newest evrcmp h ids i

end Condition

/-! ## Comparing packages -/

section Compare

theorem strcmp_eq_zero {s t : Text} : strcmp s t = 0 ↔ s = t := by
  induction s generalizing t with
  | nil => cases t <;> simp [strcmp]
  | cons a s ih =>
      cases t with
      | nil => simp [strcmp]
      | cons b t =>
          by_cases hab : a = b
          · simp [strcmp, hab, ih]
          · by_cases hlt : a < b <;> simp [strcmp, hab, hlt]

/-- The sign is that of the first difference. -/
theorem sign_strcmp (s t : Text) : (strcmp s t ≤ 0 ↔ textually Char.toNat s t ≤ 0) ∧
    (0 ≤ strcmp s t ↔ 0 ≤ textually Char.toNat s t) := by
  induction s generalizing t with
  | nil => cases t <;> simp [strcmp, textually]
  | cons a s ih =>
      cases t with
      | nil => simp [strcmp, textually]
      | cons b t =>
          have hlt : a < b ↔ a.toNat < b.toNat := UInt32.lt_iff_toNat_lt
          simp only [strcmp, textually, Char.toNat_inj]
          split
          · exact ih t
          · next hab =>
              have hne : a.toNat ≠ b.toNat := fun h => hab (Char.toNat_inj.mp h)
              split
              · next h =>
                  rw [hlt] at h
                  omega
              · next h =>
                  rw [hlt] at h
                  omega

theorem lawful_strcmp : Lawful strcmp :=
  lawful_textually.of_sign (fun s t => (sign_strcmp s t).1) fun s t => (sign_strcmp s t).2

variable {evrcmp : Text → Text → ℤ}

theorem lawful_pkginfoCompare (hevr : Lawful evrcmp) : Lawful (pkginfoCompare evrcmp) :=
  (lawful_strcmp.of_image PkgInfo.pszRepoName).lexically
    ((lawful_strcmp.of_image PkgInfo.pszName).lexically (hevr.of_image PkgInfo.pszEVR).neg)

theorem pkginfoCompare_le_iff {p q : PkgInfo} :
    pkginfoCompare evrcmp p q ≤ 0 ↔ strcmp p.pszRepoName q.pszRepoName < 0 ∨
      strcmp p.pszRepoName q.pszRepoName = 0 ∧ (strcmp p.pszName q.pszName < 0 ∨
        strcmp p.pszName q.pszName = 0 ∧ 0 ≤ evrcmp p.pszEVR q.pszEVR) := by
  have hsign : 0 ≤ evrcmp p.pszEVR q.pszEVR ↔ -evrcmp p.pszEVR q.pszEVR ≤ 0 := by omega
  rw [hsign]
  simp only [pkginfoCompare]
  split
  · omega
  · split <;> omega

/-- Packages of one repository and name stand together when they are sorted. -/
theorem grouped_pkginfoCompare (h : Heap PkgInfo) :
    Grouped (pkgKey h) fun i j => pkginfoCompare evrcmp (infoAt h i) (infoAt h j) ≤ 0 := by
  intro i j k hij hjk hik
  obtain ⟨hrepo, hname⟩ := Prod.mk.inj hik
  rw [pkginfoCompare_le_iff] at hij hjk
  obtain ⟨hrepo_ij, hrepo_jk⟩ := lawful_strcmp.between (a := (infoAt h i).pszRepoName)
    (b := (infoAt h j).pszRepoName) (c := (infoAt h k).pszRepoName) (by omega) (by omega)
    (strcmp_eq_zero.mpr hrepo)
  obtain ⟨hname_ij, -⟩ := lawful_strcmp.between (a := (infoAt h i).pszName)
    (b := (infoAt h j).pszName) (c := (infoAt h k).pszName) (by omega) (by omega)
    (strcmp_eq_zero.mpr hname)
  exact Prod.ext (strcmp_eq_zero.mp hrepo_ij).symm (strcmp_eq_zero.mp hname_ij).symm

/-- Of one repository and name the newest package is sorted first. -/
theorem newest_of_pkginfoCompare {p q : PkgInfo} (hle : pkginfoCompare evrcmp p q ≤ 0)
    (hrepo : p.pszRepoName = q.pszRepoName) (hname : p.pszName = q.pszName) :
    0 ≤ evrcmp p.pszEVR q.pszEVR := by
  rw [pkginfoCompare_le_iff] at hle
  have hrepo := strcmp_eq_zero.mpr hrepo
  have hname := strcmp_eq_zero.mpr hname
  omega

end Compare

/-! ## The list after the filter -/

section Walk

variable {evrcmp : Text → Text → ℤ} {qsort : (ℕ → ℕ → ℤ) → List ℕ → List ℕ} {h : Heap PkgInfo}
  {p : Option ℕ} {ids : List ℕ}

/-- The loop links the first package of each repository and name to the next one. -/
theorem skipOlder_eq (h : Heap PkgInfo) (cur : ℕ) (l : List ℕ) :
    skipOlder h cur l = h.relink cur (heads (pkgKey h) cur l) := by
  induction l generalizing h cur with
  | nil => rfl
  | cons i l ih =>
      have hkey : pkgKey h i = pkgKey h cur ↔
          ¬ (strcmp (infoAt h i).pszRepoName (infoAt h cur).pszRepoName ≠ 0 ∨
            strcmp (infoAt h i).pszName (infoAt h cur).pszName ≠ 0) := by
        simp [pkgKey, strcmp_eq_zero]
      rw [skipOlder, heads]
      by_cases hsame : pkgKey h i = pkgKey h cur
      · rw [if_neg (hkey.mp hsame), if_pos hsame, ih]
      · rw [if_pos (not_not.mp fun hno => hsame (hkey.mpr hno)), if_neg hsame, relink, ih]
        rfl

/-- What the sort puts first of their repository and name. -/
structure Kept (evrcmp : Text → Text → ℤ) (h : Heap PkgInfo) (ids kept : List ℕ) : Prop where
  nodup : (kept.map (pkgKey h)).Nodup
  subset : kept ⊆ ids
  covers : ∀ i ∈ ids, pkgKey h i ∈ kept.map (pkgKey h)
  newest : ∀ i ∈ kept, Newest evrcmp h ids i

theorem kept_keptOf (hevr : Lawful evrcmp) (hsort : Sorts qsort) :
    Kept evrcmp h ids (keptOf evrcmp qsort h ids) := by
  have hcompare : Lawful fun i j => pkginfoCompare evrcmp (infoAt h i) (infoAt h j) :=
    (lawful_pkginfoCompare hevr).of_image (infoAt h)
  obtain ⟨hperm, hsorted⟩ := hsort _ ids hcompare
  rw [keptOf]
  cases horder : qsort (fun i j => pkginfoCompare evrcmp (infoAt h i) (infoAt h j)) ids with
  | nil =>
      rw [horder] at hperm
      obtain rfl := hperm.symm.eq_nil
      exact ⟨by simp, by simp, by simp, by simp⟩
  | cons cur rest =>
      rw [horder] at hperm hsorted
      have hsubset : cur :: heads (pkgKey h) cur rest ⊆ ids := by
        intro i hi
        exact hperm.subset (((heads_sublist cur rest).cons_cons cur).subset hi)
      refine ⟨heads_nodup (grouped_pkginfoCompare h) hsorted, hsubset, ?_, ?_⟩
      · intro i hi
        obtain ⟨j, hj, hkey, -⟩ := exists_head (pkgKey h) hsorted (hperm.symm.subset hi)
        exact hkey ▸ List.mem_map_of_mem hj
      · intro i hi j hj hkey
        obtain ⟨k, hk, hkey', hbefore⟩ := exists_head (pkgKey h) hsorted (hperm.symm.subset hj)
        obtain rfl : k = i := List.inj_on_of_nodup_map
          (heads_nodup (grouped_pkginfoCompare h) hsorted) hk hi (hkey'.trans hkey)
        obtain rfl | hle := hbefore
        · exact Int.le_of_eq (hevr.self _).symm
        · obtain ⟨hrepo, hname⟩ := Prod.mk.inj hkey'
          exact newest_of_pkginfoCompare hle hrepo hname

theorem afterFilter_eq (hsort : Sorts qsort) (hevr : Lawful evrcmp) (hp : Leads h p ids)
    (hlength : ids.length ≤ h.nodes.length) {cur : ℕ} {rest : List ℕ}
    (hkept : keptOf evrcmp qsort h ids = cur :: rest) :
    afterFilter evrcmp qsort h p = h.relink cur rest := by
  have hcompare : Lawful fun i j => pkginfoCompare evrcmp (infoAt h i) (infoAt h j) :=
    (lawful_pkginfoCompare hevr).of_image (infoAt h)
  obtain ⟨hperm, -⟩ := hsort _ ids hcompare
  rw [keptOf] at hkept
  cases horder : qsort (fun i j => pkginfoCompare evrcmp (infoAt h i) (infoAt h j)) ids with
  | nil =>
      rw [horder] at hkept
      cases hkept
  | cons i l =>
      rw [horder] at hkept hperm
      cases hkept
      have hne : ids ≠ [] := by
        rintro rfl
        cases hperm.eq_nil
      simp only [afterFilter, pkgInfoFilterNewest, hp.follow hlength, hne, if_false, horder]
      exact skipOlder_eq h _ _

/-- The first element of a kind in a list. -/
theorem exists_first {l kept : List ℕ} (hl : ∃ i ∈ l, i ∈ kept) :
    ∃ before i behind, l = before ++ i :: behind ∧ i ∈ kept ∧ ∀ j ∈ before, j ∉ kept := by
  induction l with
  | nil => simp at hl
  | cons a l ih =>
      by_cases ha : a ∈ kept
      · exact ⟨[], a, l, rfl, ha, by simp⟩
      · have hl' : ∃ i ∈ l, i ∈ kept := by
          obtain ⟨i, hi, hkept⟩ := hl
          obtain rfl | hi := List.mem_cons.mp hi
          · exact absurd hkept ha
          · exact ⟨i, hi, hkept⟩
        obtain ⟨before, i, behind, rfl, hi, hbefore⟩ := ih hl'
        exact ⟨a :: before, i, behind, rfl, hi, List.forall_mem_cons.mpr ⟨ha, hbefore⟩⟩

/-- The walk after the filter, where the last package that is linked is the last of its kind in
the list. -/
theorem leads_relink {cur first last : ℕ}
    {rest before between taken skipped left behind most : List ℕ} (hp : Leads h p ids)
    (hnodup : (cur :: rest).Nodup)
    (hfirst : ids = before ++ first :: between) (htaken : cur :: rest = skipped ++ first :: taken)
    (hbefore : ∀ i ∈ before, i ∉ cur :: rest) (hlast : ids = left ++ last :: behind)
    (hmost : cur :: rest = most ++ [last]) (hbehind : ∀ i ∈ behind, i ∉ cur :: rest) :
    Leads (h.relink cur rest) p (before ++ first :: taken ++ behind) := by
  have hlink {i : ℕ} (hi : i ∉ cur :: rest) :
      (h.relink cur rest).link (some i) = h.link (some i) := by
    apply relink_link_of_not_mem
    rintro j hj heq
    exact hi (Option.some.inj heq ▸ List.dropLast_subset _ hj)
  have hstart : Segment (h.relink cur rest) p before (some first) := by
    rw [hfirst] at hp
    exact hp.split.1.frame fun i hi => hlink (hbefore i hi)
  have hmiddle : Segment (h.relink cur rest) (some first) (first :: taken) (h.link (some last)) :=
    relink_segment hnodup htaken hmost
  have hend : Leads (h.relink cur rest) (h.link (some last)) behind := by
    rw [hlast] at hp
    cases hp.split.2 with
    | cons hrest => exact hrest.frame fun i hi => hlink (hbehind i hi)
  rw [List.append_assoc]
  exact hstart.leads (hmiddle.leads hend)

/-- Where another package that is linked follows the last one, the walk does not end. -/
theorem not_leads_relink {cur first last : ℕ}
    {rest before between taken skipped left behind most : List ℕ}
    (hp : Leads h p ids) (hnodup : (cur :: rest).Nodup)
    (hfirst : ids = before ++ first :: between) (htaken : cur :: rest = skipped ++ first :: taken)
    (hbefore : ∀ i ∈ before, i ∉ cur :: rest) (hlast : ids = left ++ last :: behind)
    (hmost : cur :: rest = most ++ [last]) (hbehind : ∃ i ∈ behind, i ∈ cur :: rest)
    (visited : List ℕ) : ¬ Leads (h.relink cur rest) p visited := by
  intro hwalk
  have hlink {i : ℕ} (hi : i ∉ cur :: rest) :
      (h.relink cur rest).link (some i) = h.link (some i) := by
    apply relink_link_of_not_mem
    rintro j hj heq
    exact hi (Option.some.inj heq ▸ List.dropLast_subset _ hj)
  have hstart : Segment (h.relink cur rest) p before (some first) := by
    rw [hfirst] at hp
    exact hp.split.1.frame fun i hi => hlink (hbefore i hi)
  have hmiddle : Segment (h.relink cur rest) (some first) (first :: taken) (h.link (some last)) :=
    relink_segment hnodup htaken hmost
  obtain ⟨further, k, others, rfl, hk, hfurther⟩ := exists_first hbehind
  have hon : Segment (h.relink cur rest) (h.link (some last)) further (some k) := by
    rw [hlast] at hp
    cases hp.split.2 with
    | cons hrest => exact hrest.split.1.frame fun i hi => hlink (hfurther i hi)
  obtain ⟨skipped', taken', hk'⟩ := List.append_of_mem hk
  have hback : Segment (h.relink cur rest) (some k) (k :: taken' ++ further) (some k) :=
    (relink_segment hnodup hk' hmost).trans hon
  obtain ⟨walk, -, hk''⟩ := ((hstart.trans hmiddle).trans hon).rest hwalk
  exact hback.not_leads (by simp) walk hk''

end Walk

/-! ## When the newest packages are visited -/

section Visits

variable {evrcmp : Text → Text → ℤ} {qsort : (ℕ → ℕ → ℤ) → List ℕ → List ℕ} {h : Heap PkgInfo}
  {p : Option ℕ} {ids : List ℕ}

/-- The packages that are kept are those of all keys, wherever the list is cut. -/
theorem Kept.forall_keys {kept skipped taken : List ℕ} (hkept : Kept evrcmp h ids kept)
    (hsplit : kept = skipped ++ taken) (P : Text × Text → Prop) :
    (∀ k ∈ ids.map (pkgKey h), P k) ↔ ∀ k ∈ (skipped ++ taken).map (pkgKey h), P k := by
  rw [← hsplit]
  constructor
  · intro hall k hk
    exact hall k (List.map_subset _ hkept.subset hk)
  · intro hall k hk
    obtain ⟨i, hi, rfl⟩ := List.mem_map.mp hk
    exact hall _ (hkept.covers i hi)

/-- What the walk visits is right exactly if the packages outside of the links are. -/
theorem Kept.visits_iff {kept skipped taken before behind : List ℕ}
    (hkept : Kept evrcmp h ids kept) (hsplit : kept = skipped ++ taken)
    (hbefore : before ⊆ ids) (hbehind : behind ⊆ ids) :
    (∀ k ∈ ids.map (pkgKey h), ∃ i,
        (before ++ taken ++ behind).filter (fun j => pkgKey h j = k) = [i] ∧
          Newest evrcmp h ids i) ↔
      ((before ++ behind).map (pkgKey h)).Perm (skipped.map (pkgKey h)) ∧
        ∀ i ∈ before ++ behind, Newest evrcmp h ids i := by
  rw [hkept.forall_keys hsplit]
  apply visits_once_iff
  · rw [← hsplit]
    exact hkept.nodup
  · intro i hi
    apply hkept.newest
    rw [hsplit]
    exact List.mem_append_right _ hi
  · intro i hi
    rw [← hsplit]
    apply hkept.covers
    obtain hi | hi := List.mem_append.mp hi
    · exact hbefore hi
    · exact hbehind hi

/-- The walk from the caller's head visits the newest packages exactly if the packages that are
not linked are newest ones of names that it would miss. -/
theorem pkgInfoFilterNewest_iff (evrcmp : Text → Text → ℤ)
    (qsort : (ℕ → ℕ → ℤ) → List ℕ → List ℕ) (h : Heap PkgInfo) (p : Option ℕ) (ids : List ℕ)
    (hevr : Lawful evrcmp) (hsort : Sorts qsort) (hp : Leads h p ids)
    (hnodes : ∀ i ∈ ids, i < h.nodes.length) :
    VisitsNewest evrcmp h (afterFilter evrcmp qsort h p) p ids ↔ ids = [] ∨
      ∃ before behind skipped,
        WellEnded evrcmp h ids (keptOf evrcmp qsort h ids) before behind skipped := by
  have hkept : Kept evrcmp h ids (keptOf evrcmp qsort h ids) := kept_keptOf hevr hsort
  have hlength : ids.length ≤ h.nodes.length := length_le_of_nodup hp.nodup hnodes
  by_cases hne : ids = []
  · refine iff_of_true ?_ (.inl hne)
    subst hne
    cases hp
    exact ⟨[], .nil, by simp⟩
  · obtain ⟨i, hi⟩ := List.exists_mem_of_ne_nil ids hne
    cases hlist : keptOf evrcmp qsort h ids with
    | nil =>
        have hcovers := hkept.covers i hi
        rw [hlist] at hcovers
        cases hcovers
    | cons cur rest =>
        rw [hlist] at hkept
        rw [afterFilter_eq hsort hevr hp hlength hlist]
        have hnodup : (cur :: rest).Nodup := hkept.nodup.of_map
        constructor
        · rintro ⟨visited, hwalk, hvisited⟩
          refine .inr ?_
          obtain ⟨before, first, between, hfirst, hmem, hbefore⟩ :=
            exists_first ⟨cur, hkept.subset List.mem_cons_self, List.mem_cons_self⟩
          obtain ⟨skipped, taken, htaken⟩ := List.append_of_mem hmem
          obtain ⟨most, last, hmost⟩ :=
            (List.eq_nil_or_concat' (cur :: rest)).resolve_left (by simp)
          have hlastMem : last ∈ cur :: rest := by simp [hmost]
          obtain ⟨left, behind, hlast⟩ := List.append_of_mem (hkept.subset hlastMem)
          have hbehind : ∀ i ∈ behind, i ∉ cur :: rest := by
            intro i hi hcur
            exact not_leads_relink hp hnodup hfirst htaken hbefore hlast hmost ⟨i, hi, hcur⟩
              visited hwalk
          obtain rfl := hwalk.unique
            (leads_relink hp hnodup hfirst htaken hbefore hlast hmost hbehind)
          have hinside : before ⊆ ids ∧ behind ⊆ ids := by
            constructor
            · rw [hfirst]
              exact List.subset_append_left _ _
            · intro i hi
              rw [hlast]
              exact List.mem_append_right _ (List.mem_cons_of_mem _ hi)
          obtain ⟨hkeys, hnewest⟩ :=
            (hkept.visits_iff htaken hinside.1 hinside.2).mp hvisited
          exact ⟨before, behind, skipped, ⟨first, between, taken, hfirst, htaken, hbefore⟩,
            ⟨left, last, most, hlast, hmost, hbehind⟩, hkeys, hnewest⟩
        · rintro (hnil | ⟨before, behind, skipped, hended⟩)
          · exact absurd hnil hne
          · obtain ⟨first, between, taken, hfirst, htaken, hbefore⟩ := hended.starts
            obtain ⟨left, last, most, hlast, hmost, hbehind⟩ := hended.ends
            refine ⟨_, leads_relink hp hnodup hfirst htaken hbefore hlast hmost hbehind, ?_⟩
            have hinside : before ⊆ ids ∧ behind ⊆ ids := by
              constructor
              · rw [hfirst]
                exact List.subset_append_left _ _
              · intro i hi
                rw [hlast]
                exact List.mem_append_right _ (List.mem_cons_of_mem _ hi)
            exact (hkept.visits_iff htaken hinside.1 hinside.2).mpr ⟨hended.keys, hended.newest⟩

/-- Sorting by insertion. -/
def insertionQsort (cmp : ℕ → ℕ → ℤ) (l : List ℕ) : List ℕ := l.insertionSort fun a b => cmp a b ≤ 0

theorem sorts_insertionQsort : Sorts insertionQsort := by
  intro cmp l hcmp
  refine ⟨List.perm_insertionSort _ l, ?_⟩
  have : Std.Total fun a b => cmp a b ≤ 0 := ⟨fun a b => by
    have hswap := hcmp.swap a b
    omega⟩
  have : IsTrans ℕ fun a b => cmp a b ≤ 0 := ⟨hcmp.trans⟩
  exact List.pairwise_insertionSort _ l

/-- Packages of one repository in a list, with their names and versions. -/
def listed (packages : List (String × String)) : Heap PkgInfo where
  nodes := packages.map fun p =>
    ⟨"r".toList, p.1.toList, p.2.toList, "noarch".toList, p.1.toList ++ ".rpm".toList⟩
  link slot :=
    match slot with
    | none => some 0
    | some i => if i + 1 < packages.length then some (i + 1) else none

/-- Where the list is sorted already and no older package stands at its end, the newest packages
are visited. -/
theorem visitsNewest_sorted :
    VisitsNewest strcmp (listed [("a", "2"), ("a", "1"), ("b", "1")])
      (afterFilter strcmp insertionQsort (listed [("a", "2"), ("a", "1"), ("b", "1")]) (some 0))
      (some 0) [0, 1, 2] := by
  rw [pkgInfoFilterNewest_iff _ _ _ _ _ lawful_strcmp sorts_insertionQsort
    (.cons (.cons (.cons .nil))) (by decide)]
  have hkept : keptOf strcmp insertionQsort (listed [("a", "2"), ("a", "1"), ("b", "1")])
      [0, 1, 2] = [0, 2] := by decide +kernel
  refine .inr ⟨[], [], [], ?_⟩
  rw [hkept]
  exact ⟨⟨0, [1, 2], [2], rfl, rfl, by simp⟩, ⟨[0, 1], 2, [0], rfl, rfl, by simp⟩, .refl _,
    by simp⟩

/-- An older package before the newest one is visited too. -/
theorem visits_older :
    ¬ VisitsNewest strcmp (listed [("a", "1"), ("a", "2")])
      (afterFilter strcmp insertionQsort (listed [("a", "1"), ("a", "2")]) (some 0))
      (some 0) [0, 1] := by
  rintro ⟨visited, hwalk, hvisited⟩
  have hleads : Leads (afterFilter strcmp insertionQsort (listed [("a", "1"), ("a", "2")])
      (some 0)) (some 0) [0, 1] := .cons (.cons .nil)
  obtain rfl := hwalk.unique hleads
  obtain ⟨i, hi, -⟩ := hvisited ("r".toList, "a".toList) (by decide)
  have htwo : [0, 1].filter (fun j => pkgKey (listed [("a", "1"), ("a", "2")]) j =
      ("r".toList, "a".toList)) = [0, 1] := by decide +kernel
  rw [htwo] at hi
  cases hi

end Visits

end Tdnf.Client
