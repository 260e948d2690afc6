import Tdnf.Library.Chain
import Tdnf.Metalink.Parsing
import Mathlib.Data.List.Sort

/-!
# The order in which mirrors are tried

The URLs of a metalink are a linked list, which is sorted by merging: the list
is cut behind the node that a slow pointer reaches while a fast one runs to the
end, both halves are sorted, and the merge links the nodes anew from their ends.
The sort computes what the merge sort of lists does with the nodes.
-/

namespace Tdnf.Metalink

open Chain Chain.Heap Parsing

namespace Preference

/-- Nodes of `TDNF_ML_LIST`, whose data is a URL or NULL -/
abbrev UrlHeap := Heap (Option UrlInfo)

/-- `list->data` -/
def data (h : UrlHeap) (i : ℕ) : Option UrlInfo := h.nodes[i]?.join

/-- `TDNFMergeList`, in at most `fuel` calls; with a URL missing the lists are given up -/
def mergeList : ℕ → UrlHeap → Option ℕ → Option ℕ → Option (UrlHeap × Option ℕ)
  | 0, _, _, _ => none
  | _ + 1, h, none, none => some (h, none)
  | _ + 1, h, none, some listB => some (h, some listB)
  | _ + 1, h, some listA, none => some (h, some listA)
  | fuel + 1, h, some listA, some listB =>
    match data h listA, data h listB with
    | some urlA, some urlB =>
      if urlB.preference ≤ urlA.preference then
        (mergeList fuel h (h.link (some listA)) (some listB)).map fun r =>
          (r.1.store (some listA) r.2, some listA)
      else
        (mergeList fuel h (some listA) (h.link (some listB))).map fun r =>
          (r.1.store (some listB) r.2, some listB)
    | _, _ => some (h, none)

/-- The loop of `TDNFFrontBackSplit`, with the node that `slowPtr` ends at; nothing is read
through NULL. -/
def splitLoop : ℕ → UrlHeap → ℕ → Option ℕ → Option ℕ
  | 0, _, _, _ => none
  | _ + 1, _, slowPtr, none => some slowPtr
  | fuel + 1, h, slowPtr, some fastPtr =>
    match h.link (some fastPtr) with
    | none => splitLoop fuel h slowPtr none
    | some fastPtr =>
      match h.link (some slowPtr) with
      | none => none
      | some slowPtr => splitLoop fuel h slowPtr (h.link (some fastPtr))

/-- `TDNFFrontBackSplit` of a list with two nodes at least, with `*backRef`; `*frontRef` is the
list itself -/
def frontBackSplit (fuel : ℕ) (h : UrlHeap) (currHead : ℕ) : Option (UrlHeap × Option ℕ) :=
  (splitLoop fuel h currHead (h.link (some currHead))).map fun slowPtr =>
    (h.store (some slowPtr) none, h.link (some slowPtr))

/-- `TDNFSortListOnPreference`, with `*headUrl`; calls and loops are bounded by `fuel`. -/
def sortListOnPreference : ℕ → UrlHeap → Option ℕ → Option (UrlHeap × Option ℕ)
  | 0, _, _ => none
  | _ + 1, h, none => some (h, none)
  | fuel + 1, h, some head =>
    if h.link (some head) = none then some (h, some head)
    else do
      let split ← frontBackSplit fuel h head
      let sortedA ← sortListOnPreference fuel split.1 (some head)
      let sortedB ← sortListOnPreference fuel sortedA.1 split.2
      mergeList fuel sortedB.1 sortedA.2 sortedB.2

/-- The preference of a node. -/
def preference (h : UrlHeap) (i : ℕ) : ℤ := ((data h i).map UrlInfo.preference).getD 0

/-- The node does not come behind the other one. -/
def before (h : UrlHeap) (i j : ℕ) : Bool := preference h j ≤ preference h i

/-- The nodes all have URLs. -/
def HaveUrls (h : UrlHeap) (ids : List ℕ) : Prop := ∀ i ∈ ids, ∃ url, data h i = some url

/-- A heap in which only the pointers inside of the given nodes may be others. -/
structure RelinksOnly (h h' : UrlHeap) (ids : List ℕ) : Prop where
  nodes : h'.nodes = h.nodes
  link : ∀ slot, (∀ i ∈ ids, slot ≠ some i) → h'.link slot = h.link slot

section Relinking

variable {h g k : UrlHeap} {ids ids' : List ℕ}

theorem RelinksOnly.refl (h : UrlHeap) (ids : List ℕ) : RelinksOnly h h ids :=
  ⟨rfl, fun _ _ => rfl⟩

theorem RelinksOnly.trans (hg : RelinksOnly h g ids) (hk : RelinksOnly g k ids) :
    RelinksOnly h k ids where
  nodes := hk.nodes.trans hg.nodes
  link := fun slot hslot => (hk.link slot hslot).trans (hg.link slot hslot)

theorem RelinksOnly.mono (hg : RelinksOnly h g ids) (hsub : ∀ i ∈ ids, i ∈ ids') :
    RelinksOnly h g ids' where
  nodes := hg.nodes
  link := fun slot hslot => hg.link slot fun i hi => hslot i (hsub i hi)

theorem RelinksOnly.store {i : ℕ} (hg : RelinksOnly h g ids) (hi : i ∈ ids) (p : Option ℕ) :
    RelinksOnly h (g.store (some i) p) ids where
  nodes := hg.nodes
  link := fun slot hslot => (store_link_of_ne (hslot i hi) g p).trans (hg.link slot hslot)

/-- A chain of other nodes is not touched. -/
theorem RelinksOnly.leads {p : Option ℕ} (hg : RelinksOnly h g ids) (hp : Leads h p ids')
    (hapart : ∀ i ∈ ids', i ∉ ids) : Leads g p ids' := by
  refine hp.frame fun i hi => hg.link (some i) fun j hj => ?_
  rw [Ne, Option.some.injEq]
  rintro rfl
  exact hapart i hi hj

theorem RelinksOnly.data (hg : RelinksOnly h g ids) (i : ℕ) :
    Preference.data g i = Preference.data h i := by
  rw [Preference.data, hg.nodes, Preference.data]

theorem RelinksOnly.before (hg : RelinksOnly h g ids) :
    Preference.before g = Preference.before h := by
  have hpreference : preference g = preference h := by
    funext i
    rw [preference, hg.data, preference]
  funext i j
  rw [Preference.before, hpreference, Preference.before]

end Relinking

section Merging

variable {h : UrlHeap} {listA listB : Option ℕ} {idsA idsB : List ℕ}

theorem mergeList_of_le {a b : ℕ} {urlA urlB : UrlInfo} (hurlA : data h a = some urlA)
    (hurlB : data h b = some urlB) (hle : urlB.preference ≤ urlA.preference) (fuel : ℕ) :
    mergeList (fuel + 1) h (some a) (some b) =
      (mergeList fuel h (h.link (some a)) (some b)).map fun r =>
        (r.1.store (some a) r.2, some a) := by
  simp only [mergeList, hurlA, hurlB, if_pos hle]

theorem mergeList_of_not_le {a b : ℕ} {urlA urlB : UrlInfo} (hurlA : data h a = some urlA)
    (hurlB : data h b = some urlB) (hle : ¬ urlB.preference ≤ urlA.preference) (fuel : ℕ) :
    mergeList (fuel + 1) h (some a) (some b) =
      (mergeList fuel h (some a) (h.link (some b))).map fun r =>
        (r.1.store (some b) r.2, some b) := by
  simp only [mergeList, hurlA, hurlB, if_neg hle]

/-- The node in front is linked to what the rest was merged to. -/
theorem RelinksOnly.push {g : UrlHeap} {ids ids' : List ℕ} {i : ℕ} {rest : Option ℕ}
    (honly : RelinksOnly h g ids) (hrest : Leads g rest ids') (hperm : ids'.Perm ids)
    (hnodup : (i :: ids).Nodup) :
    RelinksOnly h (g.store (some i) rest) (i :: ids) ∧
      Leads (g.store (some i) rest) (some i) (i :: ids') := by
  constructor
  · exact (honly.mono fun j hj => List.mem_cons_of_mem i hj).store List.mem_cons_self rest
  · exact hrest.push fun hi => (List.nodup_cons.mp hnodup).1 (hperm.mem_iff.mp hi)

/-- Two chains without a common node are merged into one of all their nodes. -/
theorem mergeList_spec (fuel : ℕ) (hA : Leads h listA idsA) (hB : Leads h listB idsB)
    (hapart : (idsA ++ idsB).Nodup) (hurls : HaveUrls h (idsA ++ idsB))
    (hfuel : idsA.length + idsB.length < fuel) :
    ∃ h' merged, mergeList fuel h listA listB = some (h', merged) ∧
      RelinksOnly h h' (idsA ++ idsB) ∧ Leads h' merged (idsA.merge idsB (before h)) := by
  induction fuel generalizing listA listB idsA idsB with
  | zero => exact absurd hfuel (Nat.not_lt_zero _)
  | succ fuel ih =>
      cases hA with
      | nil =>
          rw [List.nil_merge]
          cases hB with
          | nil => exact ⟨h, none, rfl, .refl h _, .nil⟩
          | cons hrest => exact ⟨h, _, rfl, .refl h _, .cons hrest⟩
      | @cons a restA hrestA =>
          cases hB with
          | nil => exact ⟨h, _, rfl, .refl h _, by simpa using .cons hrestA⟩
          | @cons b restB hrestB =>
              obtain ⟨urlA, hurlA⟩ := hurls a (by simp)
              obtain ⟨urlB, hurlB⟩ := hurls b (by simp)
              have hbefore : before h a b = true ↔ urlB.preference ≤ urlA.preference := by
                simp [before, preference, hurlA, hurlB]
              by_cases hle : urlB.preference ≤ urlA.preference
              · rw [List.cons_append] at hapart hurls ⊢
                obtain ⟨h', rest, hrun, honly, hrest⟩ := ih hrestA (.cons hrestB) hapart.of_cons
                  (fun i hi => hurls i (List.mem_cons_of_mem a hi))
                  (by simp only [List.length_cons] at hfuel ⊢; omega)
                rw [mergeList_of_le hurlA hurlB hle, hrun,
                  List.cons_merge_cons_pos _ _ _ (hbefore.mpr hle)]
                exact ⟨_, _, rfl, honly.push hrest (List.merge_perm_append _) hapart⟩
              · have hfront : (a :: restA ++ b :: restB).Perm (b :: (a :: restA ++ restB)) :=
                  List.perm_middle
                rw [hfront.nodup_iff] at hapart
                obtain ⟨h', rest, hrun, honly, hrest⟩ := ih (.cons hrestA) hrestB hapart.of_cons
                  (fun i hi => hurls i (hfront.mem_iff.mpr (List.mem_cons_of_mem b hi)))
                  (by simp only [List.length_cons] at hfuel ⊢; omega)
                rw [mergeList_of_not_le hurlA hurlB hle, hrun,
                  List.cons_merge_cons_neg _ _ _ (by rwa [hbefore])]
                obtain ⟨honly', hleads⟩ := honly.push hrest (List.merge_perm_append _) hapart
                exact ⟨_, _, rfl, honly'.mono fun i hi => hfront.mem_iff.mpr hi, hleads⟩

end Merging

section Sorting

variable {h : UrlHeap} {p : Option ℕ} {ids : List ℕ}

/-- The slow pointer ends half as far on as there are nodes before the fast one. -/
theorem splitLoop_spec (fuel : ℕ) {slow : ℕ} {fast : Option ℕ} {behind rest : List ℕ}
    (hslow : Leads h (h.link (some slow)) behind) (hfast : Leads h fast rest)
    (hlength : rest.length ≤ behind.length) (hfuel : rest.length < fuel) :
    ∃ front last back, slow :: behind = front ++ last :: back ∧
      front.length = rest.length / 2 ∧ splitLoop fuel h slow fast = some last := by
  induction fuel generalizing slow fast behind rest with
  | zero => exact absurd hfuel (Nat.not_lt_zero _)
  | succ fuel ih =>
      cases hfast with
      | nil => exact ⟨[], slow, behind, rfl, rfl, rfl⟩
      | @cons x rest hrest =>
          cases rest with
          | nil =>
              refine ⟨[], slow, behind, rfl, by simp, ?_⟩
              rw [splitLoop, leads_nil_iff.mp hrest]
              cases fuel with
              | zero => exact absurd hfuel (by simp)
              | succ fuel => rfl
          | cons y rest =>
              obtain ⟨hy, hrest⟩ := leads_cons_iff.mp hrest
              cases behind with
              | nil => exact absurd hlength (by simp)
              | cons s behind =>
                  obtain ⟨hs, hbehind⟩ := leads_cons_iff.mp hslow
                  simp only [List.length_cons] at hlength hfuel
                  obtain ⟨front, last, back, hsplit, hfront, hrun⟩ :=
                    ih hbehind hrest (by omega) (by omega)
                  refine ⟨slow :: front, last, back, by rw [hsplit, List.cons_append], ?_, ?_⟩
                  · simp only [List.length_cons, hfront]
                    omega
                  · rw [splitLoop, hy, hs]
                    exact hrun

/-- The merge sort of a list cut in the middle. -/
theorem mergeSort_eq_merge {le : ℕ → ℕ → Bool} {front back : List ℕ} (hids : ids = front ++ back)
    (htwo : 2 ≤ ids.length) (hfront : front.length = (ids.length + 1) / 2) :
    ids.mergeSort le = (front.mergeSort le).merge (back.mergeSort le) le := by
  match ids, htwo with
  | a :: b :: rest, _ =>
    have htake : (a :: b :: rest).take (((a :: b :: rest).length + 1) / 2) = front := by
      rw [← hfront, hids, List.take_left]
    have hdrop : (a :: b :: rest).drop (((a :: b :: rest).length + 1) / 2) = back := by
      rw [← hfront, hids, List.drop_left]
    rw [List.mergeSort]
    simp only [List.MergeSort.Internal.splitInTwo_fst, List.MergeSort.Internal.splitInTwo_snd,
      htake, hdrop]

/-- The sort ends, moves pointers of the list alone, and leaves the nodes in the order of a merge
sort. -/
theorem sortListOnPreference_eq_mergeSort (fuel : ℕ) (hp : Leads h p ids)
    (hurls : HaveUrls h ids) (hfuel : ids.length + 1 < fuel) :
    ∃ h' p', sortListOnPreference fuel h p = some (h', p') ∧ RelinksOnly h h' ids ∧
      Leads h' p' (ids.mergeSort (before h)) := by
  induction fuel generalizing h p ids with
  | zero => exact absurd hfuel (Nat.not_lt_zero _)
  | succ fuel ih =>
      cases hp with
      | nil => exact ⟨h, none, rfl, .refl h _, by simpa using .nil⟩
      | @cons i rest hrest =>
          cases rest with
          | nil =>
              have hnone := leads_nil_iff.mp hrest
              refine ⟨h, some i, by rw [sortListOnPreference, if_pos hnone], .refl h _, ?_⟩
              rw [List.mergeSort_singleton]
              exact .cons hrest
          | cons j rest =>
              have hj : h.link (some i) ≠ none := by
                rw [(leads_cons_iff.mp hrest).1]
                exact Option.some_ne_none j
              simp only [List.length_cons] at hfuel
              obtain ⟨front, last, back, hsplit, hfront, hrun⟩ :=
                splitLoop_spec fuel hrest hrest (Nat.le_refl _)
                  (by simp only [List.length_cons]; omega)
              have hids : i :: j :: rest = (front ++ [last]) ++ back := by
                rw [hsplit, List.append_assoc, List.singleton_append]
              have hall : ((front ++ [last]) ++ back).length = rest.length + 2 := by
                rw [← hids, List.length_cons, List.length_cons]
              have hlength : (front ++ [last]).length + back.length = rest.length + 2 := by
                rw [← List.length_append, hall]
              have hfrontLength : (front ++ [last]).length = (rest.length + 3) / 2 := by
                simp only [List.length_append, List.length_cons, List.length_nil] at hfront ⊢
                omega
              have hp : Leads h (some i) (front ++ last :: back) := hsplit ▸ .cons hrest
              obtain ⟨hfrontLeads, hbackLeads⟩ := hp.cut
              have hnodup : ((front ++ [last]) ++ back).Nodup := by
                rw [List.append_assoc]
                exact hp.nodup
              have hapart := (List.nodup_append.mp hnodup).2.2
              rw [hids] at hurls ⊢
              have hcut : RelinksOnly h (h.store (some last) none) ((front ++ [last]) ++ back) :=
                (RelinksOnly.refl h _).store (by simp) none
              have hurls' {g : UrlHeap} {sub : List ℕ} (hg : g.nodes = h.nodes)
                  (hsub : ∀ k ∈ sub, k ∈ (front ++ [last]) ++ back) : HaveUrls g sub := by
                intro k hk
                rw [data, hg]
                exact hurls k (hsub k hk)
              obtain ⟨g₁, listA, hrunA, hg₁, hA⟩ := ih hfrontLeads
                (hurls' rfl fun k hk => List.mem_append_left _ hk) (by omega)
              have hbackLeads₁ := hg₁.leads hbackLeads
                fun k hk hk' => hapart k hk' k hk rfl
              obtain ⟨g₂, listB, hrunB, hg₂, hB⟩ := ih hbackLeads₁
                (hurls' hg₁.nodes fun k hk => List.mem_append_right _ hk) (by omega)
              have hA₂ := hg₂.leads hA fun k hk hk' =>
                hapart k (List.mem_mergeSort.mp hk) k hk' rfl
              have hsorted : ((front ++ [last]).mergeSort (before h) ++
                  back.mergeSort (before h)).Perm ((front ++ [last]) ++ back) :=
                (List.mergeSort_perm _ _).append (List.mergeSort_perm _ _)
              have hbefore₁ : before (h.store (some last) none) = before h := hcut.before
              have hbefore₂ : before g₁ = before h := hg₁.before.trans hbefore₁
              have hbefore₃ : before g₂ = before h := hg₂.before.trans hbefore₂
              rw [hbefore₁] at hA₂
              rw [hbefore₂] at hB
              have hnodes : g₂.nodes = h.nodes := hg₂.nodes.trans hg₁.nodes
              obtain ⟨h', merged, hmerge, honly, hleads⟩ := mergeList_spec fuel hA₂ hB
                (hsorted.nodup_iff.mpr hnodup) (hurls' hnodes fun k hk => hsorted.mem_iff.mp hk)
                (by rw [List.length_mergeSort, List.length_mergeSort]; omega)
              refine ⟨h', merged, ?_, ?_, ?_⟩
              · rw [sortListOnPreference, if_neg hj, frontBackSplit, hrun]
                simp only [Option.map_some, Option.bind_eq_bind, Option.bind_some, hrunA, hrunB,
                  hmerge]
              · exact ((hcut.trans (hg₁.mono fun k hk => List.mem_append_left _ hk)).trans
                  (hg₂.mono fun k hk => List.mem_append_right _ hk)).trans
                  (honly.mono fun k hk => hsorted.mem_iff.mp hk)
              · rw [mergeSort_eq_merge rfl (by omega) (by omega)]
                rwa [hbefore₃] at hleads

theorem before_trans (h : UrlHeap) (i j k : ℕ) (hij : before h i j = true)
    (hjk : before h j k = true) : before h i k = true := by
  simp only [before, decide_eq_true_eq] at hij hjk ⊢
  omega

theorem before_total (h : UrlHeap) (i j : ℕ) : (before h i j || before h j i) = true := by
  simp only [before, Bool.or_eq_true, decide_eq_true_eq]
  omega

/-- Nodes of one preference stay in their order. -/
theorem filter_mergeSort (h : UrlHeap) (ids : List ℕ) (k : ℤ) :
    (ids.mergeSort (before h)).filter (fun i => preference h i = k) =
      ids.filter fun i => preference h i = k := by
  have halike : (ids.filter fun i => preference h i = k).Pairwise
      fun i j => before h i j = true := by
    refine List.pairwise_iff_forall_sublist.mpr fun {i j} hsub => ?_
    have hi := hsub.subset List.mem_cons_self
    have hj := hsub.subset (List.mem_cons_of_mem i List.mem_cons_self)
    simp only [List.mem_filter, decide_eq_true_eq] at hi hj
    simp [before, hi.2, hj.2]
  have hsub := (List.sublist_mergeSort (before_trans h) (before_total h) halike
    List.filter_sublist).filter fun i => decide (preference h i = k)
  rw [List.filter_filter] at hsub
  simp only [Bool.and_self] at hsub
  exact (hsub.eq_of_length ((List.mergeSort_perm ids (before h)).filter _).length_eq.symm).symm

/-- The sort of a list of URLs ends, and leaves the same nodes in the order of descending
preference, those of equal preference in the order they had. -/
theorem sortListOnPreference_spec (h : UrlHeap) (p : Option ℕ) (ids : List ℕ)
    (hp : Leads h p ids) (hurls : HaveUrls h ids) (fuel : ℕ) (hfuel : ids.length + 2 ≤ fuel) :
    ∃ h' p' ids', sortListOnPreference fuel h p = some (h', p') ∧ RelinksOnly h h' ids ∧
      Leads h' p' ids' ∧ ids'.Perm ids ∧
      ids'.Pairwise (fun i j => preference h j ≤ preference h i) ∧
      ∀ k, ids'.filter (fun i => preference h i = k) =
        ids.filter fun i => preference h i = k := by
  obtain ⟨h', p', hrun, honly, hleads⟩ := sortListOnPreference_eq_mergeSort fuel hp hurls hfuel
  refine ⟨h', p', _, hrun, honly, hleads, List.mergeSort_perm _ _, ?_, filter_mergeSort h ids⟩
  have hsorted := List.pairwise_mergeSort (before_trans h) (before_total h) ids
  exact hsorted.imp fun hij => by simpa [before] using hij

end Sorting

/-- Two mirrors, the second of which is preferred. -/
def twoMirrors : UrlHeap where
  nodes := [some ⟨none, none, none, some "http://a".toList, 50⟩,
    some ⟨none, none, none, some "http://b".toList, 100⟩]
  link := fun slot => if slot = none then some 0 else if slot = some 0 then some 1 else none

/-- The preferred mirror comes first. -/
theorem sortListOnPreference_twoMirrors :
    ∃ h' p' ids', sortListOnPreference 4 twoMirrors (some 0) = some (h', p') ∧
      Leads h' p' ids' ∧ ids'.Perm [0, 1] ∧
      ids'.Pairwise (fun i j => preference twoMirrors j ≤ preference twoMirrors i) := by
  have hurls : HaveUrls twoMirrors [0, 1] := by
    intro i hi
    obtain rfl | rfl : i = 0 ∨ i = 1 := by simpa using hi
    · exact ⟨_, rfl⟩
    · exact ⟨_, rfl⟩
  obtain ⟨h', p', ids', hrun, -, hleads, hperm, hsorted, -⟩ :=
    sortListOnPreference_spec twoMirrors (some 0) [0, 1] (.cons (.cons .nil)) hurls 4 (by decide)
  exact ⟨h', p', ids', hrun, hleads, hperm, hsorted⟩

end Preference

end Tdnf.Metalink
