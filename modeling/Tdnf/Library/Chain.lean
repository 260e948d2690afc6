import Mathlib.Data.Finset.Card
import Mathlib.Data.List.Nodup
import Mathlib.Data.Nat.Notation
import Mathlib.Logic.Function.Basic

/-!
# Chains of nodes

A chain is held by a variable that points to its first node; every node points
to the next. The variable and the pointers inside of nodes are slots. A chain is
extended by storing nodes through the slot at its end, whoever holds that slot.
-/

namespace Chain

/-- A place that holds a pointer: the variable, or the pointer inside of a node. -/
abbrev Slot := Option ℕ

/-- The nodes allocated so far, and what the slots point to. -/
structure Heap (α : Type) where
  nodes : List α
  link : Slot → Option ℕ

namespace Heap

variable {α : Type}

def empty : Heap α := ⟨[], fun _ => none⟩

/-- `*slot = p` -/
def store (h : Heap α) (slot : Slot) (p : Option ℕ) : Heap α :=
  ⟨h.nodes, Function.update h.link slot p⟩

/-- A new node that points to `p`. -/
def alloc (h : Heap α) (a : α) (p : Option ℕ) : Heap α :=
  ⟨h.nodes ++ [a], Function.update h.link (some h.nodes.length) p⟩

/-- The slot at the end of what a slot holds, reached in at most `fuel` steps. -/
def seek (h : Heap α) : ℕ → Slot → Slot
  | 0, slot => slot
  | fuel + 1, slot =>
    match h.link slot with
    | none => slot
    | some i => seek h fuel (some i)

/-- The nodes that a pointer leads to, at most `fuel` of them. -/
def follow (h : Heap α) : ℕ → Option ℕ → List ℕ
  | 0, _ => []
  | _ + 1, none => []
  | fuel + 1, some i => i :: follow h fuel (h.link (some i))

/-- The contents of the chain that the variable holds. -/
def contents (h : Heap α) : List α :=
  (h.follow h.nodes.length (h.link none)).filterMap fun i => h.nodes[i]?

@[simp] theorem store_nodes (h : Heap α) (slot : Slot) (p : Option ℕ) :
    (h.store slot p).nodes = h.nodes := rfl

@[simp] theorem store_link_self (h : Heap α) (slot : Slot) (p : Option ℕ) :
    (h.store slot p).link slot = p := by
  simp [store]

theorem store_link_of_ne {slot s : Slot} (hs : s ≠ slot) (h : Heap α) (p : Option ℕ) :
    (h.store slot p).link s = h.link s := by
  simp [store, hs]

/-- A pointer leads through these nodes to NULL. -/
inductive Leads (h : Heap α) : Option ℕ → List ℕ → Prop where
  | nil : Leads h none []
  | cons {i : ℕ} {ids : List ℕ} (hrest : Leads h (h.link (some i)) ids) :
      Leads h (some i) (i :: ids)

/-- The slot at the end of the chain that a slot holds. -/
def lastSlot (slot : Slot) (ids : List ℕ) : Slot := (ids.getLast?.map some).getD slot

@[simp] theorem lastSlot_nil (slot : Slot) : lastSlot slot [] = slot := rfl

theorem lastSlot_cons (slot : Slot) (i : ℕ) (ids : List ℕ) :
    lastSlot slot (i :: ids) = lastSlot (some i) ids := by
  cases hlast : ids.getLast? with
  | none =>
      rw [List.getLast?_eq_none_iff] at hlast
      simp [lastSlot, hlast]
  | some j => simp [lastSlot, List.getLast?_cons, hlast]

theorem lastSlot_append (slot : Slot) (ids ids' : List ℕ) :
    lastSlot slot (ids ++ ids') = lastSlot (lastSlot slot ids) ids' := by
  induction ids generalizing slot with
  | nil => rfl
  | cons i ids ih => rw [List.cons_append, lastSlot_cons, lastSlot_cons, ih]

theorem lastSlot_mem (slot : Slot) (ids : List ℕ) :
    lastSlot slot ids ∈ slot :: ids.map some := by
  induction ids generalizing slot with
  | nil => exact List.mem_cons_self
  | cons i ids ih =>
      rw [lastSlot_cons]
      exact List.mem_cons_of_mem slot (ih (some i))

variable {h g : Heap α} {p q : Option ℕ} {slot : Slot} {ids ids' : List ℕ}

/-- What a pointer leads to depends on the pointers inside of these nodes alone. -/
theorem Leads.frame (hp : Leads h p ids)
    (hlink : ∀ i ∈ ids, g.link (some i) = h.link (some i)) : Leads g p ids := by
  induction hp with
  | nil => exact .nil
  | @cons i ids _ ih =>
      refine .cons ?_
      rw [hlink i List.mem_cons_self]
      exact ih fun j hj => hlink j (List.mem_cons_of_mem i hj)

/-- A pointer leads through these nodes to where another pointer points. -/
inductive Segment (h : Heap α) : Option ℕ → List ℕ → Option ℕ → Prop where
  | nil {p : Option ℕ} : Segment h p [] p
  | cons {i : ℕ} {ids : List ℕ} {q : Option ℕ} (hrest : Segment h (h.link (some i)) ids q) :
      Segment h (some i) (i :: ids) q

theorem Segment.frame (hp : Segment h p ids q)
    (hlink : ∀ i ∈ ids, g.link (some i) = h.link (some i)) : Segment g p ids q := by
  induction hp with
  | nil => exact .nil
  | @cons i ids q _ ih =>
      refine .cons ?_
      rw [hlink i List.mem_cons_self]
      exact ih fun j hj => hlink j (List.mem_cons_of_mem i hj)

theorem Segment.trans {r : Option ℕ} (hp : Segment h p ids q) (hq : Segment h q ids' r) :
    Segment h p (ids ++ ids') r := by
  induction hp with
  | nil => exact hq
  | cons _ ih => exact .cons (ih hq)

theorem Segment.leads (hp : Segment h p ids q) (hq : Leads h q ids') : Leads h p (ids ++ ids') := by
  induction hp with
  | nil => exact hq
  | cons _ ih => exact .cons (ih hq)

/-- What leads on from the start of a segment passes its end. -/
theorem Segment.rest (hp : Segment h p ids q) (hids : Leads h p ids') :
    ∃ rest, ids' = ids ++ rest ∧ Leads h q rest := by
  induction hp generalizing ids' with
  | nil => exact ⟨ids', rfl, hids⟩
  | cons _ ih =>
      cases hids with
      | cons hrest =>
          obtain ⟨rest, rfl, hq⟩ := ih hrest
          exact ⟨rest, rfl, hq⟩

theorem Leads.unique (hp : Leads h p ids) (hp' : Leads h p ids') : ids = ids' := by
  induction hp generalizing ids' with
  | nil =>
      cases hp'
      rfl
  | cons _ ih =>
      cases hp' with
      | cons hrest => rw [ih hrest]

/-- A pointer that leads to itself does not lead to NULL. -/
theorem Segment.not_leads (hp : Segment h p ids p) (hne : ids ≠ []) (ids' : List ℕ) :
    ¬ Leads h p ids' := by
  intro hleads
  obtain ⟨rest, hrest, hend⟩ := hp.rest hleads
  have hsame : ids' = rest := hleads.unique hend
  have hlength := congrArg List.length hrest
  rw [hsame, List.length_append] at hlength
  have hpos := List.length_pos_iff.mpr hne
  omega

/-- The nodes before one of a chain lead to it. -/
theorem Leads.split {i : ℕ} (hp : Leads h p (ids ++ i :: ids')) :
    Segment h p ids (some i) ∧ Leads h (some i) (i :: ids') := by
  induction ids generalizing p with
  | nil =>
      cases hp with
      | cons hrest => exact ⟨.nil, .cons hrest⟩
  | cons j ids ih =>
      cases hp with
      | cons hrest => exact ⟨.cons (ih hrest).1, (ih hrest).2⟩

/-- A chain that ends passes no node twice. -/
theorem Leads.nodup (hp : Leads h p ids) : ids.Nodup := by
  induction hp with
  | nil => exact List.nodup_nil
  | @cons i ids hrest ih =>
      refine List.nodup_cons.mpr ⟨?_, ih⟩
      intro hi
      obtain ⟨before, behind, rfl⟩ := List.append_of_mem hi
      have hback : Segment h (some i) (i :: before) (some i) := .cons hrest.split.1
      exact hback.not_leads (by simp) _ (.cons hrest)

theorem leads_nil_iff : Leads h p [] ↔ p = none := by
  constructor
  · intro hp
    cases hp
    rfl
  · rintro rfl
    exact .nil

theorem leads_cons_iff {i : ℕ} :
    Leads h p (i :: ids) ↔ p = some i ∧ Leads h (h.link (some i)) ids := by
  constructor
  · intro hp
    cases hp with
    | cons hrest => exact ⟨rfl, hrest⟩
  · rintro ⟨rfl, hrest⟩
    exact .cons hrest

/-- A node that is not in a chain becomes its first one. -/
theorem Leads.push {i : ℕ} (hp : Leads h p ids) (hi : i ∉ ids) :
    Leads (h.store (some i) p) (some i) (i :: ids) := by
  refine .cons ?_
  rw [store_link_self]
  refine hp.frame fun j hj => store_link_of_ne ?_ h p
  rw [Ne, Option.some.injEq]
  rintro rfl
  exact hi hj

/-- Storing NULL in a node cuts the chain behind it. -/
theorem Leads.cut {last : ℕ} (hp : Leads h p (ids ++ last :: ids')) :
    Leads (h.store (some last) none) p (ids ++ [last]) ∧
      Leads (h.store (some last) none) (h.link (some last)) ids' := by
  have hnodup := hp.nodup
  obtain ⟨hsegment, hrest⟩ := hp.split
  obtain ⟨hids, hback, hapart⟩ := List.nodup_append.mp hnodup
  have hkept {i : ℕ} (hi : i ≠ last) :
      (h.store (some last) none).link (some i) = h.link (some i) :=
    store_link_of_ne (by simpa using hi) h none
  constructor
  · have hlast : Leads (h.store (some last) none) (some last) [last] := by
      refine .cons ?_
      rw [store_link_self]
      exact .nil
    refine (hsegment.frame fun i hi => hkept ?_).leads hlast
    exact hapart i hi last List.mem_cons_self
  · cases hrest with
    | cons hbehind =>
        refine hbehind.frame fun i hi => hkept ?_
        rintro rfl
        exact (List.nodup_cons.mp hback).1 hi

/-- Link some nodes one after the other; the last one keeps its successor. -/
def relink (h : Heap α) (cur : ℕ) : List ℕ → Heap α
  | [] => h
  | i :: rest => relink (h.store (some cur) (some i)) i rest

theorem relink_link_of_not_mem {cur : ℕ} (hs : ∀ i ∈ (cur :: ids).dropLast, slot ≠ some i) :
    (h.relink cur ids).link slot = h.link slot := by
  induction ids generalizing h cur with
  | nil => rfl
  | cons i ids ih =>
      rw [relink, ih fun j hj => hs j (List.mem_cons_of_mem cur hj)]
      exact store_link_of_ne (hs cur List.mem_cons_self) h (some i)

/-- From each of the linked nodes on the pointers lead through the ones behind it. -/
theorem relink_segment {cur i last : ℕ} {before behind left : List ℕ} (hids : (cur :: ids).Nodup)
    (hsplit : cur :: ids = before ++ i :: behind) (hlast : cur :: ids = left ++ [last]) :
    Segment (h.relink cur ids) (some i) (i :: behind) (h.link (some last)) := by
  induction ids generalizing h cur i before behind left with
  | nil =>
      cases before with
      | nil =>
          cases hsplit
          cases left with
          | nil =>
              cases hlast
              exact .cons .nil
          | cons j left => simp at hlast
      | cons j before => simp at hsplit
  | cons j ids ih =>
      obtain ⟨hcur, hrest⟩ := List.nodup_cons.mp hids
      cases left with
      | nil => simp at hlast
      | cons c left =>
          obtain ⟨rfl, hlast'⟩ := List.cons.inj hlast
          have hmem : last ∈ j :: ids := by
            rw [hlast']
            exact List.mem_append_right left (List.mem_singleton.mpr rfl)
          have hne : some last ≠ some cur := by
            intro heq
            exact hcur (Option.some.inj heq ▸ hmem)
          have hend : (h.store (some cur) (some j)).link (some last) = h.link (some last) :=
            store_link_of_ne hne h (some j)
          cases before with
          | nil =>
              obtain ⟨rfl, rfl⟩ := List.cons.inj hsplit
              have hlink : (h.relink cur (j :: ids)).link (some cur) = some j := by
                rw [relink, relink_link_of_not_mem, store_link_self]
                intro k hk heq
                have hk' := List.dropLast_subset _ hk
                exact hcur (Option.some.inj heq ▸ hk')
              refine .cons ?_
              rw [hlink, relink, ← hend]
              exact ih hrest (List.nil_append _).symm hlast'
          | cons c before =>
              obtain ⟨rfl, hsplit'⟩ := List.cons.inj hsplit
              rw [relink, ← hend]
              exact ih hrest hsplit' hlast'

/-- Storing a pointer through the slot at the end joins two chains. -/
theorem Leads.join (hp : Leads h (h.link slot) ids) (hq : Leads h q ids')
    (hids : (slot :: (ids ++ ids').map some).Nodup) :
    Leads (h.store (lastSlot slot ids) q) ((h.store (lastSlot slot ids) q).link slot)
      (ids ++ ids') := by
  induction ids generalizing slot with
  | nil =>
      rw [lastSlot_nil, store_link_self, List.nil_append]
      refine hq.frame fun i hi => store_link_of_ne ?_ h q
      rintro rfl
      exact (List.nodup_cons.mp hids).1 (List.mem_map_of_mem hi)
  | cons i ids ih =>
      obtain ⟨hslot, hids⟩ := List.nodup_cons.mp hids
      rw [List.cons_append, List.map_cons] at hslot hids
      cases hlink : h.link slot with
      | none =>
          rw [hlink] at hp
          cases hp
      | some j =>
          rw [hlink] at hp
          cases hp with
          | cons hrest =>
              rw [lastSlot_cons]
              have hne : slot ≠ lastSlot (some i) ids := by
                intro heq
                apply hslot
                rw [heq, List.map_append, ← List.cons_append]
                exact List.mem_append_left _ (lastSlot_mem (some i) ids)
              rw [store_link_of_ne hne, hlink]
              exact .cons (ih hrest hids)

/-- The slot at the end points to NULL. -/
theorem Leads.link_lastSlot (hp : Leads h (h.link slot) ids) :
    h.link (lastSlot slot ids) = none := by
  induction ids generalizing slot with
  | nil =>
      cases hlink : h.link slot with
      | none => exact hlink
      | some i =>
          rw [hlink] at hp
          cases hp
  | cons i ids ih =>
      cases hlink : h.link slot with
      | none =>
          rw [hlink] at hp
          cases hp
      | some j =>
          rw [hlink] at hp
          cases hp with
          | cons hrest =>
              rw [lastSlot_cons]
              exact ih hrest

/-- Enough steps come to the slot at the end. -/
theorem Leads.seek (hp : Leads h (h.link slot) ids) {fuel : ℕ} (hfuel : ids.length ≤ fuel) :
    h.seek fuel slot = lastSlot slot ids := by
  induction ids generalizing slot fuel with
  | nil =>
      cases hlink : h.link slot with
      | none => cases fuel <;> simp [Heap.seek, hlink]
      | some i =>
          rw [hlink] at hp
          cases hp
  | cons i ids ih =>
      cases hlink : h.link slot with
      | none =>
          rw [hlink] at hp
          cases hp
      | some j =>
          rw [hlink] at hp
          cases hp with
          | cons hrest =>
              cases fuel with
              | zero => exact absurd hfuel (Nat.not_succ_le_zero _)
              | succ fuel =>
                  rw [Heap.seek, hlink, lastSlot_cons]
                  exact ih hrest (Nat.le_of_succ_le_succ hfuel)

/-- Enough steps pass all nodes. -/
theorem Leads.follow (hp : Leads h p ids) {fuel : ℕ} (hfuel : ids.length ≤ fuel) :
    h.follow fuel p = ids := by
  induction hp generalizing fuel with
  | nil => cases fuel <;> rfl
  | cons _ ih =>
      cases fuel with
      | zero => exact absurd hfuel (Nat.not_succ_le_zero _)
      | succ fuel =>
          rw [Heap.follow]
          exact congrArg _ (ih (Nat.le_of_succ_le_succ hfuel))

/-- Distinct nodes are no more than were allocated. -/
theorem length_le_of_nodup {n : ℕ} (hids : ids.Nodup) (hbound : ∀ i ∈ ids, i < n) :
    ids.length ≤ n := by
  calc ids.length = ids.toFinset.card := (List.toFinset_card_of_nodup hids).symm
    _ ≤ (Finset.range n).card := by
        apply Finset.card_le_card
        intro i hi
        exact Finset.mem_range.mpr (hbound i (List.mem_toFinset.mp hi))
    _ = n := Finset.card_range n

/-- A slot that existed before the `n`th node was allocated. -/
def Old (n : ℕ) (slot : Slot) : Prop := ∀ i, slot = some i → i < n

/-- The nodes hold these items. -/
def Items (h : Heap α) (ids : List ℕ) (items : List α) : Prop :=
  ids.map (fun i => h.nodes[i]?) = items.map some

/-- The slot holds a chain of these items. -/
structure Holds (h : Heap α) (slot : Slot) (ids : List ℕ) (items : List α) : Prop where
  leads : Leads h (h.link slot) ids
  nodup : (slot :: ids.map some).Nodup
  old : ∀ s ∈ slot :: ids.map some, Old h.nodes.length s
  items : Items h ids items

/-- From `h` to `g` new nodes were allocated, which a pointer leads to. -/
structure Batch (h g : Heap α) (p : Option ℕ) (ids : List ℕ) (items : List α) : Prop where
  leads : Leads g p ids
  nodup : ids.Nodup
  bounds : ∀ i ∈ ids, h.nodes.length ≤ i ∧ i < g.nodes.length
  items : Items g ids items
  nodes : h.nodes <+: g.nodes
  links : ∀ s, Old h.nodes.length s → g.link s = h.link s

variable {items items' : List α}

theorem Items.mono (hitems : Items h ids items) (hids : ∀ i ∈ ids, i < h.nodes.length)
    (hnodes : h.nodes <+: g.nodes) : Items g ids items := by
  rw [Items, ← hitems]
  apply List.map_congr_left
  intro i hi
  obtain ⟨more, hmore⟩ := hnodes
  rw [← hmore, List.getElem?_append_left (hids i hi)]

theorem Holds.bound (hh : Holds h slot ids items) : ∀ i ∈ ids, i < h.nodes.length :=
  fun i hi => hh.old (some i) (List.mem_cons_of_mem slot (List.mem_map_of_mem hi)) i rfl

theorem Batch.empty (h : Heap α) : Batch h h none [] [] :=
  ⟨.nil, List.nodup_nil, by simp, rfl, List.prefix_refl _, fun _ _ => rfl⟩

/-- A batch grows at its front. -/
theorem Batch.cons (hb : Batch h g p ids items) (a : α) :
    Batch h (g.alloc a p) (some g.nodes.length) (g.nodes.length :: ids) (a :: items) := by
  have hle : h.nodes.length ≤ g.nodes.length := hb.nodes.length_le
  have hlink : (g.alloc a p).link (some g.nodes.length) = p := Function.update_self _ _ _
  have hkept : ∀ s, Old g.nodes.length s → (g.alloc a p).link s = g.link s := by
    intro s hs
    apply Function.update_of_ne
    intro heq
    exact Nat.lt_irrefl _ (hs _ heq)
  have hprefix : g.nodes <+: (g.alloc a p).nodes := List.prefix_append _ _
  constructor
  · refine .cons ?_
    rw [hlink]
    apply hb.leads.frame
    intro i hi
    apply hkept
    rintro j hj
    obtain rfl := Option.some.inj hj
    exact (hb.bounds i hi).2
  · refine List.nodup_cons.mpr ⟨fun hmem => ?_, hb.nodup⟩
    exact Nat.lt_irrefl _ (hb.bounds _ hmem).2
  · intro i hi
    have hlength : (g.alloc a p).nodes.length = g.nodes.length + 1 := by simp [alloc]
    rw [hlength]
    obtain rfl | hi := List.mem_cons.mp hi
    · exact ⟨hle, Nat.lt_succ_self _⟩
    · exact ⟨(hb.bounds i hi).1, Nat.lt_succ_of_lt (hb.bounds i hi).2⟩
  · have hrest : Items (g.alloc a p) ids items :=
      hb.items.mono (fun i hi => (hb.bounds i hi).2) hprefix
    rw [Items, List.map_cons, List.map_cons, hrest]
    simp [alloc]
  · exact hb.nodes.trans hprefix
  · intro s hs
    rw [hkept s fun i hi => (hs i hi).trans_le hle, hb.links s hs]

/-- Old slots that are not written keep what they hold. -/
theorem Holds.frame (hh : Holds h slot ids items) (hb : Batch h g p ids' items') {t : Slot}
    (ht : t ∉ slot :: ids.map some) (q : Option ℕ) : Holds (g.store t q) slot ids items := by
  have hlink : ∀ s ∈ slot :: ids.map some, (g.store t q).link s = h.link s := by
    intro s hs
    have hne : s ≠ t := by
      intro heq
      rw [heq] at hs
      exact ht hs
    rw [store_link_of_ne hne, hb.links s (hh.old s hs)]
  refine ⟨?_, hh.nodup, ?_, hh.items.mono hh.bound hb.nodes⟩
  · rw [hlink slot List.mem_cons_self]
    apply hh.leads.frame
    intro i hi
    exact hlink (some i) (List.mem_cons_of_mem slot (List.mem_map_of_mem hi))
  · exact fun s hs i hi => (hh.old s hs i hi).trans_le hb.nodes.length_le

/-- A batch is appended through the slot at the end. -/
theorem Holds.append (hh : Holds h slot ids items) (hb : Batch h g p ids' items') :
    Holds (g.store (lastSlot slot ids) p) slot (ids ++ ids') (items ++ items') := by
  have hfresh : ∀ i ∈ ids', some i ∉ slot :: ids.map some := fun i hi hmem =>
    Nat.not_lt_of_le (hb.bounds i hi).1 (hh.old _ hmem i rfl)
  have hnodup : (slot :: (ids ++ ids').map some).Nodup := by
    rw [List.map_append, ← List.cons_append, List.nodup_append]
    refine ⟨hh.nodup, hb.nodup.map (Option.some_injective ℕ), ?_⟩
    rintro s hs s' hs' rfl
    obtain ⟨i, hi, rfl⟩ := List.mem_map.mp hs'
    exact hfresh i hi hs
  have hlink : ∀ s ∈ slot :: ids.map some, g.link s = h.link s := fun s hs =>
    hb.links s (hh.old s hs)
  refine ⟨?_, hnodup, ?_, ?_⟩
  · refine Leads.join ?_ hb.leads hnodup
    rw [hlink slot List.mem_cons_self]
    apply hh.leads.frame
    intro i hi
    exact hlink (some i) (List.mem_cons_of_mem slot (List.mem_map_of_mem hi))
  · intro s hs i hi
    rw [List.map_append, ← List.cons_append, List.mem_append] at hs
    obtain hs | hs := hs
    · exact (hh.old s hs i hi).trans_le hb.nodes.length_le
    · obtain ⟨j, hj, rfl⟩ := List.mem_map.mp hs
      obtain rfl := Option.some.inj hi
      exact (hb.bounds j hj).2
  · have hold : Items g ids items := hh.items.mono hh.bound hb.nodes
    simp only [Items, store_nodes, List.map_append] at hold ⊢
    rw [hold]
    exact congrArg _ hb.items

/-- The variable holds the batch alone once it points there. -/
theorem Batch.holds (hb : Batch h g p ids items) : Holds (g.store none p) none ids items := by
  refine ⟨?_, ?_, ?_, hb.items⟩
  · rw [store_link_self]
    exact hb.leads.frame fun i _ => store_link_of_ne (Option.some_ne_none i) g p
  · refine List.nodup_cons.mpr ⟨by simp, hb.nodup.map (Option.some_injective ℕ)⟩
  · intro s hs i hi
    obtain rfl | hs := List.mem_cons.mp hs
    · cases hi
    · obtain ⟨j, hj, rfl⟩ := List.mem_map.mp hs
      obtain rfl := Option.some.inj hi
      exact (hb.bounds j hj).2

/-- A batch of one node. -/
theorem Batch.one (h : Heap α) (a : α) :
    Batch h (h.alloc a none) (some h.nodes.length) [h.nodes.length] [a] :=
  (Batch.empty h).cons a

/-- From the slot where a batch is stored, its end is found. -/
theorem Batch.seek (hb : Batch h g p ids items) (hslot : Old h.nodes.length slot) :
    (g.store slot p).seek (g.store slot p).nodes.length slot = lastSlot slot ids := by
  have hleads : Leads (g.store slot p) ((g.store slot p).link slot) ids := by
    rw [store_link_self]
    apply hb.leads.frame
    intro i hi
    apply store_link_of_ne
    intro heq
    exact Nat.not_lt_of_le (hb.bounds i hi).1 (hslot i heq.symm)
  exact hleads.seek (length_le_of_nodup hb.nodup fun i hi => (hb.bounds i hi).2)

/-- The slot at the end of a chain holds an empty one. -/
theorem Holds.tail (hh : Holds h slot ids items) : Holds h (lastSlot slot ids) [] [] := by
  refine ⟨?_, by simp, ?_, rfl⟩
  · rw [hh.leads.link_lastSlot]
    exact .nil
  · intro s hs
    obtain rfl := List.mem_singleton.mp hs
    exact hh.old _ (lastSlot_mem slot ids)

theorem Holds.length_le (hh : Holds h slot ids items) : ids.length ≤ h.nodes.length :=
  length_le_of_nodup (List.nodup_cons.mp hh.nodup).2.of_map hh.bound

/-- What the variable holds is what is read from it. -/
theorem Holds.contents (hh : Holds h none ids items) : h.contents = items := by
  have hfilter : ∀ (ids : List ℕ) (items : List α), Items h ids items →
      ids.filterMap (fun i => h.nodes[i]?) = items := by
    intro ids
    induction ids with
    | nil =>
        intro items hitems
        cases items with
        | nil => rfl
        | cons a items => cases hitems
    | cons i ids ih =>
        intro items hitems
        cases items with
        | nil => cases hitems
        | cons a items =>
            rw [Items, List.map_cons, List.map_cons, List.cons.injEq] at hitems
            rw [List.filterMap_cons, hitems.1]
            exact congrArg _ (ih items hitems.2)
  rw [Heap.contents, hh.leads.follow hh.length_le]
  exact hfilter ids items hh.items

end Heap

end Chain
