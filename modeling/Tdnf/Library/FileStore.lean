import Mathlib.Data.Int.Notation
import Tdnf.Library.PathText

/-!
# Stores of files

What lies at every place of a file system without links: nothing, a directory, or
a file with its data, and the time of the last change. Whether the system lets a
path be used is not part of a store.
-/

namespace FileStore

open PathText

inductive Entry (δ : Type) where
  | absent
  | dir (ctime : ℤ)
  | file (data : δ) (ctime : ℤ)
deriving DecidableEq, Repr

abbrev Files (δ : Type) := Loc → Entry δ

variable {δ : Type} (f : Files δ) (d l : Loc)

namespace Entry

/-- The data of a file. -/
def data : Entry δ → Option δ
  | .file x _ => some x
  | _ => none

/-- The time of the last change of what is there. -/
def ctime : Entry δ → ℤ
  | .absent => 0
  | .dir ctime => ctime
  | .file _ ctime => ctime

end Entry

/-- Another entry at a place. -/
def Files.put (e : Entry δ) : Files δ := fun l' => if l' = l then e else f l'

/-- Everything at and below a directory goes, but for what is kept. -/
def Files.wipe (keeps : Loc → Bool) : Files δ := fun l =>
  if d <:+ l ∧ keeps l = false then .absent else f l

/-- A directory where nothing was. -/
def Files.mkdir (now : ℤ) : Files δ := fun l' =>
  if l' = l then
    match f l with
    | .absent => .dir now
    | e => e
  else f l'

/-- The data of the file at a place. -/
def Files.data : Option δ := (f l).data

section Lemmas

variable {f d l} {l' : Loc} {e : Entry δ} {keeps : Loc → Bool} {x : δ}

theorem put_data : (f.put l e).data l' = if l' = l then e.data else f.data l' := by
  simp only [Files.data, Files.put]
  split <;> rfl

@[simp] theorem put_data_self : (f.put l e).data l = e.data := by rw [put_data, if_pos rfl]

theorem put_data_of_ne (h : l' ≠ l) : (f.put l e).data l' = f.data l' := by
  rw [put_data, if_neg h]

@[simp] theorem mkdir_data {now : ℤ} : (f.mkdir l now).data l' = f.data l' := by
  simp only [Files.data, Files.mkdir]
  split
  · rename_i heq
    rw [heq]
    cases f l with
    | absent => rfl
    | dir ctime => rfl
    | file x ctime => rfl
  · rfl

theorem wipe_data_of_not (h : ¬ d <:+ l) : (f.wipe d keeps).data l = f.data l := by
  simp only [Files.data, Files.wipe, h, false_and, if_false]

/-- A file that is there after a directory went was there before. -/
theorem data_of_wipe (h : (f.wipe d keeps).data l = some x) : f.data l = some x := by
  simp only [Files.data, Files.wipe] at h ⊢
  split at h
  · cases h
  · exact h

theorem wipe_data_of_suffix (h : d <:+ l) (hkeeps : keeps l = false) :
    (f.wipe d keeps).data l = none := by
  simp only [Files.data, Files.wipe, h, hkeeps, and_self, if_true]
  rfl

end Lemmas

/-! ## Stores that lose files only -/

/-- At the places of `K` a file keeps its data or is gone. -/
def Shrinks (K : Loc → Prop) (f g : Files δ) : Prop :=
  ∀ l, K l → g.data l = f.data l ∨ g.data l = none

namespace Shrinks

variable {K : Loc → Prop} {f g h : Files δ} {d l : Loc} {x : δ}

theorem refl (K : Loc → Prop) (f : Files δ) : Shrinks K f f := fun _ _ => .inl rfl

theorem trans (hfg : Shrinks K f g) (hgh : Shrinks K g h) : Shrinks K f h := by
  intro l hl
  obtain hsame | hgone := hgh l hl
  · rw [hsame]
    exact hfg l hl
  · exact .inr hgone

theorem data (hfg : Shrinks K f g) (hl : K l) (hx : g.data l = some x) : f.data l = some x := by
  obtain hsame | hgone := hfg l hl
  · rw [← hsame, hx]
  · rw [hgone] at hx
    cases hx

theorem mkdir (K : Loc → Prop) (f : Files δ) (l : Loc) (now : ℤ) : Shrinks K f (f.mkdir l now) :=
  fun _ _ => .inl mkdir_data

theorem wipe (K : Loc → Prop) (f : Files δ) (d : Loc) (keeps : Loc → Bool) :
    Shrinks K f (f.wipe d keeps) := by
  intro l _
  simp only [Files.data, Files.wipe]
  split
  · exact .inr rfl
  · exact .inl rfl

theorem drop (K : Loc → Prop) (f : Files δ) (l : Loc) : Shrinks K f (f.put l .absent) := by
  intro l' _
  rw [put_data]
  split
  · exact .inr rfl
  · exact .inl rfl

/-- What is put at another place does not matter. -/
theorem put (f : Files δ) (e : Entry δ) (hl : ¬ K l) : Shrinks K f (f.put l e) := by
  intro l' hl'
  have hne : l' ≠ l := fun heq => hl (heq ▸ hl')
  exact .inl (put_data_of_ne hne)

end Shrinks

/-! ## Stores that are trees -/

/-- What lies below a place lies below a directory. -/
def Rooted (f : Files δ) : Prop :=
  ∀ d l, d <:+ l → l ≠ d → f l ≠ .absent → ∃ ctime, f d = .dir ctime

namespace Rooted

variable {f : Files δ} {d l : Loc}

theorem empty : Rooted (fun _ => .absent : Files δ) := fun _ _ _ _ h => absurd rfl h

/-- Nothing lies below what is not there. -/
theorem absent_below (h : Rooted f) (hd : f d = .absent) (hl : d <:+ l) : f l = .absent := by
  by_cases heq : l = d
  · rw [heq, hd]
  · by_contra hne
    obtain ⟨ctime, hdir⟩ := h d l hl heq hne
    rw [hd] at hdir
    cases hdir

theorem wipe (h : Rooted f) {keeps : Loc → Bool} (hkeeps : ∀ l, keeps l = false) :
    Rooted (f.wipe d keeps) := by
  intro d' l hl hne hl'
  have hnot : ¬ d <:+ l := fun hsuffix => hl' (if_pos ⟨hsuffix, hkeeps l⟩)
  have hsame : f.wipe d keeps l = f l := if_neg fun hwiped => hnot hwiped.1
  obtain ⟨ctime, hdir⟩ := h d' l hl hne (hsame ▸ hl')
  exact ⟨ctime, (if_neg fun hwiped => hnot (hwiped.1.trans hl)).trans hdir⟩

/-- A place below which nothing lies is emptied. -/
theorem drop (h : Rooted f) (hbelow : ∀ l', l <:+ l' → l' ≠ l → f l' = .absent) :
    Rooted (f.put l .absent) := by
  intro d l' hl hne hl'
  have hother : l' ≠ l := fun heq => hl' (if_pos heq)
  have hsame : f.put l .absent l' = f l' := if_neg hother
  rw [hsame] at hl'
  obtain ⟨ctime, hdir⟩ := h d l' hl hne hl'
  have hd : d ≠ l := by
    rintro rfl
    exact hl' (hbelow l' hl hne)
  exact ⟨ctime, (if_neg hd).trans hdir⟩

end Rooted

end FileStore
