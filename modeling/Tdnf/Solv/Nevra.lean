import Tdnf.Solv.Sack
import Mathlib.Data.List.Basic

/-!
# NEVRA strings

A package is spelled by its name, its version with the release and its
architecture. Splitting such a string from the end gives back the three parts,
so a lookup by string finds the solvables that have it.
-/

namespace Tdnf.Solv

open PathText

/-- The string spells the solvable: rpm allows no dash in a version or a release, and no dot in
an architecture. -/
def Solvable.HasNevra (s : Solvable) (nevra : Text) : Prop :=
  s.name ≠ [] ∧ (∃ version release, s.evr = version ++ '-' :: release ∧
    '-' ∉ version ∧ '-' ∉ release) ∧ '.' ∉ s.arch ∧
    nevra = s.name ++ '-' :: s.evr ++ '.' :: s.arch

section Split

variable {c : Char} {s before after : Text}

/-- The last occurrence of a character is where it does not occur behind. -/
theorem splitLast_eq_some_iff :
    splitLast c s = some (before, after) ↔
      before ≠ [] ∧ c ∉ after ∧ s = before ++ c :: after := by
  have hrest : s.reverse.takeWhile (· != c) ++ s.reverse.dropWhile (· != c) = s.reverse :=
    List.takeWhile_append_dropWhile
  constructor
  · intro h
    rw [splitLast] at h
    cases hdrop : s.reverse.dropWhile (· != c) with
    | nil => simp [hdrop] at h
    | cons d front =>
        rw [hdrop] at h hrest
        have hd : d = c := by
          have hhead := List.head?_dropWhile_not (· != c) s.reverse
          simpa [hdrop] using hhead
        simp only at h
        split_ifs at h with hfront
        obtain ⟨rfl, rfl⟩ := Prod.mk.inj (Option.some.inj h)
        have hs : s = front.reverse ++ c :: (s.reverse.takeWhile (· != c)).reverse := by
          have hreversed := congrArg List.reverse hrest
          simpa [hd] using hreversed.symm
        have hafter : s.drop (front.length + 1) = (s.reverse.takeWhile (· != c)).reverse := by
          conv_lhs => rw [hs]
          rw [List.drop_append]
          simp
        refine ⟨by simpa using hfront, ?_, ?_⟩
        · rw [hafter, List.mem_reverse]
          intro hmem
          simpa using List.mem_takeWhile_imp hmem
        · rw [hafter]
          exact hs
  · rintro ⟨hbefore, hafter, rfl⟩
    have hdrop : (before ++ c :: after).reverse.dropWhile (· != c) = c :: before.reverse := by
      rw [List.reverse_append, List.reverse_cons, List.append_assoc, List.dropWhile_append_of_pos]
      · simp
      · intro d hd
        rw [List.mem_reverse] at hd
        simpa using fun heq : d = c => hafter (heq ▸ hd)
    rw [splitLast, hdrop]
    simp [hbefore]

end Split

/-- A string splits into the fields of the solvables that it spells. -/
theorem splitNevra_eq_some_iff {nevra : Text} {s : Solvable} :
    splitNevra nevra = some (s.name, s.evr, s.arch) ↔ s.HasNevra nevra := by
  constructor
  · intro h
    rw [splitNevra] at h
    obtain ⟨⟨rest, arch⟩, hdot, hrest⟩ := Option.bind_eq_some_iff.mp h
    obtain ⟨⟨rest', release⟩, hrelease, hrest'⟩ := Option.bind_eq_some_iff.mp hrest
    obtain ⟨⟨name, version⟩, hversion, hfields⟩ := Option.bind_eq_some_iff.mp hrest'
    obtain ⟨-, harch, rfl⟩ := splitLast_eq_some_iff.mp hdot
    obtain ⟨-, hnodash, rfl⟩ := splitLast_eq_some_iff.mp hrelease
    obtain ⟨hname, hnodash', rfl⟩ := splitLast_eq_some_iff.mp hversion
    simp only [Option.pure_def, Option.some.injEq, Prod.mk.injEq] at hfields
    obtain ⟨hn, he, ha⟩ := hfields
    rw [Solvable.HasNevra, ← hn, ← he, ← ha]
    exact ⟨hname, ⟨version, release, rfl, hnodash', hnodash⟩, harch, by simp⟩
  · rintro ⟨hname, ⟨version, release, hevr, hversion, hrelease⟩, harch, rfl⟩
    have hdot : splitLast '.' (s.name ++ '-' :: s.evr ++ '.' :: s.arch) =
        some (s.name ++ '-' :: s.evr, s.arch) :=
      splitLast_eq_some_iff.mpr ⟨by simp, harch, rfl⟩
    have hdash : splitLast '-' (s.name ++ '-' :: s.evr) =
        some (s.name ++ '-' :: version, release) :=
      splitLast_eq_some_iff.mpr ⟨by simp, hrelease, by simp [hevr]⟩
    have hdash' : splitLast '-' (s.name ++ '-' :: version) = some (s.name, version) :=
      splitLast_eq_some_iff.mpr ⟨hname, hversion, rfl⟩
    rw [splitNevra, hdot]
    simp only [Option.pure_def, Option.bind_eq_bind, Option.bind_some]
    rw [hdash]
    simp only [Option.bind_some]
    rw [hdash']
    simp [hevr]

instance decidableHasNevra (s : Solvable) (nevra : Text) : Decidable (s.HasNevra nevra) :=
  decidable_of_iff _ splitNevra_eq_some_iff

/-- A string spells the same fields only. -/
theorem Solvable.HasNevra.eq {s : Solvable} {nevra nevra' : Text} (h : s.HasNevra nevra)
    (h' : s.HasNevra nevra') : nevra = nevra' :=
  h.2.2.2.trans h'.2.2.2.symm

namespace Sack

variable (sack : Sack)

/-- The solvables that the string spells, among the installed ones or the others -/
def spelled (installed : Bool) (nevra : Text) : List ℕ :=
  sack.ids.filter fun p => sack.isInstalled p = installed ∧ (sack.solvable p).HasNevra nevra

/-- The string spells an installed package. -/
def Holds (nevra : Text) : Prop :=
  ∃ p ∈ sack.ids, sack.isInstalled p = true ∧ (sack.solvable p).HasNevra nevra

/-- The string spells a package of another repository. -/
def Offers (nevra : Text) : Prop :=
  ∃ p ∈ sack.ids, sack.isInstalled p = false ∧ (sack.solvable p).HasNevra nevra

instance decidableHolds (nevra : Text) : Decidable (sack.Holds nevra) :=
  inferInstanceAs (Decidable (∃ p ∈ sack.ids, _))

instance decidableOffers (nevra : Text) : Decidable (sack.Offers nevra) :=
  inferInstanceAs (Decidable (∃ p ∈ sack.ids, _))

end Sack

section Lookup

variable {sack : Sack} {nevra : Text} {p : ℕ}

theorem mem_spelled {installed : Bool} : p ∈ sack.spelled installed nevra ↔
    p ∈ sack.ids ∧ sack.isInstalled p = installed ∧ (sack.solvable p).HasNevra nevra := by
  rw [Sack.spelled, List.mem_filter, decide_eq_true_eq]

theorem spelled_ne_nil_iff {installed : Bool} : sack.spelled installed nevra ≠ [] ↔
    ∃ p ∈ sack.ids, sack.isInstalled p = installed ∧ (sack.solvable p).HasNevra nevra := by
  constructor
  · intro hne
    obtain ⟨p, hp⟩ := List.exists_mem_of_ne_nil _ hne
    exact ⟨p, mem_spelled.mp hp⟩
  · rintro ⟨p, hp⟩
    exact List.ne_nil_of_mem (mem_spelled.mpr hp)

theorem spelled_true_ne_nil : sack.spelled true nevra ≠ [] ↔ sack.Holds nevra :=
  spelled_ne_nil_iff

theorem spelled_false_ne_nil : sack.spelled false nevra ≠ [] ↔ sack.Offers nevra :=
  spelled_ne_nil_iff

/-- A lookup by string finds what the string spells, and fails on a string that does not
split. -/
theorem findSolvablesByNevraStr_eq (installed : Bool) :
    findSolvablesByNevraStr sack nevra installed =
      if (splitNevra nevra).isSome then .ok (sack.spelled installed nevra)
      else .error .invalidParameter := by
  rw [findSolvablesByNevraStr]
  cases hsplit : splitNevra nevra with
  | none => rfl
  | some parts =>
      obtain ⟨name, evr, arch⟩ := parts
      simp only [Option.isSome_some, if_true, findSolvablesByNevraId, Sack.spelled]
      refine congrArg Except.ok (List.filter_congr fun p _ => ?_)
      rw [Bool.eq_iff_iff, decide_eq_true_eq, ← splitNevra_eq_some_iff, hsplit]
      simp only [Bool.and_eq_true, beq_iff_eq, Option.some.injEq, Prod.mk.injEq]
      constructor
      · rintro ⟨⟨⟨hinstalled, hname⟩, hevr⟩, harch⟩
        exact ⟨hinstalled.symm, hname.symm, hevr.symm, harch.symm⟩
      · rintro ⟨hinstalled, hname, hevr, harch⟩
        exact ⟨⟨⟨hinstalled.symm, hname.symm⟩, hevr.symm⟩, harch.symm⟩

end Lookup

end Tdnf.Solv
