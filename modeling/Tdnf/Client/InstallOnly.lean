import Tdnf.Client.Goal
import Mathlib.Data.List.Perm.Basic
import Mathlib.Data.List.Perm.Subperm

/-!
# The limit of install-only packages

Several versions of an install-only package may be installed, up to a limit. A
transaction that exceeds it is solved again with jobs that erase what is too
much. The names are treated one after another, with a common set of what is to
be removed already.
-/

namespace Tdnf.Client

open Solv

section Limit

variable (conf : Conf) (pool : Pool) (pTrans : Transaction)

/-- The transaction erases the solvable. -/
def Erases (p : ℕ) : Prop := p ∈ pTrans.steps ∧ pTrans.type p .showMultiinstall = .erase

instance decidableErases (p : ℕ) : Decidable (Erases pTrans p) :=
  inferInstanceAs (Decidable (_ ∧ _))

/-- The steps of a type for a name -/
def stepCount (type : TransactionType) (name : String) : ℕ :=
  pTrans.steps.countP fun p => pool.name p = name ∧ pTrans.type p .showMultiinstall = type

/-- The number of packages of a name after the transaction -/
def countAfter (name : String) : ℤ :=
  (pool.installedSolvables.countP fun p => pool.name p == name : ℕ) +
    stepCount pool pTrans .multiinstall name - stepCount pool pTrans .erase name

/-- How many packages of a name are too much -/
def excess (name : String) : ℕ := (countAfter pool pTrans name - conf.nInstallOnlyLimit).toNat

/-- The installed packages of a name that the transaction keeps -/
def kept (name : String) : List ℕ :=
  pool.installedSolvables.filter fun p => pool.name p = name ∧ ¬ Erases pTrans p

/-- The install-only names, which may repeat -/
def installOnlyNames : List String := conf.ppszInstallOnlyPkgs.getD []

/-- The jobs that are added erase just what is too much, and the limit is reported where
something is. -/
structure LimitJobs (jobs : List Job) (result : Bool × List Job) (ids : List ℕ) : Prop where
  appended : result.2 = ids.foldl solvAddPkgEraseJob jobs
  distinct : ids.Nodup
  installed : ∀ p ∈ ids, p ∈ pool.installedSolvables ∧
    pool.name p ∈ installOnlyNames conf ∧ ¬ Erases pTrans p
  number : ∀ name ∈ installOnlyNames conf, (ids.countP fun p => pool.name p = name) =
    min (excess conf pool pTrans name) (kept pool pTrans name).length
  reported : result.1 = true ↔ ∃ name ∈ installOnlyNames conf, 0 < excess conf pool pTrans name

end Limit

section Rounds

variable {pool : Pool} {pTrans : Transaction} {name : String} {nLimit n : ℤ}

/-- The count of a name after all steps -/
theorem countSteps_fst (steps : List ℕ) (n : ℤ) (removed : List ℕ) :
    (countSteps pool pTrans name n removed steps).1 =
      n + (steps.countP fun p => pool.name p = name ∧
          pTrans.type p .showMultiinstall = .multiinstall : ℕ) -
        (steps.countP fun p => pool.name p = name ∧
          pTrans.type p .showMultiinstall = .erase : ℕ) := by
  induction steps generalizing n removed with
  | nil => simp [countSteps]
  | cons q rest ih =>
      rw [countSteps]
      by_cases hname : pool.name q = name
      · rw [if_pos hname]
        cases htype : pTrans.type q .showMultiinstall with
        | multiinstall =>
            simp only [ih, List.countP_cons, hname, htype]
            simp
            omega
        | erase =>
            simp only [ih, List.countP_cons, hname, htype]
            simp
            omega
        | _ =>
            simp only [ih, List.countP_cons, hname, htype]
            simp
      · rw [if_neg hname, ih]
        simp [hname]

/-- The steps that erase a package of the name are added to what is to be removed. -/
theorem mem_countSteps_snd (steps : List ℕ) (n : ℤ) (removed : List ℕ) (p : ℕ) :
    p ∈ (countSteps pool pTrans name n removed steps).2 ↔ p ∈ removed ∨
      (p ∈ steps ∧ pool.name p = name ∧ pTrans.type p .showMultiinstall = .erase) := by
  induction steps generalizing n removed with
  | nil => simp [countSteps]
  | cons q rest ih =>
      rw [countSteps]
      by_cases hname : pool.name q = name
      · rw [if_pos hname]
        cases htype : pTrans.type q .showMultiinstall with
        | erase =>
            simp only [ih, List.mem_cons]
            grind
        | _ =>
            simp only [ih, List.mem_cons]
            grind
      · rw [if_neg hname, ih]
        grind

/-- The installed packages of a name that are not to be removed yet -/
def free (pool : Pool) (name : String) (removed l : List ℕ) : List ℕ :=
  l.filter fun p => pool.name p = name ∧ p ∉ removed

/-- As many erase jobs are added as are too much, if there are enough packages. -/
theorem addLimitJobs_eq {l : List ℕ} (hl : l.Nodup) (hn : nLimit < n) (removed : List ℕ)
    (jobs : List Job) : ∃ taken, taken = (free pool name removed l).take (n - nLimit).toNat ∧
      (addLimitJobs pool name nLimit n removed jobs l).2 = taken.foldl solvAddPkgEraseJob jobs ∧
        ∀ p, p ∈ (addLimitJobs pool name nLimit n removed jobs l).1 ↔
          p ∈ removed ∨ p ∈ taken := by
  induction l generalizing n removed jobs with
  | nil => exact ⟨[], by simp [free], by simp [addLimitJobs], by simp [addLimitJobs]⟩
  | cons q rest ih =>
      obtain ⟨hq, hrest⟩ := List.nodup_cons.mp hl
      refine ⟨_, rfl, ?_⟩
      rw [addLimitJobs]
      by_cases hfree : pool.name q = name ∧ q ∉ removed
      · have hcons : free pool name removed (q :: rest) = q :: free pool name removed rest := by
          rw [free, List.filter_cons_of_pos (by simpa using hfree), free]
        rw [if_pos hfree, hcons]
        by_cases hlast : n - 1 ≤ nLimit
        · have hone : (n - nLimit).toNat = 1 := by omega
          rw [if_pos hlast, hone]
          exact ⟨rfl, by simp [or_comm]⟩
        · obtain ⟨taken, htaken, hjobs, hmem⟩ :=
            ih hrest (by omega : nLimit < n - 1) (q :: removed) (solvAddPkgEraseJob jobs q)
          have hsame : free pool name (q :: removed) rest = free pool name removed rest := by
            refine List.filter_congr fun p hp => ?_
            have hne : p ≠ q := fun heq => hq (heq ▸ hp)
            simp [hne]
          have hsucc : (n - nLimit).toNat = (n - 1 - nLimit).toNat + 1 := by omega
          rw [if_neg hlast, hsucc, List.take_succ_cons, ← hsame, ← htaken]
          refine ⟨hjobs, fun p => ?_⟩
          rw [hmem, List.mem_cons, List.mem_cons]
          tauto
      · obtain ⟨taken, htaken, hjobs, hmem⟩ := ih hrest hn removed jobs
        have hskip : free pool name removed (q :: rest) = free pool name removed rest := by
          rw [free, List.filter_cons_of_neg (by simpa using hfree), free]
        rw [if_neg hfree, hskip, ← htaken]
        exact ⟨hjobs, hmem⟩

end Rounds

section Names

variable {conf : Conf} {pool : Pool} {pTrans : Transaction} {jobs₀ jobs : List Job}
  {done : List String} {removed ids : List ℕ} {name : String}

/-- The queue, what is to be removed, and the solvables that got an erase job, after some of the
names. A name gets as many jobs as are too much each time it occurs. -/
structure Limited (conf : Conf) (pool : Pool) (pTrans : Transaction) (jobs₀ : List Job)
    (done : List String) (removed : List ℕ) (jobs : List Job) (ids : List ℕ) : Prop where
  appended : jobs = ids.foldl solvAddPkgEraseJob jobs₀
  distinct : ids.Nodup
  installed : ∀ p ∈ ids, p ∈ pool.installedSolvables ∧ pool.name p ∈ done ∧ ¬ Erases pTrans p
  removed : ∀ p, p ∈ removed ↔ p ∈ ids ∨ (Erases pTrans p ∧ pool.name p ∈ done)
  number : ∀ name, (ids.countP fun p => pool.name p = name) =
    min (done.count name * excess conf pool pTrans name) (kept pool pTrans name).length

theorem limited_nil (conf : Conf) (pool : Pool) (pTrans : Transaction) (jobs₀ : List Job) :
    Limited conf pool pTrans jobs₀ [] [] jobs₀ [] where
  appended := rfl
  distinct := List.nodup_nil
  installed := by simp
  removed := by simp
  number := by simp

/-- What is kept of a name is what has an erase job and what has none. -/
theorem kept_length (h : Limited conf pool pTrans jobs₀ done removed jobs ids) (name : String) :
    (kept pool pTrans name).length = (ids.countP fun p => pool.name p = name) +
      ((kept pool pTrans name).filter fun p => p ∉ ids).length := by
  have hperm : ((kept pool pTrans name).filter fun p => p ∈ ids).Perm
      (ids.filter fun p => pool.name p = name) := by
    refine (List.perm_ext_iff_of_nodup ?_ (h.distinct.filter _)).mpr fun p => ?_
    · exact ((installedSolvables_nodup pool).filter _).filter _
    · simp only [kept, List.mem_filter, decide_eq_true_eq]
      constructor
      · rintro ⟨⟨-, hname, -⟩, hmem⟩
        exact ⟨hmem, hname⟩
      · rintro ⟨hmem, hname⟩
        obtain ⟨hinstalled, -, herases⟩ := h.installed p hmem
        exact ⟨⟨hinstalled, hname, herases⟩, hmem⟩
  calc (kept pool pTrans name).length
      = ((kept pool pTrans name).filter fun p => p ∈ ids).length +
          ((kept pool pTrans name).filter fun p => p ∉ ids).length := by
        rw [List.length_eq_length_filter_add fun p => decide (p ∈ ids)]
        simp only [decide_not]
    _ = _ := by rw [hperm.length_eq, ← List.countP_eq_length_filter]

/-- A name of which nothing is too much -/
theorem Limited.skip (h : Limited conf pool pTrans jobs₀ done removed jobs ids)
    {removed' : List ℕ} (hremoved : ∀ p, p ∈ removed' ↔ p ∈ removed ∨
      (p ∈ pTrans.steps ∧ pool.name p = name ∧ pTrans.type p .showMultiinstall = .erase))
    (hexcess : excess conf pool pTrans name = 0) :
    Limited conf pool pTrans jobs₀ (done ++ [name]) removed' jobs ids where
  appended := h.appended
  distinct := h.distinct
  installed := by
    intro p hp
    obtain ⟨hinstalled, hname, herases⟩ := h.installed p hp
    exact ⟨hinstalled, List.mem_append_left _ hname, herases⟩
  removed := by
    intro p
    rw [hremoved, h.removed, List.mem_append, List.mem_singleton, Erases]
    tauto
  number := by
    intro name'
    rw [h.number, List.count_append]
    by_cases hname : name' = name
    · rw [hname, hexcess]
      simp
    · rw [List.count_singleton, if_neg (by simpa using Ne.symm hname), Nat.add_zero]

/-- A name of which something is too much -/
theorem Limited.take (h : Limited conf pool pTrans jobs₀ done removed jobs ids)
    {removed' removed'' taken : List ℕ} (hremoved : ∀ p, p ∈ removed' ↔ p ∈ removed ∨
      (p ∈ pTrans.steps ∧ pool.name p = name ∧ pTrans.type p .showMultiinstall = .erase))
    (htaken : taken = (free pool name removed' pool.installedSolvables).take
      (excess conf pool pTrans name))
    (hremoved' : ∀ p, p ∈ removed'' ↔ p ∈ removed' ∨ p ∈ taken) :
    Limited conf pool pTrans jobs₀ (done ++ [name]) removed''
      (taken.foldl solvAddPkgEraseJob jobs) (ids ++ taken) := by
  have hfree : free pool name removed' pool.installedSolvables =
      (kept pool pTrans name).filter fun p => p ∉ ids := by
    rw [free, kept, List.filter_filter]
    refine List.filter_congr fun p _ => ?_
    rw [Bool.eq_iff_iff, Bool.and_eq_true, decide_eq_true_eq, decide_eq_true_eq,
      decide_eq_true_eq, hremoved, h.removed, Erases]
    tauto
  have hsub : ∀ p ∈ taken, p ∈ pool.installedSolvables ∧ pool.name p = name ∧
      ¬ Erases pTrans p ∧ p ∉ ids := by
    intro p hp
    rw [htaken, hfree] at hp
    have hmem := List.mem_of_mem_take hp
    simp only [kept, List.mem_filter, decide_eq_true_eq] at hmem
    exact ⟨hmem.1.1, hmem.1.2.1, hmem.1.2.2, hmem.2⟩
  refine ⟨?_, ?_, ?_, ?_, ?_⟩
  · rw [List.foldl_append, ← h.appended]
  · refine List.nodup_append'.mpr ⟨h.distinct, ?_, fun p hp hp' => (hsub p hp').2.2.2 hp⟩
    rw [htaken, free]
    exact ((installedSolvables_nodup pool).filter _).sublist (List.take_sublist _ _)
  · intro p hp
    obtain hp | hp := List.mem_append.mp hp
    · obtain ⟨hinstalled, hname, herases⟩ := h.installed p hp
      exact ⟨hinstalled, List.mem_append_left _ hname, herases⟩
    · obtain ⟨hinstalled, hname, herases, -⟩ := hsub p hp
      exact ⟨hinstalled, List.mem_append_right _ (by simp [hname]), herases⟩
  · intro p
    rw [hremoved', hremoved, h.removed, List.mem_append, List.mem_append, List.mem_singleton,
      Erases]
    tauto
  · intro name'
    rw [List.countP_append, List.count_append, h.number]
    by_cases hname : name' = name
    · subst hname
      have hcount : (taken.countP fun p => pool.name p = name') = taken.length := by
        rw [List.countP_eq_length]
        exact fun p hp => decide_eq_true (hsub p hp).2.1
      have hlength := kept_length h name'
      rw [← hfree, h.number] at hlength
      rw [hcount, htaken, List.length_take, List.count_singleton_self, Nat.add_mul, Nat.one_mul]
      omega
    · have hcount : (taken.countP fun p => pool.name p = name') = 0 := by
        rw [List.countP_eq_zero]
        intro p hp
        rw [decide_eq_true_eq, (hsub p hp).2.1]
        exact Ne.symm hname
      rw [hcount, List.count_singleton, if_neg (by simpa using Ne.symm hname), Nat.add_zero,
        Nat.add_zero]

/-- The loop over the names -/
theorem checkLimits_spec (names : List String) (exceeded : Bool)
    (h : Limited conf pool pTrans jobs₀ done removed jobs ids) :
    ∃ removed' ids',
      Limited conf pool pTrans jobs₀ (done ++ names) removed'
        (checkLimits pool conf.nInstallOnlyLimit pTrans exceeded removed jobs names).2 ids' ∧
      ((checkLimits pool conf.nInstallOnlyLimit pTrans exceeded removed jobs names).1 = true ↔
        exceeded = true ∨ ∃ name ∈ names, 0 < excess conf pool pTrans name) := by
  induction names generalizing done removed jobs ids exceeded with
  | nil => exact ⟨removed, ids, by simpa [checkLimits] using h, by simp [checkLimits]⟩
  | cons name rest ih =>
      have hcount : (countSteps pool pTrans name
          (pool.installedSolvables.countP fun p => pool.name p == name : ℕ) removed
            pTrans.steps).1 = countAfter pool pTrans name :=
        countSteps_fst _ _ _
      have hremoved := @mem_countSteps_snd pool pTrans name
        pTrans.steps (pool.installedSolvables.countP fun p => pool.name p == name : ℕ) removed
      rw [checkLimits]
      simp only [hcount]
      by_cases hlimit : conf.nInstallOnlyLimit < countAfter pool pTrans name
      · have hexcess : 0 < excess conf pool pTrans name := by
          rw [excess]
          omega
        obtain ⟨taken, htaken, hjobs, hmem⟩ := @addLimitJobs_eq pool name _ _ _
          (installedSolvables_nodup pool) hlimit (countSteps pool pTrans name
          (pool.installedSolvables.countP fun p => pool.name p == name : ℕ) removed
            pTrans.steps).2 jobs
        rw [if_pos hlimit, hjobs]
        obtain ⟨removed', ids', hlimited, hreported⟩ := ih true
          (h.take hremoved htaken hmem)
        refine ⟨removed', ids', by simpa using hlimited, hreported.trans ?_⟩
        simp [hexcess]
      · have hexcess : excess conf pool pTrans name = 0 := by
          rw [excess]
          omega
        rw [if_neg hlimit]
        obtain ⟨removed', ids', hlimited, hreported⟩ := ih exceeded (h.skip hremoved hexcess)
        refine ⟨removed', ids', by simpa using hlimited, hreported.trans ?_⟩
        simp [hexcess]

end Names

/-! ## When the right number is erased -/

/-- Erase jobs are appended one by one. -/
theorem foldl_solvAddPkgEraseJob_what (jobs : List Job) (ids : List ℕ) :
    (ids.foldl solvAddPkgEraseJob jobs).map Job.what = jobs.map Job.what ++ ids := by
  induction ids generalizing jobs with
  | nil => simp
  | cons p rest ih =>
      rw [List.foldl_cons, ih, solvAddPkgEraseJob]
      simp

/-- The erase jobs are as many as they should be for each name, if no name of which more is kept
than is too much occurs twice. -/
theorem limitJobs_iff (conf : Conf) (pool : Pool) (pTrans : Transaction) (jobs : List Job) :
    (∃ ids, LimitJobs conf pool pTrans jobs
        (solvCheckInstallOnlyLimitInTrans conf pool pTrans jobs) ids) ↔
      ∀ name, 1 < (installOnlyNames conf).count name → excess conf pool pTrans name = 0 ∨
        (kept pool pTrans name).length ≤ excess conf pool pTrans name := by
  obtain ⟨removed, ids, hlimited, hreported⟩ :=
    checkLimits_spec (installOnlyNames conf) false (limited_nil conf pool pTrans jobs)
  constructor
  · rintro ⟨ids', hjobs⟩ name hcount
    obtain rfl : ids' = ids := by
      have hsame := congrArg (List.map Job.what) (hjobs.appended.symm.trans hlimited.appended)
      rw [foldl_solvAddPkgEraseJob_what, foldl_solvAddPkgEraseJob_what] at hsame
      exact List.append_cancel_left hsame
    have hmem : name ∈ installOnlyNames conf := List.count_pos_iff.mp (Nat.zero_lt_of_lt hcount)
    have hnumber := hlimited.number name
    rw [hjobs.number name hmem, List.nil_append] at hnumber
    have htwice := Nat.mul_le_mul_right (excess conf pool pTrans name) hcount
    omega
  · intro hrepeated
    refine ⟨ids, hlimited.appended, hlimited.distinct, hlimited.installed, fun name hmem => ?_,
      hreported.trans (by simp)⟩
    have hpos : 0 < (installOnlyNames conf).count name := List.count_pos_iff.mpr hmem
    rw [hlimited.number name, List.nil_append]
    by_cases hcount : 1 < (installOnlyNames conf).count name
    · obtain hnone | hall := hrepeated name hcount
      · rw [hnone, Nat.mul_zero]
      · have honce := Nat.mul_le_mul_right (excess conf pool pTrans name) hpos
        omega
    · have hone : (installOnlyNames conf).count name = 1 := by omega
      rw [hone, Nat.one_mul]

/-- Three versions of "linux" are installed, and a fourth is to be. -/
def fourthLinux : Pool × Transaction :=
  (⟨fun _ => "linux", fun p => if p < 4 then some 0 else none, some ⟨0, 1, 4⟩⟩,
    ⟨[4], fun _ _ => .multiinstall⟩)

/-- With a limit of three and the name listed twice, two versions are erased. -/
theorem repeated_name_erases_two :
    ¬ ∃ ids, LimitJobs ⟨none, some ["linux", "linux"], 3, none⟩ fourthLinux.1 fourthLinux.2 []
      (solvCheckInstallOnlyLimitInTrans ⟨none, some ["linux", "linux"], 3, none⟩ fourthLinux.1
        fourthLinux.2 []) ids := by
  rintro ⟨ids, hjobs⟩
  have hids : ids = [1, 2] := by
    have hsame := congrArg (List.map Job.what) hjobs.appended
    rw [foldl_solvAddPkgEraseJob_what] at hsame
    exact hsame.symm
  have hnumber := hjobs.number "linux" (by decide)
  rw [hids] at hnumber
  exact absurd hnumber (by decide)

end Tdnf.Client
