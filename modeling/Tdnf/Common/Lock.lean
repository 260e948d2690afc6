import Tdnf.Library.Transition
import Mathlib.Data.Fintype.Basic
import Mathlib.Logic.Function.Basic

/-!
# The instance lock

A root process opens the lock file, locks it, and at its exit unlocks it, closes
it and removes its path. The lock belongs to the inode, so whoever opened the file
before the removal and whoever creates it afterwards do not exclude each other.
This cannot happen as long as nobody has the file open while another process is
between giving it up and removing its path.
-/

namespace Tdnf.Common

open Transition

/-- Where a process stands between its start and its exit. -/
inductive LockPhase where
  | start
  /-- `tdnflock_new` opened the file, F_SETLK is next. -/
  | opened (inode : ℕ)
  /-- In F_SETLKW, after F_SETLK failed. -/
  | waiting (inode : ℕ)
  /-- Between a successful `tdnflockNewAcquire` and `tdnflockFree`. -/
  | holding (inode : ℕ)
  /-- `tdnflock_release` is done, `tdnflock_free` is next. -/
  | unlocked (inode : ℕ)
  /-- `tdnflockAcquire` failed, `tdnflock_free` is next. -/
  | refused (inode : ℕ)
  /-- In `tdnflockFree` with only `remove` to come. -/
  | removing (atExit : Bool)
  /-- Running with `instance_lock` NULL. -/
  | lockless
  | done
deriving DecidableEq, Repr

/-- The file a process has open for the lock it wants or has. -/
def LockPhase.file : LockPhase → Option ℕ
  | .opened i | .waiting i | .holding i => some i
  | _ => none

/-- After giving up the lock and before removing the path. -/
def LockPhase.leaving : LockPhase → Bool
  | .unlocked _ | .refused _ | .removing _ => true
  | _ => false

/-- The inode behind the lock path, the next unused inode, the holder of the lock of each
inode, and the phase of every process. -/
structure LockWorld (P : Type) where
  path : Option ℕ
  fresh : ℕ
  owner : ℕ → Option P
  phase : P → LockPhase

/-- The steps of a process. -/
inductive LockAct where
  | opens
  | openFails
  | setLk
  | setLkFails
  | setLkw
  | setLkwFails
  | unlock
  | close
  | remove
  | exit
deriving DecidableEq, Repr

section States

variable {P : Type}

/-- No process started yet; the lock file may be left over from before. -/
def LockWorld.initial (path : Option ℕ) : LockWorld P where
  path := path
  fresh := (path.map (· + 1)).getD 0
  owner := fun _ => none
  phase := fun _ => .start

def LockWorld.setOwner (w : LockWorld P) (i : ℕ) (o : Option P) : LockWorld P :=
  { w with owner := Function.update w.owner i o }

/-- What holds while the file is never shared: everybody has the file open that the path
names, the holder owns its lock, and while a process is leaving nobody else has the file. -/
structure LockInv (w : LockWorld P) : Prop where
  named : ∀ p i, (w.phase p).file = some i → w.path = some i
  owned : ∀ p i, w.phase p = .holding i → w.owner i = some p
  alone : ∀ p q, q ≠ p → (w.phase p).leaving = true → (w.phase q).file = none

variable {w : LockWorld P} {q : P} {i : ℕ}

theorem lockInv_initial (path : Option ℕ) : LockInv (LockWorld.initial path : LockWorld P) where
  named _ _ h := by cases h
  owned _ _ h := by cases h
  alone _ _ _ h := by cases h

theorem not_holding_of_file_eq_none (h : (w.phase q).file = none) : w.phase q ≠ .holding i := by
  intro hholding
  rw [hholding] at h
  cases h

/-- The path changes while nobody has the file open. -/
theorem LockInv.setPath (h : LockInv w) (hnone : ∀ q, (w.phase q).file = none)
    (path : Option ℕ) (fresh : ℕ) : LockInv { w with path := path, fresh := fresh } where
  named q i hq := by
    rw [hnone q] at hq
    cases hq
  owned := h.owned
  alone := h.alone

/-- The lock behind an inode changes hands while nobody else holds it. -/
theorem LockInv.setOwner (h : LockInv w) (o : Option P)
    (hothers : ∀ q, w.phase q = .holding i → o = some q) : LockInv (w.setOwner i o) where
  named := h.named
  owned q j hq := by
    by_cases hji : j = i
    · subst hji
      simpa [LockWorld.setOwner] using hothers q hq
    · simpa [LockWorld.setOwner, hji] using h.owned q j hq
  alone := h.alone

end States

section Steps

variable {P : Type} [DecidableEq P]

def LockWorld.goto (w : LockWorld P) (p : P) (ph : LockPhase) : LockWorld P :=
  { w with phase := Function.update w.phase p ph }

/-- One step of process `p`, if it is enabled. -/
def lockStep (w : LockWorld P) : P × LockAct → Option (LockWorld P)
  | (p, act) =>
    match w.phase p, act with
    | .start, .opens =>
      match w.path with
      | some i => some (w.goto p (.opened i))
      | none => some { w.goto p (.opened w.fresh) with
          path := some w.fresh, fresh := w.fresh + 1 }
    -- tdnflockFree(NULL) still removes the path
    | .start, .openFails => some (w.goto p (.removing false))
    | .opened i, .setLk =>
      match w.owner i with
      | none => some ((w.setOwner i (some p)).goto p (.holding i))
      | some _ => some (w.goto p (.waiting i))
    | .opened i, .setLkFails => some (w.goto p (.waiting i))
    | .waiting i, .setLkw =>
      match w.owner i with
      | none => some ((w.setOwner i (some p)).goto p (.holding i))
      | some _ => none
    | .waiting i, .setLkwFails => some (w.goto p (.refused i))
    | .holding i, .unlock => some ((w.setOwner i none).goto p (.unlocked i))
    -- closing a file drops the locks the process has on it
    | .unlocked i, .close =>
      some ((w.setOwner i (if w.owner i = some p then none else w.owner i)).goto p
        (.removing true))
    | .refused i, .close =>
      some ((w.setOwner i (if w.owner i = some p then none else w.owner i)).goto p
        (.removing false))
    | .removing atExit, .remove =>
      some { w.goto p (if atExit then .done else .lockless) with path := none }
    | .lockless, .exit => some (w.goto p (.removing true))
    | _, _ => none

/-- At most one process has the lock, and a process about to remove the path does not take it
from one that holds the lock behind it or waits for it. -/
structure LockSafe (w : LockWorld P) : Prop where
  exclusive : ∀ p q i j, w.phase p = .holding i → w.phase q = .holding j → p = q
  pathKept : ∀ p w', lockStep w (p, .remove) = some w' → ∀ q i, q ≠ p → w.path = some i →
    w.phase q ≠ .holding i ∧ w.phase q ≠ .waiting i

/-- Nobody else has the file open when a process gives it up, and a process opens it only
when nobody else is between giving it up and removing the path. -/
def Unshared (w : LockWorld P) : P × LockAct → Prop
  | (p, .opens) => ∀ q, q ≠ p → (w.phase q).leaving = false
  | (p, .openFails) | (p, .setLkwFails) | (p, .unlock) | (p, .exit) =>
    ∀ q, q ≠ p → (w.phase q).file = none
  | _ => True

instance [Fintype P] (w : LockWorld P) : ∀ x, Decidable (Unshared w x)
  | (p, .opens) => inferInstanceAs (Decidable (∀ q, q ≠ p → (w.phase q).leaving = false))
  | (p, .openFails) | (p, .setLkwFails) | (p, .unlock) | (p, .exit) =>
    inferInstanceAs (Decidable (∀ q, q ≠ p → (w.phase q).file = none))
  | (_, .setLk) | (_, .setLkFails) | (_, .setLkw) | (_, .close) | (_, .remove) =>
    inferInstanceAs (Decidable True)

variable {w w' : LockWorld P} {p q : P} {i : ℕ} {ph : LockPhase}

@[simp] theorem goto_phase_self : (w.goto p ph).phase p = ph := Function.update_self ..

@[simp] theorem goto_phase_of_ne (h : q ≠ p) : (w.goto p ph).phase q = w.phase q :=
  Function.update_of_ne h ..

@[simp] theorem goto_owner : (w.goto p ph).owner = w.owner := rfl

/-- A process moves on without opening the file or beginning to leave. -/
theorem LockInv.stay (h : LockInv w) (hfile : ph.file = none ∨ ph.file = (w.phase p).file)
    (hleaving : ph.leaving = true → (w.phase p).leaving = true)
    (hholding : ∀ i, ph = .holding i → w.owner i = some p) : LockInv (w.goto p ph) where
  named q i hq := by
    by_cases hqp : q = p
    · subst hqp
      rw [goto_phase_self] at hq
      rcases hfile with hnone | hsame
      · rw [hnone] at hq
        cases hq
      · exact h.named q i (hsame ▸ hq)
    · exact h.named q i (by rwa [goto_phase_of_ne hqp] at hq)
  owned q i hq := by
    by_cases hqp : q = p
    · subst hqp
      exact hholding i (by rwa [goto_phase_self] at hq)
    · exact h.owned q i (by rwa [goto_phase_of_ne hqp] at hq)
  alone q r hne hq := by
    have hleft : (w.phase q).leaving = true := by
      by_cases hqp : q = p
      · subst hqp
        exact hleaving (by rwa [goto_phase_self] at hq)
      · rwa [goto_phase_of_ne hqp] at hq
    have hr := h.alone q r hne hleft
    by_cases hrp : r = p
    · subst hrp
      rw [goto_phase_self]
      rcases hfile with hnone | hsame
      · exact hnone
      · exact hsame.trans hr
    · rwa [goto_phase_of_ne hrp]

theorem file_goto_eq_none (hfile : ph.file = none)
    (hothers : ∀ q, q ≠ p → (w.phase q).file = none) (q : P) :
    ((w.goto p ph).phase q).file = none := by
  by_cases hqp : q = p
  · rw [hqp, goto_phase_self, hfile]
  · rw [goto_phase_of_ne hqp, hothers q hqp]

/-- A process gives the file up while nobody else has it open. -/
theorem LockInv.leave (hfile : ph.file = none)
    (hothers : ∀ q, q ≠ p → (w.phase q).file = none) : LockInv (w.goto p ph) where
  named q i hq := by
    rw [file_goto_eq_none hfile hothers q] at hq
    cases hq
  owned q _ hq := absurd hq (not_holding_of_file_eq_none (file_goto_eq_none hfile hothers q))
  alone _ q _ _ := file_goto_eq_none hfile hothers q

/-- The process opens the file that the path names while nobody else is leaving. -/
theorem LockInv.opens (h : LockInv w) (hstart : w.phase p = .start)
    (hothers : ∀ q, q ≠ p → (w.phase q).leaving = false) (hpath : w.path = some i) :
    LockInv (w.goto p (.opened i)) where
  named q j hq := by
    by_cases hqp : q = p
    · subst hqp
      rw [goto_phase_self] at hq
      exact hpath.trans hq
    · exact h.named q j (by rwa [goto_phase_of_ne hqp] at hq)
  owned q j hq := by
    by_cases hqp : q = p
    · subst hqp
      rw [goto_phase_self] at hq
      cases hq
    · exact h.owned q j (by rwa [goto_phase_of_ne hqp] at hq)
  alone q r _ hq := by
    by_cases hqp : q = p
    · subst hqp
      rw [goto_phase_self] at hq
      cases hq
    · rw [goto_phase_of_ne hqp, hothers q hqp] at hq
      cases hq

/-- A free lock is taken. -/
theorem LockInv.takes (h : LockInv w) (hfile : (w.phase p).file = some i)
    (hfree : w.owner i = none) : LockInv ((w.setOwner i (some p)).goto p (.holding i)) := by
  refine (h.setOwner (some p) fun q hq => ?_).stay (.inr hfile.symm) (fun hl => by cases hl) ?_
  · have howned := h.owned q i hq
    rw [hfree] at howned
    cases howned
  · rintro j ⟨rfl⟩
    simp [LockWorld.setOwner]

/-- A process that already left closes its file. -/
theorem LockInv.closes (h : LockInv w) (hleaving : (w.phase p).leaving = true)
    (atExit : Bool) :
    LockInv ((w.setOwner i (if w.owner i = some p then none else w.owner i)).goto p
      (.removing atExit)) := by
  have hmoved : LockInv (w.goto p (.removing atExit)) :=
    h.stay (.inl rfl) (fun _ => hleaving) (fun _ hph => by cases hph)
  apply hmoved.setOwner _
  intro q hq
  have howned := hmoved.owned q i hq
  rw [goto_owner] at howned
  have hqp : q ≠ p := by
    rintro rfl
    rw [goto_phase_self] at hq
    cases hq
  rw [howned, if_neg fun heq => hqp (Option.some.inj heq)]

/-- A process that left removes the path. -/
theorem LockInv.removes (h : LockInv w) (hleaving : (w.phase p).leaving = true)
    (hfile : (w.phase p).file = none) (atExit : Bool) :
    LockInv { w.goto p (if atExit then .done else .lockless) with path := none } := by
  have hnone : ∀ q, (w.phase q).file = none := fun q => by
    by_cases hqp : q = p
    · exact hqp ▸ hfile
    · exact h.alone p q hqp hleaving
  refine (h.setPath hnone none w.fresh).stay (.inl ?_) (fun hl => ?_) fun i hph => ?_
  · cases atExit <;> rfl
  · cases atExit <;> cases hl
  · cases atExit <;> cases hph

/-- Every unshared step keeps the invariant. -/
theorem lockInv_step {act : LockAct} (h : LockInv w) (hguard : Unshared w (p, act))
    (hstep : lockStep w (p, act) = some w') : LockInv w' := by
  cases hphase : w.phase p with
  | start =>
      cases act with
      | opens =>
          simp only [lockStep, hphase] at hstep
          cases hpath : w.path with
          | some i =>
              rw [hpath] at hstep
              cases hstep
              exact h.opens hphase hguard hpath
          | none =>
              rw [hpath] at hstep
              cases hstep
              have hnone : ∀ q, (w.phase q).file = none := fun q =>
                Option.eq_none_iff_forall_ne_some.mpr fun i hq => by
                  have hnamed := h.named q i hq
                  rw [hpath] at hnamed
                  cases hnamed
              exact (h.setPath hnone (some w.fresh) (w.fresh + 1)).opens hphase hguard rfl
      | openFails =>
          simp only [lockStep, hphase] at hstep
          cases hstep
          exact LockInv.leave rfl hguard
      | _ => simp [lockStep, hphase] at hstep
  | opened i =>
      have hfile : (w.phase p).file = some i := by rw [hphase]; rfl
      cases act with
      | setLk =>
          simp only [lockStep, hphase] at hstep
          cases howner : w.owner i with
          | none =>
              rw [howner] at hstep
              cases hstep
              exact h.takes hfile howner
          | some o =>
              rw [howner] at hstep
              cases hstep
              exact h.stay (.inr hfile.symm) (fun hl => by cases hl) fun _ hph => by cases hph
      | setLkFails =>
          simp only [lockStep, hphase] at hstep
          cases hstep
          exact h.stay (.inr hfile.symm) (fun hl => by cases hl) fun _ hph => by cases hph
      | _ => simp [lockStep, hphase] at hstep
  | waiting i =>
      have hfile : (w.phase p).file = some i := by rw [hphase]; rfl
      cases act with
      | setLkw =>
          simp only [lockStep, hphase] at hstep
          cases howner : w.owner i with
          | none =>
              rw [howner] at hstep
              cases hstep
              exact h.takes hfile howner
          | some o =>
              rw [howner] at hstep
              cases hstep
      | setLkwFails =>
          simp only [lockStep, hphase] at hstep
          cases hstep
          exact LockInv.leave rfl hguard
      | _ => simp [lockStep, hphase] at hstep
  | holding i =>
      cases act with
      | unlock =>
          simp only [lockStep, hphase] at hstep
          cases hstep
          refine LockInv.setOwner (LockInv.leave rfl hguard) none fun q hq => absurd hq ?_
          exact not_holding_of_file_eq_none (file_goto_eq_none rfl hguard q)
      | _ => simp [lockStep, hphase] at hstep
  | unlocked i =>
      cases act with
      | close =>
          simp only [lockStep, hphase] at hstep
          cases hstep
          exact h.closes (by rw [hphase]; rfl) true
      | _ => simp [lockStep, hphase] at hstep
  | refused i =>
      cases act with
      | close =>
          simp only [lockStep, hphase] at hstep
          cases hstep
          exact h.closes (by rw [hphase]; rfl) false
      | _ => simp [lockStep, hphase] at hstep
  | removing atExit =>
      cases act with
      | remove =>
          simp only [lockStep, hphase] at hstep
          cases hstep
          exact h.removes (by rw [hphase]; rfl) (by rw [hphase]; rfl) atExit
      | _ => simp [lockStep, hphase] at hstep
  | lockless =>
      cases act with
      | exit =>
          simp only [lockStep, hphase] at hstep
          cases hstep
          exact LockInv.leave rfl hguard
      | _ => simp [lockStep, hphase] at hstep
  | done => cases act <;> simp [lockStep, hphase] at hstep

/-- While the file is not shared, no two processes hold the lock and no path is taken away. -/
theorem LockInv.safe (h : LockInv w) : LockSafe w where
  exclusive p q i j hp hq := by
    have hi := h.named p i (by rw [hp]; rfl)
    have hj := h.named q j (by rw [hq]; rfl)
    obtain rfl : i = j := Option.some.inj (hi.symm.trans hj)
    exact Option.some.inj ((h.owned p i hp).symm.trans (h.owned q i hq))
  pathKept p w' hstep q i hqp _ := by
    have hleaving : (w.phase p).leaving = true := by
      cases hphase : w.phase p with
      | removing atExit => rfl
      | _ => simp [lockStep, hphase] at hstep
    have hfile := h.alone p q hqp hleaving
    refine ⟨not_holding_of_file_eq_none hfile, fun hwaits => ?_⟩
    rw [hwaits] at hfile
    cases hfile

/-- In every run that does not share the file, at most one process at a time holds the lock
and nobody removes the path another process locked or waits for. -/
theorem instanceLock_safe {path : Option ℕ}
    (h : Reaches lockStep Unshared (LockWorld.initial path) w) : LockSafe w :=
  (h.invariant (lockInv_initial path) fun _ (_, _) _ hinv hguard hstep =>
    lockInv_step hinv hguard hstep).safe

end Steps

/-- Two processes that lock the file one after the other. -/
theorem instanceLock_safe_inTurn :
    ∃ w, Reaches lockStep Unshared (LockWorld.initial none : LockWorld (Fin 2)) w ∧
      w.phase 1 = .holding 1 ∧ LockSafe w := by
  have hrun : Reaches lockStep Unshared (LockWorld.initial none : LockWorld (Fin 2)) _ :=
    reaches_of_foldlM [(0, .opens), (0, .setLk), (0, .unlock), (0, .close), (0, .remove),
      (1, .opens), (1, .setLk)] rfl
  exact ⟨_, hrun, rfl, instanceLock_safe hrun⟩

/-- Process 1 waits for process 0, which unlocks and then removes the path; process 2
creates the file anew and holds the lock as process 1 does. -/
theorem instanceLock_shared :
    ¬ ∀ w, Reaches lockStep anyAction (LockWorld.initial none : LockWorld (Fin 3)) w →
      LockSafe w := by
  intro hsafe
  have hrun : Reaches lockStep anyAction (LockWorld.initial none : LockWorld (Fin 3)) _ :=
    reaches_of_foldlM [(0, .opens), (0, .setLk), (1, .opens), (1, .setLk), (0, .unlock),
      (1, .setLkw), (0, .close), (0, .remove), (2, .opens), (2, .setLk)] rfl
  have hsame : (1 : Fin 3) = 2 := (hsafe _ hrun).exclusive 1 2 0 1 rfl rfl
  exact absurd hsame (by decide)

end Tdnf.Common
