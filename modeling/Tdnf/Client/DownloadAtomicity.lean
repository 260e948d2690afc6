import Tdnf.Client.Download

/-!
# One call of the downloader

`TDNFDownloadFile` receives a file beside its destination, in several attempts if
it has to, and renames it. Every call of the system may fail. Bytes that are still
in a buffer are written when the file is closed.
-/

namespace Tdnf.Client.Atomicity

open Procedure

/-- What is in the destination and in the temporary file -/
structure Contents (α : Type) where
  dest : Option (List α)
  tmp : Option (List α)
deriving DecidableEq, Repr

/-- One round of the loop, with an `errno` or a `CURLcode` where a call fails -/
structure Attempt (α : Type) where
  fopen : Option ℕ
  /-- `curl_easy_setopt` for the file -/
  setopt : ℕ
  /-- `curl_easy_perform` -/
  perform : ℕ
  /-- the complete body of the transfer -/
  body : List α
  fclose : Option ℕ
  /-- what is in the file once it is closed -/
  left : List α
  whole : perform = 0 → fclose = none → left = body

/-- What a call meets -/
structure Setting (α : Type) where
  /-- the first error before the name of the temporary file is known -/
  setup : Option TdnfError
  nRetries : ℤ
  attempt : ℕ → Attempt α
  /-- the response code, or the `CURLcode` of `curl_easy_getinfo` -/
  status : Except ℕ ℕ
  rename : Option ℕ
  chmod : Option ℕ

abbrev DownloadProc (α : Type) := Proc TdnfError (Contents α)

variable {α : Type}

/-- `BAIL_ON_TDNF_SYSTEM_ERROR` with the `errno` of a call that failed -/
def bailSys : Option ℕ → DownloadProc α Unit
  | none => pure ()
  | some errno => throw (.system errno)

/-- `BAIL_ON_TDNF_CURL_ERROR` -/
def bailCurl (code : ℕ) : DownloadProc α Unit :=
  if code = 0 then pure () else throw (.curl code)

section Call

variable (call : Setting α)

/-- The loop over the attempts from `i` on, with the number of rounds that are left -/
def attempts : ℕ → ℕ → DownloadProc α Unit
  | 0, _ => pure ()
  | rounds + 1, i => do
    let a := call.attempt i
    bailSys a.fopen
    modify fun s => { s with tmp := some [] }
    bailCurl a.setopt
    modify fun s => { s with tmp := some a.left }
    if a.perform = 0 then pure ()
    else if (i : ℤ) = call.nRetries ∨ curlErrorIsFatal a.perform then throw (.curl a.perform)
    else attempts rounds (i + 1)

/-- `rename(pszFileTmp, pszFile)` -/
def renameTmp : DownloadProc α Unit := do
  match (← get).tmp with
  | none => throw (.system 2)
  | some data =>
    bailSys call.rename
    set { dest := some data, tmp := none : Contents α }

/-- `TDNFDownloadFile` from the name of the temporary file on -/
def transfer : DownloadProc α Unit := do
  attempts call (call.nRetries + 1).toNat 0
  match call.status with
  | .error code => throw (.curl code)
  | .ok status =>
    if 400 ≤ status then throw .invalidParameter
    else do
      renameTmp call
      bailSys call.chmod

/-- `TDNFDownloadFile` -/
def downloadFile : DownloadProc α Unit :=
  match call.setup with
  | some e => throw e
  | none => finishing id (fun s => { s with tmp := none }) (transfer call)

/-! ## What a call should do -/

/-- The attempt fails in a way that is tried again. -/
def Retried (i : ℕ) : Prop :=
  (call.attempt i).fopen = none ∧ (call.attempt i).setopt = 0 ∧ (call.attempt i).perform ≠ 0 ∧
    curlErrorIsFatal (call.attempt i).perform = false

/-- The transfer takes place and succeeds. -/
structure Succeeds (i : ℕ) : Prop where
  round : (i : ℤ) ≤ call.nRetries
  before : ∀ j < i, Retried call j
  fopen : (call.attempt i).fopen = none
  setopt : (call.attempt i).setopt = 0
  perform : (call.attempt i).perform = 0

/-- A call that succeeds leaves the complete body of a transfer that succeeded, and after one that
fails the destination is what it was and no temporary file is left. -/
structure Atomic (s : Contents α) : Prop where
  success : ∀ t, (downloadFile call).run s = .ok () t →
    ∃ i, Succeeds call i ∧ t.dest = some (call.attempt i).body
  failure : ∀ e t, (downloadFile call).run s = .error e t → t.dest = s.dest ∧ t.tmp = none

/-- The temporary file comes to be renamed. -/
def Publishes : Prop :=
  call.setup = none ∧ (∃ status < 400, call.status = .ok status) ∧ call.rename = none

/-- The condition under which a call is atomic -/
structure Sound (s : Contents α) : Prop where
  /-- no old temporary file is there where an error comes too early to remove it -/
  clean : call.setup ≠ none → s.tmp = none
  /-- what was received is whole, or where `chmod` fails nothing new -/
  whole : Publishes call → ∀ i, Succeeds call i →
    if call.chmod = none then (call.attempt i).left = (call.attempt i).body
    else s.dest = some (call.attempt i).left
  /-- without an attempt there is no old temporary file, or `chmod` fails and it is nothing new -/
  fresh : Publishes call → call.nRetries < 0 → ∀ x, s.tmp = some x →
    call.chmod ≠ none ∧ s.dest = some x

end Call

/-! ## The loop -/

section Attempts

variable {call : Setting α} {s t : Contents α} {i j : ℕ}

/-- At most one transfer of a call succeeds. -/
theorem Succeeds.unique (hi : Succeeds call i) (hj : Succeeds call j) : i = j := by
  have hle {i j : ℕ} (hi : Succeeds call i) (hj : Succeeds call j) : j ≤ i := by
    by_contra hlt
    obtain ⟨-, -, hperform, -⟩ := hj.before i (by omega)
    exact hperform hi.perform
  exact le_antisymm (hle hj hi) (hle hi hj)

theorem not_succeeds_of_neg (h : call.nRetries < 0) : ¬ Succeeds call i := by
  rintro ⟨hround, -⟩
  omega

/-- An attempt that is not tried again is the last one that can succeed. -/
theorem not_succeeds (hbefore : ∀ j < i, Retried call j) (hfails : ¬ Succeeds call i)
    (hlast : ¬ Retried call i ∨ (i : ℤ) = call.nRetries) (k : ℕ) : ¬ Succeeds call k := by
  intro h
  obtain hlt | rfl | hgt := lt_trichotomy k i
  · exact (hbefore k hlt).2.2.1 h.perform
  · exact hfails h
  · obtain hnot | hround := hlast
    · exact hnot (h.before i hgt)
    · have hk := h.round
      omega

@[simp] theorem wp_bailSys {errno : Option ℕ} {Q : Unit → Contents α → Prop}
    {E : TdnfError → Contents α → Prop} : wp (bailSys errno) Q E s ↔
      (errno = none → Q () s) ∧ ∀ n, errno = some n → E (.system n) s := by
  cases errno with
  | none => simp [bailSys]
  | some n => simp [bailSys]

@[simp] theorem wp_bailCurl {code : ℕ} {Q : Unit → Contents α → Prop}
    {E : TdnfError → Contents α → Prop} : wp (bailCurl code) Q E s ↔
      (code = 0 → Q () s) ∧ (code ≠ 0 → E (.curl code) s) := by
  rw [bailCurl, wp_ite]
  rfl

/-- The loop ends with the transfer that succeeds, or it fails where none does. -/
theorem attempts_ends (rounds : ℕ) (hbefore : ∀ j < i, Retried call j)
    (hrounds : (i : ℤ) + rounds = call.nRetries) (s : Contents α) :
    wp (attempts call (rounds + 1) i)
      (fun _ t => ∃ k, Succeeds call k ∧ t = { s with tmp := some (call.attempt k).left })
      (fun _ t => (∀ k, ¬ Succeeds call k) ∧ t.dest = s.dest) s := by
  induction rounds generalizing i s with
  | zero =>
      have hlast : (i : ℤ) = call.nRetries := by omega
      simp only [attempts, wp_bind, wp_bailSys, wp_bailCurl, wp_modify, wp_ite, wp_throw, wp_pure]
      refine ⟨fun hfopen => ⟨fun hsetopt => ⟨fun hperform => ?_, fun hperform => ⟨fun _ => ?_, ?_⟩⟩,
        fun hsetopt => ?_⟩, fun n hfopen => ?_⟩
      · exact ⟨i, ⟨by omega, hbefore, hfopen, hsetopt, hperform⟩, rfl⟩
      · exact ⟨not_succeeds hbefore (fun h => hperform h.perform) (.inr hlast), trivial⟩
      · exact fun hmore => absurd (.inl hlast) hmore
      · exact ⟨not_succeeds hbefore (fun h => hsetopt h.setopt) (.inr hlast), trivial⟩
      · refine ⟨not_succeeds hbefore (fun h => ?_) (.inr hlast), trivial⟩
        rw [h.fopen] at hfopen
        cases hfopen
  | succ rounds ih =>
      rw [attempts]
      simp only [wp_bind, wp_bailSys, wp_bailCurl, wp_modify, wp_ite, wp_throw, wp_pure]
      refine ⟨fun hfopen => ⟨fun hsetopt => ⟨fun hperform => ?_, fun hperform => ⟨fun hstop => ?_,
        fun hmore => ?_⟩⟩, fun hsetopt => ?_⟩, fun n hfopen => ?_⟩
      · exact ⟨i, ⟨by omega, hbefore, hfopen, hsetopt, hperform⟩, rfl⟩
      · refine
          ⟨not_succeeds hbefore (fun h => hperform h.perform) (hstop.symm.imp_left ?_), trivial⟩
        intro hfatal hretried
        rw [hretried.2.2.2] at hfatal
        cases hfatal
      · obtain ⟨-, hfatal⟩ := not_or.mp hmore
        have hretried : Retried call i :=
          ⟨hfopen, hsetopt, hperform, Bool.of_not_eq_true hfatal⟩
        have hbefore' (j : ℕ) (hj : j < i + 1) : Retried call j := by
          obtain hlt | rfl := Nat.lt_succ_iff_lt_or_eq.mp hj
          · exact hbefore j hlt
          · exact hretried
        exact ih hbefore' (by omega) _
      · refine ⟨not_succeeds hbefore (fun h => hsetopt h.setopt) (.inl fun h => ?_), trivial⟩
        exact hsetopt h.2.1
      · have hopen (h : (call.attempt i).fopen = none) : False := by
          rw [h] at hfopen
          cases hfopen
        exact ⟨not_succeeds hbefore (fun h => hopen h.fopen) (.inl fun h => hopen h.1), trivial⟩

end Attempts

/-! ## The call -/

section Calls

variable {call : Setting α} {s : Contents α} {i : ℕ} {x : List α}

/-- What the temporary file holds when it is renamed -/
def Received (call : Setting α) (s : Contents α) (x : List α) : Prop :=
  (∃ i, Succeeds call i ∧ x = (call.attempt i).left) ∨ call.nRetries < 0 ∧ s.tmp = some x

/-- The loop, with the number of rounds that the call gives it -/
theorem attempts_received (call : Setting α) (s : Contents α) :
    wp (attempts call (call.nRetries + 1).toNat 0)
      (fun _ t => t.dest = s.dest ∧ ∀ x, t.tmp = some x ↔ Received call s x)
      (fun _ t => (∀ x, ¬ Received call s x) ∧ t.dest = s.dest) s := by
  by_cases hneg : call.nRetries < 0
  · have hzero : (call.nRetries + 1).toNat = 0 := by omega
    rw [hzero, attempts, wp_pure]
    refine ⟨rfl, fun x => ⟨fun h => .inr ⟨hneg, h⟩, ?_⟩⟩
    rintro (⟨i, hi, -⟩ | ⟨-, hx⟩)
    · exact absurd hi (not_succeeds_of_neg hneg)
    · exact hx
  · obtain ⟨rounds, hrounds⟩ : ∃ rounds : ℕ, call.nRetries = rounds :=
      ⟨call.nRetries.toNat, by omega⟩
    have hsucc : (call.nRetries + 1).toNat = rounds + 1 := by omega
    rw [hsucc]
    refine wp_mono (attempts_ends rounds (fun j hj => absurd hj (Nat.not_lt_zero j)) (by omega) s)
      ?_ ?_
    · rintro _ t ⟨k, hk, rfl⟩
      refine ⟨rfl, fun x => ⟨fun h => .inl ⟨k, hk, (Option.some.inj h).symm⟩, ?_⟩⟩
      rintro (⟨i, hi, rfl⟩ | ⟨hlt, -⟩)
      · rw [hi.unique hk]
      · exact absurd hlt hneg
    · rintro _ t ⟨hnone, hdest⟩
      refine ⟨?_, hdest⟩
      rintro x (⟨i, hi, -⟩ | ⟨hlt, -⟩)
      · exact hnone i hi
      · exact hneg hlt

/-- What was received is published, and `chmod` decides what the call returns. -/
theorem downloadFile_published (hcall : Publishes call) (hx : Received call s x) :
    wp (downloadFile call) (fun _ t => call.chmod = none ∧ t = ⟨some x, none⟩)
      (fun _ t => call.chmod ≠ none ∧ t = ⟨some x, none⟩) s := by
  obtain ⟨hsetup, ⟨status, hlt, hstatus⟩, hrename⟩ := hcall
  rw [downloadFile, hsetup]
  dsimp only
  rw [wp_finishing, transfer, wp_bind]
  refine wp_mono (attempts_received call s) ?_ ?_
  · rintro _ t ⟨-, htmp⟩
    have hreceived : t.tmp = some x := (htmp x).mpr hx
    rw [hstatus]
    dsimp only
    rw [wp_ite]
    refine ⟨fun hge => by omega, fun _ => ?_⟩
    simp only [renameTmp, wp_bind, wp_get, hreceived, hrename, wp_bailSys, wp_set]
    refine ⟨fun _ => ⟨fun hchmod => ⟨hchmod, rfl⟩, fun n hchmod => ?_⟩, fun n hn => by cases hn⟩
    exact ⟨by rw [hchmod]; exact Option.some_ne_none n, trivial⟩
  · rintro _ t ⟨hnone, -⟩
    exact absurd hx (hnone x)

/-- Otherwise the call fails and leaves the destination. -/
theorem downloadFile_fails (hsetup : call.setup = none)
    (h : ¬ (Publishes call ∧ ∃ x, Received call s x)) :
    wp (downloadFile call) (fun _ _ => False) (fun _ t => t.dest = s.dest ∧ t.tmp = none) s := by
  rw [downloadFile, hsetup]
  dsimp only
  rw [wp_finishing, transfer, wp_bind]
  refine wp_mono (attempts_received call s) ?_ ?_
  · rintro _ t ⟨hdest, htmp⟩
    cases hstatus : call.status with
    | error code => exact ⟨hdest, rfl⟩
    | ok status =>
        dsimp only
        rw [wp_ite]
        refine ⟨fun _ => ⟨hdest, rfl⟩, fun hlt => ?_⟩
        rw [wp_bind, renameTmp, wp_bind, wp_get]
        cases hreceived : t.tmp with
        | none => exact ⟨hdest, rfl⟩
        | some x =>
            simp only [wp_bind, wp_bailSys]
            refine ⟨fun hrename => ?_, fun n _ => ⟨hdest, trivial⟩⟩
            exact absurd ⟨⟨hsetup, ⟨status, by omega, hstatus⟩, hrename⟩, x,
              (htmp x).mp hreceived⟩ h
  · rintro _ t ⟨-, hdest⟩
    exact ⟨hdest, rfl⟩

/-- A published file decides what `Atomic` asks for. -/
theorem atomic_iff_published (hcall : Publishes call) (hx : Received call s x) :
    Atomic call s ↔ if call.chmod = none then ∃ i, Succeeds call i ∧ x = (call.attempt i).body
      else s.dest = some x := by
  have hrun := downloadFile_published hcall hx
  by_cases hchmod : call.chmod = none
  · rw [if_pos hchmod]
    obtain ⟨_, t, hok, -, rfl⟩ := exists_ok (wp_mono hrun (fun _ _ h => h) fun _ _ h => h.1 hchmod)
    constructor
    · intro h
      obtain ⟨i, hi, hdest⟩ := h.success _ hok
      exact ⟨i, hi, Option.some.inj hdest⟩
    · rintro ⟨i, hi, rfl⟩
      refine ⟨fun t ht => ?_, fun e t ht => ?_⟩
      · cases hok.symm.trans ht
        exact ⟨i, hi, rfl⟩
      · cases hok.symm.trans ht
  · rw [if_neg hchmod]
    cases hresult : (downloadFile call).run s with
    | ok a t => exact absurd (wp_ok hrun hresult).1 hchmod
    | error e t =>
        obtain ⟨-, rfl⟩ := wp_error hrun hresult
        constructor
        · intro h
          exact (h.failure e _ hresult).1.symm
        · intro hdest
          refine ⟨fun t ht => ?_, fun e' t ht => ?_⟩
          · cases hresult.symm.trans ht
          · cases hresult.symm.trans ht
            exact ⟨hdest.symm, rfl⟩

/-- A call is atomic if and only if its condition holds. -/
theorem atomic_iff (call : Setting α) (s : Contents α) : Atomic call s ↔ Sound call s := by
  cases hsetup : call.setup with
  | some e =>
      have hrun : (downloadFile call).run s = .error e s := by
        rw [downloadFile, hsetup]
        rfl
      have hnot : ¬ Publishes call := by
        rintro ⟨hnone, -⟩
        rw [hsetup] at hnone
        cases hnone
      constructor
      · intro h
        exact ⟨fun _ => (h.failure e s hrun).2, fun hcall => absurd hcall hnot,
          fun hcall => absurd hcall hnot⟩
      · intro h
        refine ⟨fun t ht => ?_, fun e' t ht => ?_⟩
        · cases hrun.symm.trans ht
        · cases hrun.symm.trans ht
          exact ⟨rfl, h.clean (by rw [hsetup]; exact Option.some_ne_none e)⟩
  | none =>
      by_cases hpublished : Publishes call ∧ ∃ x, Received call s x
      · obtain ⟨hcall, x, hx⟩ := hpublished
        rw [atomic_iff_published hcall hx]
        obtain ⟨i, hi, rfl⟩ | ⟨hneg, htmp⟩ := hx
        · constructor
          · intro h
            refine ⟨fun hne => absurd hsetup hne, fun _ j hj => ?_, fun _ hneg => ?_⟩
            · obtain rfl := hj.unique hi
              by_cases hchmod : call.chmod = none
              · rw [if_pos hchmod] at h ⊢
                obtain ⟨k, hk, hwhole⟩ := h
                rwa [hk.unique hj] at hwhole
              · rwa [if_neg hchmod] at h ⊢
            · exact absurd hi (not_succeeds_of_neg hneg)
          · intro h
            have hwhole := h.whole hcall i hi
            by_cases hchmod : call.chmod = none
            · rw [if_pos hchmod] at hwhole ⊢
              exact ⟨i, hi, hwhole⟩
            · rwa [if_neg hchmod] at hwhole ⊢
        · constructor
          · intro h
            refine ⟨fun hne => absurd hsetup hne, fun _ j hj => ?_, fun _ _ y hy => ?_⟩
            · exact absurd hj (not_succeeds_of_neg hneg)
            · obtain rfl := Option.some.inj (htmp.symm.trans hy)
              by_cases hchmod : call.chmod = none
              · rw [if_pos hchmod] at h
                obtain ⟨k, hk, -⟩ := h
                exact absurd hk (not_succeeds_of_neg hneg)
              · rw [if_neg hchmod] at h
                exact ⟨hchmod, h⟩
          · intro h
            obtain ⟨hchmod, hdest⟩ := h.fresh hcall hneg x htmp
            rw [if_neg hchmod]
            exact hdest
      · have hrun := downloadFile_fails hsetup hpublished
        refine iff_of_true ⟨fun t ht => (wp_ok hrun ht).elim, fun e t ht => wp_error hrun ht⟩ ?_
        refine ⟨fun hne => absurd hsetup hne, fun hcall i hi => ?_, fun hcall hneg x hx => ?_⟩
        · exact absurd ⟨hcall, _, .inl ⟨i, hi, rfl⟩⟩ hpublished
        · exact absurd ⟨hcall, x, .inr ⟨hneg, hx⟩⟩ hpublished

end Calls

/-- A transfer of two bytes of which one is lost when the file is closed on a full disk -/
def fullDisk : Setting ℕ where
  setup := none
  nRetries := 10
  attempt _ := ⟨none, 0, 0, [1, 2], some 28, [1], fun _ h => by cases h⟩
  status := .ok 200
  rename := none
  chmod := none

/-- The truncated file is published, and the call succeeds. -/
theorem fullDisk_not_atomic : ¬ Atomic fullDisk ⟨none, none⟩ := by
  intro h
  obtain ⟨i, -, hdest⟩ := h.success ⟨some [1], none⟩ rfl
  cases hdest

end Tdnf.Client.Atomicity
