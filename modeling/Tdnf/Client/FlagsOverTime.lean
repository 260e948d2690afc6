import Tdnf.Client.FlagLifecycle
import Tdnf.Library.Evolution

/-!
# The flags over time

Results on runs of commands, read off the ledger: what was recorded before the
newest transaction stays, a rollback brings back what was recorded at its
transaction, and a redo takes back an undo.
-/

namespace Tdnf.Client

open History Procedure Evolution

/-! ## Nothing is rewritten -/

/-- `l'` has the flags of `l` below the newest transaction of `l`. -/
def Ledger.Past (l l' : Ledger) : Prop := Timeline.Past l.flags l'.flags

instance : Std.Refl Ledger.Past := ⟨fun l => Timeline.Past.refl l.flags⟩

instance : IsTrans Ledger Ledger.Past := ⟨fun _ _ _ => Timeline.Past.trans⟩

section Steps

theorem evolves_update_assign (f : Timeline String ℤ → String → ℤ) :
    Evolves Ledger.Past (modify (Ledger.update fun τ => τ.assign (f τ)) : LedgerProc) :=
  evolves_modify fun l => Timeline.past_assign l.flags _

theorem evolves_recorded (cookie : String) :
    Evolves Ledger.Past (modify (Ledger.recorded cookie) : LedgerProc) := by
  refine evolves_modify fun l => ?_
  rw [Ledger.recorded]
  split_ifs
  · exact Timeline.Past.refl _
  · exact Timeline.past_extend _

theorem evolves_marked (info : SolvedPkgInfo) (nAutoOnly : Bool) :
    Evolves Ledger.Past (modify (Ledger.marked info nAutoOnly) : LedgerProc) :=
  evolves_modify fun l => Timeline.past_assign l.flags _

theorem past_applied (args : HistoryArgs) (l : Ledger) : l.Past (l.applied args) := by
  rw [Ledger.applied]
  cases args.nCommand with
  | rollback => exact Timeline.past_assign _ _
  | undo => exact Timeline.past_assign _ _
  | redo => exact Timeline.past_assign _ _
  | list => exact Timeline.Past.refl _
  | init => exact Timeline.Past.refl _

theorem evolves_append (cmdline : Option String) :
    Evolves Ledger.Past (Ledger.append cmdline) := by
  refine evolves_get.bind fun l => Evolves.ite _ (evolves_throw _) (evolves_modify fun l => ?_)
  exact Timeline.past_extend _

theorem evolves_setFlag (name : String) (value : ℤ) :
    Evolves Ledger.Past (Ledger.setFlag name value) :=
  evolves_get.bind fun _ => Evolves.ite _ (evolves_throw _) (evolves_update_assign _)

theorem evolves_transact (exec : Exec) (rpmdb : RpmDb) :
    Evolves Ledger.Past (Ledger.transact exec rpmdb) := by
  refine (evolves_recorded _).bind fun _ => ?_
  cases exec.rpmRun rpmdb with
  | ok r => exact evolves_recorded _
  | error e => exact evolves_throw e

theorem evolves_untracked (exec : Exec) (rpmdb : RpmDb) :
    Evolves Ledger.Past (Ledger.untracked exec rpmdb) := by
  refine Evolves.ite _ (evolves_pure ()) ?_
  cases exec.rpmRun rpmdb with
  | ok r => exact evolves_pure ()
  | error e => exact evolves_throw e

/-- No command rewrites what was recorded before the newest transaction. -/
theorem evolves_spec (rpmdb : RpmDb) (command : Command) :
    Evolves Ledger.Past (command.spec rpmdb) := by
  cases command with
  | historyResolve args => exact evolves_recorded _
  | rpmExecTransaction exec =>
      exact Evolves.ite _ (evolves_untracked exec rpmdb)
        ((evolves_transact exec rpmdb).bind fun _ => evolves_marked _ _)
  | rpmExecHistoryTransaction exec =>
      refine Evolves.ite _ (evolves_untracked exec rpmdb) (evolves_get.bind fun l => ?_)
      refine (evolves_transact exec rpmdb).bind fun _ => evolves_get.bind fun l' => ?_
      exact (Evolves.ite _ (evolves_append _) (evolves_marked _ _)).bind fun _ =>
        evolves_modify (past_applied exec.history)
  | mark names dwValue cmdline =>
      refine Evolves.ite _ (evolves_throw _) (evolves_get.bind fun l => ?_)
      refine Evolves.ite _ (evolves_throw _) (evolves_modify fun l => ?_)
      exact (Timeline.past_extend l.flags).trans (Timeline.past_assign _ _)
  | markAutoInstalledSinglePkg pszPkgName => exact evolves_setFlag _ _

end Steps

section Runs

variable {rpm : Set RpmDb}

theorem ending_evolves {R : Ledger → Ledger → Prop} {x : LedgerProc} (hx : Evolves R x)
    (l : Ledger) : R l (ending (x.run l)).2 := by
  cases h : x.run l with
  | ok _ l' => exact hx.ok h
  | error e l' => exact hx.error h

theorem performAll_append {σ : Type} (fresh : σ)
    (content : Request → σ → Except TdnfError Unit × σ) (before after : List Request)
    (file : Option σ) :
    performAll fresh content (before ++ after) file =
      ((performAll fresh content before file).1 ++
          (performAll fresh content after (performAll fresh content before file).2).1,
        (performAll fresh content after (performAll fresh content before file).2).2) := by
  induction before generalizing file with
  | nil => rfl
  | cons req rest ih => simp only [List.cons_append, performAll, ih]

/-- A request on a ledger. -/
theorem perform_evolves {R : Ledger → Ledger → Prop} [Std.Refl R] {req : Request}
    (hreq : Evolves R (req.command.spec req.rpmdb)) (l : Ledger) :
    ∃ l', (req.perform Ledger.fresh onLedger (some l)).2 = some l' ∧ R l l' := by
  simp only [Request.perform]
  cases req.command.checked with
  | error e => exact ⟨l, rfl, refl_of R l⟩
  | ok _ =>
      cases req.around.before with
      | error e => exact ⟨l, rfl, refl_of R l⟩
      | ok _ =>
          cases req.command.opens with
          | false => exact ⟨l, rfl, refl_of R l⟩
          | true =>
              simp only [if_true]
              cases req.around.prepareHistory req.command.mustExist (some l).isSome with
              | error e => exact ⟨l, rfl, refl_of R l⟩
              | ok _ => exact ⟨_, rfl, ending_evolves hreq l⟩

theorem performAll_past (requests : List Request) (l : Ledger) :
    ∃ l', (performAll Ledger.fresh onLedger requests (some l)).2 = some l' ∧ l.Past l' := by
  induction requests generalizing l with
  | nil => exact ⟨l, rfl, refl_of Ledger.Past l⟩
  | cons req rest ih =>
      obtain ⟨l₁, hstep, hpast₁⟩ := perform_evolves (evolves_spec req.rpmdb req.command) l
      obtain ⟨l₂, hrest, hpast₂⟩ := ih l₁
      refine ⟨l₂, ?_, trans_of Ledger.Past hpast₁ hpast₂⟩
      simp only [performAll, hstep, hrest]

/-- The ledger that goes with a file of a run. -/
theorem ledger_of_run (hrpm : RpmContract rpm) {requests : List Request}
    (hadm : ∀ req ∈ requests, Admissible rpm req) {db : Db}
    (h : (historyRun requests).2 = some db) :
    ∃ l, (ledgerRun requests).2 = some l ∧ LedgerOf db l := by
  obtain ⟨-, hstored⟩ := performAll_follows hrpm hadm stored_none
  rw [historyRun] at h
  rw [h] at hstored
  rw [ledgerRun]
  cases hledger : (performAll Ledger.fresh onLedger requests none).2 with
  | none =>
      rw [hledger] at hstored
      exact hstored.elim
  | some l =>
      rw [hledger] at hstored
      obtain ⟨w, -, -, -, hof⟩ := hstored
      exact ⟨l, rfl, hof⟩

/-- The file of a run that goes with a ledger. -/
theorem file_of_run (hrpm : RpmContract rpm) {requests : List Request}
    (hadm : ∀ req ∈ requests, Admissible rpm req) {l : Ledger}
    (h : (ledgerRun requests).2 = some l) :
    ∃ db, (historyRun requests).2 = some db ∧ LedgerOf db l := by
  obtain ⟨-, hstored⟩ := performAll_follows hrpm hadm stored_none
  rw [ledgerRun] at h
  rw [h] at hstored
  rw [historyRun]
  cases hfile : (performAll Db.fresh onNewContext requests none).2 with
  | none =>
      rw [hfile] at hstored
      exact hstored.elim
  | some db =>
      rw [hfile] at hstored
      obtain ⟨w, -, -, -, hof⟩ := hstored
      exact ⟨db, rfl, hof⟩

end Runs

section Dependency

/-- The history is set up, and then a package is installed that `b` is pulled in for. -/
def pulledIn : List Request :=
  [⟨⟨["a-1-1"], "c"⟩, 0, ⟨.ok (), .ok ()⟩, .historyResolve ⟨.init, 0, 0⟩⟩,
    ⟨⟨["a-1-1"], "c"⟩, 1, ⟨.ok (), .ok ()⟩, .rpmExecTransaction
      ⟨⟨.init, 0, 0⟩, false, false, some "upgrade", ⟨["b"], none⟩,
        fun _ => .ok ⟨["a-1-1", "b-1-1"], "d"⟩⟩⟩]

/-- A history command on the machine where `b` is installed or not. -/
def historyRequest (rpmdb rpmdb' : RpmDb) (args : HistoryArgs) (names : List String) : Request :=
  ⟨rpmdb, 2, ⟨.ok (), .ok ()⟩, .rpmExecHistoryTransaction
    ⟨args, false, false, some "history", ⟨names, none⟩, fun _ => .ok rpmdb'⟩⟩

/-- Back to the first transaction. -/
def rolledBack : Request :=
  historyRequest ⟨["a-1-1", "b-1-1"], "d"⟩ ⟨["a-1-1"], "c"⟩ ⟨.rollback, 0, 1⟩ []

/-- Without the second transaction. -/
def undone : Request :=
  historyRequest ⟨["a-1-1", "b-1-1"], "d"⟩ ⟨["a-1-1"], "c"⟩ ⟨.undo, 2, 2⟩ []

/-- The second transaction again. -/
def redone : Request :=
  historyRequest ⟨["a-1-1"], "c"⟩ ⟨["a-1-1", "b-1-1"], "d"⟩ ⟨.redo, 2, 2⟩ ["b"]

theorem rpmContract_pulledIn :
    RpmContract {⟨["a-1-1"], "c"⟩, ⟨["a-1-1", "b-1-1"], "d"⟩} :=
  rpmContract_pair (by decide) (by decide) (by decide)

theorem admissible_pulledIn : ∀ req ∈ pulledIn,
    Admissible {⟨["a-1-1"], "c"⟩, ⟨["a-1-1", "b-1-1"], "d"⟩} req := by
  rintro req (_ | ⟨_, _ | ⟨_, hreq⟩⟩)
  · refine ⟨by simp, ?_⟩
    rintro exec (h | h)
    · cases h
    · cases h
  · refine ⟨by simp, ?_⟩
    rintro exec (⟨⟨⟩⟩ | h) r hr
    · cases hr
      simp
    · cases h
  · cases hreq

theorem admissible_historyRequest {rpm : Set RpmDb} {rpmdb rpmdb' : RpmDb} (h : rpmdb ∈ rpm)
    (h' : rpmdb' ∈ rpm) (args : HistoryArgs) (names : List String) :
    Admissible rpm (historyRequest rpmdb rpmdb' args names) := by
  refine ⟨h, ?_⟩
  rintro exec (heq | ⟨⟨⟩⟩) r hr
  · cases heq
  · cases hr
    exact h'

/-- One more admissible request. -/
theorem admissible_concat {rpm : Set RpmDb} {requests : List Request} {req : Request}
    (h : ∀ r ∈ requests, Admissible rpm r) (hreq : Admissible rpm req) :
    ∀ r ∈ requests ++ [req], Admissible rpm r := by
  intro r hr
  rcases List.mem_append.mp hr with hr | hr
  · exact h r hr
  · rwa [List.mem_singleton.mp hr]

end Dependency

section Runs

variable {rpm : Set RpmDb}

/-- Every run of commands ends with the results of the ledger, has a history file when there is
a ledger, and in it the flags of the ledger at every transaction. -/
theorem historyRun_follows_ledger (hrpm : RpmContract rpm) (requests : List Request)
    (hadm : ∀ req ∈ requests, Admissible rpm req) :
    (historyRun requests).1 = (ledgerRun requests).1 ∧
      (historyRun requests).2.isSome = (ledgerRun requests).2.isSome ∧
      ∀ db l, (historyRun requests).2 = some db → (ledgerRun requests).2 = some l →
        db.newest = l.flags.newest ∧
          ∀ t name, dbGetAutoFlag db t name = .ok (l.flags.value t name) := by
  obtain ⟨hresults, hstored⟩ := performAll_follows hrpm hadm stored_none
  refine ⟨hresults, hstored.isSome, fun db l hdb hl => ?_⟩
  obtain ⟨l', hl', hof⟩ := ledger_of_run hrpm hadm hdb
  obtain rfl := Option.some.inj (hl.symm.trans hl')
  exact ⟨hof.newest, hof.flags⟩

theorem historyRun_follows_ledger_pulledIn :
    ∃ db l, (historyRun pulledIn).2 = some db ∧ (ledgerRun pulledIn).2 = some l ∧
      ∀ t name, dbGetAutoFlag db t name = .ok (l.flags.value t name) := by
  obtain ⟨-, -, hflags⟩ :=
    historyRun_follows_ledger rpmContract_pulledIn pulledIn admissible_pulledIn
  exact ⟨_, _, rfl, rfl, (hflags _ _ rfl rfl).2⟩

/-- What a run has recorded about the flags before the newest transaction is what any
continuation of the run has recorded about them. -/
theorem recorded_flags_kept (hrpm : RpmContract rpm) (before after : List Request)
    (hadm : ∀ req ∈ before ++ after, Admissible rpm req) {db : Db}
    (hdb : (historyRun before).2 = some db) :
    ∃ db', (historyRun (before ++ after)).2 = some db' ∧ db.newest ≤ db'.newest ∧
      ∀ t : ℤ, t < db.newest → ∀ name, dbGetAutoFlag db' t name = dbGetAutoFlag db t name := by
  have hbefore : ∀ req ∈ before, Admissible rpm req := fun req hreq =>
    hadm req (List.mem_append_left _ hreq)
  obtain ⟨l, hl, hof⟩ := ledger_of_run hrpm hbefore hdb
  obtain ⟨l', hl', hpast⟩ := performAll_past after l
  have hrun : (ledgerRun (before ++ after)).2 = some l' := by
    rw [ledgerRun] at hl
    rw [ledgerRun, performAll_append, hl, hl']
  obtain ⟨db', hdb', hof'⟩ := file_of_run hrpm hadm hrun
  refine ⟨db', hdb', ?_, fun t ht name => ?_⟩
  · rw [hof.newest, hof'.newest]
    exact hpast.newest
  · rw [hof.newest] at ht
    rw [hof'.flags, hof.flags, hpast.value t ht]

theorem recorded_flags_kept_rolledBack :
    ∃ db db', (historyRun pulledIn).2 = some db ∧
      (historyRun (pulledIn ++ [rolledBack])).2 = some db' ∧
      ∀ name, dbGetAutoFlag db' 1 name = dbGetAutoFlag db 1 name := by
  have hrolledBack : Admissible {⟨["a-1-1"], "c"⟩, ⟨["a-1-1", "b-1-1"], "d"⟩} rolledBack :=
    admissible_historyRequest (by simp) (by simp) _ _
  obtain ⟨db', hdb', -, hflags⟩ :=
    recorded_flags_kept rpmContract_pulledIn pulledIn [rolledBack]
      (admissible_concat admissible_pulledIn hrolledBack) rfl
  exact ⟨_, db', rfl, hdb', hflags 1 (by decide)⟩

end Runs

/-! ## Going back and forth -/

section GoingBack

/-- The packages that a command installs although nobody asked for them. -/
def Exec.Auto (exec : Exec) (name : String) : Prop :=
  name ∈ exec.solved.pkgsToInstall ∧ exec.solved.flag name = 1

/-- A command that records and runs, not only downloads or tests. -/
def Exec.Executes (exec : Exec) : Prop := exec.nDownloadOnly = false ∧ exec.nTestOnly = false

variable {exec : Exec} {rpmdb : RpmDb} {l l' : Ledger}

@[simp] theorem recorded_value (cookie : String) (l : Ledger) :
    (l.recorded cookie).flags.value = l.flags.value := by
  rw [Ledger.recorded]
  split_ifs <;> rfl

theorem recorded_current (cookie : String) (l : Ledger) :
    (l.recorded cookie).flags.current = l.flags.current := by
  rw [Ledger.recorded]
  split_ifs
  · rfl
  · exact l.flags.extend_current

theorem transact_ok (h : (Ledger.transact exec rpmdb).run l = .ok () l') :
    l.Past l' ∧ l'.flags.value = l.flags.value ∧ l'.flags.current = l.flags.current := by
  refine ⟨(evolves_transact exec rpmdb).ok h, ?_⟩
  rw [Ledger.transact] at h
  obtain ⟨_, l₁, hsync, hrest⟩ := run_bind_eq_ok.mp h
  cases hsync
  cases hrun : exec.rpmRun rpmdb with
  | error e =>
      rw [hrun] at hrest
      cases hrest
  | ok r =>
      rw [hrun] at hrest
      cases hrest
      simp only [recorded_value, recorded_current, and_self]

theorem append_ok {cmdline : Option String} (h : (Ledger.append cmdline).run l = .ok () l') :
    l' = l.update Timeline.extend := by
  rw [Ledger.append, run_get_bind] at h
  split_ifs at h with hrefused
  · cases h
  · cases h
    rfl

/-- A history command that succeeds works on the flags at a new transaction, where only those of
the packages installed on the way differ from the flags before. -/
theorem execHistory_ok (hexec : exec.Executes)
    (h : ((Command.rpmExecHistoryTransaction exec).spec rpmdb).run l = .ok () l') :
    ∃ m : Ledger, l' = m.applied exec.history ∧ l.flags.newest < m.flags.newest ∧
      (∀ t : ℤ, t ≤ l.flags.newest → m.flags.value t = l.flags.value t) ∧
      ∀ name, ¬ exec.Auto name → m.flags.current name = l.flags.current name := by
  rw [Command.spec, if_neg (by simp [hexec.1, hexec.2]), run_get_bind] at h
  obtain ⟨_, l₁, htransact, hrest⟩ := run_bind_eq_ok.mp h
  obtain ⟨hpast, hvalue, hcurrent⟩ := transact_ok htransact
  rw [run_get_bind] at hrest
  obtain ⟨_, m, hown, happly⟩ := run_bind_eq_ok.mp hrest
  cases happly
  refine ⟨m, rfl, ?_⟩
  split_ifs at hown with hsame
  · obtain rfl := append_ok hown
    refine ⟨?_, fun t _ => ?_, fun name _ => ?_⟩
    · rw [hsame]
      exact Nat.lt_succ_self _
    · rw [Ledger.update, Timeline.extend_value, hvalue]
    · rw [Ledger.update, Timeline.extend_current, hcurrent]
  · cases hown
    have hlater : l.flags.newest < l₁.flags.newest := lt_of_le_of_ne hpast.newest hsame
    refine ⟨hlater, fun t ht => ?_, fun name hauto => ?_⟩
    · rw [Ledger.marked, Ledger.setAll, Ledger.update, Timeline.assign_value_of_lt, hvalue]
      exact ht.trans_lt (by exact_mod_cast hlater)
    · rw [Ledger.marked, Ledger.setAll, Ledger.update, Timeline.assign_current, if_neg, hcurrent]
      rintro ⟨hmem, hchosen⟩
      exact hauto ⟨hmem, by simpa using hchosen⟩

/-- What a history command leaves of the flags up to the newest transaction before it. -/
theorem applied_value (args : HistoryArgs) {m : Ledger} {t : ℤ} (ht : t < m.flags.newest) :
    (m.applied args).flags.value t = m.flags.value t :=
  (past_applied args m).value t ht

/-- A request that succeeds on a ledger. -/
theorem perform_ok {req : Request} (hopens : req.command.opens = true)
    (h : (req.perform Ledger.fresh onLedger (some l)).1 = .ok ()) :
    ∃ l', (req.perform Ledger.fresh onLedger (some l)).2 = some l' ∧
      (req.command.spec req.rpmdb).run l = .ok () l' := by
  simp only [Request.perform, hopens, if_true] at h ⊢
  cases hchecked : req.command.checked with
  | error e =>
      rw [hchecked] at h
      cases h
  | ok _ =>
      cases hbefore : req.around.before with
      | error e =>
          rw [hchecked, hbefore] at h
          cases h
      | ok _ =>
          rw [hchecked, hbefore] at h
          cases hprepare : req.around.prepareHistory req.command.mustExist (some l).isSome with
          | error e =>
              simp only [hprepare] at h
              cases h
          | ok _ =>
              simp only [hprepare, Option.getD_some, onLedger] at h ⊢
              cases hrun : (req.command.spec req.rpmdb).run l with
              | ok _ l' => exact ⟨l', rfl, rfl⟩
              | error e l' =>
                  rw [hrun] at h
                  cases h

variable {rpm : Set RpmDb} {req : Request} {db : Db}

/-- Before a request, the ledger of a run; behind it, what the request leaves. -/
theorem run_last (hrpm : RpmContract rpm) {requests : List Request}
    (hadm : ∀ r ∈ requests, Admissible rpm r) (hl : (ledgerRun requests).2 = some l)
    (hopens : req.command.opens = true) (hreq : Admissible rpm req)
    (hok : (historyRun (requests ++ [req])).1 = (historyRun requests).1 ++ [.ok ()]) :
    ∃ l', (ledgerRun (requests ++ [req])).2 = some l' ∧
      (req.command.spec req.rpmdb).run l = .ok () l' := by
  have hall := admissible_concat hadm hreq
  rw [(historyRun_follows_ledger hrpm _ hall).1, (historyRun_follows_ledger hrpm _ hadm).1] at hok
  rw [ledgerRun] at hl hok ⊢
  rw [ledgerRun, performAll_append, hl] at hok
  rw [performAll_append, hl]
  simp only [performAll, List.append_cancel_left_eq, List.cons.injEq, and_true] at hok ⊢
  exact perform_ok hopens hok

/-- A rollback makes the flags what they were at its transaction when that one was no longer the
newest, whatever commands have run since. -/
theorem rollback_restores (hrpm : RpmContract rpm) (before later : List Request) (req : Request)
    (hadm : ∀ r ∈ before ++ later ++ [req], Admissible rpm r)
    (hcommand : req.command = .rpmExecHistoryTransaction exec) (hexec : exec.Executes)
    (hrollback : exec.history.nCommand = .rollback) (hdb : (historyRun before).2 = some db)
    (ht : exec.history.nTo < db.newest)
    (hok : (historyRun (before ++ later ++ [req])).1 =
      (historyRun (before ++ later)).1 ++ [.ok ()]) :
    ∃ db', (historyRun (before ++ later ++ [req])).2 = some db' ∧ ∀ name,
      dbGetAutoFlag db' db'.newest name = dbGetAutoFlag db exec.history.nTo name := by
  have hsome : ∀ r ∈ before ++ later, Admissible rpm r := fun r hr =>
    hadm r (List.mem_append_left _ hr)
  have hbefore : ∀ r ∈ before, Admissible rpm r := fun r hr => hsome r (List.mem_append_left _ hr)
  obtain ⟨l, hl, hof⟩ := ledger_of_run hrpm hbefore hdb
  obtain ⟨l₁, hl₁, hpast⟩ := performAll_past later l
  have hrun₁ : (ledgerRun (before ++ later)).2 = some l₁ := by
    rw [ledgerRun] at hl
    rw [ledgerRun, performAll_append, hl, hl₁]
  have hopens : req.command.opens = true := by
    rw [hcommand, Command.opens, hexec.1, hexec.2]
    rfl
  obtain ⟨l₂, hrun₂, hspec⟩ := run_last hrpm hsome hrun₁ hopens (hadm req (by simp)) hok
  rw [hcommand] at hspec
  obtain ⟨m, rfl, -, hvalue, -⟩ := execHistory_ok hexec hspec
  obtain ⟨db', hdb', hof'⟩ := file_of_run hrpm hadm hrun₂
  refine ⟨db', hdb', fun name => ?_⟩
  rw [hof.newest] at ht
  have hle : exec.history.nTo ≤ l₁.flags.newest :=
    ht.le.trans (by exact_mod_cast hpast.newest)
  rw [hof'.newest, hof'.flags, hof.flags, ← hpast.value _ ht, ← hvalue _ hle, Ledger.applied,
    hrollback]
  exact congrArg Except.ok (congrFun (Timeline.restore_current m.flags exec.history.nTo) name)

theorem rollback_restores_pulledIn :
    ∃ db db', (historyRun pulledIn).2 = some db ∧
      (historyRun (pulledIn ++ [] ++ [rolledBack])).2 = some db' ∧
      ∀ name, dbGetAutoFlag db' db'.newest name = dbGetAutoFlag db 1 name := by
  have hrolledBack : Admissible {⟨["a-1-1"], "c"⟩, ⟨["a-1-1", "b-1-1"], "d"⟩} rolledBack :=
    admissible_historyRequest (by simp) (by simp) _ _
  obtain ⟨db', hdb', hflags⟩ := rollback_restores rpmContract_pulledIn pulledIn [] rolledBack
    (admissible_concat (by rw [List.append_nil]; exact admissible_pulledIn) hrolledBack)
    rfl ⟨rfl, rfl⟩ rfl rfl (by decide) rfl
  exact ⟨_, db', rfl, hdb', hflags⟩

/-- After an undo and a redo of the same transactions a flag is what it was before, if it was
still what it had been at the last of them, and if these transactions changed it or neither
command installed its package on the way. -/
theorem undo_redo (hrpm : RpmContract rpm) (before : List Request) (undo redo : Request)
    (hadm : ∀ r ∈ before ++ [undo] ++ [redo], Admissible rpm r) {exec' : Exec} {first last : ℤ}
    (hundo : undo.command = .rpmExecHistoryTransaction exec) (hexec : exec.Executes)
    (hargs : exec.history = ⟨.undo, first, last⟩)
    (hredo : redo.command = .rpmExecHistoryTransaction exec') (hexec' : exec'.Executes)
    (hargs' : exec'.history = ⟨.redo, first, last⟩)
    (hdb : (historyRun before).2 = some db) (hfirst : first ≤ last) (hlast : last ≤ db.newest)
    (hok : (historyRun (before ++ [undo])).1 = (historyRun before).1 ++ [.ok ()])
    (hok' : (historyRun (before ++ [undo] ++ [redo])).1 =
      (historyRun (before ++ [undo])).1 ++ [.ok ()]) :
    ∃ db', (historyRun (before ++ [undo] ++ [redo])).2 = some db' ∧ ∀ name,
      dbGetAutoFlag db last name = dbGetAutoFlag db db.newest name →
      (dbGetAutoFlag db (first - 1) name ≠ dbGetAutoFlag db last name ∨
        ¬ exec.Auto name ∧ ¬ exec'.Auto name) →
      dbGetAutoFlag db' db'.newest name = dbGetAutoFlag db db.newest name := by
  have hadm₁ : ∀ r ∈ before ++ [undo], Admissible rpm r := fun r hr =>
    hadm r (List.mem_append_left _ hr)
  have hbefore : ∀ r ∈ before, Admissible rpm r := fun r hr => hadm₁ r (List.mem_append_left _ hr)
  have hopens : undo.command.opens = true := by
    rw [hundo, Command.opens, hexec.1, hexec.2]
    rfl
  have hopens' : redo.command.opens = true := by
    rw [hredo, Command.opens, hexec'.1, hexec'.2]
    rfl
  obtain ⟨l, hl, hof⟩ := ledger_of_run hrpm hbefore hdb
  obtain ⟨l₁, hl₁, hspec₁⟩ := run_last hrpm hbefore hl hopens (hadm₁ undo (by simp)) hok
  obtain ⟨l₂, hl₂, hspec₂⟩ := run_last hrpm hadm₁ hl₁ hopens' (hadm redo (by simp)) hok'
  rw [hundo] at hspec₁
  rw [hredo] at hspec₂
  obtain ⟨m₁, rfl, hnewer₁, hvalue₁, hcurrent₁⟩ := execHistory_ok hexec hspec₁
  obtain ⟨m₂, rfl, hnewer₂, hvalue₂, hcurrent₂⟩ := execHistory_ok hexec' hspec₂
  obtain ⟨db', hdb', hof'⟩ := file_of_run hrpm hadm hl₂
  refine ⟨db', hdb', fun name hforce hcase => ?_⟩
  rw [hof.newest] at hlast
  -- both commands read the same flags at the two ends of the range
  have hnewer : (l.flags.newest : ℤ) < m₁.flags.newest := by exact_mod_cast hnewer₁
  have hread : ∀ t : ℤ, t ≤ l.flags.newest → m₂.flags.value t = l.flags.value t := by
    intro t ht
    have hlt : t < m₁.flags.newest := ht.trans_lt hnewer
    rw [hvalue₂ t, applied_value _ hlt, hvalue₁ t ht]
    rw [hargs]
    exact hlt.le
  have hundone : (m₁.applied exec.history).flags.current name =
      if l.flags.value last name ≠ l.flags.value (first - 1) name
      then l.flags.value (first - 1) name else m₁.flags.current name := by
    rw [hargs, ← hvalue₁ last hlast, ← hvalue₁ (first - 1) (by omega)]
    exact congrFun (Timeline.assign_current m₁.flags _) name
  have hredone : (m₂.applied exec'.history).flags.current name =
      if l.flags.value (first - 1) name ≠ l.flags.value last name
      then l.flags.value last name else m₂.flags.current name := by
    rw [hargs', ← hread last hlast, ← hread (first - 1) (by omega)]
    exact congrFun (Timeline.assign_current m₂.flags _) name
  simp only [hof.flags, Except.ok.injEq, hof.newest, ne_eq] at hforce hcase
  rw [hof'.newest, hof'.flags, hof.newest, hof.flags]
  refine congrArg Except.ok (hredone.trans ?_)
  split_ifs with hchanged
  · exact hforce
  · obtain ⟨hauto, hauto'⟩ := hcase.resolve_left hchanged
    rw [hcurrent₂ name hauto', hundone, if_neg fun h => hchanged fun h' => h h'.symm,
      hcurrent₁ name hauto]
    rfl

theorem undo_redo_pulledIn :
    ∃ db db', (historyRun pulledIn).2 = some db ∧
      (historyRun (pulledIn ++ [undone] ++ [redone])).2 = some db' ∧
      dbGetAutoFlag db' db'.newest "b" = dbGetAutoFlag db db.newest "b" := by
  have hundone : Admissible {⟨["a-1-1"], "c"⟩, ⟨["a-1-1", "b-1-1"], "d"⟩} undone :=
    admissible_historyRequest (by simp) (by simp) _ _
  have hredone : Admissible {⟨["a-1-1"], "c"⟩, ⟨["a-1-1", "b-1-1"], "d"⟩} redone :=
    admissible_historyRequest (by simp) (by simp) _ _
  obtain ⟨db', hdb', hflags⟩ := undo_redo rpmContract_pulledIn pulledIn undone redone
    (admissible_concat (admissible_concat admissible_pulledIn hundone) hredone)
    rfl ⟨rfl, rfl⟩ rfl rfl ⟨rfl, rfl⟩ rfl rfl le_rfl (by decide) rfl rfl
  exact ⟨_, db', rfl, hdb', hflags "b" rfl (.inl (by decide))⟩

end GoingBack

end Tdnf.Client
