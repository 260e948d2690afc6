import Tdnf.Common.Strings
import Tdnf.Library.Keyed
import Tdnf.Library.Procedure
import Mathlib.Tactic.SplitIfs

/-!
# The store of `--setopt` options

Options are kept in a linked list. An update changes the first option with the
name or appends a new one, and the readers stop at the first option with the
name. They differ in what they take for an absent option: `TDNFHasOpt` answers
for an empty list only, `TDNFGetCmdOptValue` rejects it.
-/

namespace Tdnf.Common.SetOpt

open PathText Procedure

/-- `TDNF_CMD_OPT`, with NULL for the value of an option that has none -/
structure CmdOpt where
  pszOptName : Text
  pszOptValue : Option Text
deriving DecidableEq, Repr

/-- The fields of `TDNF_CMD_ARGS` that the options reach. -/
structure CmdArgs where
  pszConfFile : Option Text
  pSetOpt : List CmdOpt
deriving DecidableEq, Repr

/-- `TDNFAllocateString` for a value that may be NULL -/
def allocateValue : Option Text → Except TdnfError (Option Text)
  | none => .ok none
  | some pszOptValue => (allocateString pszOptValue).map some

/-- The list with an option linked behind its last one. -/
def CmdArgs.append (args : CmdArgs) (pCmdOpt : CmdOpt) : CmdArgs :=
  { args with pSetOpt := args.pSetOpt ++ [pCmdOpt] }

/-- `AddSetOptWithValues` -/
def addSetOptWithValues (pszOptArg : Text) (pszOptValue : Option Text) :
    Proc TdnfError CmdArgs Unit :=
  if pszOptArg = [] then throw .invalidParameter
  else do
    let pszName ← fromExcept (allocateString pszOptArg)
    let pszValue ← fromExcept (allocateValue pszOptValue)
    modify fun args => args.append ⟨pszName, pszValue⟩

/-- `GetOptionAndValue`; the name is a copy of the whole text that ends at the first `=` -/
def getOptionAndValue (pszOptArg : Text) : Except TdnfError CmdOpt :=
  if pszOptArg = [] then .error .invalidParameter
  else if !pszOptArg.contains '=' then .error .setoptNoEquals
  else do
    let pszOptName ← allocateString pszOptArg
    let nEqualsPos := (pszOptArg.takeWhile (· ≠ '=')).length
    let pszOptValue ← allocateString (pszOptArg.drop (nEqualsPos + 1))
    return ⟨pszOptName.take nEqualsPos, some pszOptValue⟩

/-- `AddSetOpt`; on an error the name of the configuration file is released -/
def addSetOpt (pszOptArg : Text) : Proc TdnfError CmdArgs Unit :=
  finishing id (fun args => { args with pszConfFile := none }) <|
    if pszOptArg = [] then throw .invalidParameter
    else do
      let pCmdOpt ← fromExcept (getOptionAndValue pszOptArg)
      addSetOptWithValues pCmdOpt.pszOptName pCmdOpt.pszOptValue

/-- `_TDNFGetCmdOpt` -/
def getCmdOpt (args : CmdArgs) (pszOptName : Text) : Except TdnfError CmdOpt :=
  match Keyed.lookup CmdOpt.pszOptName pszOptName args.pSetOpt with
  | some pOpt => .ok pOpt
  | none => .error .optNotFound

/-- `TDNFHasOpt`, with what is assigned to `*pnHasOpt` if anything is -/
def hasOpt (args : CmdArgs) (pszOptName : Text) : Except TdnfError (Option ℕ) :=
  if pszOptName = [] then .error .invalidParameter
  else if args.pSetOpt = [] then .ok (some 0)
  else
    match getCmdOpt args pszOptName with
    | .ok _ => .ok (some 1)
    | .error .optNotFound => .ok none
    | .error e => .error e

/-- `TDNFGetCmdOptValue` -/
def getCmdOptValue (args : CmdArgs) (pszOptName : Text) : Except TdnfError (Option Text) :=
  if args.pSetOpt = [] ∨ pszOptName = [] then .error .invalidParameter
  else do
    let pOpt ← getCmdOpt args pszOptName
    allocateValue pOpt.pszOptValue

/-- `TDNFGetOptWithDefault` -/
def getOptWithDefault (args : CmdArgs) (pszOptName : Text) (pszDefault : Option Text) :
    Except TdnfError (Option Text) :=
  if pszDefault.getD [] ≠ [] ∧ getCmdOptValue args pszOptName = .error .optNotFound then
    allocateValue pszDefault
  else getCmdOptValue args pszOptName

/-- The option with another value. -/
def CmdOpt.withValue (pszOptValue : Option Text) (pOpt : CmdOpt) : CmdOpt :=
  { pOpt with pszOptValue := pszOptValue }

theorem CmdOpt.withValue_name (value : Option Text) (o : CmdOpt) :
    (o.withValue value).pszOptName = o.pszOptName := rfl

/-- The list with another value in the option that `_TDNFGetCmdOpt` finds. -/
def CmdArgs.withValue (args : CmdArgs) (pszOptName : Text) (pszOptValue : Option Text) : CmdArgs :=
  { args with
    pSetOpt := Keyed.update CmdOpt.pszOptName pszOptName (CmdOpt.withValue pszOptValue)
      args.pSetOpt }

/-- `TDNFSetOpt`; the old value is released before the new one is copied -/
def setOpt (pszOptName pszOptValue : Text) : Proc TdnfError CmdArgs Unit :=
  if pszOptName = [] ∨ pszOptValue = [] then throw .invalidParameter
  else do
    match getCmdOpt (← get) pszOptName with
    | .ok _ =>
        modify fun args => args.withValue pszOptName none
        let pszValue ← fromExcept (allocateString pszOptValue)
        modify fun args => args.withValue pszOptName (some pszValue)
    | .error .optNotFound => addSetOptWithValues pszOptName (some pszOptValue)
    | .error e => throw e

/-- A call that changes the list. -/
inductive Op where
  | addSetOpt (pszOptArg : Text)
  | addSetOptWithValues (pszOptArg : Text) (pszOptValue : Option Text)
  | setOpt (pszOptName pszOptValue : Text)

/-- The call made. -/
def Op.proc : Op → Proc TdnfError CmdArgs Unit
  | .addSetOpt pszOptArg => SetOpt.addSetOpt pszOptArg
  | .addSetOptWithValues pszOptArg pszOptValue => SetOpt.addSetOptWithValues pszOptArg pszOptValue
  | .setOpt pszOptName pszOptValue => SetOpt.setOpt pszOptName pszOptValue

/-- The arguments after a sequence of calls, whether they succeed or not, on no options. -/
def build (pszConfFile : Option Text) (ops : List Op) : CmdArgs :=
  ops.foldl (fun args op => finalState (op.proc.run args)) ⟨pszConfFile, []⟩

/-- The names of the options, in order. -/
def CmdArgs.names (args : CmdArgs) : List Text := args.pSetOpt.map CmdOpt.pszOptName

/-- The value stored under a name, if the option is present. -/
def CmdArgs.stored (args : CmdArgs) (pszOptName : Text) : Option (Option Text) :=
  (Keyed.lookup CmdOpt.pszOptName pszOptName args.pSetOpt).map CmdOpt.pszOptValue

/-- The text is short enough to be copied. -/
def Fits (s : Text) : Prop := strlen s ≤ 16384000

instance (s : Text) : Decidable (Fits s) := inferInstanceAs (Decidable (_ ≤ _))

/-- One use of the store that its laws speak of. -/
inductive Use where
  | set (pszOptName pszOptValue : Text)
  | getWithDefault (pszOptName pszDefault : Text)
  | has (pszOptName : Text)
  | add (pszOptName pszOptValue : Text)

/-- What the laws of the store ask of a use. -/
def Use.Lawful (args : CmdArgs) : Use → Prop
  | .set n v =>
      ∃ args', (setOpt n v).run args = .ok () args' ∧ getCmdOptValue args' n = .ok (some v) ∧
        (∀ m, m ≠ n → args'.stored m = args.stored m) ∧
        args'.names = if args.names.contains n then args.names else args.names ++ [n]
  | .getWithDefault n d =>
      d ≠ [] → getOptWithDefault args n (some d) = .ok ((args.stored n).getD (some d))
  | .has n => hasOpt args n = .ok (some (if args.names.contains n then 1 else 0))
  | .add n v =>
      '=' ∉ n → (addSetOpt (n ++ '=' :: v)).run args = .ok () (args.append ⟨n, some v⟩)

/-- When the source follows the laws. -/
def Use.Served (args : CmdArgs) : Use → Prop
  | .set n v => n ≠ [] ∧ v ≠ [] ∧ Fits v ∧ (n ∈ args.names ∨ Fits n)
  | .getWithDefault n d => d ≠ [] → n ≠ [] ∧ args.pSetOpt ≠ [] ∧ (n ∈ args.names ∨ Fits d)
  | .has n => n ≠ [] ∧ (args.pSetOpt = [] ∨ n ∈ args.names)
  | .add n v => '=' ∉ n → n ≠ [] ∧ Fits (n ++ '=' :: v)

section Copies

variable {s : Text}

theorem allocateString_of_fits (h : Fits s) : allocateString s = .ok s :=
  if_neg (Nat.not_lt.mpr h)

theorem allocateString_of_not_fits (h : ¬ Fits s) : allocateString s = .error .stringTooLong :=
  if_pos (Nat.lt_of_not_le h)

theorem allocateString_eq_ok_iff {t : Text} : allocateString s = .ok t ↔ Fits s ∧ t = s := by
  by_cases h : Fits s
  · rw [allocateString_of_fits h, Except.ok.injEq]
    exact ⟨fun heq => ⟨h, heq.symm⟩, fun heq => heq.2.symm⟩
  · rw [allocateString_of_not_fits h]
    simp [h]

theorem allocateValue_eq_ok_iff {v w : Option Text} :
    allocateValue v = .ok w ↔ (∀ s ∈ v, Fits s) ∧ w = v := by
  cases v with
  | none => simp [allocateValue, eq_comm]
  | some s =>
      by_cases h : Fits s
      · rw [allocateValue, allocateString_of_fits h]
        simp [h, Except.map, eq_comm]
      · rw [allocateValue, allocateString_of_not_fits h]
        simp [h, Except.map]

/-- A part of a text that can be copied can be copied. -/
theorem Fits.of_append {s t : Text} (h : Fits (s ++ t)) : Fits s ∧ Fits t := by
  rw [Fits, strlen_append] at h
  exact ⟨Nat.le_of_add_right_le h, Nat.le_of_add_left_le h⟩

end Copies

/-! ## Adding options -/

section Adding

variable {args args' : CmdArgs} {n v : Text}

/-- An option is appended, or the call fails and nothing changes. -/
theorem run_addSetOptWithValues_eq_ok_iff {value : Option Text} :
    (addSetOptWithValues n value).run args = .ok () args' ↔
      (n ≠ [] ∧ Fits n ∧ ∀ s ∈ value, Fits s) ∧ args' = args.append ⟨n, value⟩ := by
  rw [addSetOptWithValues]
  split_ifs with hn
  · constructor
    · intro h
      cases h
    · exact fun h => absurd hn h.1.1
  · rw [run_bind_eq_ok]
    constructor
    · rintro ⟨a, t, hname, hrest⟩
      obtain ⟨b, u, hvalue, hlink⟩ := run_bind_eq_ok.mp hrest
      obtain ⟨hcopy, rfl⟩ := run_fromExcept_eq_ok.mp hname
      obtain ⟨hcopy', rfl⟩ := run_fromExcept_eq_ok.mp hvalue
      obtain ⟨hfits, rfl⟩ := allocateString_eq_ok_iff.mp hcopy
      obtain ⟨hfits', rfl⟩ := allocateValue_eq_ok_iff.mp hcopy'
      cases hlink
      exact ⟨⟨hn, hfits, hfits'⟩, rfl⟩
    · rintro ⟨⟨-, hfits, hfits'⟩, rfl⟩
      have hname := allocateString_eq_ok_iff.mpr ⟨hfits, rfl⟩
      have hvalue := allocateValue_eq_ok_iff.mpr ⟨hfits', rfl⟩
      refine ⟨n, args, run_fromExcept_eq_ok.mpr ⟨hname, rfl⟩, ?_⟩
      rw [run_bind_ok (run_fromExcept_eq_ok.mpr ⟨hvalue, rfl⟩)]
      rfl

/-- The text is cut at its first `=`. -/
theorem getOptionAndValue_eq_ok_iff (hn : '=' ∉ n) {pCmdOpt : CmdOpt} :
    getOptionAndValue (n ++ '=' :: v) = .ok pCmdOpt ↔
      Fits (n ++ '=' :: v) ∧ pCmdOpt = ⟨n, some v⟩ := by
  have hcut : (n ++ '=' :: v).takeWhile (· ≠ '=') = n := by
    rw [List.takeWhile_append_of_pos (fun c hc => by
      simpa using (ne_of_mem_of_not_mem hc hn)), List.takeWhile_cons_of_neg (by simp),
      List.append_nil]
  have hdrop : (n ++ '=' :: v).drop (n.length + 1) = v := by
    rw [← List.drop_drop, List.drop_left]
    rfl
  rw [getOptionAndValue, if_neg (by simp), if_neg (by simp), hcut]
  by_cases h : Fits (n ++ '=' :: v)
  · obtain ⟨-, hrest⟩ := Fits.of_append h
    have hv : Fits v := (Fits.of_append (List.singleton_append ▸ hrest)).2
    rw [allocateString_of_fits h]
    change (allocateString ((n ++ '=' :: v).drop (n.length + 1)) >>= fun pszOptValue =>
      Except.ok (CmdOpt.mk ((n ++ '=' :: v).take n.length) (some pszOptValue))) = _ ↔ _
    rw [hdrop, allocateString_of_fits hv, List.take_left]
    constructor
    · exact fun heq => ⟨h, (Except.ok.inj heq).symm⟩
    · exact fun heq => heq.2 ▸ rfl
  · rw [allocateString_of_not_fits h]
    constructor
    · intro heq
      cases heq
    · exact fun heq => absurd heq.1 h

/-- A name and a value given in one text are stored exactly, or nothing is. -/
theorem run_addSetOpt_eq_ok_iff (hn : '=' ∉ n) :
    (addSetOpt (n ++ '=' :: v)).run args = .ok () args' ↔
      (n ≠ [] ∧ Fits (n ++ '=' :: v)) ∧ args' = args.append ⟨n, some v⟩ := by
  rw [addSetOpt, run_finishing_eq_ok, if_neg (by simp)]
  constructor
  · rintro ⟨u, hrun, rfl⟩
    obtain ⟨pCmdOpt, t, hopt, hadd⟩ := run_bind_eq_ok.mp hrun
    obtain ⟨hcut, rfl⟩ := run_fromExcept_eq_ok.mp hopt
    obtain ⟨hfits, rfl⟩ := (getOptionAndValue_eq_ok_iff hn).mp hcut
    obtain ⟨hadded, rfl⟩ := run_addSetOptWithValues_eq_ok_iff.mp hadd
    exact ⟨⟨hadded.1, hfits⟩, rfl⟩
  · rintro ⟨⟨hne, hfits⟩, rfl⟩
    have hopt := (getOptionAndValue_eq_ok_iff hn).mpr ⟨hfits, rfl⟩
    obtain ⟨hfitsName, hrest⟩ := hfits.of_append
    have hfitsValue : Fits v := (Fits.of_append (List.singleton_append ▸ hrest)).2
    refine ⟨args.append ⟨n, some v⟩, ?_, rfl⟩
    rw [run_bind_ok (run_fromExcept_eq_ok.mpr ⟨hopt, rfl⟩)]
    exact run_addSetOptWithValues_eq_ok_iff.mpr ⟨⟨hne, hfitsName, by simpa using hfitsValue⟩, rfl⟩

end Adding

/-! ## Every option of a list can be read -/

/-- The name is not empty, and name and value are short enough to be copied. -/
def CmdOpt.Copyable (o : CmdOpt) : Prop :=
  o.pszOptName ≠ [] ∧ Fits o.pszOptName ∧ ∀ v ∈ o.pszOptValue, Fits v

/-- Every option of the list is copyable. -/
def CmdArgs.Copyable (args : CmdArgs) : Prop := ∀ o ∈ args.pSetOpt, o.Copyable

section Keeping

variable {args : CmdArgs}

theorem CmdArgs.Copyable.append (h : args.Copyable) {o : CmdOpt} (ho : o.Copyable) :
    (args.append o).Copyable := by
  intro o' ho'
  obtain hmem | rfl := List.mem_append.mp ho' |>.imp_right List.mem_singleton.mp
  · exact h o' hmem
  · exact ho

theorem CmdArgs.Copyable.withValue (h : args.Copyable) (n : Text) {value : Option Text}
    (hv : ∀ v ∈ value, Fits v) : (args.withValue n value).Copyable :=
  Keyed.forall_mem_update h fun _ _ ho => ⟨ho.1, ho.2.1, hv⟩

/-- The call leaves copyable options, however it ends. -/
abbrev Keeps (call : Proc TdnfError CmdArgs Unit) (args : CmdArgs) : Prop :=
  wp call (fun _ args' => args'.Copyable) (fun _ args' => args'.Copyable) args

theorem keeps_addSetOptWithValues (h : args.Copyable) (n : Text) (value : Option Text) :
    Keeps (addSetOptWithValues n value) args := by
  rw [Keeps, addSetOptWithValues, wp_ite]
  refine ⟨fun _ => h, fun hn => ?_⟩
  simp only [wp_bind, wp_fromExcept, wp_modify]
  refine ⟨fun name hname => ⟨fun value' hvalue => ?_, fun _ _ => h⟩, fun _ _ => h⟩
  obtain ⟨hfits, rfl⟩ := allocateString_eq_ok_iff.mp hname
  obtain ⟨hfits', rfl⟩ := allocateValue_eq_ok_iff.mp hvalue
  exact h.append ⟨hn, hfits, hfits'⟩

theorem keeps_addSetOpt (h : args.Copyable) (pszOptArg : Text) :
    Keeps (addSetOpt pszOptArg) args := by
  rw [Keeps, addSetOpt, wp_finishing, wp_ite]
  refine ⟨fun _ => h, fun _ => ?_⟩
  rw [wp_bind, wp_fromExcept]
  refine ⟨fun pCmdOpt _ => ?_, fun _ _ => h⟩
  exact wp_mono (keeps_addSetOptWithValues h _ _) (fun _ _ ht => ht) fun _ _ ht => ht

theorem keeps_setOpt (h : args.Copyable) (n v : Text) : Keeps (setOpt n v) args := by
  rw [Keeps, setOpt, wp_ite]
  refine ⟨fun _ => h, fun _ => ?_⟩
  rw [wp_bind, wp_get]
  cases getCmdOpt args n with
  | ok o =>
      have hreleased : (args.withValue n none).Copyable := h.withValue n (by simp)
      simp only [wp_bind, wp_fromExcept, wp_modify]
      refine ⟨fun w hcopy => ?_, fun _ _ => hreleased⟩
      obtain ⟨hfits, rfl⟩ := allocateString_eq_ok_iff.mp hcopy
      exact hreleased.withValue n (by simpa using hfits)
  | error e =>
      cases e with
      | optNotFound => exact keeps_addSetOptWithValues h n (some v)
      | _ => exact h

theorem keeps_proc (h : args.Copyable) (op : Op) : Keeps op.proc args := by
  cases op with
  | addSetOpt pszOptArg => exact keeps_addSetOpt h pszOptArg
  | addSetOptWithValues n value => exact keeps_addSetOptWithValues h n value
  | setOpt n v => exact keeps_setOpt h n v

/-- Whatever was called, every option can be copied to a reader. -/
theorem copyable_build (pszConfFile : Option Text) (ops : List Op) :
    (build pszConfFile ops).Copyable := by
  have hrun (args : CmdArgs) (h : args.Copyable) :
      (ops.foldl (fun args op => finalState (op.proc.run args)) args).Copyable := by
    induction ops generalizing args with
    | nil => exact h
    | cons op ops ih => exact ih _ (finalState_of_wp (keeps_proc h op))
  exact hrun _ (by simp [CmdArgs.Copyable])

end Keeping

/-! ## The laws, and where the source follows them -/

section Laws

variable {args : CmdArgs} {n v d : Text}

theorem getCmdOpt_of_mem (h : n ∈ args.names) :
    ∃ o, Keyed.lookup CmdOpt.pszOptName n args.pSetOpt = some o ∧ getCmdOpt args n = .ok o := by
  obtain ⟨o, ho⟩ := Keyed.exists_lookup_iff.mpr h
  refine ⟨o, ho, ?_⟩
  rw [getCmdOpt, ho]

theorem getCmdOpt_of_not_mem (h : n ∉ args.names) : getCmdOpt args n = .error .optNotFound := by
  rw [getCmdOpt, Keyed.lookup_eq_none_iff.mpr h]

theorem stored_of_not_mem (h : n ∉ args.names) : args.stored n = none := by
  rw [CmdArgs.stored, Keyed.lookup_eq_none_iff.mpr h, Option.map_none]

/-- A stored value is read as it is. -/
theorem getCmdOptValue_of_stored (h : args.Copyable) (hn : n ≠ []) {value : Option Text}
    (hvalue : args.stored n = some value) : getCmdOptValue args n = .ok value := by
  obtain ⟨o, ho, rfl⟩ := Option.map_eq_some_iff.mp hvalue
  have hmem := Keyed.mem_of_lookup ho
  rw [getCmdOptValue, if_neg (by simp [hn, List.ne_nil_of_mem hmem]), getCmdOpt, ho]
  exact allocateValue_eq_ok_iff.mpr ⟨(h o hmem).2.2, rfl⟩

/-- `TDNFHasOpt` says nothing about a name that a list with options lacks. -/
theorem hasOpt_eq (hn : n ≠ []) :
    hasOpt args n =
      .ok (if n ∈ args.names then some 1 else if args.pSetOpt = [] then some 0 else none) := by
  rw [hasOpt, if_neg hn]
  by_cases hempty : args.pSetOpt = []
  · have hmem : n ∉ args.names := by simp [CmdArgs.names, hempty]
    rw [if_pos hempty, if_neg hmem, if_pos hempty]
  · rw [if_neg hempty, if_neg hempty]
    by_cases hmem : n ∈ args.names
    · obtain ⟨o, -, hget⟩ := getCmdOpt_of_mem hmem
      rw [hget, if_pos hmem]
    · rw [getCmdOpt_of_not_mem hmem, if_neg hmem]

theorem has_lawful_iff : (Use.has n).Lawful args ↔ (Use.has n).Served args := by
  simp only [Use.Lawful, Use.Served, List.contains_iff_mem]
  by_cases hn : n = []
  · simp [hasOpt, hn]
  · rw [hasOpt_eq hn, Except.ok.injEq]
    by_cases hmem : n ∈ args.names
    · simp [hmem, hn]
    · by_cases hempty : args.pSetOpt = [] <;> simp [hmem, hn, hempty]

theorem getWithDefault_lawful_iff (h : args.Copyable) :
    (Use.getWithDefault n d).Lawful args ↔ (Use.getWithDefault n d).Served args := by
  rw [Use.Lawful, Use.Served]
  refine imp_congr_right fun hd => ?_
  by_cases hinvalid : args.pSetOpt = [] ∨ n = []
  · have hget : getCmdOptValue args n = .error .invalidParameter := if_pos hinvalid
    rw [getOptWithDefault, hget, if_neg (by simp)]
    constructor
    · intro heq
      cases heq
    · rintro ⟨hn, hempty, -⟩
      exact absurd hinvalid (by simp [hn, hempty])
  · obtain ⟨hempty, hn⟩ := not_or.mp hinvalid
    by_cases hmem : n ∈ args.names
    · obtain ⟨o, ho, -⟩ := getCmdOpt_of_mem hmem
      have hstored : args.stored n = some o.pszOptValue := by rw [CmdArgs.stored, ho]; rfl
      rw [getOptWithDefault, getCmdOptValue_of_stored h hn hstored, if_neg (by simp), hstored]
      simp [hn, hempty, hmem]
    · have hget : getCmdOptValue args n = .error .optNotFound := by
        rw [getCmdOptValue, if_neg hinvalid, getCmdOpt_of_not_mem hmem]
        rfl
      rw [getOptWithDefault, hget, if_pos ⟨hd, rfl⟩, stored_of_not_mem hmem, Option.getD_none,
        allocateValue_eq_ok_iff]
      simp [hn, hempty, hmem]

theorem add_lawful_iff : (Use.add n v).Lawful args ↔ (Use.add n v).Served args := by
  rw [Use.Lawful, Use.Served]
  refine imp_congr_right fun hn => ?_
  rw [run_addSetOpt_eq_ok_iff hn, and_iff_left rfl]

theorem names_withValue (value : Option Text) : (args.withValue n value).names = args.names :=
  Keyed.map_key_update (CmdOpt.withValue_name value) _

theorem stored_withValue_self (hmem : n ∈ args.names) (value : Option Text) :
    (args.withValue n value).stored n = some value := by
  obtain ⟨o, ho, -⟩ := getCmdOpt_of_mem hmem
  rw [CmdArgs.stored, CmdArgs.withValue, Keyed.lookup_update_self (CmdOpt.withValue_name value), ho]
  rfl

theorem stored_withValue_of_ne {m : Text} (hm : m ≠ n) (value : Option Text) :
    (args.withValue n value).stored m = args.stored m := by
  rw [CmdArgs.stored, CmdArgs.withValue,
    Keyed.lookup_update_of_ne (CmdOpt.withValue_name value) hm, CmdArgs.stored]

theorem names_append (o : CmdOpt) : (args.append o).names = args.names ++ [o.pszOptName] := by
  simp [CmdArgs.names, CmdArgs.append]

theorem stored_append (o : CmdOpt) (m : Text) :
    (args.append o).stored m =
      (args.stored m).or (if o.pszOptName = m then some o.pszOptValue else none) := by
  rw [CmdArgs.stored, CmdArgs.append, Keyed.lookup_append, Keyed.lookup_cons, CmdArgs.stored]
  cases Keyed.lookup CmdOpt.pszOptName m args.pSetOpt with
  | some o' => rfl
  | none => by_cases h : o.pszOptName = m <;> simp [h, Keyed.lookup]

/-- Setting an option that is present changes the first one of its name. -/
theorem run_setOpt_of_mem (hn : n ≠ []) (hv : v ≠ []) (hmem : n ∈ args.names) {args' : CmdArgs} :
    (setOpt n v).run args = .ok () args' ↔
      Fits v ∧ args' = (args.withValue n none).withValue n (some v) := by
  obtain ⟨o, -, hget⟩ := getCmdOpt_of_mem hmem
  rw [setOpt, if_neg (by simp [hn, hv]), run_get_bind, hget]
  by_cases hfits : Fits v
  · rw [allocateString_of_fits hfits]
    constructor
    · intro h
      cases h
      exact ⟨hfits, rfl⟩
    · rintro ⟨-, rfl⟩
      rfl
  · rw [allocateString_of_not_fits hfits]
    constructor
    · intro h
      cases h
    · exact fun h => absurd h.1 hfits

/-- Setting an option that is absent appends it. -/
theorem run_setOpt_of_not_mem (hn : n ≠ []) (hv : v ≠ []) (hmem : n ∉ args.names)
    {args' : CmdArgs} :
    (setOpt n v).run args = .ok () args' ↔
      (Fits n ∧ Fits v) ∧ args' = args.append ⟨n, some v⟩ := by
  rw [setOpt, if_neg (by simp [hn, hv]), run_get_bind, getCmdOpt_of_not_mem hmem]
  have hadd : (addSetOptWithValues n (some v)).run args = .ok () args' ↔
      (n ≠ [] ∧ Fits n ∧ ∀ s ∈ some v, Fits s) ∧ args' = args.append ⟨n, some v⟩ :=
    run_addSetOptWithValues_eq_ok_iff
  simpa [hn] using hadd

theorem set_lawful_iff (h : args.Copyable) :
    (Use.set n v).Lawful args ↔ (Use.set n v).Served args := by
  simp only [Use.Lawful, Use.Served, List.contains_iff_mem]
  by_cases hempty : n = [] ∨ v = []
  · rw [setOpt, if_pos hempty]
    constructor
    · rintro ⟨_, hrun, -⟩
      cases hrun
    · rintro ⟨hn, hv, -⟩
      exact absurd hempty (by simp [hn, hv])
  · obtain ⟨hn, hv⟩ := not_or.mp hempty
    by_cases hmem : n ∈ args.names
    · simp only [run_setOpt_of_mem hn hv hmem, hmem, if_true, true_or, and_true]
      constructor
      · rintro ⟨_, ⟨hfits, -⟩, -⟩
        exact ⟨hn, hv, hfits⟩
      · rintro ⟨-, -, hfits⟩
        have hreleased : (args.withValue n none).Copyable := h.withValue n (by simp)
        have hmem' : n ∈ (args.withValue n none).names := by rwa [names_withValue]
        refine ⟨_, ⟨hfits, rfl⟩, ?_, ?_, ?_⟩
        · exact getCmdOptValue_of_stored (hreleased.withValue n (by simpa using hfits)) hn
            (stored_withValue_self hmem' _)
        · intro m hm
          rw [stored_withValue_of_ne hm, stored_withValue_of_ne hm]
        · rw [names_withValue, names_withValue]
    · simp only [run_setOpt_of_not_mem hn hv hmem, hmem, if_false, false_or]
      constructor
      · rintro ⟨_, ⟨⟨hfitsName, hfits⟩, -⟩, -⟩
        exact ⟨hn, hv, hfits, hfitsName⟩
      · rintro ⟨-, -, hfits, hfitsName⟩
        have hadded : (args.append ⟨n, some v⟩).Copyable :=
          h.append ⟨hn, hfitsName, by simpa using hfits⟩
        refine ⟨_, ⟨⟨hfitsName, hfits⟩, rfl⟩, ?_, ?_, names_append _⟩
        · apply getCmdOptValue_of_stored hadded hn
          rw [stored_append, stored_of_not_mem hmem, if_pos rfl]
          rfl
        · intro m hm
          rw [stored_append, if_neg (Ne.symm hm), Option.or_none]

theorem lawful_iff_of_copyable (h : args.Copyable) (use : Use) :
    use.Lawful args ↔ use.Served args := by
  cases use with
  | set n v => exact set_lawful_iff h
  | getWithDefault n d => exact getWithDefault_lawful_iff h
  | has n => exact has_lawful_iff
  | add n v => exact add_lawful_iff

end Laws

/-- Whatever was called before, a use of the store follows its laws exactly if its texts are
neither empty nor too long, a default is asked for in a list that has options, and presence is
asked for in an empty list or of an option that is there. -/
theorem lawful_build_iff (pszConfFile : Option Text) (ops : List Op) (use : Use) :
    use.Lawful (build pszConfFile ops) ↔ use.Served (build pszConfFile ops) :=
  lawful_iff_of_copyable (copyable_build pszConfFile ops) use

/-- No answer about `noplugins` where another option was given, and no default where none was. -/
theorem has_and_default_unlawful :
    ¬ (Use.has "noplugins".toList).Lawful
        (build none [.addSetOpt "reposdir=/etc/yum.repos.d".toList]) ∧
      ¬ (Use.getWithDefault "reposdir".toList "/etc/yum.repos.d".toList).Lawful
        (build none []) := by
  rw [lawful_iff_of_copyable (copyable_build _ _), lawful_iff_of_copyable (copyable_build _ _)]
  constructor
  · rintro ⟨-, hempty | hmem⟩
    · exact absurd hempty (by decide +kernel)
    · exact absurd hmem (by decide +kernel)
  · intro hserved
    exact (hserved (by decide)).2.1 rfl

end Tdnf.Common.SetOpt
