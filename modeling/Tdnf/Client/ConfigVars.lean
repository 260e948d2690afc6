import Mathlib.Data.PNat.Defs
import Tdnf.Common.Strings
import Tdnf.Library.Expansion
import Tdnf.Library.Procedure

/-!
# Variables of the configuration

Names and URLs of repositories may refer to variables as `$name`. Each file of the
directories for variables defines one by its name and its first line. The names that
files may have and the names that are read behind a `$` are not the same, and what is
read and written goes through buffers of a fixed size.
-/

namespace Tdnf.Client.ConfigVars

open PathText Common Expansion Procedure

/-! ## Reading the directories -/

/-- What the calls on directories and files give; an `errno` is never 0. -/
structure Files where
  /-- the names in the order of `readdir` -/
  opendir : Text → Except ℕ+ (List Text)
  /-- an opened file has a content, or reading it fails -/
  fopen : Text → Except ℕ+ (Except ℕ+ Text)

def ENOENT : ℕ+ := 2

/-- A child of the root node; its value may be NULL. -/
structure Variable where
  name : Text
  value : Option Text

def isNameChar (c : Char) : Bool := c.isDigit || c.isLower

def isFilenameChar (c : Char) : Bool := c == '_' || isNameChar c

/-- The names that files of variables may have -/
def admitted (name : Text) : Bool := name.all isFilenameChar

/-- The string in a buffer ends at the first NUL. -/
def cString (s : Text) : Text := s.takeWhile (· ≠ '\x00')

def stripTrailing (s : Text) : Text := s.rdropWhile isSpace

/-- The first line with its line end -/
def lineOf : Text → Text
  | [] => []
  | c :: s => if c = '\n' then [c] else c :: lineOf s

/-- `fgets`: what was put into the buffer, and `errno` -/
def fgets (size : ℕ) (file : Except ℕ+ Text) (errno : ℕ) : Option Text × ℕ :=
  match file with
  | .error e => (none, e)
  | .ok [] => (none, errno)
  | .ok (c :: s) => (some ((lineOf (c :: s)).take (size - 1)), errno)

/-- What the next file finds: `errno`, and the string that `buf` holds -/
structure Reading where
  errno : ℕ
  buf : Text

variable (files : Files)

def path (dir name : Text) : Text := dir ++ '/' :: name

/-- The body of the loop for an admitted name; the value is left in `buf`. -/
def readVar (dir name : Text) (st : Reading) : Except ℕ Reading :=
  match files.fopen ((path dir name).take 255) with
  | .error errno => .error errno
  | .ok file =>
      let (line, errno) := fgets 256 file st.errno
      -- where `fgets` returns NULL the buffer is as it was
      let buf := line.elim st.buf cString
      if line = none ∧ errno ≠ 0 then .error errno else .ok ⟨errno, stripTrailing buf⟩

def parseNames (dir : Text) : List Text → Reading → Except ℕ (List Variable × Reading)
  | [], st => .ok ([], st)
  | name :: names, st =>
      if admitted name then do
        let st ← readVar files dir name st
        let rest ← parseNames dir names st
        return (⟨name, some st.buf⟩ :: rest.1, rest.2)
      else parseNames dir names st

/-- `parse_varsdirs` -/
def parseVarsdirs : List Text → Reading → Except ℕ (List Variable)
  | [], _ => .ok []
  | dir :: dirs, st =>
      match files.opendir dir with
      | .error errno =>
          if errno = ENOENT then parseVarsdirs dirs { st with errno } else .error errno
      | .ok names => do
          let read ← parseNames files dir names st
          let more ← parseVarsdirs dirs read.2
          return read.1 ++ more

/-! ## Replacing -/

def findChild (vars : List Variable) (name : Text) : Option Variable :=
  vars.find? (·.name == name)

/-- The value of a variable is appended; reading a NULL value gives `none`. -/
def substitute (room : ℕ) (vars : List Variable) (dest name : Text) : Option Text :=
  match findChild vars name with
  | none => some dest
  | some var => var.value.map fun q => (copyWhile (fun _ => true) room dest q).1

/-- The loop of `replace_vars`, with `room` characters for the result -/
def replaceLoop (room : ℕ) (vars : List Variable) (dest s : Text) : Option Text :=
  if s ≠ [] ∧ dest.length < room then
    match h : copyWhile (· ≠ '$') room dest s with
    | (literal, []) => some literal
    | (literal, _ :: s') => do
        let name := copyWhile isNameChar 255 [] s'
        let next ← substitute room vars literal name.1
        replaceLoop room vars next name.2
  else some dest
termination_by s.length
decreasing_by
  have hrest : (copyWhile (· ≠ '$') room dest s).2.length ≤ s.length := length_copyWhile_snd_le
  have hname : (copyWhile isNameChar 255 [] s').2.length ≤ s'.length := length_copyWhile_snd_le
  rw [h, List.length_cons] at hrest
  omega

/-- `replace_vars`, with `dest[256]` -/
def replaceVars (vars : List Variable) (source : Text) : Option Text :=
  replaceLoop 255 vars [] source

/-- What the function reads: the files, and of the configuration `ppszVarsDirs`,
`pszVarReleaseVer` and `pszVarBaseArch`; `junk` is the string that `buf` holds at first. -/
structure Setting where
  files : Files
  varsDirs : List Text
  releaseVer : Option Text
  baseArch : Option Text
  errno : ℕ
  junk : Text

inductive Fault where
  | invalidParameter
  /-- parsing vars failed, with this `errno` -/
  | parsing (errno : ℕ)
  /-- a NULL value is read -/
  | nullRead

namespace Setting

variable (s : Setting)

def builtins : List Variable :=
  [⟨"releasever".toList, s.releaseVer⟩, ⟨"basearch".toList, s.baseArch⟩]

/-- `TDNFConfigReplaceVars` -/
def configReplaceVars (source : Text) : Except Fault Text :=
  if source = [] then .error .invalidParameter
  else
    match parseVarsdirs s.files s.varsDirs ⟨s.errno, s.junk⟩ with
    | .error errno => .error (.parsing errno)
    | .ok vars =>
        match replaceVars (vars ++ s.builtins) source with
        | none => .error .nullRead
        | some dst => .ok dst

end Setting

/-! ## What the replacement is for -/

/-- A directory that cannot be opened, or an admitted file of a directory -/
abbrev Entry := Except ℕ+ (Text × Text)

def entriesOf (dir : Text) : List Entry :=
  match files.opendir dir with
  | .error errno => [.error errno]
  | .ok names => (names.filter admitted).map fun name => .ok (dir, name)

def entries (dirs : List Text) : List Entry := dirs.flatMap (entriesOf files)

def contentAt (p : Text) : Text :=
  match files.fopen p with
  | .ok (.ok text) => text
  | _ => []

/-- The first line without trailing whitespace -/
def firstLine (text : Text) : Text := stripTrailing (text.takeWhile (· ≠ '\n'))

def fileValue (file : Text × Text) : Text := firstLine (contentAt files (path file.1 file.2))

def entryVar : Entry → Option Variable
  | .error _ => none
  | .ok file => some ⟨file.2, some (fileValue files file)⟩

/-- The variables that the files stand for -/
def fileVars (dirs : List Text) : List Variable := (entries files dirs).filterMap (entryVar files)

/-- The value of a name; undefined names and unset variables stand for nothing. -/
def valueIn (vars : List Variable) (name : Text) : Text :=
  ((findChild vars name).bind Variable.value).getD []

/-- A name is the longest run of characters that file names may have. -/
def longName (s : Text) : Text := s.takeWhile isFilenameChar

/-- The name that the loop reads has no underscore and at most 255 characters. -/
def shortName (s : Text) : Text := (s.takeWhile isNameChar).take 255

namespace Setting

variable (s : Setting)

def vars : List Variable := fileVars s.files s.varsDirs ++ s.builtins

/-- The text that a source stands for -/
def reference (source : Text) : Text := expand '$' longName (valueIn s.vars) source

end Setting

/-- The variables are those that the files and the configuration give, and the result is the
text that the source stands for; the size of `dest` has no part in it, and no NULL is read. -/
structure ReplacesRight (s : Setting) (source : Text) : Prop where
  defined : parseVarsdirs s.files s.varsDirs ⟨s.errno, s.junk⟩ =
    .ok (fileVars s.files s.varsDirs)
  result : s.configReplaceVars source = .ok (s.reference source)
  whole : ∀ room ≥ 255, replaceLoop room s.vars [] source = some (s.reference source)

/-- What the first 255 bytes of the first line give, up to a NUL -/
def seen (text : Text) : Text := stripTrailing (cString ((lineOf text).take 255))

/-- A file that was opened gives a value: an empty one gives what the buffer held before, and
only while `errno` is 0. -/
def Gives (errno : ℕ) (before value : Text) : Except ℕ+ (Except ℕ+ Text) → Prop
  | .ok (.ok []) => errno = 0 ∧ stripTrailing before = value
  | .ok (.ok text) => seen text = value
  | _ => False

/-- Each directory can be opened or is missing, and each file, opened under the first 255 bytes
of its path, gives its value. -/
def Kept : ℕ → Text → List Entry → Prop
  | _, _, [] => True
  | _, before, .error errno :: rest => errno = ENOENT ∧ Kept errno before rest
  | errno, before, .ok file :: rest =>
      Gives errno before (fileValue files file) (files.fopen ((path file.1 file.2).take 255)) ∧
        Kept errno (fileValue files file) rest

structure Faithful (s : Setting) (source : Text) : Prop where
  nonempty : source ≠ []
  files : Kept s.files s.errno s.junk (entries s.files s.varsDirs)
  /-- no NULL value is referred to -/
  isSet : ∀ name ∈ references '$' shortName source, ∀ var,
    findChild s.vars name = some var → var.value ≠ none
  /-- it makes no difference that names end before an underscore -/
  names : expand '$' shortName (valueIn s.vars) source = s.reference source
  fits : (s.reference source).length ≤ 255

/-! ## The variables -/

variable {files : Files}

theorem readVar_eq_ok_iff {dir name : Text} {errno errno' : ℕ} {before value : Text} :
    readVar files dir name ⟨errno, before⟩ = .ok ⟨errno', value⟩ ↔
      errno' = errno ∧ Gives errno before value (files.fopen ((path dir name).take 255)) := by
  rw [readVar]
  cases files.fopen ((path dir name).take 255) with
  | error e => simp [Gives]
  | ok file =>
      cases file with
      | error e => simp [Gives, fgets]
      | ok text =>
          cases text with
          | nil =>
              by_cases herrno : errno = 0
              · simp [Gives, fgets, herrno, eq_comm]
              · simp [Gives, fgets, herrno]
          | cons c text => simp [Gives, fgets, seen, eq_comm]

/-- The entries are read one after the other, over the borders of the directories. -/
def readEntries (files : Files) : List Entry → Reading → Except ℕ (List Variable)
  | [], _ => .ok []
  | .error errno :: rest, st =>
      if errno = ENOENT then readEntries files rest { st with errno } else .error errno
  | .ok file :: rest, st => do
      let st ← readVar files file.1 file.2 st
      let vars ← readEntries files rest st
      return ⟨file.2, some st.buf⟩ :: vars

theorem readEntries_append (dir : Text) (names : List Text) (rest : List Entry) (st : Reading) :
    readEntries files
        (((names.filter admitted).map fun name => .ok (dir, name)) ++ rest) st =
      (parseNames files dir names st).bind fun r =>
        (readEntries files rest r.2).map (r.1 ++ ·) := by
  induction names generalizing st with
  | nil =>
      rw [parseNames]
      cases h : readEntries files rest st with
      | error e => simp [h, Except.bind, Except.map]
      | ok vars => simp [h, Except.bind, Except.map]
  | cons name names ih =>
      rw [parseNames]
      split
      · next hall =>
          rw [List.filter_cons_of_pos hall, List.map_cons, List.cons_append, readEntries]
          cases hvar : readVar files dir name st with
          | error e => rfl
          | ok st' =>
              change (readEntries files _ st').bind _ =
                ((parseNames files dir names st').bind _).bind _
              rw [ih]
              cases parseNames files dir names st' with
              | error e => rfl
              | ok r =>
                  change ((readEntries files rest r.2).map _).bind _ =
                    (readEntries files rest r.2).map _
                  cases readEntries files rest r.2 with
                  | error e => rfl
                  | ok vars => rfl
      · next hall => rw [List.filter_cons_of_neg hall, ih]

theorem parseVarsdirs_eq (dirs : List Text) (st : Reading) :
    parseVarsdirs files dirs st = readEntries files (entries files dirs) st := by
  induction dirs generalizing st with
  | nil => rfl
  | cons dir dirs ih =>
      have hentries : entries files (dir :: dirs) = entriesOf files dir ++ entries files dirs := rfl
      rw [parseVarsdirs, hentries, entriesOf]
      cases files.opendir dir with
      | error errno =>
          change (if errno = ENOENT then _ else _) = (if errno = ENOENT then _ else _)
          rw [ih]
          rfl
      | ok names =>
          change (parseNames files dir names st).bind _ = _
          rw [readEntries_append]
          cases parseNames files dir names st with
          | error e => rfl
          | ok r =>
              change (parseVarsdirs files dirs r.2).bind _ = (readEntries files _ r.2).map _
              rw [ih]
              rfl

/-- The variables are read as they are defined if and only if each file gives its value. -/
theorem readEntries_eq_ok_iff (es : List Entry) (errno : ℕ) (before : Text) :
    readEntries files es ⟨errno, before⟩ = .ok (es.filterMap (entryVar files)) ↔
      Kept files errno before es := by
  induction es generalizing errno before with
  | nil => simp [readEntries, Kept]
  | cons e es ih =>
      cases e with
      | error e =>
          rw [readEntries, Kept]
          by_cases he : e = ENOENT
          · rw [if_pos he, List.filterMap_cons_none rfl, ih, and_iff_right he]
          · rw [if_neg he]
            simp [he]
      | ok file =>
          rw [readEntries, Kept, ← ih,
            List.filterMap_cons_some (show entryVar files (.ok file) = _ from rfl)]
          constructor
          · intro h
            obtain ⟨⟨errno', value⟩, hvar, h⟩ := exists_of_bind_ok h
            obtain ⟨vars, hvars, h⟩ := exists_of_bind_ok h
            cases h
            obtain ⟨rfl, hgives⟩ := readVar_eq_ok_iff.mp hvar
            exact ⟨hgives, hvars⟩
          · rintro ⟨hgives, hvars⟩
            have hvar : readVar files file.1 file.2 ⟨errno, before⟩ =
                .ok ⟨errno, fileValue files file⟩ := readVar_eq_ok_iff.mpr ⟨rfl, hgives⟩
            rw [hvar]
            change (readEntries files es ⟨errno, fileValue files file⟩).bind _ = _
            rw [hvars]
            rfl

theorem parseVarsdirs_eq_ok_iff (dirs : List Text) (errno : ℕ) (junk : Text) :
    parseVarsdirs files dirs ⟨errno, junk⟩ = .ok (fileVars files dirs) ↔
      Kept files errno junk (entries files dirs) := by
  rw [parseVarsdirs_eq, fileVars, readEntries_eq_ok_iff]

/-! ## The loop -/

section Loop

variable {room : ℕ} {vars : List Variable} {dest lit s : Text}

theorem replaceLoop_stop (h : s = [] ∨ room ≤ dest.length) :
    replaceLoop room vars dest s = some dest := by
  rw [replaceLoop, if_neg]
  rintro ⟨hs, hlt⟩
  obtain h | h := h
  · exact hs h
  · omega

theorem takeWhile_literal (h : '$' ∉ lit) (s : Text) :
    (lit ++ '$' :: s).takeWhile (· ≠ '$') = lit ∧
      (lit ++ '$' :: s).dropWhile (· ≠ '$') = '$' :: s := by
  have hall : ∀ c ∈ lit, decide (c ≠ '$') = true := by
    intro c hc
    simpa using fun heq : c = '$' => h (heq ▸ hc)
  rw [List.takeWhile_append_of_pos hall, List.dropWhile_append_of_pos hall]
  simp

theorem replaceLoop_literal (hlit : '$' ∉ lit) (hfit : dest.length + lit.length ≤ room) :
    replaceLoop room vars dest lit = some (dest ++ lit) := by
  by_cases hgo : lit ≠ [] ∧ dest.length < room
  · have hall : ∀ c ∈ lit, decide (c ≠ '$') = true := by
      intro c hc
      simpa using fun heq : c = '$' => hlit (heq ▸ hc)
    have htake : lit.takeWhile (· ≠ '$') = lit := List.takeWhile_eq_self_iff.mpr hall
    have hdrop : lit.dropWhile (· ≠ '$') = [] := List.dropWhile_eq_nil_iff.mpr hall
    have hcopy : copyWhile (· ≠ '$') room dest lit = (dest ++ lit, []) := by
      rw [copyWhile_of_fits, htake, hdrop]
      rwa [htake]
    rw [replaceLoop, if_pos hgo]
    split
    · next heq =>
        rw [hcopy] at heq
        cases heq
        rfl
    · next heq =>
        rw [hcopy] at heq
        cases heq
  · obtain rfl : lit = [] := by
      by_contra hne
      have hpos : 0 < lit.length := List.length_pos_of_ne_nil hne
      have hfull : ¬ dest.length < room := fun hlt => hgo ⟨hne, hlt⟩
      omega
    rw [replaceLoop_stop (Or.inl rfl), List.append_nil]

/-- Up to the next reference, and what it stands for -/
theorem replaceLoop_reference (hlit : '$' ∉ lit) (hlt : dest.length < room)
    (hfit : dest.length + lit.length ≤ room) :
    replaceLoop room vars dest (lit ++ '$' :: s) =
      (substitute room vars (dest ++ lit) (shortName s)).bind fun next =>
        replaceLoop room vars next (s.drop (shortName s).length) := by
  have hcopy : copyWhile (· ≠ '$') room dest (lit ++ '$' :: s) = (dest ++ lit, '$' :: s) := by
    obtain ⟨htake, hdrop⟩ := takeWhile_literal hlit s
    rw [copyWhile_of_fits, htake, hdrop]
    rwa [htake]
  have hname : copyWhile isNameChar 255 [] s = (shortName s, s.drop (shortName s).length) := by
    rw [copyWhile_eq]
    rfl
  rw [replaceLoop, if_pos ⟨by simp, hlt⟩]
  split
  · next heq =>
      rw [hcopy] at heq
      cases heq
  · next heq =>
      rw [hcopy] at heq
      cases heq
      rw [hname]
      rfl

theorem length_substitute_le {name next : Text} (h : dest.length ≤ room)
    (hnext : substitute room vars dest name = some next) : next.length ≤ room := by
  rw [substitute] at hnext
  split at hnext
  · cases hnext
    exact h
  · obtain ⟨q, -, rfl⟩ := Option.map_eq_some_iff.mp hnext
    exact length_copyWhile_le h

/-- The result fits into the buffer. -/
theorem length_replaceLoop_le {next : Text} (h : dest.length ≤ room)
    (hnext : replaceLoop room vars dest s = some next) : next.length ≤ room := by
  induction hn : s.length using Nat.strong_induction_on generalizing dest s with
  | _ n ih =>
      rw [replaceLoop] at hnext
      split at hnext
      · have hcopied : (copyWhile (· ≠ '$') room dest s).1.length ≤ room :=
          length_copyWhile_le h
        have hrest : (copyWhile (· ≠ '$') room dest s).2.length ≤ s.length :=
          length_copyWhile_snd_le
        split at hnext
        · next heq =>
            cases hnext
            rwa [heq] at hcopied
        · next s' heq =>
            rw [heq] at hcopied hrest
            obtain ⟨mid, hmid, hnext⟩ := Option.bind_eq_some_iff.mp hnext
            have hname : (copyWhile isNameChar 255 [] s').2.length ≤ s'.length :=
              length_copyWhile_snd_le
            rw [List.length_cons] at hrest
            exact ih _ (by omega) (length_substitute_le hcopied hmid) hnext rfl
      · cases hnext
        exact h

/-- What a name stands for is written where it has a value, and there is room. -/
theorem substitute_of_set {name : Text}
    (hset : ∀ var, findChild vars name = some var → var.value ≠ none)
    (hfit : dest.length + (valueIn vars name).length ≤ room) :
    substitute room vars dest name = some (dest ++ valueIn vars name) := by
  rw [substitute]
  rw [valueIn] at hfit ⊢
  cases hfind : findChild vars name with
  | none => simp
  | some var =>
      rw [hfind] at hfit
      obtain ⟨q, hq⟩ := Option.ne_none_iff_exists'.mp (hset var hfind)
      have hq' : ((some var).bind Variable.value).getD [] = q := by
        rw [Option.bind_some, hq]
        rfl
      have hall : q.takeWhile (fun _ => true) = q := List.takeWhile_eq_self_iff.mpr fun _ _ => rfl
      rw [hq'] at hfit ⊢
      change var.value.map _ = _
      rw [hq, Option.map_some, copyWhile_of_fits, hall]
      rwa [hall]

theorem substitute_of_null {name : Text} {var : Variable} (hfind : findChild vars name = some var)
    (hnull : var.value = none) : substitute room vars dest name = none := by
  rw [substitute, hfind]
  simp [hnull]

/-- With room enough and values for all names that are read, the loop expands its source. -/
theorem replaceLoop_eq
    (hset : ∀ name ∈ references '$' shortName s, ∀ var, findChild vars name = some var →
      var.value ≠ none)
    (hfit : dest.length + (expand '$' shortName (valueIn vars) s).length ≤ room) :
    replaceLoop room vars dest s = some (dest ++ expand '$' shortName (valueIn vars) s) := by
  induction s using reference_induction '$' shortName generalizing dest with
  | literal lit hlit =>
      rw [expand_literal hlit] at hfit ⊢
      exact replaceLoop_literal hlit hfit
  | reference lit s hlit ih =>
      rw [references_reference hlit] at hset
      rw [expand_reference hlit] at hfit ⊢
      rw [List.length_append, List.length_append] at hfit
      by_cases hlt : dest.length < room
      · have hname : substitute room vars (dest ++ lit) (shortName s) =
            some (dest ++ lit ++ valueIn vars (shortName s)) := by
          refine substitute_of_set (hset _ List.mem_cons_self) ?_
          rw [List.length_append]
          omega
        rw [replaceLoop_reference hlit hlt (by omega), hname, Option.bind_some, ih]
        · simp only [List.append_assoc]
        · exact fun name hmem => hset name (List.mem_cons_of_mem _ hmem)
        · rw [List.length_append, List.length_append]
          omega
      · -- no room is left, and nothing more is to be written
        have hnil : lit ++ (valueIn vars (shortName s) ++
            expand '$' shortName (valueIn vars) (s.drop (shortName s).length)) = [] := by
          apply List.eq_nil_of_length_eq_zero
          rw [List.length_append, List.length_append]
          omega
        rw [replaceLoop_stop (Or.inr (by omega)), hnil, List.append_nil]

/-- With more room than that, a name without a value is reached. -/
theorem replaceLoop_null {name : Text} {var : Variable}
    (hmem : name ∈ references '$' shortName s) (hfind : findChild vars name = some var)
    (hnull : var.value = none)
    (hfit : dest.length + (expand '$' shortName (valueIn vars) s).length < room) :
    replaceLoop room vars dest s = none := by
  induction s using reference_induction '$' shortName generalizing dest with
  | literal lit hlit =>
      rw [references_literal hlit] at hmem
      cases hmem
  | reference lit s hlit ih =>
      rw [references_reference hlit] at hmem
      rw [expand_reference hlit, List.length_append, List.length_append] at hfit
      rw [replaceLoop_reference hlit (by omega) (by omega)]
      by_cases hset : ∀ var, findChild vars (shortName s) = some var → var.value ≠ none
      · have hne : name ≠ shortName s := by
          rintro rfl
          exact hset var hfind hnull
        have hrest := (List.mem_cons.mp hmem).resolve_left hne
        rw [substitute_of_set hset, Option.bind_some, ih hrest]
        · rw [List.length_append, List.length_append]
          omega
        · rw [List.length_append]
          omega
      · push Not at hset
        obtain ⟨var', hfind', hnull'⟩ := hset
        rw [substitute_of_null hfind' hnull', Option.bind_none]

/-- The loop gives a text whatever room there is beyond `room` if and only if it is the expansion
of the source, fits into the room, and all names that are read have values. -/
theorem replaceLoop_forall_iff {result : Text} :
    (∀ room' ≥ room, replaceLoop room' vars [] s = some result) ↔
      (∀ name ∈ references '$' shortName s, ∀ var, findChild vars name = some var →
        var.value ≠ none) ∧
      expand '$' shortName (valueIn vars) s = result ∧ result.length ≤ room := by
  constructor
  · intro h
    have hlen : result.length ≤ room :=
      length_replaceLoop_le (by simp) (h room (Nat.le_refl room))
    have hwide := h (room + (expand '$' shortName (valueIn vars) s).length + 1) (by omega)
    have hset : ∀ name ∈ references '$' shortName s, ∀ var, findChild vars name = some var →
        var.value ≠ none := by
      intro name hmem var hfind hnull
      rw [replaceLoop_null hmem hfind hnull] at hwide
      · cases hwide
      · rw [List.length_nil]
        omega
    refine ⟨hset, ?_, hlen⟩
    rw [replaceLoop_eq hset] at hwide
    · exact Option.some.inj hwide
    · rw [List.length_nil]
      omega
  · rintro ⟨hset, rfl, hlen⟩ room' hroom
    refine replaceLoop_eq hset ?_
    rw [List.length_nil]
    omega

end Loop

/-! ## Where nothing is cut -/

theorem lineOf_eq (text : Text) :
    ∃ lineEnd : Text, lineOf text = text.takeWhile (· ≠ '\n') ++ lineEnd ∧
      ∀ c ∈ lineEnd, isSpace c = true := by
  induction text with
  | nil => exact ⟨[], rfl, by simp⟩
  | cons c text ih =>
      rw [lineOf]
      by_cases hc : c = '\n'
      · subst hc
        exact ⟨['\n'], rfl, by simp [isSpace]⟩
      · obtain ⟨lineEnd, heq, hspace⟩ := ih
        refine ⟨lineEnd, ?_, hspace⟩
        rw [if_neg hc, heq, List.takeWhile_cons_of_pos (by simpa using hc), List.cons_append]

theorem stripTrailing_append {s spaces : Text} (h : ∀ c ∈ spaces, isSpace c = true) :
    stripTrailing (s ++ spaces) = stripTrailing s := by
  rw [stripTrailing, List.rdropWhile, List.reverse_append, List.dropWhile_append_of_pos]
  · rfl
  · exact fun c hc => h c (List.mem_reverse.mp hc)

theorem exists_stripTrailing (s : Text) :
    ∃ spaces, s = stripTrailing s ++ spaces ∧ ∀ c ∈ spaces, isSpace c = true :=
  ⟨s.rtakeWhile isSpace, List.rdropWhile_append_rtakeWhile.symm,
    fun _ hc => List.mem_rtakeWhile_imp hc⟩

theorem cString_eq_self {s : Text} (h : '\x00' ∉ s) : cString s = s := by
  rw [cString, List.takeWhile_eq_self_iff]
  intro c hc
  simpa using fun heq : c = '\x00' => h (heq ▸ hc)

/-- A first line is seen as it is if it fits into the buffer and holds no NUL. -/
theorem seen_eq_firstLine_iff (text : Text) :
    seen text = firstLine text ↔
      (firstLine text).length ≤ 255 ∧ '\x00' ∉ firstLine text := by
  have hpre : seen text <+: cString ((lineOf text).take 255) := List.rdropWhile_prefix _ _
  constructor
  · intro h
    rw [← h]
    refine ⟨?_, fun hmem => ?_⟩
    · calc (seen text).length
          ≤ (cString ((lineOf text).take 255)).length := hpre.length_le
        _ ≤ ((lineOf text).take 255).length := (( List.takeWhile_prefix _).length_le)
        _ ≤ 255 := List.length_take_le _ _
    · simpa using List.mem_takeWhile_imp (hpre.subset hmem)
  · rintro ⟨hlen, hnul⟩
    obtain ⟨lineEnd, hline, hend⟩ := lineOf_eq text
    obtain ⟨spaces, hsplit : _ = firstLine text ++ spaces, hspaces⟩ :=
      exists_stripTrailing (text.takeWhile (· ≠ '\n'))
    have hrest : ∀ c ∈ (spaces ++ lineEnd).take (255 - (firstLine text).length),
        isSpace c = true := by
      intro c hc
      obtain hc | hc := List.mem_append.mp (List.mem_of_mem_take hc)
      · exact hspaces c hc
      · exact hend c hc
    have htake : (lineOf text).take 255 =
        firstLine text ++ (spaces ++ lineEnd).take (255 - (firstLine text).length) := by
      rw [hline, hsplit, List.append_assoc, List.take_append, List.take_of_length_le hlen]
    have hnul' : '\x00' ∉ firstLine text ++
        (spaces ++ lineEnd).take (255 - (firstLine text).length) := by
      intro hmem
      obtain hmem | hmem := List.mem_append.mp hmem
      · exact hnul hmem
      · exact absurd (hrest _ hmem) (by decide)
    calc seen text
        = stripTrailing (firstLine text) := by
          rw [seen, htake, cString_eq_self hnul', stripTrailing_append hrest]
      _ = firstLine text := List.rdropWhile_idempotent _ _

theorem takeWhile_isNameChar {s : Text} (h : '_' ∉ longName s) :
    s.takeWhile isNameChar = longName s := by
  induction s with
  | nil => rfl
  | cons c s ih =>
      by_cases hc : isFilenameChar c
      · rw [longName, List.takeWhile_cons_of_pos hc] at h ⊢
        obtain ⟨hne, hrest⟩ := List.ne_and_not_mem_of_not_mem_cons h
        have hname : isNameChar c = true := by
          rw [isFilenameChar, Bool.or_eq_true, beq_iff_eq] at hc
          exact hc.resolve_left (Ne.symm hne)
        rw [List.takeWhile_cons_of_pos hname, ih hrest, longName]
      · have hname : ¬ isNameChar c = true := fun hname => hc (by simp [isFilenameChar, hname])
        rw [longName, List.takeWhile_cons_of_neg hc, List.takeWhile_cons_of_neg hname]

/-- Names without an underscore and with at most 255 characters are read as they are. -/
theorem expand_shortName_eq {value : Text → Text} {source : Text}
    (h : ∀ name ∈ references '$' longName source, '_' ∉ name ∧ name.length ≤ 255) :
    expand '$' shortName value source = expand '$' longName value source := by
  refine expand_congr fun s hs => ?_
  obtain ⟨hunder, hlen⟩ := h _ hs
  have hrun : s.takeWhile isNameChar = longName s := takeWhile_isNameChar hunder
  rw [shortName, hrun, List.take_of_length_le hlen]

/-! ## The result -/

/-- One directory with one file, whose name has an underscore -/
def underscore : Setting where
  files :=
    { opendir := fun dir =>
        if dir = "/etc/tdnf/vars".toList then .ok ["os_name".toList] else .error ENOENT
      fopen := fun p =>
        if p = "/etc/tdnf/vars/os_name".toList then .ok (.ok "photon\n".toList)
        else .error ENOENT }
  varsDirs := ["/etc/tdnf/vars".toList]
  releaseVer := some "5.0".toList
  baseArch := some "x86_64".toList
  errno := 0
  junk := []

end Tdnf.Client.ConfigVars
