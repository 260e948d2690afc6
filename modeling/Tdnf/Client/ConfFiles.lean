import Tdnf.Common.FileText
import Tdnf.Library.Buffer
import Tdnf.Library.PathText
import Tdnf.Library.Procedure
import Tdnf.Library.Tokens

/-!
# The files of a configuration directory

The lines of all `*.conf` files of a directory are put before those that are
already set. The array of arrays in between has one cell more than there are
files; the preset array takes the place of its terminator.
-/

namespace Tdnf.Client

open PathText Common Procedure Buffer Tokens
open Json (Bytes)

namespace ConfFiles

/-- The cells of a `char**`. -/
abbrev StringArray := List (Option Bytes)

/-- An entry of the directory. -/
structure Entry where
  dName : Text
  file : FileText

def newline : UInt8 := 10

/-- A call that returns an error code -/
def bail {α : Type} : Except TdnfError α → Except Stop α
  | .ok a => .ok a
  | .error e => .error (.code e)

/-- An access to an array -/
def inside {α : Type} (b : Option α) : Except Stop α := b.elim (.error .outside) .ok

/-- `fnmatch("*.conf", d_name, 0)` -/
def isConf (pEnt : Entry) : Bool := ".conf".toList.isSuffixOf pEnt.dName

/-- `TDNFSplitStringToArray` at newlines; `TDNFStringSepCount` has counted the same tokens -/
def splitStringToArray (pszBuf : Bytes) : Except Stop StringArray :=
  let n := (scan newline pszBuf).length
  inside (writeAll (List.replicate (n + 1) none) 0 ((scan newline pszBuf).map some ++ [none]))

/-- `TDNFReadFileToStringArray`; the text ends at the first NUL -/
def readFileToStringArray (file : FileText) : Except Stop StringArray := do
  let pszText ← bail (fileReadAllText file)
  splitStringToArray (pszText.takeWhile (· ≠ 0))

/-- `TDNFAllocateMemory` for an `int` number of pointers, taken for a `size_t` -/
def allocatePointers {α : Type} (nNumElements : ℤ) : Except TdnfError (List (Option α)) :=
  if nNumElements = 0 then .error .invalidParameter
  else if nNumElements < 0 then .error .invalidAllocsize
  else .ok (List.replicate nNumElements.toNat none)

/-- The loop that reads the files; `i` is how many there are so far. -/
def readFiles (nFileCount : ℤ) :
    List Entry → List (Option StringArray) → ℕ → Except Stop (List (Option StringArray) × ℕ)
  | [], pppszArrayList, i => .ok (pppszArrayList, i)
  | pEnt :: entries, pppszArrayList, i =>
    if nFileCount ≤ i then .ok (pppszArrayList, i)
    else if isConf pEnt then do
      let ppszArray ← readFileToStringArray pEnt.file
      let pppszArrayList ← inside (write pppszArrayList i (some ppszArray))
      readFiles nFileCount entries pppszArrayList (i + 1)
    else readFiles nFileCount entries pppszArrayList i

/-- `TDNFStringArrayCount`, from the cell at `nCount` on -/
def stringArrayCount : StringArray → ℕ → Except Stop ℕ
  | [], _ => .error .outside
  | none :: _, nCount => .ok nCount
  | some _ :: cells, nCount => stringArrayCount cells (nCount + 1)

/-- The loop that counts the lines -/
def countLines : List (Option StringArray) → ℤ → Except Stop ℤ
  | [], _ => .error .outside
  | none :: _, nLineCount => .ok nLineCount
  | some ppszArray :: arrays, nLineCount => do
      let nTmp ← stringArrayCount ppszArray 0
      countLines arrays (wrapInt (nLineCount + nTmp))

/-- The inner loop that moves the lines; the new array and `k` -/
def moveArray : StringArray → StringArray → ℕ → Except Stop (StringArray × ℕ)
  | [], _, _ => .error .outside
  | none :: _, ppszNewLines, k => .ok (ppszNewLines, k)
  | some line :: cells, ppszNewLines, k => do
      let ppszNewLines ← inside (write ppszNewLines k (some line))
      moveArray cells ppszNewLines (k + 1)

/-- The loop that moves the lines -/
def moveLines : List (Option StringArray) → StringArray → ℕ → Except Stop StringArray
  | [], _, _ => .error .outside
  | none :: _, ppszNewLines, _ => .ok ppszNewLines
  | some ppszArray :: arrays, ppszNewLines, k => do
      let moved ← moveArray ppszArray ppszNewLines k
      moveLines arrays moved.1 moved.2

/-- `TDNFReadConfFilesFromDir`: what `*pppszLines` points to afterwards, where `preset` is what it
points to before. The directory is read twice with the same entries. -/
def readConfFilesFromDir (opendir : Text → Option (List Entry)) (pszDir : Text)
    (preset : Option StringArray) : Except Stop (Option StringArray) :=
  if pszDir = [] then .error (.code .invalidParameter)
  else
    match opendir pszDir with
    | none => .ok preset
    | some entries => do
        let nFileCount := wrapInt (entries.filter isConf).length
        let pppszArrayList ← bail (allocatePointers (wrapInt (nFileCount + 1)))
        let read ← readFiles nFileCount entries pppszArrayList 0
        let pppszArrayList ← inside (write read.1 read.2 preset)
        let nLineCount ← countLines pppszArrayList 0
        let ppszNewLines ← bail (allocatePointers (wrapInt (nLineCount + 1)))
        let ppszNewLines ← moveLines pppszArrayList ppszNewLines 0
        return some ppszNewLines

/-- The text of a file; there is none in a file that cannot be read. -/
def textOf (pEnt : Entry) : Bytes :=
  match pEnt.file.content with
  | .ok data => data
  | .error _ => []

/-- The lines of all the files -/
def confLines (entries : List Entry) : List Bytes :=
  (entries.filter isConf).flatMap fun pEnt => tokens newline (textOf pEnt)

/-- The lines of an array that may be NULL -/
def linesIn (preset : Option StringArray) : List Bytes :=
  ((preset.getD []).takeWhile Option.isSome).filterMap id

/-- A call as it should be. -/
structure ReadsRight (opendir : Text → Option (List Entry)) (pszDir : Text)
    (preset : Option StringArray) : Prop where
  /-- nothing outside of the arrays is touched -/
  inside : readConfFilesFromDir opendir pszDir preset ≠ .error .outside
  /-- if the call succeeds, the lines are those of the files and then the preset ones -/
  lines : ∀ entries result, opendir pszDir = some entries →
    readConfFilesFromDir opendir pszDir preset = .ok result → ∃ cells, result = some cells ∧
      stringAt none cells 0 = some ((confLines entries ++ linesIn preset).map some)
  /-- without a directory the preset ones stay -/
  kept : opendir pszDir = none → pszDir ≠ [] →
    readConfFilesFromDir opendir pszDir preset = .ok preset

/-- What is read of the text of a file -/
def seen (pEnt : Entry) : Bytes :=
  ((textOf pEnt).take ((textOf pEnt).length % 4294967296)).takeWhile (· ≠ 0)

/-- What follows it -/
def unseen (pEnt : Entry) : Bytes := (textOf pEnt).drop (seen pEnt).length

/-- A number that an `int` counts without a failure. -/
def Countable (n : ℕ) : Prop := n % 4294967296 < 2147483647

/-- A file can be read. -/
def Readable (pEnt : Entry) : Prop :=
  ∃ data, pEnt.file.content = .ok data ∧ Countable data.length

/-- The files as far as they are counted. -/
def filesRead (entries : List Entry) : List Entry :=
  (entries.filter isConf).take ((entries.filter isConf).length % 4294967296)

def filesLeft (entries : List Entry) : List Entry :=
  (entries.filter isConf).drop ((entries.filter isConf).length % 4294967296)

def seenLines (pEnts : List Entry) : List Bytes :=
  pEnts.flatMap fun pEnt => tokens newline (seen pEnt)

/-- Nothing is left out but newlines. -/
structure AllSeen (entries : List Entry) : Prop where
  unseen : ∀ pEnt ∈ filesRead entries, ∀ c ∈ unseen pEnt, c = newline
  left : ∀ pEnt ∈ filesLeft entries, ∀ c ∈ textOf pEnt, c = newline

/-- When the source does so: where it does not fail, there is no preset array, and no line is
left out or counted wrong. -/
def Served (opendir : Text → Option (List Entry)) (pszDir : Text)
    (preset : Option StringArray) : Prop :=
  ∀ entries, pszDir ≠ [] → opendir pszDir = some entries →
    Countable (entries.filter isConf).length → (∀ pEnt ∈ filesRead entries, Readable pEnt) →
    preset = none ∧ (Countable (seenLines (filesRead entries)).length →
      (seenLines (filesRead entries)).length < 4294967296 ∧ AllSeen entries)

section Reading

/-- The array of the lines that are read of a file. -/
def arrayOf (pEnt : Entry) : StringArray := (tokens newline (seen pEnt)).map some ++ [none]

theorem splitStringToArray_eq (pszBuf : Bytes) :
    splitStringToArray pszBuf = .ok ((tokens newline pszBuf).map some ++ [none]) := by
  have hwrite := writeAll_eq [] (List.replicate ((tokens newline pszBuf).length + 1)
    (none : Option Bytes)) ((tokens newline pszBuf).map some ++ [none])
  rw [splitStringToArray, scan_eq]
  simp only [List.nil_append, List.length_nil] at hwrite
  rw [hwrite, if_pos (by simp), List.drop_of_length_le (by simp), List.append_nil]
  rfl

theorem readFileToStringArray_of_readable {pEnt : Entry} (h : Readable pEnt) :
    readFileToStringArray pEnt.file = .ok (arrayOf pEnt) := by
  obtain ⟨data, hdata, hcount⟩ := h
  have htext := fileReadAllText_eq_ok_iff.mpr ⟨data, hdata, hcount, rfl⟩
  have hseen : seen pEnt = (data.take (data.length % 4294967296)).takeWhile (· ≠ 0) := by
    rw [seen, textOf, hdata]
  rw [readFileToStringArray, htext, arrayOf, hseen, ← splitStringToArray_eq]
  rfl

theorem readFileToStringArray_fails {pEnt : Entry} (h : ¬ Readable pEnt) :
    ∃ e, readFileToStringArray pEnt.file = .error (.code e) := by
  rw [readFileToStringArray]
  cases htext : fileReadAllText pEnt.file with
  | error e => exact ⟨e, rfl⟩
  | ok text =>
      obtain ⟨data, hdata, hcount, -⟩ := fileReadAllText_eq_ok_iff.mp htext
      exact absurd ⟨data, hdata, hcount⟩ h

/-- The arrays of some files, or the first error -/
def readAll (pEnts : List Entry) : Except Stop (List StringArray) :=
  pEnts.mapM fun pEnt => readFileToStringArray pEnt.file

theorem readAll_of_readable {pEnts : List Entry} (h : ∀ pEnt ∈ pEnts, Readable pEnt) :
    readAll pEnts = .ok (pEnts.map arrayOf) := by
  induction pEnts with
  | nil => rfl
  | cons pEnt pEnts ih =>
      rw [readAll, List.mapM_cons, readFileToStringArray_of_readable (h pEnt List.mem_cons_self)]
      have hrest := ih fun e he => h e (List.mem_cons_of_mem _ he)
      rw [readAll] at hrest
      rw [hrest]
      rfl

theorem readAll_fails {pEnts : List Entry} (h : ¬ ∀ pEnt ∈ pEnts, Readable pEnt) :
    ∃ e, readAll pEnts = .error (.code e) := by
  induction pEnts with
  | nil => simp at h
  | cons pEnt pEnts ih =>
      rw [readAll, List.mapM_cons]
      by_cases hread : Readable pEnt
      · obtain ⟨e, he⟩ := ih fun hall => h (List.forall_mem_cons.mpr ⟨hread, hall⟩)
        rw [readAll] at he
        rw [readFileToStringArray_of_readable hread, he]
        exact ⟨e, rfl⟩
      · obtain ⟨e, he⟩ := readFileToStringArray_fails hread
        rw [he]
        exact ⟨e, rfl⟩

/-- The loop reads files up to the number that was counted, from the one at `i` on. -/
theorem readFiles_eq (n : ℕ) (entries : List Entry) (pre old : List (Option StringArray))
    (hroom : n ≤ pre.length + old.length) :
    readFiles n entries (pre ++ old) pre.length = do
      let arrays ← readAll ((entries.filter isConf).take (n - pre.length))
      return (pre ++ (arrays.map some ++ old.drop arrays.length), pre.length + arrays.length) := by
  induction entries generalizing pre old with
  | nil =>
      rw [List.filter_nil, List.take_nil]
      rfl
  | cons pEnt entries ih =>
      rw [readFiles]
      split_ifs with hend hconf
      · have hnone : n - pre.length = 0 := by omega
        rw [hnone, List.take_zero]
        rfl
      · obtain ⟨k, hk⟩ : ∃ k, n - pre.length = k + 1 := ⟨n - pre.length - 1, by omega⟩
        rw [List.filter_cons_of_pos hconf, hk, List.take_succ_cons, readAll, List.mapM_cons]
        cases old with
        | nil =>
            rw [List.length_nil] at hroom
            omega
        | cons c old =>
            cases hread : readFileToStringArray pEnt.file with
            | error e => rfl
            | ok ppszArray =>
                have hlength : (pre ++ [some ppszArray]).length = pre.length + 1 := by simp
                have hrest := ih (pre ++ [some ppszArray]) old (by
                  rw [List.length_cons] at hroom
                  omega)
                rw [hlength, show n - (pre.length + 1) = k by omega, List.append_assoc] at hrest
                change (inside (write (pre ++ c :: old) pre.length (some ppszArray)) >>=
                  fun list => readFiles n entries list (pre.length + 1)) = _
                rw [write_middle]
                change readFiles n entries (pre ++ some ppszArray :: old) (pre.length + 1) = _
                rw [show pre ++ some ppszArray :: old = pre ++ ([some ppszArray] ++ old) from rfl,
                  hrest, readAll]
                cases hall : ((entries.filter isConf).take k).mapM fun e =>
                    readFileToStringArray e.file with
                | error e => rfl
                | ok arrays =>
                    simp only [pure, Except.pure, bind, Except.bind]
                    simp [Nat.add_assoc, Nat.add_comm 1]
      · rw [List.filter_cons_of_neg hconf]
        exact ih pre old hroom

end Reading

section Counting

theorem stringArrayCount_lines (lines : List Bytes) (n : ℕ) :
    stringArrayCount (lines.map some ++ [none]) n = .ok (n + lines.length) := by
  induction lines generalizing n with
  | nil => rfl
  | cons line lines ih =>
      rw [List.map_cons, List.cons_append, stringArrayCount, ih, List.length_cons]
      congr 1
      omega

theorem stringArrayCount_cases (cells : StringArray) (n : ℕ) :
    stringArrayCount cells n = .error .outside ∨ ∃ k, stringArrayCount cells n = .ok k := by
  induction cells generalizing n with
  | nil => exact .inl rfl
  | cons c cells ih =>
      cases c with
      | none => exact .inr ⟨n, rfl⟩
      | some line => exact ih (n + 1)

/-- Counting goes on behind the files with the number of their lines. -/
theorem countLines_files (pEnts : List Entry) (rest : List (Option StringArray)) (n : ℕ) :
    countLines ((pEnts.map arrayOf).map some ++ rest) (wrapInt n) =
      countLines rest (wrapInt (n + (seenLines pEnts).length : ℕ)) := by
  induction pEnts generalizing n with
  | nil => rfl
  | cons pEnt pEnts ih =>
      rw [List.map_cons, List.map_cons, List.cons_append, countLines, arrayOf,
        stringArrayCount_lines]
      change countLines _ (wrapInt (wrapInt n + _)) = _
      rw [show wrapInt (wrapInt n + ((0 + (tokens newline (seen pEnt)).length : ℕ) : ℤ)) =
        wrapInt (n + (tokens newline (seen pEnt)).length : ℕ) by
          rw [wrapInt, wrapInt, Int.bmod_add_bmod, wrapInt, Nat.zero_add, Int.natCast_add], ih]
      simp [seenLines, Nat.add_assoc]

/-- With a preset array the count goes on behind the last cell. -/
theorem countLines_preset (preset : StringArray) (z : ℤ) :
    countLines [some preset] z = .error .outside := by
  rw [countLines]
  rcases stringArrayCount_cases preset 0 with h | ⟨k, h⟩
  · rw [h]
    rfl
  · rw [h]
    rfl

end Counting

section Moving

theorem moveArray_lines (lines : List Bytes) (new : StringArray) (k : ℕ) :
    moveArray (lines.map some ++ [none]) new k = do
      let new ← inside (writeAll new k (lines.map some))
      return (new, k + lines.length) := by
  induction lines generalizing new k with
  | nil => rfl
  | cons line lines ih =>
      rw [List.map_cons, List.cons_append, moveArray, writeAll]
      cases write new k (some line) with
      | none => rfl
      | some new =>
          change moveArray (lines.map some ++ [none]) new (k + 1) = _
          rw [ih, List.length_cons, Nat.add_comm lines.length 1, ← Nat.add_assoc]
          rfl

theorem moveLines_files (pEnts : List Entry) (new : StringArray) (k : ℕ) :
    moveLines ((pEnts.map arrayOf).map some ++ [none]) new k =
      inside (writeAll new k ((seenLines pEnts).map some)) := by
  induction pEnts generalizing new k with
  | nil => rfl
  | cons pEnt pEnts ih =>
      rw [List.map_cons, List.map_cons, List.cons_append, moveLines, arrayOf, moveArray_lines,
        seenLines, List.flatMap_cons, List.map_append, writeAll_append]
      cases writeAll new k ((tokens newline (seen pEnt)).map some) with
      | none => rfl
      | some new =>
          change moveLines ((pEnts.map arrayOf).map some ++ [none]) new _ = _
          rw [ih, List.length_map]
          rfl

end Moving

section Calling

variable {opendir : Text → Option (List Entry)} {pszDir : Text} (preset : Option StringArray)
  {entries : List Entry}

theorem allocatePointers_of_countable {α : Type} {n : ℕ} (h : Countable n) :
    (allocatePointers (wrapInt (wrapInt n + 1)) : Except TdnfError (List (Option α))) =
      .ok (List.replicate (n % 4294967296 + 1) none) := by
  rw [Countable] at h
  have hnext : wrapInt (wrapInt n + 1) = (n % 4294967296 : ℕ) + 1 := by
    rw [wrapInt_natCast, if_pos (by omega), wrapInt, Int.bmod_def]
    split_ifs <;> omega
  rw [allocatePointers, hnext, if_neg (by omega), if_neg (by omega)]
  rfl

theorem allocatePointers_fails (α : Type) {n : ℕ} (h : ¬ Countable n) :
    ∃ e, (allocatePointers (wrapInt (wrapInt n + 1)) : Except TdnfError (List (Option α))) =
      .error e := by
  rw [Countable] at h
  have hnext : wrapInt (wrapInt n + 1) ≤ 0 := by
    rw [wrapInt_natCast, wrapInt, Int.bmod_def]
    split_ifs <;> omega
  rw [allocatePointers]
  split_ifs
  · exact ⟨_, rfl⟩
  · exact ⟨_, rfl⟩
  · omega

theorem wrapInt_of_countable {n : ℕ} (h : Countable n) :
    wrapInt n = (n % 4294967296 : ℕ) := by
  rw [Countable] at h
  rw [wrapInt_natCast, if_pos (by omega)]

theorem readFiles_counted (entries : List Entry)
    (hcount : Countable (entries.filter isConf).length) :
    readFiles (wrapInt (entries.filter isConf).length) entries
      (List.replicate ((entries.filter isConf).length % 4294967296 + 1) none) 0 = do
      let arrays ← readAll (filesRead entries)
      return (arrays.map some ++
        List.replicate ((entries.filter isConf).length % 4294967296 + 1 - arrays.length) none,
        arrays.length) := by
  have hread := readFiles_eq ((entries.filter isConf).length % 4294967296) entries []
    (List.replicate ((entries.filter isConf).length % 4294967296 + 1) none) (by simp)
  simp only [List.nil_append, List.length_nil, Nat.zero_add, Nat.sub_zero,
    List.drop_replicate] at hread
  rw [wrapInt_of_countable hcount, hread, filesRead]

theorem length_filesRead (entries : List Entry) :
    (filesRead entries).length = (entries.filter isConf).length % 4294967296 := by
  rw [filesRead, List.length_take]
  omega

/-- What the call does behind the reading of the files. -/
def afterReading (pEnts : List Entry) (preset : Option StringArray) :
    Except Stop (Option StringArray) := do
  let nLineCount ← countLines ((pEnts.map arrayOf).map some ++ [preset]) (wrapInt (0 : ℕ))
  let ppszNewLines ← bail (allocatePointers (wrapInt (nLineCount + 1)))
  let ppszNewLines ← moveLines ((pEnts.map arrayOf).map some ++ [preset]) ppszNewLines 0
  return some ppszNewLines

theorem call_eq (hdir : pszDir ≠ []) (hopen : opendir pszDir = some entries)
    (hcount : Countable (entries.filter isConf).length)
    (hread : ∀ pEnt ∈ filesRead entries, Readable pEnt) :
    readConfFilesFromDir opendir pszDir preset = afterReading (filesRead entries) preset := by
  rw [readConfFilesFromDir, if_neg hdir, hopen]
  change (bail (allocatePointers (wrapInt (wrapInt (entries.filter isConf).length + 1))) >>=
    fun list => _) = _
  rw [allocatePointers_of_countable hcount]
  change (readFiles _ _ _ 0 >>= fun read => _) = _
  rw [readFiles_counted entries hcount, readAll_of_readable hread]
  have hlast : (entries.filter isConf).length % 4294967296 + 1 -
      ((filesRead entries).map arrayOf).length = 1 := by
    rw [List.length_map, length_filesRead]
    omega
  have hwrite : write (((filesRead entries).map arrayOf).map some ++ [none])
      (((filesRead entries).map arrayOf).map some).length preset =
        some (((filesRead entries).map arrayOf).map some ++ [preset]) := write_middle
  rw [List.length_map] at hwrite
  change (inside (write (((filesRead entries).map arrayOf).map some ++ List.replicate _ none)
    ((filesRead entries).map arrayOf).length preset) >>= fun list => _) = _
  rw [hlast, show List.replicate 1 (none : Option StringArray) = [none] from rfl, hwrite]
  rfl

/-- The call fails if the files are too many or one cannot be read. -/
theorem call_fails (hdir : pszDir ≠ []) (hopen : opendir pszDir = some entries)
    (h : ¬ (Countable (entries.filter isConf).length ∧
      ∀ pEnt ∈ filesRead entries, Readable pEnt)) :
    ∃ e, readConfFilesFromDir opendir pszDir preset = .error (.code e) := by
  rw [readConfFilesFromDir, if_neg hdir, hopen]
  change ∃ e, (bail (allocatePointers (wrapInt (wrapInt (entries.filter isConf).length + 1))) >>=
    fun list => _) = _
  by_cases hcount : Countable (entries.filter isConf).length
  · obtain ⟨e, he⟩ := readAll_fails fun hread => h ⟨hcount, hread⟩
    rw [allocatePointers_of_countable hcount]
    change ∃ e, (readFiles _ _ _ 0 >>= fun read => _) = _
    rw [readFiles_counted entries hcount, he]
    exact ⟨e, rfl⟩
  · obtain ⟨e, he⟩ := allocatePointers_fails StringArray hcount
    rw [he]
    exact ⟨e, rfl⟩

end Calling

section Ends

variable (pEnts : List Entry)

theorem afterReading_preset (preset : StringArray) :
    afterReading pEnts (some preset) = .error .outside := by
  rw [afterReading, countLines_files, countLines_preset]
  rfl

theorem afterReading_none : afterReading pEnts none = do
    let ppszNewLines ← bail (allocatePointers
      (wrapInt (wrapInt (seenLines pEnts).length + 1)))
    let ppszNewLines ← inside (writeAll ppszNewLines 0 ((seenLines pEnts).map some))
    return some ppszNewLines := by
  have hbind {α β : Type} (a : α) (f : α → Except Stop β) : (Except.ok a >>= f) = f a := rfl
  rw [afterReading, countLines_files, Nat.zero_add, countLines, hbind]
  simp only [moveLines_files]

theorem afterReading_fails (h : ¬ Countable (seenLines pEnts).length) :
    ∃ e, afterReading pEnts none = .error (.code e) := by
  obtain ⟨e, he⟩ := allocatePointers_fails Bytes h
  rw [afterReading_none, he]
  exact ⟨e, rfl⟩

/-- Lines that are counted wrong do not fit into their array. -/
theorem afterReading_countable (h : Countable (seenLines pEnts).length) :
    afterReading pEnts none = if (seenLines pEnts).length < 4294967296
      then .ok (some ((seenLines pEnts).map some ++ [none])) else .error .outside := by
  have hwrite := writeAll_eq [] (List.replicate ((seenLines pEnts).length % 4294967296 + 1)
    (none : Option Bytes)) ((seenLines pEnts).map some)
  simp only [List.nil_append, List.length_nil, List.length_map, List.length_replicate,
    List.drop_replicate] at hwrite
  rw [afterReading_none, allocatePointers_of_countable h]
  simp only [bail, bind, Except.bind]
  rw [Countable] at h
  rw [hwrite]
  by_cases hless : (seenLines pEnts).length < 4294967296
  · rw [if_pos (by omega), if_pos hless,
      show (seenLines pEnts).length % 4294967296 + 1 - (seenLines pEnts).length = 1 by omega]
    rfl
  · rw [if_neg (by omega), if_neg hless]
    rfl

end Ends

section Views

variable {entries : List Entry}

theorem seen_append_unseen (pEnt : Entry) : seen pEnt ++ unseen pEnt = textOf pEnt := by
  have hstart : seen pEnt <+: textOf pEnt :=
    (List.takeWhile_prefix _).trans (List.take_prefix _ _)
  obtain ⟨rest, hrest⟩ := hstart
  rw [unseen, ← hrest, List.drop_left]

/-- Of each file what is read and what is not -/
def views (entries : List Entry) : List (Bytes × Bytes) :=
  (filesRead entries).map (fun pEnt => (seen pEnt, unseen pEnt)) ++
    (filesLeft entries).map fun pEnt => ([], textOf pEnt)

theorem seenLines_eq : seenLines (filesRead entries) =
    (views entries).flatMap fun v => tokens newline v.1 := by
  rw [views, List.flatMap_append, List.flatMap_map, List.flatMap_map, seenLines]
  simp [tokens_nil]

theorem confLines_eq : confLines entries =
    (views entries).flatMap fun v => tokens newline (v.1 ++ v.2) := by
  have hsplit : entries.filter isConf = filesRead entries ++ filesLeft entries :=
    (List.take_append_drop _ _).symm
  rw [views, List.flatMap_append, List.flatMap_map, List.flatMap_map, confLines, hsplit,
    List.flatMap_append]
  simp only [seen_append_unseen, List.nil_append]

/-- No line is lost exactly if nothing is left out but newlines. -/
theorem seenLines_eq_iff : seenLines (filesRead entries) = confLines entries ↔ AllSeen entries := by
  rw [seenLines_eq, confLines_eq, flatMap_tokens_eq_iff, views]
  constructor
  · intro h
    exact ⟨fun pEnt he => h _ (List.mem_append_left _ (List.mem_map_of_mem he)),
      fun pEnt he => h _ (List.mem_append_right _ (List.mem_map_of_mem he))⟩
  · rintro ⟨hread, hleft⟩ v hv
    rcases List.mem_append.mp hv with hmem | hmem
    · obtain ⟨pEnt, he, rfl⟩ := List.mem_map.mp hmem
      exact hread pEnt he
    · obtain ⟨pEnt, he, rfl⟩ := List.mem_map.mp hmem
      exact hleft pEnt he

end Views

/-- The string in an array that ends with its terminator -/
theorem stringAt_lines (lines : List Bytes) :
    stringAt none (lines.map some ++ [none]) 0 = some (lines.map some) := by
  have hnone : none ∉ lines.map some := by simp
  exact stringAt_eq_some_iff.mpr ⟨hnone, [], rfl⟩

theorem linesIn_none : linesIn none = [] := rfl

/-- The lines are read right exactly when, where reading does not fail, there is no preset array,
the lines are fewer than 2³², and no file has more text than is read of it but newlines. -/
theorem readsRight_iff (opendir : Text → Option (List Entry)) (pszDir : Text)
    (preset : Option StringArray) :
    ReadsRight opendir pszDir preset ↔ Served opendir pszDir preset := by
  constructor
  · intro h entries hdir hopen hcount hread
    have hcall := call_eq preset hdir hopen hcount hread
    cases preset with
    | some cells =>
        rw [afterReading_preset] at hcall
        exact absurd hcall h.inside
    | none =>
        refine ⟨rfl, fun hlines => ?_⟩
        rw [afterReading_countable _ hlines] at hcall
        split_ifs at hcall with hless
        · obtain ⟨cells, hcells, hstring⟩ := h.lines entries _ hopen hcall
          cases hcells
          rw [stringAt_lines, linesIn_none, List.append_nil, Option.some.injEq] at hstring
          have hsame := List.map_injective_iff.mpr (fun _ _ => Option.some.inj) hstring
          exact ⟨hless, seenLines_eq_iff.mp hsame⟩
        · exact absurd hcall h.inside
  · intro h
    by_cases hdir : pszDir = []
    · have hcall : readConfFilesFromDir opendir pszDir preset =
          .error (.code .invalidParameter) := by
        rw [readConfFilesFromDir, if_pos hdir]
      exact ⟨by simp [hcall], by simp [hcall], fun _ hne => absurd hdir hne⟩
    cases hopen : opendir pszDir with
    | none =>
        have hcall : readConfFilesFromDir opendir pszDir preset = .ok preset := by
          rw [readConfFilesFromDir, if_neg hdir, hopen]
        exact ⟨by simp [hcall], by simp [hopen], fun _ _ => hcall⟩
    | some entries =>
        have hkept : opendir pszDir = none → pszDir ≠ [] →
            readConfFilesFromDir opendir pszDir preset = .ok preset := by simp [hopen]
        by_cases hok : Countable (entries.filter isConf).length ∧
            ∀ pEnt ∈ filesRead entries, Readable pEnt
        · obtain ⟨rfl, hlines⟩ := h entries hdir hopen hok.1 hok.2
          have hcall := call_eq none hdir hopen hok.1 hok.2
          by_cases hcount : Countable (seenLines (filesRead entries)).length
          · obtain ⟨hless, hall⟩ := hlines hcount
            rw [afterReading_countable _ hcount, if_pos hless, seenLines_eq_iff.mpr hall] at hcall
            refine ⟨by simp [hcall], fun entries' result hopen' hresult => ?_, hkept⟩
            obtain rfl : entries = entries' := Option.some.inj (hopen.symm.trans hopen')
            rw [hcall] at hresult
            cases hresult
            refine ⟨_, rfl, ?_⟩
            rw [stringAt_lines, linesIn_none, List.append_nil]
          · obtain ⟨e, he⟩ := afterReading_fails _ hcount
            rw [he] at hcall
            exact ⟨by simp [hcall], by simp [hcall], hkept⟩
        · obtain ⟨e, he⟩ := call_fails preset hdir hopen hok
          exact ⟨by simp [he], by simp [he], hkept⟩

/-- A directory with one file, which has one line. -/
def oneFile (_ : Text) : Option (List Entry) :=
  some [⟨"test.conf".toList, ⟨.ok (Json.ascii "foo=1.2\n"), 0⟩⟩]

/-- With a preset line the cell behind the last array is read. -/
theorem preset_reads_outside :
    ¬ ReadsRight oneFile "minversions.d".toList (some [some (Json.ascii "bar=1.0"), none]) := by
  intro h
  have hread : ∀ pEnt ∈ filesRead [⟨"test.conf".toList, ⟨.ok (Json.ascii "foo=1.2\n"), 0⟩⟩],
      Readable pEnt := by
    intro pEnt he
    have hmem := List.mem_singleton.mp (List.mem_filter.mp (List.mem_of_mem_take he)).1
    exact ⟨Json.ascii "foo=1.2\n", by rw [hmem], by rw [Countable]; decide⟩
  have hcall : readConfFilesFromDir oneFile "minversions.d".toList
      (some [some (Json.ascii "bar=1.0"), none]) = _ :=
    call_eq _ (by decide) rfl (by rw [Countable]; decide +kernel) hread
  exact h.inside (hcall.trans (afterReading_preset _ _))

end ConfFiles

end Tdnf.Client
