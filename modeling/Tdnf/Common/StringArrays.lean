import Tdnf.Common.FileText
import Tdnf.Common.Integers
import Tdnf.Library.Buffer
import Tdnf.Library.Comparison
import Tdnf.Library.Runs
import Mathlib.Data.List.Dedup

/-!
# Splitting and joining strings

`TDNFSplitStringToArray` counts the parts of a string in a first scan and copies
them in a second one. The functions that join strings compute the size of the
result in an `int`, in one loop, and copy in another. A string is the list of its
bytes before the NUL, an array of strings a list of cells that hold NULL or a
string.
-/

namespace Tdnf.StringArrays

open Json (Bytes)
open Buffer Comparison Runs
open Common

/-- A `char **` and what follows it in memory. -/
abbrev Cells := List (Option Bytes)

/-- `strchr(pszSep, c)`, for a character that is not NUL -/
def isSep (pszSep : Bytes) (c : UInt8) : Bool := pszSep.contains c

/-- The loop of `TDNFStringSepCount` -/
def sepCountLoop (pszSep pszTemp : Bytes) (nCount : ℕ) : ℕ :=
  match h : pszTemp.dropWhile (isSep pszSep) with
  | [] => nCount
  | _ :: rest => sepCountLoop pszSep (rest.dropWhile fun c => !isSep pszSep c) (nCount + 1)
termination_by pszTemp.length
decreasing_by exact length_dropWhile_lt h

/-- `TDNFStringSepCount` -/
def stringSepCount (pszBuf pszSep : Option Bytes) : Except Trap ℕ :=
  match pszBuf, pszSep with
  | some buf, some sep =>
    if sep = [] then .error (.code .invalidParameter) else .ok (sepCountLoop sep buf 0)
  | _, _ => .error (.code .invalidParameter)

/-- The loop of `TDNFSplitStringToArray`, with the array and `i` at its end -/
def splitLoop (pszSep p : Bytes) (ppszToks : Cells) (i : ℕ) : Except Trap (Cells × ℕ) :=
  match h : p.dropWhile (isSep pszSep) with
  | [] => .ok (ppszToks, i)
  | c :: rest => do
    let token := c :: rest.takeWhile fun c => !isSep pszSep c
    let ppszToks ← within (write ppszToks i (some token))
    splitLoop pszSep (rest.dropWhile fun c => !isSep pszSep c) ppszToks (i + 1)
termination_by p.length
decreasing_by exact length_dropWhile_lt h

/-- `TDNFSplitStringToArray` -/
def splitStringToArray (pszBuf pszSep : Option Bytes) : Except Trap Cells :=
  match pszBuf, pszSep with
  | some buf, some sep =>
    if sep = [] then .error (.code .invalidParameter)
    else do
      let n ← stringSepCount (some buf) (some sep)
      let ppszToks ← allocateMemory (n + 1) 8 (List.replicate (n + 1) none)
      let (ppszToks, i) ← splitLoop sep buf ppszToks 0
      within (write ppszToks i none)
  | _, _ => .error (.code .invalidParameter)

/-- An `int` that is taken for a `size_t` -/
def sizeT (n : ℤ) : ℕ := (n % 18446744073709551616).toNat

/-- `strcpy(&buf[p], s)` -/
def strcpy (buf : Bytes) (p : ℤ) (s : Bytes) : Except Trap Bytes :=
  if p < 0 then .error .outside else within (writeAll buf p.toNat (s ++ [0]))

/-- The first loop of `TDNFJoinArrayToString`, over the cells from `i` on -/
def joinSizeLoop (count : ℤ) : Cells → ℤ → ℤ → Except Trap ℤ
  | [], i, nSize => if i < count then .error .outside else .ok nSize
  | none :: _, _, nSize => .ok nSize
  | some s :: cells, i, nSize =>
    if i < count then joinSizeLoop count cells (i + 1) (wrapInt (nSize + s.length)) else .ok nSize

/-- `i < count-1 && ppszArray[i+1]`, with the cells behind `ppszArray[i]` -/
def follows (count i : ℤ) (cells : Cells) : Except Trap Bool :=
  if i < count - 1 then within (cells.head?.map Option.isSome) else .ok false

/-- The second loop of `TDNFJoinArrayToString`, over the cells from `i` on -/
def joinCopyLoop (pszSep : Bytes) (nSepSize count : ℤ) :
    Cells → ℤ → ℤ → Bytes → Except Trap Bytes
  | [], i, _, pszResult => if i < count then .error .outside else .ok pszResult
  | none :: _, _, _, pszResult => .ok pszResult
  | some s :: cells, i, p, pszResult =>
    if i < count then do
      let pszResult ← strcpy pszResult p s
      let p := wrapInt (p + s.length)
      if ← follows count i cells then do
        let pszResult ← strcpy pszResult p pszSep
        let p ← asInt (p + nSepSize)
        joinCopyLoop pszSep nSepSize count cells (i + 1) p pszResult
      else joinCopyLoop pszSep nSepSize count cells (i + 1) p pszResult
    else .ok pszResult

/-- `TDNFJoinArrayToString`, with the memory of the result -/
def joinArrayToString (ppszArray : Option Cells) (pszSep : Option Bytes) (count : ℤ) :
    Except Trap Bytes :=
  match ppszArray, pszSep with
  | some cells, some sep => do
    let nSepSize := wrapInt sep.length
    let nSize ← asInt (nSepSize * count)
    let nSize ← joinSizeLoop count cells 0 nSize
    let nSize ← asInt (nSize + 1)
    let pszResult ← allocateMemory (sizeT nSize) 1 (List.replicate (sizeT nSize) 0)
    joinCopyLoop sep nSepSize count cells 0 0 pszResult
  | _, _ => .error (.code .invalidParameter)

/-- `for (i = 0; ppszArray[i]; i++)` -/
def countCells : Cells → ℤ → Except Trap ℤ
  | [], _ => .error .outside
  | none :: _, i => .ok i
  | some _ :: cells, i => do
    let i ← asInt (i + 1)
    countCells cells i

/-- `strcmp` -/
def strcmp : Bytes → Bytes → ℤ := textually UInt8.toNat

/-- `_cmpstringp`, as far as a sorting function reads it -/
def cmpstringp (s t : Bytes) : Bool := strcmp s t ≤ 0

/-- `TDNFStringArraySort`, with `qsort` -/
def stringArraySort (ppszArray : Cells) : Except Trap Cells := do
  let nCount ← countCells ppszArray 0
  let strings := (ppszArray.take nCount.toNat).filterMap id
  .ok ((strings.mergeSort cmpstringp).map some ++ ppszArray.drop nCount.toNat)

/-- `i == 0 || strcmp(ppszLines[i], ppszLines[i-1])` -/
def differs (before : Option Bytes) (s : Bytes) : Bool :=
  match before with
  | none => true
  | some t => strcmp s t ≠ 0

/-- The first loop of `TDNFJoinArrayToStringSorted` over the sorted cells, behind `before` -/
def sortedSizeLoop : Option Bytes → Cells → ℤ → Except Trap ℤ
  | _, [], _ => .error .outside
  | _, none :: _, nSize => .ok nSize
  | before, some s :: cells, nSize =>
    sortedSizeLoop (some s) cells
      (if differs before s then wrapInt (nSize + s.length) else nSize)

/-- The second loop of `TDNFJoinArrayToStringSorted` over the sorted cells, behind `before` -/
def sortedCopyLoop (pszSep : Bytes) (nSepSize : ℤ) :
    Option Bytes → Cells → ℤ → Bytes → Except Trap Bytes
  | _, [], _, _ => .error .outside
  | _, none :: _, _, pszResult => .ok pszResult
  | none, some s :: cells, p, pszResult => do
    let pszResult ← strcpy pszResult p s
    sortedCopyLoop pszSep nSepSize (some s) cells (wrapInt (p + s.length)) pszResult
  | some t, some s :: cells, p, pszResult =>
    if strcmp s t ≠ 0 then do
      let pszResult ← strcpy pszResult p pszSep
      let p ← asInt (p + nSepSize)
      let pszResult ← strcpy pszResult p s
      sortedCopyLoop pszSep nSepSize (some s) cells (wrapInt (p + s.length)) pszResult
    else sortedCopyLoop pszSep nSepSize (some s) cells p pszResult

/-- `TDNFJoinArrayToStringSorted` -/
def joinArrayToStringSorted (ppszDependencies : Option Cells) (pszSep : Bytes) :
    Except Trap Bytes :=
  match ppszDependencies with
  | none => .ok []
  | some cells => do
    let nCount ← countCells cells 0
    if 0 < nCount then do
      let nLines ← asInt (nCount + 1)
      let ppszLines ← allocateMemory (sizeT nLines) 8 (List.replicate (sizeT nLines) none)
      let ppszLines ← within (writeAll ppszLines 0 (cells.takeWhile Option.isSome))
      let ppszLines ← stringArraySort ppszLines
      let nSepSize := wrapInt pszSep.length
      let nSize ← asInt (nSepSize * nLines)
      let nSize ← sortedSizeLoop none ppszLines nSize
      let nSize ← asInt (nSize + 1)
      let pszResult ← allocateMemory (sizeT nSize) 1 (List.replicate (sizeT nSize) 0)
      let pszResult ← sortedCopyLoop pszSep nSepSize none ppszLines 0 pszResult
      within (stringAt 0 pszResult 0)
    else .ok []

/-! ## What the functions promise -/

/-- The array holds the runs of the string, and NULL behind them. -/
def SplitRight (s sep : Bytes) : Prop :=
  splitStringToArray (some s) (some sep) = .ok ((runs (isSep sep) s).map some ++ [none])

/-- The array begins with the strings, and they end at NULL or at the count. -/
def IsArray (cells : Cells) (count : ℤ) (ws : List Bytes) : Prop :=
  ∃ more, cells = ws.map some ++ more ∧
    (count = ws.length ∨ ws.length < count ∧ more.head? = some none)

/-- Splitting the joined string gives the strings back. -/
def JoinRight (cells : Cells) (count : ℤ) (ws : List Bytes) (c : UInt8) : Prop :=
  ∃ memory s, joinArrayToString (some cells) (some [c]) count = .ok memory ∧
    stringAt 0 memory 0 = some s ∧
    splitStringToArray (some s) (some [c]) = .ok (ws.map some ++ [none])

/-- The result is the distinct strings in sorted order, separated. -/
def SortedRight (cells : Cells) (ws : List Bytes) (sep : Bytes) : Prop :=
  ∃ distinct : List Bytes, (distinct.Pairwise fun s t => strcmp s t < 0) ∧
    (∀ w, w ∈ distinct ↔ w ∈ ws) ∧
    joinArrayToStringSorted (some cells) sep = .ok (sep.intercalate distinct)

/-! ## When the sizes fit -/

/-- There is memory for the pointers to the runs. -/
def SplitFits (s sep : Bytes) : Prop :=
  ((runs (isSep sep) s).length + 1) * 8 ≤ 9223372036854775807

/-- The size that is computed for the joined string is an `int`. -/
def JoinFits (count : ℤ) (ws : List Bytes) : Prop :=
  count + ws.flatten.length + 1 ≤ 2147483647

/-- The size that is computed for the sorted strings is an `int`, and so is the length of the
separator unless there is nothing to separate. -/
structure SizeFits (ws : List Bytes) (sep : Bytes) : Prop where
  lines : (ws.length : ℤ) + 1 ≤ 2147483647
  separator : 0 ≤ wrapInt sep.length
  size : wrapInt sep.length * (ws.length + 1) + ws.dedup.flatten.length + 1 ≤ 2147483647
  whole : wrapInt sep.length = sep.length ∨ ws.dedup.length = 1

def SortedFits (ws : List Bytes) (sep : Bytes) : Prop := ws = [] ∨ SizeFits ws sep

/-! ## Splitting -/

section Split

variable {s sep : Bytes}

theorem sepCountLoop_eq (sep s : Bytes) (nCount : ℕ) :
    sepCountLoop sep s nCount = nCount + (runs (isSep sep) s).length := by
  fun_induction sepCountLoop sep s nCount with
  | case1 s nCount h => rw [runs_of_dropWhile_nil h, List.length_nil, Nat.add_zero]
  | case2 s nCount c rest h ih =>
      rw [ih, runs_of_dropWhile_cons h, List.length_cons]
      omega

/-- The second scan fills the cells that the first one has counted. -/
theorem splitLoop_eq (sep s : Bytes) (done old : Cells)
    (hroom : (runs (isSep sep) s).length ≤ old.length) :
    splitLoop sep s (done ++ old) done.length =
      .ok (done ++ ((runs (isSep sep) s).map some ++ old.drop (runs (isSep sep) s).length),
        done.length + (runs (isSep sep) s).length) := by
  generalize htoks : done ++ old = toks
  generalize hi : done.length = i
  fun_induction splitLoop sep s toks i generalizing done old with
  | case1 s toks i h =>
      subst htoks hi
      rw [runs_of_dropWhile_nil h]
      rfl
  | case2 s toks i c rest h token ih =>
      subst htoks hi
      rw [runs_of_dropWhile_cons h] at hroom ⊢
      cases old with
      | nil => cases hroom
      | cons cell old =>
          simp only [write_middle, within, bind, Except.bind]
          rw [List.length_cons, List.length_cons] at hroom
          have hnext := ih (done ++ some token :: old) (done ++ [some token]) old (by omega)
            (by simp) (by simp)
          rw [hnext]
          simp only [List.length_cons, List.map_cons, List.append_assoc, List.cons_append,
            List.nil_append, List.drop_succ_cons, Nat.add_assoc, Nat.add_comm 1]
          rfl

theorem splitStringToArray_eq (hsep : sep ≠ []) (s : Bytes) :
    splitStringToArray (some s) (some sep) =
      allocateMemory ((runs (isSep sep) s).length + 1) 8
        ((runs (isSep sep) s).map some ++ [none]) := by
  have hcount : stringSepCount (some s) (some sep) = .ok (runs (isSep sep) s).length := by
    simp only [stringSepCount, if_neg hsep, sepCountLoop_eq, Nat.zero_add]
  have hloop := splitLoop_eq sep s []
    (List.replicate ((runs (isSep sep) s).length + 1) none) (by simp)
  simp only [List.nil_append, List.length_nil, Nat.zero_add, List.drop_replicate,
    Nat.add_sub_cancel_left, List.replicate_one] at hloop
  have hlast : write ((runs (isSep sep) s).map some ++ [none])
      ((runs (isSep sep) s).map some).length none =
        some ((runs (isSep sep) s).map some ++ [none]) := write_middle
  rw [List.length_map] at hlast
  simp only [splitStringToArray, if_neg hsep, hcount, bind, Except.bind]
  obtain hmemory | ⟨trap, hmemory⟩ :=
    allocateMemory_cases ((runs (isSep sep) s).length + 1) 8
  · simp only [hmemory, hloop, hlast]
    rfl
  · simp only [hmemory]

theorem splitRight_iff (hsep : sep ≠ []) : SplitRight s sep ↔ SplitFits s sep := by
  rw [SplitRight, splitStringToArray_eq hsep, allocateMemory_eq_ok_iff, SplitFits]
  omega

end Split

/-! ## Copying -/

section Copy

variable {m m' a b : Bytes} {p : ℤ}

theorem strcpy_ok (h : strcpy m p a = .ok m') :
    0 ≤ p ∧ p + a.length < m.length ∧ m'.length = m.length := by
  rw [strcpy] at h
  split at h
  · cases h
  · cases hwrite : writeAll m p.toNat (a ++ [0]) with
    | none =>
        rw [hwrite] at h
        cases h
    | some m'' =>
        rw [hwrite] at h
        cases h
        obtain ⟨hlength, hempty | hroom⟩ := writeAll_some hwrite
        · simp at hempty
        · simp only [List.length_append, List.length_singleton] at hroom
          omega

/-- A string that is copied over the NUL of another one continues it. -/
theorem strcpy_append (hp : 0 ≤ p) (m a b : Bytes) :
    ((strcpy m p a).bind fun m => strcpy m (p + a.length) b) = strcpy m p (a ++ b) := by
  have hnext : (p + a.length).toNat = p.toNat + a.length := by omega
  obtain ⟨c, rest, hb⟩ : ∃ c rest, b ++ [0] = c :: rest :=
    List.exists_cons_of_ne_nil (by simp)
  have hbehind (m : Bytes) : strcpy m (p + a.length) b =
      within (writeAll m (p.toNat + a.length) (c :: rest)) := by
    rw [strcpy, if_neg (by omega), hnext, hb]
  rw [strcpy, strcpy, if_neg (by omega), if_neg (by omega), List.append_assoc, hb,
    writeAll_append, writeAll_append]
  cases writeAll m p.toNat a with
  | none => rfl
  | some m1 =>
      have hover := write_writeAll m1 (p.toNat + a.length) 0 c rest
      simp only [Option.bind_some, writeAll, hbehind] at hover ⊢
      cases hwrite : write m1 (p.toNat + a.length) 0 with
      | none =>
          rw [hwrite] at hover
          rw [Option.bind_none, ← hover]
          rfl
      | some m2 =>
          rw [hwrite] at hover
          rw [Option.bind_some, ← hover]
          rfl

/-- The position behind a copied string is an `int`. -/
theorem wrapInt_behind (hm : m.length ≤ 2147483647) (h : strcpy m p a = .ok m') :
    wrapInt (p + a.length) = p + a.length := by
  obtain ⟨hp, hroom, -⟩ := strcpy_ok h
  exact wrapInt_of_range (by omega) (by omega)

/-- So is the position behind a copied separator. -/
theorem asInt_behind (hm : m.length ≤ 2147483647) (h : strcpy m p a = .ok m') :
    asInt (p + wrapInt a.length) = .ok (p + a.length) := by
  obtain ⟨hp, hroom, -⟩ := strcpy_ok h
  rw [wrapInt_of_range (by omega) (by omega)]
  exact asInt_of_le (by omega) (by omega)

end Copy

/-! ## One separator -/

theorem isSep_singleton {c d : UInt8} : isSep [c] d = true ↔ d = c := by
  simp [isSep]

/-- The tokens that other modules split a string into at one separator. -/
theorem splitStringToArray_tokens (s : Bytes) (c : UInt8) :
    splitStringToArray (some s) (some [c]) =
      allocateMemory ((Tokens.tokens c s).length + 1) 8
        ((Tokens.tokens c s).map some ++ [none]) := by
  rw [splitStringToArray_eq (List.cons_ne_nil c []),
    runs_eq_tokens (fun d => isSep_singleton) s]

/-! ## The loops of `TDNFJoinArrayToString` -/

section Join

variable {count i n p : ℤ} {ws : List Bytes} {more : Cells} {sep m : Bytes}

/-- The strings from `i` on end at NULL or at the count. -/
def Ends (count i : ℤ) (ws : List Bytes) (more : Cells) : Prop :=
  count = i + ws.length ∨ i + ws.length < count ∧ more.head? = some none

theorem Ends.next {w : Bytes} (h : Ends count i (w :: ws) more) :
    i < count ∧ Ends count (i + 1) ws more := by
  simp only [Ends, List.length_cons, Int.natCast_add, Int.natCast_one] at h ⊢
  obtain hcount | ⟨hlt, hmore⟩ := h
  · exact ⟨by omega, .inl (by omega)⟩
  · exact ⟨by omega, .inr ⟨by omega, hmore⟩⟩

theorem joinSizeLoop_eq (h : Ends count i ws more) (n : ℤ) :
    joinSizeLoop count (ws.map some ++ more) i (wrapInt n) =
      .ok (wrapInt (n + ws.flatten.length)) := by
  induction ws generalizing i n with
  | nil =>
      rw [List.map_nil, List.nil_append, List.flatten_nil, List.length_nil]
      simp only [Int.natCast_zero, Int.add_zero]
      obtain hcount | ⟨-, hmore⟩ := h
      · cases more with
        | nil => rw [joinSizeLoop, if_neg (by simp at hcount; omega)]
        | cons cell more =>
            cases cell with
            | none => rw [joinSizeLoop]
            | some s => rw [joinSizeLoop, if_neg (by simp at hcount; omega)]
      · obtain ⟨cells, rfl⟩ := List.head?_eq_some_iff.mp hmore
        rw [joinSizeLoop]
  | cons w ws ih =>
      obtain ⟨hlt, hnext⟩ := h.next
      have hwrap : wrapInt (wrapInt n + w.length) = wrapInt (n + w.length) := Int.bmod_add_bmod
      rw [List.map_cons, List.cons_append, joinSizeLoop, if_pos hlt, hwrap, ih hnext,
        List.flatten_cons, List.length_append, Int.natCast_add, Int.add_assoc]

/-- Behind the strings the loop ends. -/
theorem joinCopyLoop_end (h : Ends count i [] more) :
    joinCopyLoop sep (wrapInt sep.length) count more i p m = .ok m := by
  obtain hcount | ⟨-, hmore⟩ := h
  · cases more with
    | nil => rw [joinCopyLoop, if_neg (by simp at hcount; omega)]
    | cons cell more =>
        cases cell with
        | none => rw [joinCopyLoop]
        | some s => rw [joinCopyLoop, if_neg (by simp at hcount; omega)]
  · obtain ⟨cells, rfl⟩ := List.head?_eq_some_iff.mp hmore
    rw [joinCopyLoop]

/-- Behind the last string no separator follows. -/
theorem follows_end (h : Ends count (i + 1) [] more) : follows count i more = .ok false := by
  rw [follows]
  simp only [Ends, List.length_nil, Int.natCast_zero, Int.add_zero] at h
  obtain hcount | ⟨hlt, hmore⟩ := h
  · rw [if_neg (by omega)]
  · rw [if_pos (by omega), hmore]
    rfl

/-- The loop copies the strings with separators between them. -/
theorem joinCopyLoop_eq (hm : m.length ≤ 2147483647) (hp : 0 ≤ p) (hne : ws ≠ [])
    (h : Ends count i ws more) :
    joinCopyLoop sep (wrapInt sep.length) count (ws.map some ++ more) i p m =
      strcpy m p (sep.intercalate ws) := by
  induction ws generalizing i p m with
  | nil => exact absurd rfl hne
  | cons w ws ih =>
      obtain ⟨hlt, hnext⟩ := h.next
      rw [List.map_cons, List.cons_append, joinCopyLoop, if_pos hlt]
      cases ws with
      | nil =>
          rw [List.intercalate_singleton, List.map_nil, List.nil_append, follows_end hnext]
          cases strcpy m p w with
          | error trap => rfl
          | ok m1 => exact joinCopyLoop_end hnext
      | cons v ws =>
          obtain ⟨hlt', -⟩ := hnext.next
          have hfollows : follows count i ((v :: ws).map some ++ more) = .ok true :=
            if_pos (by omega)
          rw [hfollows, List.intercalate_cons_cons, List.append_assoc, ← strcpy_append hp]
          cases hcopy : strcpy m p w with
          | error trap => rfl
          | ok m1 =>
              obtain ⟨-, -, hlength⟩ := strcpy_ok hcopy
              simp only [bind, Except.bind, if_true]
              rw [wrapInt_behind hm hcopy, ← strcpy_append (by omega)]
              cases hsep : strcpy m1 (p + w.length) sep with
              | error trap => rfl
              | ok m2 =>
                  obtain ⟨-, -, hlength'⟩ := strcpy_ok hsep
                  simp only [asInt_behind (by omega) hsep]
                  exact ih (by omega) (by omega) (List.cons_ne_nil v ws) hnext

end Join

/-! ## Memory of the computed size -/

section Size

variable {n : ℤ} {m text : Bytes}

theorem strcpy_fresh (k : ℕ) (text : Bytes) : strcpy (List.replicate k 0) 0 text =
    if text.length + 1 ≤ k then .ok (text ++ 0 :: List.replicate (k - (text.length + 1)) 0)
    else .error .outside := by
  have hwrite := writeAll_eq [] (List.replicate k 0) (text ++ [0])
  simp only [List.nil_append, List.length_nil, List.length_append, List.length_singleton,
    List.length_replicate, List.drop_replicate, List.append_assoc, List.singleton_append] at hwrite
  rw [strcpy, if_neg (Int.lt_irrefl 0), Int.toNat_zero, hwrite]
  split <;> rfl

theorem sizeT_of_pos (h : 0 < n) (h' : n ≤ 2147483647) : sizeT n = n.toNat := by
  rw [sizeT]
  omega

/-- There is memory of any positive size that is an `int`. -/
theorem allocateMemory_pos {α : Type} (h : 0 < n) (h' : n ≤ 2147483647) (cells : List α) :
    allocateMemory (sizeT n) 1 cells = .ok cells := by
  rw [allocateMemory_eq_ok_iff, sizeT_of_pos h h']
  omega

/-- No memory is asked for, or more than there is. -/
theorem allocateMemory_nonpos {α : Type} (h : n ≤ 0) (h' : -2147483648 ≤ n) (cells : List α) :
    ∃ trap, allocateMemory (sizeT n) 1 cells = .error trap := by
  obtain hall | ⟨trap, htrap⟩ := allocateMemory_cases (sizeT n) 1
  · have hok := allocateMemory_eq_ok_iff.mp (hall cells)
    rw [sizeT] at hok
    omega
  · exact ⟨trap, htrap cells⟩

/-- Copy a text to memory of the size that was computed for it, without its NUL. -/
def copySized (nSize : ℤ) (text : Bytes) : Except Trap Bytes := do
  let nSize ← asInt (nSize + 1)
  let memory ← allocateMemory (sizeT nSize) 1 (List.replicate (sizeT nSize) 0)
  strcpy memory 0 text

/-- A loop that copies the text does so. -/
theorem copySized_of_loop {copy : Bytes → Except Trap Bytes} (n : ℤ)
    (hcopy : ∀ k : ℕ, 0 < k → k ≤ 2147483647 →
      copy (List.replicate k 0) = strcpy (List.replicate k 0) 0 text) :
    ((asInt (n + 1)).bind fun nSize =>
      (allocateMemory (sizeT nSize) 1 (List.replicate (sizeT nSize) 0)).bind copy) =
        copySized n text := by
  rw [copySized]
  cases hnext : asInt (n + 1) with
  | error trap => rfl
  | ok nSize =>
      obtain ⟨hlow, hhigh, rfl⟩ := asInt_eq_ok_iff.mp hnext
      simp only [bind, Except.bind]
      by_cases hpos : 0 < n + 1
      · rw [allocateMemory_pos hpos hhigh, sizeT_of_pos hpos hhigh]
        exact hcopy _ (by omega) (by omega)
      · obtain ⟨trap, htrap⟩ := allocateMemory_nonpos (Int.not_lt.mp hpos) hlow
          (List.replicate (sizeT (n + 1)) (0 : UInt8))
        rw [htrap]

theorem copySized_ok_iff (h : -2147483648 ≤ n) (h' : n ≤ 2147483647) :
    copySized n text = .ok m ↔ n < 2147483647 ∧ text.length ≤ n ∧
      m = text ++ 0 :: List.replicate (n.toNat - text.length) 0 := by
  rw [copySized]
  by_cases hmax : n = 2147483647
  · rw [asInt_of_lt (by omega)]
    refine iff_of_false (fun hok => ?_) (by omega)
    cases hok
  · have hrange : asInt (n + 1) = .ok (n + 1) := if_pos (by omega)
    rw [hrange]
    simp only [bind, Except.bind]
    by_cases hpos : 0 < n + 1
    · have hsize : sizeT (n + 1) = n.toNat + 1 := by
        rw [sizeT_of_pos hpos (by omega)]
        omega
      have hmemory := allocateMemory_pos hpos (by omega)
        (List.replicate (n.toNat + 1) (0 : UInt8))
      rw [hsize] at hmemory ⊢
      simp only [hmemory, strcpy_fresh, Nat.add_le_add_iff_right, Nat.add_sub_add_right]
      by_cases hroom : text.length ≤ n.toNat
      · rw [if_pos hroom, Except.ok.injEq, eq_comm]
        have hlt : n < 2147483647 := by omega
        have hle : (text.length : ℤ) ≤ n := by omega
        rw [and_iff_right hlt, and_iff_right hle]
      · rw [if_neg hroom]
        refine iff_of_false (fun hok => ?_) (by omega)
        cases hok
    · obtain ⟨trap, htrap⟩ := allocateMemory_nonpos (Int.not_lt.mp hpos) (by omega)
        (List.replicate (sizeT (n + 1)) (0 : UInt8))
      simp only [htrap]
      refine iff_of_false (fun hok => ?_) (by omega)
      cases hok

theorem stringAt_text (htext : 0 ∉ text) (more : Bytes) :
    stringAt 0 (text ++ 0 :: more) 0 = some text :=
  stringAt_eq_some_iff.mpr ⟨htext, more, rfl⟩

/-- What was copied is read back. -/
theorem stringAt_copySized (htext : 0 ∉ text) (h : -2147483648 ≤ n) (h' : n ≤ 2147483647)
    (hm : copySized n text = .ok m) : stringAt 0 m 0 = some text := by
  obtain ⟨-, -, rfl⟩ := (copySized_ok_iff h h').mp hm
  exact stringAt_text htext _

end Size

/-! ## `TDNFJoinArrayToString` -/

section JoinArray

variable {count : ℤ} {ws : List Bytes} {cells : Cells} {sep : Bytes} {c : UInt8}

theorem joinArrayToString_steps (cells : Cells) (sep : Bytes) (count : ℤ) :
    joinArrayToString (some cells) (some sep) count =
      (asInt (wrapInt sep.length * count)).bind fun nSize =>
        (joinSizeLoop count cells 0 nSize).bind fun nSize => (asInt (nSize + 1)).bind fun nSize =>
          (allocateMemory (sizeT nSize) 1 (List.replicate (sizeT nSize) 0)).bind fun pszResult =>
            joinCopyLoop sep (wrapInt sep.length) count cells 0 0 pszResult := rfl

theorem ok_bind {α β : Type} (a : α) (f : α → Except Trap β) : (Except.ok a).bind f = f a := rfl

theorem error_bind {α β : Type} (trap : Trap) (f : α → Except Trap β) :
    (Except.error trap : Except Trap α).bind f = .error trap := rfl

theorem bind_eq_ok_iff {α β : Type} {x : Except Trap α} {f : α → Except Trap β} {b : β} :
    x.bind f = .ok b ↔ ∃ a, x = .ok a ∧ f a = .ok b := by
  cases x with
  | error trap =>
      rw [error_bind]
      simp
  | ok a =>
      rw [ok_bind]
      simp

theorem bind_bind {α β γ : Type} (x : Except Trap α) (f : α → Except Trap β)
    (g : β → Except Trap γ) : (x.bind f).bind g = x.bind fun a => (f a).bind g := by
  cases x <;> rfl

theorem joinArrayToString_eq (h : IsArray cells count ws) (sep : Bytes) :
    joinArrayToString (some cells) (some sep) count =
      (asInt (wrapInt sep.length * count)).bind fun size =>
        copySized (wrapInt (size + ws.flatten.length)) (sep.intercalate ws) := by
  obtain ⟨more, rfl, hcount⟩ := h
  have hends : Ends count 0 ws more := by simpa [Ends] using hcount
  rw [joinArrayToString_steps]
  generalize hfactor : wrapInt sep.length = nSepSize
  cases hproduct : asInt (nSepSize * count) with
  | error trap => rfl
  | ok size =>
      obtain ⟨hlow, hhigh, rfl⟩ := asInt_eq_ok_iff.mp hproduct
      have hloop := joinSizeLoop_eq hends (nSepSize * count)
      rw [wrapInt_of_range hlow hhigh] at hloop
      rw [ok_bind, ok_bind, hloop, ok_bind]
      refine copySized_of_loop _ fun k hpos hmax => ?_
      by_cases hws : ws = []
      · subst hws
        obtain ⟨k, rfl⟩ := Nat.exists_eq_succ_of_ne_zero hpos.ne'
        rw [List.map_nil, List.nil_append, ← hfactor, joinCopyLoop_end hends, List.intercalate_nil,
          strcpy_fresh, if_pos (by simp)]
        simp [List.replicate_succ]
      · rw [← hfactor]
        refine joinCopyLoop_eq ?_ (Int.le_refl 0) hws hends
        rwa [List.length_replicate]

theorem length_intercalate (sep : Bytes) (ws : List Bytes) :
    (sep.intercalate ws).length = ws.flatten.length + sep.length * (ws.length - 1) := by
  induction ws with
  | nil => rfl
  | cons w ws ih =>
      cases ws with
      | nil => simp
      | cons v ws =>
          rw [List.intercalate_cons_cons, List.length_append, List.length_append, ih]
          simp only [List.flatten_cons, List.length_append, List.length_cons,
            Nat.add_sub_cancel, Nat.mul_succ]
          omega

/-- The difference of a number and what an `int` holds of it. -/
theorem exists_wrapInt_eq (z : ℤ) : ∃ k : ℤ, wrapInt z = z - 4294967296 * k :=
  ⟨z.bdiv 4294967296, by
    have h := Int.bmod_add_bdiv z 4294967296
    rw [wrapInt]
    omega⟩

/-- The joined string has the right runs. -/
theorem split_intercalate (hc : ∀ w ∈ ws, w ≠ [] ∧ c ∉ w) :
    runs (isSep [c]) ([c].intercalate ws) = ws := by
  refine runs_intercalate (by simp [isSep]) (List.cons_ne_nil c []) fun w hw => ?_
  obtain ⟨hne, hmem⟩ := hc w hw
  refine ⟨hne, fun d hd => ?_⟩
  rw [Bool.eq_false_iff, Ne, isSep_singleton]
  rintro rfl
  exact hmem hd

theorem not_mem_intercalate {d : UInt8} (hd : d ∉ sep) (hws : ∀ w ∈ ws, d ∉ w) :
    d ∉ sep.intercalate ws := by
  induction ws with
  | nil => exact List.not_mem_nil
  | cons w ws ih =>
      rw [List.forall_mem_cons] at hws
      cases ws with
      | nil =>
          rw [List.intercalate_singleton]
          exact hws.1
      | cons v ws =>
          rw [List.intercalate_cons_cons, List.mem_append, List.mem_append]
          rintro ((h | h) | h)
          · exact hws.1 h
          · exact hd h
          · exact ih hws.2 h

theorem joinRight_iff (h : IsArray cells count ws) (hzero : c ≠ 0)
    (hws : ∀ w ∈ ws, w ≠ [] ∧ c ∉ w ∧ 0 ∉ w) :
    JoinRight cells count ws c ↔ JoinFits count ws := by
  have hlength : (ws.length : ℤ) ≤ count := by
    obtain ⟨-, -, hcount | ⟨hlt, -⟩⟩ := h
    · omega
    · omega
  have hone : wrapInt ([c].length : ℤ) = 1 := by
    rw [List.length_singleton]
    exact wrapInt_of_range (by omega) (by omega)
  have htext : 0 ∉ [c].intercalate ws :=
    not_mem_intercalate (by simpa using hzero.symm) fun w hw => (hws w hw).2.2
  have hruns : runs (isSep [c]) ([c].intercalate ws) = ws :=
    split_intercalate fun w hw => ⟨(hws w hw).1, (hws w hw).2.1⟩
  have hlong := length_intercalate [c] ws
  rw [List.length_singleton, Nat.one_mul] at hlong
  have hjoin := joinArrayToString_eq h [c]
  rw [hone, Int.one_mul] at hjoin
  obtain ⟨k, hk⟩ := exists_wrapInt_eq (count + ws.flatten.length)
  obtain ⟨hlow, hhigh⟩ := wrapInt_le (count + ws.flatten.length)
  constructor
  · rintro ⟨memory, s, hmemory, -, -⟩
    rw [hjoin] at hmemory
    cases hcount : asInt count with
    | error trap =>
        rw [hcount] at hmemory
        cases hmemory
    | ok size =>
        obtain ⟨-, hmax, rfl⟩ := asInt_eq_ok_iff.mp hcount
        rw [hcount] at hmemory
        obtain ⟨hlt, hroom, -⟩ := (copySized_ok_iff hlow hhigh).mp hmemory
        rw [hlong] at hroom
        rw [JoinFits]
        omega
  · intro hfits
    rw [JoinFits] at hfits
    have hsize : wrapInt (count + ws.flatten.length) = count + ws.flatten.length :=
      wrapInt_of_range (by omega) (by omega)
    have hok : joinArrayToString (some cells) (some [c]) count = .ok ([c].intercalate ws ++
        0 :: List.replicate ((count + ws.flatten.length).toNat -
          ([c].intercalate ws).length) 0) := by
      rw [hjoin, asInt_of_le (by omega) (by omega)]
      refine (copySized_ok_iff hlow hhigh).mpr ⟨by omega, ?_, by rw [hsize]⟩
      rw [hlong]
      omega
    refine ⟨_, [c].intercalate ws, hok, stringAt_text htext _, ?_⟩
    have hsplit := (splitRight_iff (s := [c].intercalate ws) (List.cons_ne_nil c [])).mpr
    rw [SplitRight, SplitFits, hruns] at hsplit
    exact hsplit (by omega)

end JoinArray

/-! ## The distinct strings -/

section Distinct

variable {ws : List Bytes} {w : Bytes}

theorem strcmp_eq_zero {s t : Bytes} : strcmp s t = 0 ↔ s = t :=
  textually_eq_zero fun _ _ h => UInt8.toNat_inj.mp h

theorem lawful_strcmp : Lawful strcmp := lawful_textually

theorem differs_iff {s t : Bytes} : differs (some t) s = true ↔ s ≠ t := by
  rw [differs, decide_eq_true_eq, Ne, strcmp_eq_zero]

/-- The first of each group of equal strings. -/
def distinctOf : List Bytes → List Bytes
  | [] => []
  | w :: ws => w :: heads id w ws

theorem pairwise_sorted (ws : List Bytes) :
    (ws.mergeSort cmpstringp).Pairwise fun s t => strcmp s t ≤ 0 := by
  have htrans (a b c : Bytes) (hab : cmpstringp a b = true) (hbc : cmpstringp b c = true) :
      cmpstringp a c = true := by
    simp only [cmpstringp, decide_eq_true_eq] at hab hbc ⊢
    exact lawful_strcmp.trans a b c hab hbc
  have htotal (a b : Bytes) : (cmpstringp a b || cmpstringp b a) = true := by
    have hswap := lawful_strcmp.swap a b
    simp only [cmpstringp, Bool.or_eq_true, decide_eq_true_eq]
    omega
  have hsorted := List.pairwise_mergeSort htrans htotal ws
  exact hsorted.imp fun h => of_decide_eq_true h

theorem grouped_strcmp : Grouped id fun s t => strcmp s t ≤ 0 := by
  intro a b c hab hbc hkey
  obtain rfl : a = c := hkey
  have hback := (lawful_strcmp.swap a b).mp hab
  exact strcmp_eq_zero.mp (Int.le_antisymm hbc hback)

/-- They are in sorted order, and all strings are among them. -/
theorem distinctOf_spec (hws : ws.Pairwise fun s t => strcmp s t ≤ 0) :
    ((distinctOf ws).Pairwise fun s t => strcmp s t < 0) ∧ (distinctOf ws).Nodup ∧
      ∀ w, w ∈ distinctOf ws ↔ w ∈ ws := by
  cases ws with
  | nil => exact ⟨.nil, List.nodup_nil, fun w => Iff.rfl⟩
  | cons w ws =>
      have hsub : (distinctOf (w :: ws)).Sublist (w :: ws) := (heads_sublist w ws).cons_cons w
      have hnodup := heads_nodup grouped_strcmp hws
      rw [List.map_id] at hnodup
      refine ⟨?_, hnodup, fun v => ⟨fun h => hsub.subset h, fun h => ?_⟩⟩
      · refine ((hws.sublist hsub).and hnodup).imp fun h => ?_
        have hne := mt strcmp_eq_zero.mp h.2
        omega
      · obtain ⟨b, hb, hkey, -⟩ := exists_head id hws h
        obtain rfl : b = v := hkey
        exact hb

/-- How much there is of them does not depend on the order. -/
theorem perm_dedup (hws : ws.Pairwise fun s t => strcmp s t ≤ 0) {vs : List Bytes}
    (hperm : ws.Perm vs) : (distinctOf ws).Perm vs.dedup := by
  obtain ⟨-, hnodup, hmem⟩ := distinctOf_spec hws
  refine (List.perm_ext_iff_of_nodup hnodup (List.nodup_dedup vs)).mpr fun w => ?_
  rw [hmem, List.mem_dedup, hperm.mem_iff]

end Distinct

/-! ## The loops of `TDNFJoinArrayToStringSorted` -/

section Sorted

variable {ws : List Bytes} {more : Cells} {sep t w a m : Bytes} {p : ℤ}

theorem countCells_eq (more : Cells) {i : ℤ} (hi : 0 ≤ i) (hmax : i ≤ 2147483647) :
    countCells (ws.map some ++ none :: more) i =
      if i + ws.length ≤ 2147483647 then .ok (i + ws.length) else .error .overflow := by
  induction ws generalizing i with
  | nil =>
      rw [List.map_nil, List.nil_append, countCells, if_pos (by simpa using hmax)]
      simp
  | cons w ws ih =>
      rw [List.map_cons, List.cons_append, countCells]
      by_cases hnext : i + 1 ≤ 2147483647
      · rw [asInt_of_le (by omega) hnext]
        simp only [bind, Except.bind, List.length_cons, Int.natCast_add, Int.natCast_one]
        rw [ih (by omega) hnext]
        simp only [Int.add_assoc, Int.add_comm 1]
      · rw [asInt_of_lt (by omega), if_neg (by simp only [List.length_cons]; omega)]
        rfl

theorem stringArraySort_eq (hmax : (ws.length : ℤ) ≤ 2147483647) :
    stringArraySort (ws.map some ++ [none]) =
      .ok ((ws.mergeSort cmpstringp).map some ++ [none]) := by
  have htake : (ws.map some ++ [none]).take ws.length = ws.map some :=
    List.take_left' (by simp)
  have hdrop : (ws.map some ++ [none]).drop ws.length = [none] := List.drop_left' (by simp)
  rw [stringArraySort, countCells_eq [] (Int.le_refl 0) (by omega), if_pos (by omega)]
  simp only [bind, Except.bind, Int.zero_add, Int.toNat_natCast, htake, hdrop]
  simp [List.filterMap_map]

theorem sortedSizeLoop_eq (more : Cells) (t : Bytes) (n : ℤ) :
    sortedSizeLoop (some t) (ws.map some ++ none :: more) (wrapInt n) =
      .ok (wrapInt (n + (heads id t ws).flatten.length)) := by
  induction ws generalizing t n with
  | nil => simp [sortedSizeLoop, heads]
  | cons w ws ih =>
      rw [List.map_cons, List.cons_append, sortedSizeLoop, heads]
      by_cases heq : w = t
      · subst heq
        rw [if_pos rfl, if_neg (by simp [differs_iff]), ih]
      · have hwrap : wrapInt (wrapInt n + w.length) = wrapInt (n + w.length) := Int.bmod_add_bmod
        have hkey : ¬ id w = id t := heq
        rw [if_neg hkey, if_pos (differs_iff.mpr heq), hwrap, ih, List.flatten_cons,
          List.length_append, Int.natCast_add, Int.add_assoc]

/-- The loop goes on behind a string that was copied. -/
theorem sortedCopyLoop_eq (more : Cells) (hm : m.length ≤ 2147483647) (hp : 0 ≤ p)
    (t a : Bytes) :
    ((strcpy m p a).bind fun m => sortedCopyLoop sep (wrapInt sep.length) (some t)
        (ws.map some ++ none :: more) (p + a.length) m) =
      strcpy m p (a ++ (heads id t ws).flatMap (sep ++ ·)) := by
  induction ws generalizing t a with
  | nil =>
      rw [heads, List.flatMap_nil, List.append_nil]
      cases strcpy m p a with
      | error trap => rfl
      | ok m1 => rfl
  | cons w ws ih =>
      rw [heads]
      by_cases heq : w = t
      · subst heq
        rw [if_pos rfl, ← ih]
        cases strcpy m p a with
        | error trap => rfl
        | ok m1 =>
            rw [ok_bind, ok_bind, List.map_cons, List.cons_append, sortedCopyLoop,
              if_neg (by simp [strcmp_eq_zero])]
      · have hkey : ¬ id w = id t := heq
        rw [if_neg hkey, List.flatMap_cons, ← List.append_assoc, ← ih, ← strcpy_append hp,
          bind_bind]
        cases hcopy : strcpy m p a with
        | error trap => rfl
        | ok m1 =>
            obtain ⟨-, -, hlength⟩ := strcpy_ok hcopy
            rw [ok_bind, ok_bind, ← strcpy_append (by omega), bind_bind, List.map_cons,
              List.cons_append, sortedCopyLoop, if_pos (mt strcmp_eq_zero.mp heq)]
            cases hsep : strcpy m1 (p + a.length) sep with
            | error trap => rfl
            | ok m2 =>
                obtain ⟨-, -, hlength'⟩ := strcpy_ok hsep
                rw [ok_bind]
                simp only [bind, ok_bind, asInt_behind (by omega) hsep]
                cases hword : strcpy m2 (p + a.length + sep.length) w with
                | error trap => rfl
                | ok m3 =>
                    have hend : p + a.length + sep.length + w.length =
                        p + (a ++ (sep ++ w)).length := by
                      simp only [List.length_append]
                      omega
                    rw [ok_bind, ok_bind, wrapInt_behind (by omega) hword, hend]

theorem intercalate_cons (sep w : Bytes) (ws : List Bytes) :
    sep.intercalate (w :: ws) = w ++ ws.flatMap (sep ++ ·) := by
  induction ws generalizing w with
  | nil => simp
  | cons v ws ih =>
      rw [List.intercalate_cons_cons, ih, List.flatMap_cons, List.append_assoc, List.append_assoc]

theorem sortedSizeLoop_distinct (hne : ws ≠ []) (n : ℤ) :
    sortedSizeLoop none (ws.map some ++ [none]) (wrapInt n) =
      .ok (wrapInt (n + (distinctOf ws).flatten.length)) := by
  obtain ⟨w, ws, rfl⟩ := List.exists_cons_of_ne_nil hne
  have hwrap : wrapInt (wrapInt n + w.length) = wrapInt (n + w.length) := Int.bmod_add_bmod
  have hfirst : differs none w = true := rfl
  rw [List.map_cons, List.cons_append, sortedSizeLoop, if_pos hfirst, hwrap, sortedSizeLoop_eq,
    distinctOf, List.flatten_cons, List.length_append, Int.natCast_add, Int.add_assoc]

theorem sortedCopyLoop_distinct (hm : m.length ≤ 2147483647) (hne : ws ≠ []) :
    sortedCopyLoop sep (wrapInt sep.length) none (ws.map some ++ [none]) 0 m =
      strcpy m 0 (sep.intercalate (distinctOf ws)) := by
  obtain ⟨w, ws, rfl⟩ := List.exists_cons_of_ne_nil hne
  rw [List.map_cons, List.cons_append, sortedCopyLoop, distinctOf, intercalate_cons,
    ← sortedCopyLoop_eq [] hm (Int.le_refl 0)]
  cases hcopy : strcpy m 0 w with
  | error trap => simp only [bind, Except.bind]
  | ok m1 =>
      simp only [bind, ok_bind]
      rw [wrapInt_behind hm hcopy]

/-- `TDNFJoinArrayToStringSorted` behind the loop that counts -/
theorem joinArrayToStringSorted_steps (cells : Cells) (sep : Bytes) :
    joinArrayToStringSorted (some cells) sep = (countCells cells 0).bind fun nCount =>
      if 0 < nCount then (asInt (nCount + 1)).bind fun nLines =>
        (allocateMemory (sizeT nLines) 8 (List.replicate (sizeT nLines) none)).bind fun lines =>
          (within (writeAll lines 0 (cells.takeWhile Option.isSome))).bind fun lines =>
            (stringArraySort lines).bind fun lines =>
              (asInt (wrapInt sep.length * nLines)).bind fun nSize =>
                (sortedSizeLoop none lines nSize).bind fun nSize =>
                  (asInt (nSize + 1)).bind fun nSize =>
                    (allocateMemory (sizeT nSize) 1 (List.replicate (sizeT nSize) 0)).bind
                      fun pszResult =>
                        (sortedCopyLoop sep (wrapInt sep.length) none lines 0 pszResult).bind
                          fun pszResult => within (stringAt 0 pszResult 0)
      else .ok [] := rfl

/-- The strings are copied into an array of their number. -/
theorem copy_lines (ws : List Bytes) (more : Cells) :
    writeAll (List.replicate (ws.length + 1) none) 0
        ((ws.map some ++ none :: more).takeWhile Option.isSome) = some (ws.map some ++ [none]) := by
  have htake : (ws.map some ++ none :: more).takeWhile Option.isSome = ws.map some := by
    rw [List.takeWhile_append_of_pos (by simp), List.takeWhile_cons_of_neg (by simp),
      List.append_nil]
  have hwrite := writeAll_eq [] (List.replicate (ws.length + 1) none) (ws.map some)
  simp only [List.nil_append, List.length_nil, List.length_map, List.length_replicate,
    List.drop_replicate, Nat.add_sub_cancel_left, List.replicate_one] at hwrite
  rw [htake, hwrite, if_pos (Nat.le_succ _)]

theorem joinArrayToStringSorted_eq (hne : ws ≠ []) (more : Cells) (sep : Bytes) :
    joinArrayToStringSorted (some (ws.map some ++ none :: more)) sep =
      (asInt (ws.length + 1)).bind fun nLines => (asInt (wrapInt sep.length * nLines)).bind
        fun size => (copySized (wrapInt (size +
          (distinctOf (ws.mergeSort cmpstringp)).flatten.length))
            (sep.intercalate (distinctOf (ws.mergeSort cmpstringp)))).bind
              fun pszResult => within (stringAt 0 pszResult 0) := by
  have hpos : 0 < ws.length := List.length_pos_iff.mpr hne
  rw [joinArrayToStringSorted_steps, countCells_eq more (Int.le_refl 0) (by omega)]
  by_cases hmany : (ws.length : ℤ) + 1 ≤ 2147483647
  · rw [if_pos (by omega), ok_bind, if_pos (by omega), Int.zero_add, asInt_of_le (by omega) hmany,
      ok_bind, ok_bind]
    have hlines : allocateMemory (sizeT ((ws.length : ℤ) + 1)) 8
        (List.replicate (sizeT ((ws.length : ℤ) + 1)) (none : Option Bytes)) =
          .ok (List.replicate (ws.length + 1) none) := by
      have hsize : sizeT ((ws.length : ℤ) + 1) = ws.length + 1 := by
        rw [sizeT_of_pos (by omega) hmany]
        omega
      rw [hsize, allocateMemory_eq_ok_iff]
      omega
    have hcopied : within (writeAll (List.replicate (ws.length + 1) none) 0
        ((ws.map some ++ none :: more).takeWhile Option.isSome)) =
          .ok (ws.map some ++ [none]) := by
      rw [copy_lines]
      rfl
    have hsorted : ws.mergeSort cmpstringp ≠ [] := by
      rw [Ne, ← List.length_eq_zero_iff, List.length_mergeSort]
      omega
    rw [hlines, ok_bind, hcopied, ok_bind, stringArraySort_eq (by omega), ok_bind]
    generalize hfactor : wrapInt sep.length = nSepSize
    cases hproduct : asInt (nSepSize * (ws.length + 1)) with
    | error trap => rfl
    | ok size =>
        obtain ⟨hlow, hhigh, rfl⟩ := asInt_eq_ok_iff.mp hproduct
        have hloop := sortedSizeLoop_distinct hsorted (nSepSize * (ws.length + 1))
        rw [wrapInt_of_range hlow hhigh] at hloop
        have hcopy (k : ℕ) (_ : 0 < k) (hmax : k ≤ 2147483647) :
            sortedCopyLoop sep nSepSize none ((ws.mergeSort cmpstringp).map some ++ [none]) 0
                (List.replicate k 0) =
              strcpy (List.replicate k 0) 0
                (sep.intercalate (distinctOf (ws.mergeSort cmpstringp))) := by
          rw [← hfactor]
          exact sortedCopyLoop_distinct (by rwa [List.length_replicate]) hsorted
        rw [ok_bind, ok_bind, hloop, ok_bind, ← copySized_of_loop _ hcopy]
        simp only [bind_bind]
  · rw [asInt_of_lt (by omega)]
    by_cases hcount : (0 : ℤ) + ws.length ≤ 2147483647
    · rw [if_pos hcount, ok_bind, if_pos (by omega), Int.zero_add, asInt_of_lt (by omega),
        error_bind, error_bind]
    · rw [if_neg hcount, error_bind, error_bind]

/-- What a product of lengths has to do with them. -/
theorem sign_product (m : ℤ) (n : ℕ) :
    (m < 0 → m * (n + 1) < 0) ∧ (0 ≤ m → 0 ≤ m * (n + 1)) :=
  ⟨fun h => Int.mul_neg_of_neg_of_pos h (by omega), fun h => Int.mul_nonneg h (by omega)⟩

theorem sortedRight_iff (hsep : 0 ∉ sep) (hws : ∀ w ∈ ws, 0 ∉ w) (more : Cells) :
    SortedRight (ws.map some ++ none :: more) ws sep ↔ SortedFits ws sep := by
  by_cases hne : ws = []
  · subst hne
    exact iff_of_true ⟨[], .nil, fun w => Iff.rfl, rfl⟩ (.inl rfl)
  have hsorted := pairwise_sorted ws
  obtain ⟨hlt, -, hmem⟩ := distinctOf_spec hsorted
  have hperm := perm_dedup hsorted (List.mergeSort_perm ws cmpstringp)
  have hjoin := joinArrayToStringSorted_eq hne more sep
  have hlong := length_intercalate sep (distinctOf (ws.mergeSort cmpstringp))
  rw [hperm.flatten.length_eq] at hjoin hlong
  rw [hperm.length_eq] at hlong
  have hfew : ws.dedup.length ≤ ws.length := (List.dedup_sublist ws).length_le
  have hsome : 0 < ws.dedup.length := by
    obtain ⟨w, rest, rfl⟩ := List.exists_cons_of_ne_nil hne
    exact List.length_pos_of_mem (List.mem_dedup.mpr List.mem_cons_self)
  obtain ⟨hneg, hnonneg⟩ := sign_product (wrapInt sep.length) ws.length
  have hwhole : (sep.length : ℤ) ≤ 2147483647 → wrapInt sep.length = sep.length :=
    fun h => wrapInt_of_range (by omega) h
  constructor
  · rintro ⟨_, -, -, hok⟩
    rw [hjoin] at hok
    obtain ⟨lines, hlines, hok⟩ := bind_eq_ok_iff.mp hok
    obtain ⟨size, hsize, hok⟩ := bind_eq_ok_iff.mp hok
    obtain ⟨memory, hmemory, -⟩ := bind_eq_ok_iff.mp hok
    obtain ⟨-, hmax, rfl⟩ := asInt_eq_ok_iff.mp hlines
    obtain ⟨hlow, hhigh, rfl⟩ := asInt_eq_ok_iff.mp hsize
    obtain ⟨hroomy, hroom, -⟩ := (copySized_ok_iff (wrapInt_le _).1 (wrapInt_le _).2).mp hmemory
    obtain ⟨k, hk⟩ := exists_wrapInt_eq
      (wrapInt sep.length * (ws.length + 1) + ws.dedup.flatten.length)
    have hgaps : 2 ≤ ws.dedup.length → sep.length ≤ sep.length * (ws.dedup.length - 1) :=
      fun h => Nat.le_mul_of_pos_right _ (by omega)
    rw [hlong] at hroom
    have hfits : 0 ≤ wrapInt sep.length ∧
        wrapInt sep.length * (ws.length + 1) + ws.dedup.flatten.length + 1 ≤ 2147483647 ∧
        (wrapInt sep.length = sep.length ∨ ws.dedup.length = 1) := by
      generalize wrapInt sep.length * (ws.length + 1) = product at *
      generalize sep.length * (ws.dedup.length - 1) = gaps at *
      omega
    exact .inr ⟨hmax, hfits.1, hfits.2.1, hfits.2.2⟩
  · rintro (hnil | hfits)
    · exact absurd hnil hne
    · obtain ⟨hlines, hseparator, hsize, hfull⟩ := hfits
      have hgaps : ((sep.length * (ws.dedup.length - 1) : ℕ) : ℤ) ≤
          wrapInt sep.length * (ws.length + 1) := by
        obtain hfull | hone := hfull
        · rw [hfull]
          have hle : sep.length * (ws.dedup.length - 1) ≤ sep.length * (ws.length + 1) :=
            Nat.mul_le_mul_left _ (by omega)
          exact_mod_cast hle
        · rw [hone, Nat.sub_self, Nat.mul_zero]
          exact hnonneg hseparator
      refine ⟨_, hlt, fun w => (hmem w).trans List.mem_mergeSort, ?_⟩
      have hproduct := hnonneg hseparator
      have hlow : -2147483648 ≤ wrapInt sep.length * (ws.length + 1) := by omega
      have hcomputed : wrapInt (wrapInt sep.length * (ws.length + 1) +
          ws.dedup.flatten.length) =
          wrapInt sep.length * (ws.length + 1) + ws.dedup.flatten.length :=
        wrapInt_of_range (by omega) (by omega)
      have htext : 0 ∉ sep.intercalate (distinctOf (ws.mergeSort cmpstringp)) :=
        not_mem_intercalate hsep fun w hw => hws w (List.mem_mergeSort.mp ((hmem w).mp hw))
      obtain ⟨m, hm⟩ : ∃ m, copySized (wrapInt sep.length * (ws.length + 1) +
          ws.dedup.flatten.length) (sep.intercalate (distinctOf (ws.mergeSort cmpstringp))) =
            .ok m := by
        refine ⟨_, (copySized_ok_iff (by omega) (by omega)).mpr ⟨by omega, ?_, rfl⟩⟩
        rw [hlong]
        omega
      rw [hjoin, asInt_of_le (by omega) hlines, ok_bind, asInt_of_le hproduct (by omega), ok_bind,
        hcomputed, hm, ok_bind, stringAt_copySized htext (by omega) (by omega) hm]
      rfl

/-- The size that is computed for a string of `2 ^ 32` bytes is 3. -/
theorem long_line_outside {w : Bytes} (h : w.length = 4294967296) :
    joinArrayToStringSorted (some [some w, none]) [10] = .error .outside := by
  have hjoin := joinArrayToStringSorted_eq (List.cons_ne_nil w []) [] [10]
  have hone : wrapInt (([10] : Bytes).length : ℤ) = 1 := by
    rw [List.length_singleton]
    exact wrapInt_of_range (by omega) (by omega)
  have hdistinct : distinctOf ([w].mergeSort cmpstringp) = [w] := by
    rw [List.mergeSort_singleton]
    rfl
  have hwrap : wrapInt (1 * (([w].length : ℤ) + 1) + w.length) = 2 := by
    rw [h, List.length_singleton]
    exact Int.add_mul_bmod_self_left 2 4294967296 1
  have hcopy : copySized 2 w = .error .outside := by
    have hsize : sizeT (2 + 1) = 3 := by decide
    have hfresh := strcpy_fresh 3 w
    rw [if_neg (by omega)] at hfresh
    have hsteps : ((asInt (2 + 1)).bind fun nSize =>
        (allocateMemory (sizeT nSize) 1 (List.replicate (sizeT nSize) 0)).bind fun m =>
          strcpy m 0 w) = copySized 2 w := copySized_of_loop 2 fun _ _ _ => rfl
    rw [← hsteps, asInt_of_le (by omega) (by omega), ok_bind,
      allocateMemory_pos (by omega) (by omega), ok_bind, hsize, hfresh]
  refine hjoin.trans ?_
  rw [hdistinct, hone, List.flatten_singleton, List.intercalate_singleton,
    asInt_of_le (by omega) (by rw [List.length_singleton]; omega), ok_bind,
    asInt_of_le (by omega) (by rw [List.length_singleton]; omega), ok_bind, hwrap, hcopy,
    error_bind]

end Sorted

end Tdnf.StringArrays
