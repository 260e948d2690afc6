import Tdnf.Common.Error
import Tdnf.Library.Buffer
import Tdnf.Library.Json
import Tdnf.Library.Procedure

/-!
# Query formats

`format_string` copies a format into a buffer and puts values in the place of tags.
It keeps its position twice, as a pointer that stops at the end of the buffer and
as a counter. The buffer grows for values only.
-/

namespace Tdnf.Cli

open Buffer Procedure
open Json (Bytes ascii)

/-- A string without NUL -/
abbrev CString := {s : Bytes // 0 ∉ s}

/-- The memory behind `*out`, `*len`, the write pointer and the counter -/
structure FormatState where
  out : Bytes
  len : ℕ
  q : ℕ
  l : Int32
deriving DecidableEq, Repr

/-- A call returns an error code or `-1`, or it reads or writes outside its memory. -/
inductive FormatFault where
  | outOfBounds
  | failed
  | code (e : TdnfError)
deriving DecidableEq, Repr

abbrev FormatProc (α : Type) := Proc FormatFault FormatState α

/-- `*q = c` -/
def store (c : UInt8) : FormatProc Unit := do
  let s ← get
  match write s.out s.q c with
  | none => throw .outOfBounds
  | some out => set { s with out := out }

/-- `*q = c; l++; if (q < *out + *len-1) { q++; *q = 0; }` -/
def putByte (c : UInt8) : FormatProc Unit := do
  store c
  modify fun s => { s with l := s.l + 1 }
  let s ← get
  if s.q + 1 < s.len then
    set { s with q := s.q + 1 }
    store 0
  else pure ()

/-- `strlen(*out)` -/
def strlenOut : FormatProc ℕ := do
  match stringAt 0 (← get).out 0 with
  | none => throw .outOfBounds
  | some s => pure s.length

/-- An `int` as a `size_t` -/
def sizeT (n : Int32) : ℕ := (n.toInt % 18446744073709551616).toNat

/-- `TDNFReAllocateMemory`; new memory holds anything, and there is none of more than
`PTRDIFF_MAX` bytes. -/
def reallocateMemory (junk : ℕ → ℕ → UInt8) (nSize : ℕ) : FormatProc Unit :=
  if nSize = 0 then throw (.code .invalidParameter)
  else if 9223372036854775807 < nSize then throw (.code .outOfMemory)
  else modify fun s => { s with out := resize (junk nSize) nSize s.out }

/-- Whether the buffer is taken to be too small for a value. -/
def needsRoom (value : Bytes) : FormatProc Bool := do
  let s ← get
  if s.len ≤ value.length then pure true
  else
    let n ← strlenOut
    pure (n ≤ s.len && s.len - n < value.length)

/-- Make room for a value, and set the write pointer by the counter. -/
def growBuffer (junk : ℕ → ℕ → UInt8) (value : Bytes) : FormatProc Unit := do
  let n ← strlenOut
  let nLength := Int32.ofNat (n + value.length)
  reallocateMemory junk (sizeT (2 * nLength))
  modify fun s => { s with len := sizeT (2 * nLength) }
  let s ← get
  if s.l < 0 then throw .outOfBounds
  else set { s with q := s.l.toNatClampNeg }

/-- The branch of `format_string` for the value of a tag -/
def putValue (junk : ℕ → ℕ → UInt8) (value : Bytes) : FormatProc Unit := do
  if ← needsRoom value then growBuffer junk value else pure ()
  value.forM putByte
  store 0

/-- The character that an escape stands for -/
def unescape (c : UInt8) : UInt8 :=
  if c = 'b'.toUInt8 then 8
  else if c = 'f'.toUInt8 then 12
  else if c = 'n'.toUInt8 then 10
  else if c = 'r'.toUInt8 then 13
  else if c = 't'.toUInt8 then 9
  else c

/-- `while(*t && *t != '}') t++;`: what it passes, and the memory from `t` on -/
def spanTag : Bytes → Option (Bytes × Bytes)
  | [] => none
  | c :: t =>
    if c = 0 ∨ c = '}'.toUInt8 then some ([], c :: t)
    else (spanTag t).map fun parts => (c :: parts.1, parts.2)

/-- `*p == '%' && p[1] == '{'` -/
def opensTag (p : Bytes) : FormatProc Bool :=
  match p with
  | [] => throw .outOfBounds
  | [c] => if c = '%'.toUInt8 then throw .outOfBounds else pure false
  | c :: d :: _ => pure (c = '%'.toUInt8 && d = '{'.toUInt8)

/-- The loop of `format_string` on the format from `p` on -/
def formatLoop (junk : ℕ → ℕ → UInt8) (tagHandler : Bytes → Except TdnfError Bytes)
    (p : Bytes) : FormatProc Unit :=
  match p with
  | [] => throw .outOfBounds
  | c :: rest =>
    if c = 0 then pure ()
    else do
      if ← opensTag (c :: rest) then
        match spanTag (rest.drop 1) with
        | none => throw .outOfBounds
        | some (tag, t) =>
          if t.head? = some 0 then throw .failed
          else
            let value ← fromExcept ((tagHandler tag).mapError .code)
            putValue junk value
            formatLoop junk tagHandler (rest.drop (tag.length + 2))
      else if c = '\\'.toUInt8 then
        match rest with
        | [] => throw .outOfBounds
        | d :: rest =>
          putByte (unescape d)
          formatLoop junk tagHandler rest
      else
        putByte c
        formatLoop junk tagHandler rest
termination_by p.length
decreasing_by all_goals simp <;> omega

/-- `format_string` with the buffer of `TDNFCliRepoQueryCommand`, which `TDNFAllocateMemory`
clears -/
def formatString (junk : ℕ → ℕ → UInt8) (tagHandler : Bytes → Except TdnfError Bytes)
    (format : Bytes) : EStateM.Result FormatFault FormatState Unit :=
  let size := 4 * format.length
  let s : FormatState := ⟨List.replicate size 0, size, 0, 0⟩
  if size = 0 then .error (.code .invalidParameter) s
  else (formatLoop junk tagHandler (format ++ [0])).run s

/-! ## What a format stands for -/

/-- A piece of a format -/
inductive Token where
  | char (c : UInt8)
  | tag (name : Bytes)
deriving DecidableEq, Repr

/-- The pieces of a format, unless it breaks off in a tag or behind a backslash -/
def tokens (format : Bytes) : Option (List Token) :=
  match format with
  | [] => some []
  | c :: rest =>
    if c = '%'.toUInt8 ∧ rest.head? = some '{'.toUInt8 then
      if '}'.toUInt8 ∈ rest.drop 1 then
        let name := (rest.drop 1).takeWhile (· ≠ '}'.toUInt8)
        (tokens (rest.drop (name.length + 2))).map (.tag name :: ·)
      else none
    else if c = '\\'.toUInt8 then
      match rest with
      | [] => none
      | d :: rest => (tokens rest).map (.char (unescape d) :: ·)
    else (tokens rest).map (.char c :: ·)
termination_by format.length
decreasing_by all_goals simp <;> omega

/-- The text of a piece -/
def Token.text (value : Bytes → CString) : Token → Bytes
  | .char c => [c]
  | .tag name => (value name).1

/-- The reference expansion -/
def expand (value : Bytes → CString) (format : Bytes) : Option Bytes :=
  (tokens format).map fun toks => toks.flatMap (Token.text value)

/-- The call succeeds within its memory and leaves the reference expansion. -/
def Expands (junk : ℕ → ℕ → UInt8) (value : Bytes → CString) (format : Bytes) : Prop :=
  ∃ s text, formatString junk (fun tag => .ok (value tag).1) format = .ok () s ∧
    expand value format = some text ∧ stringAt 0 s.out 0 = some text

/-- The text of `t` bytes stays shorter than the buffer, of `len` bytes at first. A value that is
longer than the rest of the buffer, or not shorter than the buffer, doubles the length of the
text, which has to stay below `2 ^ 30`. -/
def Fits (value : Bytes → CString) : ℕ → ℕ → List Token → Prop
  | _, _, [] => True
  | len, t, .char _ :: rest => t + 1 < len ∧ Fits value len (t + 1) rest
  | len, t, .tag name :: rest =>
    if len ≤ (value name).1.length ∨ len < t + (value name).1.length then
      t + (value name).1.length < 1073741824 ∧
        Fits value (2 * (t + (value name).1.length)) (t + (value name).1.length) rest
    else t + (value name).1.length < len ∧ Fits value len (t + (value name).1.length) rest

/-! ## The loop over the pieces -/

section Pieces

variable {junk : ℕ → ℕ → UInt8} {value : Bytes → CString} {format : Bytes} {toks : List Token}

/-- What the loop does for a piece -/
def putToken (junk : ℕ → ℕ → UInt8) (value : Bytes → CString) : Token → FormatProc Unit
  | .char c => putByte c
  | .tag name => putValue junk (value name).1

theorem spanTag_eq {rest more : Bytes} (hrest : 0 ∉ rest) :
    spanTag (rest ++ 0 :: more) =
      some (rest.takeWhile (· ≠ '}'.toUInt8), rest.dropWhile (· ≠ '}'.toUInt8) ++ 0 :: more) := by
  induction rest with
  | nil => rfl
  | cons c rest ih =>
      have hc : c ≠ 0 := fun hzero => hrest (by simp [hzero])
      rw [List.cons_append, spanTag]
      by_cases hbrace : c = '}'.toUInt8
      · rw [if_pos (.inr hbrace), List.takeWhile_cons_of_neg (by simpa using hbrace),
          List.dropWhile_cons_of_neg (by simpa using hbrace)]
        rfl
      · rw [if_neg (by simp [hc, hbrace]), ih fun hzero => hrest (List.mem_cons_of_mem c hzero),
          List.takeWhile_cons_of_pos (by simpa using hbrace),
          List.dropWhile_cons_of_pos (by simpa using hbrace)]
        rfl

theorem opensTag_eq {c : UInt8} {rest : Bytes} :
    opensTag (c :: (rest ++ [0])) =
      pure (decide (c = '%'.toUInt8 ∧ rest.head? = some '{'.toUInt8)) := by
  have hzero : (0 : UInt8) ≠ '{'.toUInt8 := by decide
  cases rest with
  | nil => simp [opensTag, hzero]
  | cons d rest => simp [opensTag]

/-- The tag that opens at a percent sign, up to its closing brace -/
theorem spanTag_closed {rest : Bytes} (hrest : 0 ∉ rest) (hbrace : '}'.toUInt8 ∈ rest) :
    ∃ t, spanTag (rest ++ [0]) = some (rest.takeWhile (· ≠ '}'.toUInt8), '}'.toUInt8 :: t) := by
  obtain ⟨-, more, hdrop⟩ := stringAt_eq_some_iff.mp (by
    rw [stringAt, List.drop_zero, if_pos hbrace] :
    stringAt '}'.toUInt8 rest 0 = some (rest.takeWhile (· ≠ '}'.toUInt8)))
  have hbehind : rest.dropWhile (· ≠ '}'.toUInt8) = '}'.toUInt8 :: more := by
    have hsplit := List.takeWhile_append_dropWhile (p := (· ≠ '}'.toUInt8)) (l := rest)
    have hboth : rest.takeWhile (· ≠ '}'.toUInt8) ++ rest.dropWhile (· ≠ '}'.toUInt8) =
        rest.takeWhile (· ≠ '}'.toUInt8) ++ '}'.toUInt8 :: more := by
      rw [hsplit, ← hdrop, List.drop_zero]
    exact List.append_cancel_left hboth
  exact ⟨more ++ [0], by rw [spanTag_eq hrest, hbehind, List.cons_append]⟩

/-- The name of a closed tag ends within the format. -/
theorem length_name_lt {rest : Bytes} (hbrace : '}'.toUInt8 ∈ rest) :
    (rest.takeWhile (· ≠ '}'.toUInt8)).length < rest.length := by
  have hsplit := List.takeWhile_append_dropWhile (p := (· ≠ '}'.toUInt8)) (l := rest)
  have hne : rest.dropWhile (· ≠ '}'.toUInt8) ≠ [] := by
    intro hnil
    rw [hnil, List.append_nil] at hsplit
    rw [← hsplit] at hbrace
    simpa using List.mem_takeWhile_imp hbrace
  have hpos := List.length_pos_of_ne_nil hne
  have hsum := congrArg List.length hsplit
  rw [List.length_append] at hsum
  omega

section Rounds

variable {c d : UInt8} {rest : Bytes}

theorem formatLoop_tag (hrest : 0 ∉ rest)
    (hopens : c = '%'.toUInt8 ∧ rest.head? = some '{'.toUInt8)
    (hbrace : '}'.toUInt8 ∈ rest.drop 1) :
    formatLoop junk (fun tag => .ok (value tag).1) (c :: (rest ++ [0])) = (do
      putValue junk (value ((rest.drop 1).takeWhile (· ≠ '}'.toUInt8))).1
      formatLoop junk (fun tag => .ok (value tag).1)
        (rest.drop (((rest.drop 1).takeWhile (· ≠ '}'.toUInt8)).length + 2) ++ [0])) := by
  have hne : c ≠ 0 := by
    rw [hopens.1]
    decide
  obtain ⟨d, rest, rfl⟩ : ∃ d more, rest = d :: more := by
    cases rest with
    | nil => exact absurd hopens.2 (by decide)
    | cons d more => exact ⟨d, more, rfl⟩
  rw [List.drop_succ_cons, List.drop_zero] at hbrace
  obtain ⟨t, hspan⟩ := spanTag_closed (fun hzero => hrest (List.mem_cons_of_mem d hzero)) hbrace
  have hlength := length_name_lt hbrace
  rw [formatLoop.eq_def]
  dsimp only
  rw [if_neg hne, opensTag_eq, decide_eq_true hopens, pure_bind, if_pos rfl]
  have hclosed : ('}'.toUInt8 :: t).head? ≠ some 0 := by
    rw [List.head?_cons]
    decide
  simp only [List.cons_append, List.drop_succ_cons, List.drop_zero, hspan]
  rw [if_neg hclosed, List.drop_append_of_le_length (by omega)]
  rfl

theorem formatLoop_escape (hopens : ¬ (c = '%'.toUInt8 ∧ (d :: rest).head? = some '{'.toUInt8))
    (hback : c = '\\'.toUInt8) :
    formatLoop junk (fun tag => .ok (value tag).1) (c :: (d :: rest ++ [0])) = (do
      putByte (unescape d)
      formatLoop junk (fun tag => .ok (value tag).1) (rest ++ [0])) := by
  have hne : c ≠ 0 := by
    rw [hback]
    decide
  rw [formatLoop.eq_def]
  dsimp only
  rw [if_neg hne, opensTag_eq, decide_eq_false hopens, pure_bind, if_neg Bool.false_ne_true,
    if_pos hback]
  rfl

theorem formatLoop_char (hne : c ≠ 0)
    (hopens : ¬ (c = '%'.toUInt8 ∧ rest.head? = some '{'.toUInt8)) (hback : c ≠ '\\'.toUInt8) :
    formatLoop junk (fun tag => .ok (value tag).1) (c :: (rest ++ [0])) = (do
      putByte c
      formatLoop junk (fun tag => .ok (value tag).1) (rest ++ [0])) := by
  rw [formatLoop.eq_def]
  dsimp only
  rw [if_neg hne, opensTag_eq, decide_eq_false hopens, pure_bind, if_neg Bool.false_ne_true,
    if_neg hback]

end Rounds

/-- A format of whole pieces is put piece by piece. -/
theorem formatLoop_eq (hformat : 0 ∉ format) (h : tokens format = some toks) :
    formatLoop junk (fun tag => .ok (value tag).1) (format ++ [0]) =
      toks.forM (putToken junk value) := by
  fun_induction tokens format generalizing toks with
  | case1 =>
      cases h
      rw [List.nil_append, formatLoop]
      rfl
  | case2 c rest hopens hbrace name =>
      rename_i ih
      obtain ⟨more, hmore, rfl⟩ := Option.map_eq_some_iff.mp h
      have hrest : 0 ∉ rest := fun hzero => hformat (List.mem_cons_of_mem c hzero)
      rw [List.cons_append, formatLoop_tag hrest hopens hbrace,
        ih (fun hzero => hrest (List.mem_of_mem_drop hzero)) hmore]
      rfl
  | case3 => cases h
  | case4 => cases h
  | case5 d rest hopens ih =>
      obtain ⟨more, hmore, rfl⟩ := Option.map_eq_some_iff.mp h
      rw [List.cons_append, formatLoop_escape hopens rfl,
        ih (fun hzero => hformat (by simp [hzero])) hmore]
      rfl
  | case6 c rest hopens hback ih =>
      obtain ⟨more, hmore, rfl⟩ := Option.map_eq_some_iff.mp h
      have hne : c ≠ 0 := fun hzero => hformat (by simp [hzero])
      rw [List.cons_append, formatLoop_char hne hopens hback,
        ih (fun hzero => hformat (List.mem_cons_of_mem c hzero)) hmore]
      rfl

/-- A format that breaks off in a piece leads to an error. -/
theorem formatLoop_fails (hformat : 0 ∉ format) (h : tokens format = none) (s : FormatState) :
    wp (formatLoop junk (fun tag => .ok (value tag).1) (format ++ [0])) (fun _ _ => False)
      (fun _ _ => True) s := by
  fun_induction tokens format generalizing s with
  | case1 => cases h
  | case2 c rest hopens hbrace name =>
      rename_i ih
      have hrest : 0 ∉ rest := fun hzero => hformat (List.mem_cons_of_mem c hzero)
      rw [List.cons_append, formatLoop_tag hrest hopens hbrace, wp_bind]
      refine wp_mono (wp_true _ s) (fun _ t _ => ?_) fun _ _ _ => trivial
      exact ih (fun hzero => hrest (List.mem_of_mem_drop hzero)) (Option.map_eq_none_iff.mp h) t
  | case3 c rest hopens hbrace =>
      -- the brace is missing up to the end of the format
      have hrest : 0 ∉ rest := fun hzero => hformat (List.mem_cons_of_mem c hzero)
      have hne : c ≠ 0 := fun hzero => hformat (by simp [hzero])
      obtain ⟨d, rest, rfl⟩ : ∃ d more, rest = d :: more := by
        cases rest with
        | nil => exact absurd hopens.2 (by decide)
        | cons d more => exact ⟨d, more, rfl⟩
      rw [List.drop_succ_cons, List.drop_zero] at hbrace
      have hpass : ∀ e ∈ rest, decide (e ≠ '}'.toUInt8) = true := by
        intro e he
        simpa using fun heq : e = '}'.toUInt8 => hbrace (heq ▸ he)
      have hspan : spanTag (rest ++ [0]) = some (rest, [0]) := by
        rw [spanTag_eq fun hzero => hrest (List.mem_cons_of_mem d hzero),
          List.takeWhile_eq_self_iff.mpr hpass, List.dropWhile_eq_nil_iff.mpr hpass]
        rfl
      rw [List.cons_append, formatLoop.eq_def]
      dsimp only
      rw [if_neg hne, opensTag_eq, decide_eq_true hopens, pure_bind, if_pos rfl]
      simp only [List.cons_append, List.drop_succ_cons, List.drop_zero, hspan]
      trivial
  | case4 hopens =>
      have hpast : formatLoop junk (fun tag => .ok (value tag).1) (['\\'.toUInt8] ++ [0]) = (do
          putByte (unescape 0)
          formatLoop junk (fun tag => .ok (value tag).1) []) := by
        rw [formatLoop.eq_def]
        rfl
      rw [hpast, wp_bind]
      refine wp_mono (wp_true _ s) (fun _ t _ => ?_) fun _ _ _ => trivial
      rw [formatLoop.eq_def]
      trivial
  | case5 d rest hopens ih =>
      rw [List.cons_append, formatLoop_escape hopens rfl, wp_bind]
      refine wp_mono (wp_true _ s) (fun _ t _ => ?_) fun _ _ _ => trivial
      exact ih (fun hzero => hformat (by simp [hzero])) (Option.map_eq_none_iff.mp h) t
  | case6 c rest hopens hback ih =>
      have hne : c ≠ 0 := fun hzero => hformat (by simp [hzero])
      rw [List.cons_append, formatLoop_char hne hopens hback, wp_bind]
      refine wp_mono (wp_true _ s) (fun _ t _ => ?_) fun _ _ _ => trivial
      exact ih (fun hzero => hformat (List.mem_cons_of_mem c hzero)) (Option.map_eq_none_iff.mp h) t

end Pieces

end Tdnf.Cli
