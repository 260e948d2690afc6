import Tdnf.Library.Json
import Tdnf.Library.Procedure
import Mathlib.Tactic.Ring.Basic

/-!
# The buffer of jsondump

A dump is a block of memory with a size and a write position, both machine
integers of 32 bits. A value is appended by rewinding over the closing bracket,
writing a comma unless the map or list is empty, and printing the value and the
bracket again. Every access outside the block is an error of its own.
-/

namespace Tdnf.JsonDump

open Json Procedure

/-- A string without NUL, as the callers pass it. -/
abbrev CString := {s : Bytes // 0 ∉ s}

/-- `struct json_dump`, with the memory behind `buf`. -/
structure JsonDump where
  buf : Bytes
  bufSize : UInt32
  pos : UInt32
deriving DecidableEq, Repr

/-- A call returns `-1`, or it reads or writes outside its memory. -/
inductive DumpError where
  | failed
  | outOfBounds
deriving DecidableEq, Repr

abbrev DumpProc (α : Type) := Proc DumpError JsonDump α

/-- `SIZE_INC` -/
def sizeInc : UInt32 := 256

/-- `INT_MAX` -/
def intMax : ℕ := 2 ^ 31 - 1

/-- `jd_create` -/
def jdCreate (size : UInt32) : JsonDump :=
  let size := if size = 0 then sizeInc else size
  ⟨List.replicate size.toNat 0, size, 0⟩

/-- `realloc`; `junk` is what new memory holds. -/
def resize (junk : ℕ → UInt8) (size : ℕ) (buf : Bytes) : Bytes :=
  (List.range size).map fun i => buf.getD i (junk i)

/-- `_jd_realloc` -/
def jdRealloc (junk : ℕ → UInt8) (addSize : UInt32) : DumpProc Unit := do
  let jd ← get
  if jd.bufSize - 1 ≤ jd.pos + addSize then
    let addSize := addSize + sizeInc
    set { jd with
      buf := resize junk (jd.bufSize + addSize).toNat jd.buf
      bufSize := jd.bufSize + addSize }
  else pure ()

/-- `jd->buf[i]` -/
def readByte (i : UInt32) : DumpProc UInt8 := do
  match (← get).buf[i.toNat]? with
  | some b => pure b
  | none => throw .outOfBounds

/-- `jd->buf[i] = b` -/
def writeByte (i : UInt32) (b : UInt8) : DumpProc Unit := do
  let jd ← get
  if i.toNat < jd.buf.length then set { jd with buf := jd.buf.set i.toNat b }
  else throw .outOfBounds

/-- `jd->pos = i` -/
def moveTo (i : UInt32) : DumpProc Unit := modify fun jd => { jd with pos := i }

/-- `jd->buf[jd->pos++] = b` -/
def pushByte (b : UInt8) : DumpProc Unit := do
  let jd ← get
  writeByte jd.pos b
  moveTo (jd.pos + 1)

/-- The brackets of maps and lists. -/
structure Brackets where
  opening : UInt8
  closing : UInt8
  ne : opening ≠ closing
  ne_zero : opening ≠ 0 ∧ closing ≠ 0

def mapBrackets : Brackets := ⟨'{'.toUInt8, '}'.toUInt8, by decide, by decide⟩

def listBrackets : Brackets := ⟨'['.toUInt8, ']'.toUInt8, by decide, by decide⟩

/-- `jd_map_start` and `jd_list_start` with their brackets. -/
def start (brackets : Brackets) (junk : ℕ → UInt8) : DumpProc Unit := do
  jdRealloc junk 2
  pushByte brackets.opening
  pushByte brackets.closing
  writeByte (← get).pos 0

/-- `jd_map_start` -/
def jdMapStart : (ℕ → UInt8) → DumpProc Unit := start mapBrackets

/-- `jd_list_start` -/
def jdListStart : (ℕ → UInt8) → DumpProc Unit := start listBrackets

/-- `_jd_map_prep_append` and `_jd_list_prep_append` with their brackets. -/
def prepAppend (brackets : Brackets) : DumpProc Unit := do
  let jd ← get
  if 1 < jd.pos then
    if (← readByte (jd.pos - 1)) = brackets.closing then
      moveTo (jd.pos - 1)
      if (← readByte (jd.pos - 1 - 1)) ≠ brackets.opening then
        pushByte ','.toUInt8
      else pure ()
    else pure ()
  else pure ()

/-- Write into a block from `i` on. -/
def overwrite (buf : Bytes) (i : ℕ) (text : Bytes) : Bytes :=
  buf.take i ++ text ++ buf.drop (i + text.length)

/-- What `snprintf` stores into `size` bytes. -/
def printed (size : ℕ) (text : Bytes) : Bytes :=
  if size = 0 then [] else text.take (size - 1) ++ [0]

/-- Print at the write position with the rest of the buffer as the size and move on by the
length of the text; `snprintf` returns a negative number for a text longer than `INT_MAX`. -/
def printAtPos (text : Bytes) : DumpProc Unit := do
  let jd ← get
  if intMax < text.length then throw .failed
  else
    let out := printed (jd.bufSize - jd.pos).toNat text
    if jd.pos.toNat + out.length ≤ jd.buf.length then
      set { jd with
        buf := overwrite jd.buf jd.pos.toNat out
        pos := jd.pos + UInt32.ofNat text.length }
    else throw .outOfBounds

/-- `_jd_map_add_raw` and `_jd_list_add_raw` with their brackets, the size they ask for and the
text they print; the size is cut to 32 bits. -/
def addRaw (brackets : Brackets) (junk : ℕ → UInt8) (addSize : ℕ) (text : Bytes) :
    DumpProc Unit := do
  jdRealloc junk (UInt32.ofNat addSize)
  prepAppend brackets
  printAtPos text

/-- `_jd_map_add_raw` -/
def jdMapAddRaw (junk : ℕ → UInt8) (key value : Bytes) : DumpProc Unit :=
  addRaw mapBrackets junk (key.length + value.length + 5)
    (ascii "\"" ++ key ++ ascii "\":" ++ value ++ ascii "\x7d")

/-- `_jd_list_add_raw` -/
def jdListAddRaw (junk : ℕ → UInt8) (value : Bytes) : DumpProc Unit :=
  addRaw listBrackets junk (value.length + 2) (value ++ ascii "]")

/-- What `jsonify_string` writes for a byte. -/
def jsonifyByte (b : UInt8) : Bytes :=
  if b = '"'.toUInt8 then ascii "\\\""
  else if b = '\\'.toUInt8 then ascii "\\\\"
  else if b = 8 then ascii "\\b"
  else if b = 12 then ascii "\\f"
  else if b = '\n'.toUInt8 then ascii "\\n"
  else if b = '\r'.toUInt8 then ascii "\\r"
  else if b = '\t'.toUInt8 then ascii "\\t"
  else [b]

/-- `jsonify_string` -/
def jsonifyString (str : Bytes) : Bytes :=
  ascii "\"" ++ str.flatMap jsonifyByte ++ ascii "\""

/-- The numbers are printed into 22 bytes. -/
def printNumber (n : ℤ) : Bytes := (decimal n).take 21

/-- The C string at the start of a block; there is none without a NUL. -/
def cString (buf : Bytes) : Option Bytes :=
  if 0 ∈ buf then some (buf.takeWhile (· ≠ 0)) else none

/-- `_alloc_vsprintf` of arguments that print as `text`. -/
def allocVsprintf (text : Bytes) : DumpProc Bytes :=
  if intMax ≤ text.length then throw .failed else pure text

section Adding

variable (junk : ℕ → UInt8) (key : Bytes)

/-- `jd_map_add_null` -/
def jdMapAddNull : DumpProc Unit := jdMapAddRaw junk key (ascii "null")

/-- `jd_map_add_string` -/
def jdMapAddString (value : Option Bytes) : DumpProc Unit :=
  match value with
  | none => jdMapAddNull junk key
  | some value => jdMapAddRaw junk key (jsonifyString value)

/-- `jd_map_add_int` -/
def jdMapAddInt (value : Int32) : DumpProc Unit := jdMapAddRaw junk key (printNumber value.toInt)

/-- `jd_map_add_int64` -/
def jdMapAddInt64 (value : Int64) : DumpProc Unit :=
  jdMapAddRaw junk key (printNumber value.toInt)

/-- `jd_map_add_bool` -/
def jdMapAddBool (value : Int32) : DumpProc Unit :=
  jdMapAddRaw junk key (ascii (if value ≠ 0 then "true" else "false"))

/-- `jd_map_add_fmt` of arguments that print as `text`. -/
def jdMapAddFmt (text : Bytes) : DumpProc Unit := do
  let buf ← allocVsprintf text
  jdMapAddString junk key (some buf)

/-- `jd_map_add_child` -/
def jdMapAddChild (jdChild : JsonDump) : DumpProc Unit :=
  match cString jdChild.buf with
  | none => throw .outOfBounds
  | some value => jdMapAddRaw junk key value

/-- `jd_list_add_null` -/
def jdListAddNull : DumpProc Unit := jdListAddRaw junk (ascii "null")

/-- `jd_list_add_string` -/
def jdListAddString (value : Option Bytes) : DumpProc Unit :=
  match value with
  | none => jdListAddNull junk
  | some value => jdListAddRaw junk (jsonifyString value)

/-- `jd_list_add_int` -/
def jdListAddInt (value : Int32) : DumpProc Unit := jdListAddRaw junk (printNumber value.toInt)

/-- `jd_list_add_int64` -/
def jdListAddInt64 (value : Int64) : DumpProc Unit := jdListAddRaw junk (printNumber value.toInt)

/-- `jd_list_add_bool` -/
def jdListAddBool (value : Int32) : DumpProc Unit :=
  jdListAddRaw junk (ascii (if value ≠ 0 then "true" else "false"))

/-- `jd_list_add_fmt` of arguments that print as `text`. -/
def jdListAddFmt (text : Bytes) : DumpProc Unit := do
  let buf ← allocVsprintf text
  jdListAddString junk (some buf)

/-- `jd_list_add_child` -/
def jdListAddChild (jdChild : JsonDump) : DumpProc Unit :=
  match cString jdChild.buf with
  | none => throw .outOfBounds
  | some value => jdListAddRaw junk value

end Adding

/-- The buffer holds `text` as a C string that ends at the write position. -/
structure JsonDump.Spells (jd : JsonDump) (text : Bytes) : Prop where
  size : jd.bufSize.toNat = jd.buf.length
  pos : jd.pos.toNat = text.length
  content : text ++ [0] <+: jd.buf

/-- The same while a call is under way and the terminating NUL may be missing. -/
structure JsonDump.Holds (jd : JsonDump) (text : Bytes) : Prop where
  size : jd.bufSize.toNat = jd.buf.length
  pos : jd.pos.toNat = text.length
  content : text <+: jd.buf

/-- The arithmetic of a call that adds a text with two bytes for the bracket and the NUL,
`n` bytes in all: the printed length is an `int`, and a size that has to grow stays below
`2 ^ 32`. -/
def JsonDump.Fits (jd : JsonDump) (n : ℕ) : Prop :=
  n ≤ 2 ^ 31 ∧
    (jd.pos.toNat + n + 1 < jd.bufSize.toNat ∨ jd.bufSize.toNat + n + 256 < 2 ^ 32)

instance (jd : JsonDump) (n : ℕ) : Decidable (jd.Fits n) := inferInstanceAs (Decidable (_ ∧ _))

section Steps

variable {jd : JsonDump} {junk : ℕ → UInt8} {text : Bytes} {b : UInt8}

theorem JsonDump.Spells.holds (h : jd.Spells text) : jd.Holds text :=
  ⟨h.size, h.pos, (List.prefix_append text [0]).trans h.content⟩

/-- Growing keeps what is there. -/
theorem prefix_resize {size : ℕ} {buf : Bytes} (h : buf.length ≤ size) :
    buf <+: resize junk size buf := by
  rw [List.prefix_iff_eq_take]
  refine List.ext_getElem ?_ fun i hi _ => ?_
  · simp [resize, h]
  · simp [resize, hi]

theorem length_resize {size : ℕ} {buf : Bytes} : (resize junk size buf).length = size := by
  simp [resize]

/-- What a `_jd_realloc` under the condition leaves behind: room for `n` bytes. -/
structure Grown (jd : JsonDump) (n : ℕ) (jd' : JsonDump) : Prop where
  size : jd'.bufSize.toNat = jd'.buf.length
  pos : jd'.pos = jd.pos
  content : jd.buf <+: jd'.buf
  room : jd.pos.toNat + n < jd'.buf.length

theorem jdRealloc_run (junk : ℕ → UInt8) {n : ℕ} (hsize : jd.bufSize.toNat = jd.buf.length)
    (hpos : jd.pos.toNat < jd.buf.length) (hfits : jd.Fits n) :
    ∃ jd', (jdRealloc junk (UInt32.ofNat n)).run jd = .ok () jd' ∧ Grown jd n jd' := by
  obtain ⟨hint, hroom⟩ := hfits
  have hn : (UInt32.ofNat n).toNat = n := by
    rw [UInt32.toNat_ofNat']
    omega
  have hbound := jd.bufSize.toNat_lt
  have hinc : sizeInc.toNat = 256 := rfl
  rw [jdRealloc, run_get_bind]
  by_cases hgrow : jd.bufSize - 1 ≤ jd.pos + UInt32.ofNat n
  · have hlarge : jd.bufSize.toNat + n + 256 < 2 ^ 32 := by
      refine hroom.resolve_left fun hsmall => ?_
      rw [UInt32.le_iff_toNat_le, UInt32.toNat_add, hn, UInt32.toNat_sub_of_le _ _
        (UInt32.le_iff_toNat_le.mpr (by rw [UInt32.toNat_one]; omega)), UInt32.toNat_one] at hgrow
      omega
    have hnew : (jd.bufSize + (UInt32.ofNat n + sizeInc)).toNat =
        jd.bufSize.toNat + n + 256 := by
      rw [UInt32.toNat_add, UInt32.toNat_add, hn, hinc]
      omega
    rw [if_pos hgrow]
    refine ⟨_, rfl, ?_, rfl, prefix_resize (by omega), ?_⟩
    · rw [length_resize]
    · rw [length_resize]
      omega
  · rw [if_neg hgrow]
    refine ⟨jd, rfl, hsize, rfl, List.prefix_refl _, ?_⟩
    rw [UInt32.le_iff_toNat_le, UInt32.toNat_add, hn, UInt32.toNat_sub_of_le _ _
        (UInt32.le_iff_toNat_le.mpr (by rw [UInt32.toNat_one]; omega)), UInt32.toNat_one] at hgrow
    omega

theorem readByte_run {i : UInt32} (h : jd.buf[i.toNat]? = some b) :
    (readByte i).run jd = .ok b jd := by
  rw [readByte, run_get_bind, h]
  rfl

/-- The block behind a prefix that ends before it. -/
theorem exists_rest {buf : Bytes} (h : text <+: buf) (hlt : text.length < buf.length) :
    ∃ c rest, buf = text ++ c :: rest := by
  obtain ⟨rest, rfl⟩ := h
  cases rest with
  | nil => simp at hlt
  | cons c rest => exact ⟨c, rest, rfl⟩

theorem pushByte_run (h : jd.Holds text) (hroom : text.length < jd.buf.length) :
    ∃ jd', (pushByte b).run jd = .ok () jd' ∧ jd'.Holds (text ++ [b]) ∧
      jd'.buf.length = jd.buf.length := by
  obtain ⟨c, rest, hbuf⟩ := exists_rest h.content hroom
  have hbound := jd.bufSize.toNat_lt
  have hsize := h.size
  have hpos : jd.pos.toNat < jd.buf.length := by
    rw [h.pos]
    exact hroom
  rw [pushByte, run_get_bind, writeByte]
  refine ⟨⟨jd.buf.set jd.pos.toNat b, jd.bufSize, jd.pos + 1⟩, ?_, ⟨?_, ?_, ?_⟩, ?_⟩
  · rw [run_bind_ok (by rw [run_get_bind, if_pos hpos]; rfl)]
    rfl
  · rw [List.length_set]
    exact h.size
  · rw [UInt32.toNat_add, UInt32.toNat_one, List.length_append, List.length_singleton, ← h.pos]
    omega
  · rw [h.pos, hbuf, List.set_append_right _ _ (le_refl _), Nat.sub_self, List.set_cons_zero]
    exact ⟨rest, by simp⟩
  · rw [List.length_set]

theorem writeNul_run (h : jd.Holds text) (hroom : text.length < jd.buf.length) :
    ∃ jd', (writeByte jd.pos 0).run jd = .ok () jd' ∧ jd'.Spells text := by
  obtain ⟨c, rest, hbuf⟩ := exists_rest h.content hroom
  have hpos : jd.pos.toNat < jd.buf.length := by
    rw [h.pos]
    exact hroom
  refine ⟨⟨jd.buf.set jd.pos.toNat 0, jd.bufSize, jd.pos⟩, ?_, ?_, h.pos, ?_⟩
  · rw [writeByte, run_get_bind, if_pos hpos]
    rfl
  · rw [List.length_set]
    exact h.size
  · rw [h.pos, hbuf, List.set_append_right _ _ (le_refl _), Nat.sub_self, List.set_cons_zero]
    exact ⟨rest, by simp⟩

/-- The byte before the write position is the last one, and moving back gives it up. -/
theorem lastByte (h : jd.Holds (text ++ [b])) :
    jd.buf[(jd.pos - 1).toNat]? = some b ∧ JsonDump.Holds { jd with pos := jd.pos - 1 } text := by
  have hpos := h.pos
  rw [List.length_append, List.length_singleton] at hpos
  have hback : (jd.pos - 1).toNat = text.length := by
    rw [UInt32.toNat_sub_of_le _ _ (UInt32.le_iff_toNat_le.mpr (by rw [UInt32.toNat_one]; omega)),
      UInt32.toNat_one, hpos]
    omega
  obtain ⟨rest, hbuf⟩ := h.content
  constructor
  · rw [hback, ← hbuf]
    simp
  · exact ⟨h.size, hback, (List.prefix_append text [b]).trans h.content⟩

/-- The content of a map or list ends in a byte that is not its opening bracket. -/
def Ready (brackets : Brackets) (content : Bytes) : Prop :=
  ∀ b, content.getLast? = some b → b ≠ brackets.opening

/-- A map or list around its content. -/
def enclosed (brackets : Brackets) (content : Bytes) : Bytes :=
  [brackets.opening] ++ content ++ [brackets.closing]

/-- What precedes a new element. -/
def resumed (brackets : Brackets) (content : Bytes) : Bytes :=
  [brackets.opening] ++ if content = [] then [] else content ++ ascii ","

/-- Rewinding takes the closing bracket away and separates the next element. -/
theorem prepAppend_run {brackets : Brackets} {content : Bytes}
    (h : jd.Holds (enclosed brackets content)) (hready : Ready brackets content) :
    ∃ jd', (prepAppend brackets).run jd = .ok () jd' ∧ jd'.Holds (resumed brackets content) ∧
      jd'.buf.length = jd.buf.length := by
  obtain ⟨hclosing, hback⟩ := lastByte h
  have hpos : 1 < jd.pos := by
    rw [UInt32.lt_iff_toNat_lt, h.pos, UInt32.toNat_one]
    simp [enclosed]
  have hlength := h.content.length_le
  simp only [enclosed, List.length_append, List.length_singleton] at hlength
  rw [prepAppend, run_get_bind, if_pos hpos, run_bind_ok (readByte_run hclosing), if_pos rfl]
  have hmove : (moveTo (jd.pos - 1)).run jd = .ok () { jd with pos := jd.pos - 1 } := rfl
  rw [run_bind_ok hmove]
  cases hcontent : content.getLast? with
  | none =>
      obtain rfl := List.getLast?_eq_none_iff.mp hcontent
      rw [List.append_nil] at hback
      have hfirst : JsonDump.Holds { jd with pos := jd.pos - 1 } ([] ++ [brackets.opening]) := hback
      obtain ⟨hopening, -⟩ := lastByte hfirst
      rw [run_bind_ok (readByte_run hopening), if_neg (not_not.mpr rfl)]
      exact ⟨_, rfl, by simpa [resumed] using hback, rfl⟩
  | some last =>
      obtain ⟨init, hinit⟩ : ∃ init, content = init ++ [last] :=
        ⟨_, (List.dropLast_append_getLast? last hcontent).symm⟩
      have hlast : JsonDump.Holds { jd with pos := jd.pos - 1 }
          (([brackets.opening] ++ init) ++ [last]) := by
        rw [List.append_assoc, ← hinit]
        exact hback
      obtain ⟨hread, -⟩ := lastByte hlast
      rw [run_bind_ok (readByte_run hread), if_pos (hready last hcontent)]
      obtain ⟨jd', hpush, hholds, hsame⟩ := pushByte_run (b := ','.toUInt8) hback
        (by simp only [List.length_append, List.length_singleton]; omega)
      refine ⟨jd', hpush, ?_, hsame⟩
      have hne : content ≠ [] := by simp [hinit]
      rw [resumed, if_neg hne, ← List.append_assoc]
      exact hholds

/-- Printing with room for the text and the NUL. -/
theorem printAtPos_run (out : Bytes) (h : jd.Holds text) (hint : out.length ≤ intMax)
    (hroom : text.length + out.length + 1 ≤ jd.buf.length) :
    ∃ jd', (printAtPos out).run jd = .ok () jd' ∧ jd'.Spells (text ++ out) := by
  have hsize := h.size
  have hpos := h.pos
  have hbound := jd.bufSize.toNat_lt
  have hle : jd.pos ≤ jd.bufSize := UInt32.le_iff_toNat_le.mpr (by omega)
  have hprinted : printed (jd.bufSize - jd.pos).toNat out = out ++ [0] := by
    rw [printed, UInt32.toNat_sub_of_le _ _ hle, if_neg (by omega),
      List.take_of_length_le (by omega)]
  obtain ⟨rest, hbuf⟩ := h.content
  have hfit : jd.pos.toNat + (out ++ [0]).length ≤ jd.buf.length := by
    rw [List.length_append, List.length_singleton]
    omega
  have hstored : overwrite jd.buf jd.pos.toNat (out ++ [0]) =
      text ++ (out ++ [0]) ++ jd.buf.drop (jd.pos.toNat + (out ++ [0]).length) := by
    rw [overwrite]
    congr 2
    rw [hpos, ← hbuf, List.take_left']
    rfl
  refine ⟨⟨overwrite jd.buf jd.pos.toNat (out ++ [0]), jd.bufSize,
    jd.pos + UInt32.ofNat out.length⟩, ?_, ?_, ?_, ?_⟩
  · rw [printAtPos, run_get_bind, if_neg (by omega)]
    simp only [hprinted]
    rw [if_pos hfit]
    rfl
  · rw [List.length_append, List.length_singleton] at hfit
    simp only [hstored, List.length_append, List.length_drop, List.length_singleton]
    omega
  · rw [UInt32.toNat_add, UInt32.toNat_ofNat', List.length_append, ← hpos]
    omega
  · rw [List.append_assoc, hstored]
    exact List.prefix_append _ _

theorem Grown.holds {jd' : JsonDump} {n : ℕ} (h : Grown jd n jd') (htext : jd.Holds text) :
    jd'.Holds text :=
  ⟨h.size, by rw [h.pos, htext.pos], htext.content.trans h.content⟩

end Steps

section Adding

variable {jd : JsonDump} {junk : ℕ → UInt8} {brackets : Brackets} {content piece : Bytes}

/-- A dump that was created and holds nothing yet. -/
structure JsonDump.Blank (jd : JsonDump) : Prop where
  holds : jd.Holds []
  ne_nil : jd.buf ≠ []

theorem jdCreate_blank (size : UInt32) : (jdCreate size).Blank := by
  have hpos : 0 < (if size = 0 then sizeInc else size).toNat := by
    split_ifs with hzero
    · decide
    · exact Nat.pos_of_ne_zero fun h => hzero (UInt32.toNat_inj.mp h)
  exact ⟨⟨(List.length_replicate ..).symm, rfl, List.nil_prefix⟩, by
    simpa [jdCreate] using Nat.ne_of_gt hpos⟩

/-- `jd_map_start` and `jd_list_start` always find the room they ask for. -/
theorem start_run (brackets : Brackets) (junk : ℕ → UInt8) (h : jd.Blank) :
    ∃ jd', (start brackets junk).run jd = .ok () jd' ∧ jd'.Spells (enclosed brackets []) := by
  obtain ⟨hholds, hne⟩ := h
  have hzero := hholds.pos
  have hpos : jd.pos.toNat < jd.buf.length := by
    rw [hzero]
    exact List.length_pos_of_ne_nil hne
  have hfits : jd.Fits 2 := by
    rw [List.length_nil] at hzero
    exact ⟨by decide, by omega⟩
  obtain ⟨jd₁, hrealloc, hgrown⟩ := jdRealloc_run junk hholds.size hpos hfits
  have hroom := hgrown.room
  rw [hzero, List.length_nil] at hroom
  obtain ⟨jd₂, hopen, hholds₂, hsame₂⟩ := pushByte_run (b := brackets.opening)
    (hgrown.holds hholds) (by rw [List.length_nil]; omega)
  obtain ⟨jd₃, hclose, hholds₃, hsame₃⟩ := pushByte_run (b := brackets.closing) hholds₂
    (by rw [List.length_append, List.length_nil, List.length_singleton]; omega)
  obtain ⟨jd', hnul, hspells⟩ := writeNul_run hholds₃ (by
    simp only [List.length_append, List.length_nil, List.length_singleton]
    omega)
  have hask : (UInt32.ofNat 2) = 2 := rfl
  rw [hask] at hrealloc
  refine ⟨jd', ?_, hspells⟩
  rw [start, run_bind_ok hrealloc, run_bind_ok hopen, run_bind_ok hclose, run_get_bind]
  exact hnul

/-- Adding a text that fits appends it as one more element. -/
theorem addRaw_run (junk : ℕ → UInt8) (h : jd.Spells (enclosed brackets content))
    (hready : Ready brackets content) (hfits : jd.Fits (piece.length + 2)) :
    ∃ jd', (addRaw brackets junk (piece.length + 2) (piece ++ [brackets.closing])).run jd =
        .ok () jd' ∧
      jd'.Spells (enclosed brackets
        (if content = [] then piece else content ++ ascii "," ++ piece)) := by
  have hlength := h.content.length_le
  rw [List.length_append, List.length_singleton, ← h.pos] at hlength
  obtain ⟨jd₁, hrealloc, hgrown⟩ := jdRealloc_run junk h.size (by omega) hfits
  have hroom := hgrown.room
  obtain ⟨jd₂, hprep, hholds₂, hsame⟩ := prepAppend_run (hgrown.holds h.holds) hready
  have hresumed : (resumed brackets content).length ≤ content.length + 2 := by
    rw [resumed]
    split_ifs with hnil
    · simp
    · have hcomma : (ascii ",").length = 1 := rfl
      simp only [List.length_append, List.length_singleton, hcomma]
      omega
  have henclosed : (enclosed brackets content).length = content.length + 2 := by
    simp only [enclosed, List.length_append, List.length_singleton]
    omega
  have hpos := h.pos
  obtain ⟨jd', hprint, hspells⟩ := printAtPos_run (piece ++ [brackets.closing]) hholds₂
    (by
      have hint := hfits.1
      rw [List.length_append, List.length_singleton, intMax]
      omega)
    (by
      rw [List.length_append, List.length_singleton]
      omega)
  refine ⟨jd', ?_, ?_⟩
  · rw [addRaw, run_bind_ok hrealloc, run_bind_ok hprep]
    exact hprint
  · have htext : resumed brackets content ++ (piece ++ [brackets.closing]) =
        enclosed brackets (if content = [] then piece else content ++ ascii "," ++ piece) := by
      rw [resumed, enclosed]
      split_ifs with hnil
      · simp
      · simp
    rwa [htext] at hspells

/-- What printing needs, and that it keeps the size. -/
theorem printAtPos_wp (text : Bytes) (jd : JsonDump) :
    wp (printAtPos text)
      (fun _ jd' => text.length ≤ intMax ∧ jd'.bufSize = jd.bufSize) (fun _ _ => True) jd := by
  simp only [printAtPos, wp_bind, wp_get, wp_ite, wp_throw, wp_set]
  exact ⟨fun _ => trivial, fun hint => ⟨fun _ => ⟨not_lt.mp hint, trivial⟩, fun _ => trivial⟩⟩

theorem readByte_wp {Q : UInt8 → JsonDump → Prop} {i : UInt32} (h : ∀ b, Q b jd) :
    wp (readByte i) Q (fun _ _ => True) jd := by
  rw [readByte, wp_bind, wp_get]
  cases jd.buf[i.toNat]? with
  | none => trivial
  | some b => exact h b

theorem prepAppend_wp (brackets : Brackets) (jd : JsonDump) :
    wp (prepAppend brackets) (fun _ jd' => jd'.bufSize = jd.bufSize) (fun _ _ => True) jd := by
  rw [prepAppend, wp_bind, wp_get, wp_ite]
  refine ⟨fun _ => ?_, fun _ => rfl⟩
  rw [wp_bind]
  refine readByte_wp fun b => ?_
  rw [wp_ite]
  refine ⟨fun _ => ?_, fun _ => rfl⟩
  rw [wp_bind, moveTo, wp_modify, wp_bind]
  refine readByte_wp fun b => ?_
  rw [wp_ite]
  refine ⟨fun _ => ?_, fun _ => rfl⟩
  simp only [pushByte, writeByte, moveTo, wp_bind, wp_get, wp_ite, wp_set, wp_throw, wp_modify]
  exact ⟨fun _ => trivial, fun _ => trivial⟩

/-- Where the text does not fit, the call fails or the buffer holds something else. -/
theorem not_spells_addRaw (h : jd.Spells (enclosed brackets content))
    (hnot : ¬ jd.Fits (piece.length + 2)) {jd' : JsonDump}
    (hrun : (addRaw brackets junk (piece.length + 2) (piece ++ [brackets.closing])).run jd =
      .ok () jd') :
    ¬ jd'.Spells (enclosed brackets
      (if content = [] then piece else content ++ ascii "," ++ piece)) := by
  rw [addRaw] at hrun
  obtain ⟨⟨⟩, jd₁, hrealloc, hrest⟩ := run_bind_eq_ok.mp hrun
  obtain ⟨⟨⟩, jd₂, hprep, hprint⟩ := run_bind_eq_ok.mp hrest
  obtain ⟨hint, hsame₂⟩ := wp_ok (printAtPos_wp _ _) hprint
  have hsame₁ := wp_ok (prepAppend_wp _ _) hprep
  rw [List.length_append, List.length_singleton, intMax] at hint
  intro hspells
  have hlength := hspells.content.length_le
  have hpos := h.pos
  have hle := h.content.length_le
  rw [List.length_append, ← hspells.size, hsame₂, hsame₁, List.length_singleton] at hlength
  rw [List.length_append, ← h.size, List.length_singleton] at hle
  simp only [enclosed, List.length_append, List.length_singleton] at hlength hpos hle
  have hn : (UInt32.ofNat (piece.length + 2)).toNat = piece.length + 2 := by
    rw [UInt32.toNat_ofNat']
    omega
  have hbound := jd.bufSize.toNat_lt
  have hinc : sizeInc.toNat = 256 := rfl
  have htaken : (content.length = 0 ∧
      (if content = [] then piece else content ++ ascii "," ++ piece).length = piece.length) ∨
      (if content = [] then piece else content ++ ascii "," ++ piece).length =
        content.length + 1 + piece.length := by
    split_ifs with hnil
    · exact .inl ⟨by rw [hnil, List.length_nil], rfl⟩
    · have hcomma : (ascii ",").length = 1 := rfl
      right
      simp only [List.length_append, hcomma]
  rw [JsonDump.Fits, not_and, not_or] at hnot
  obtain ⟨hsmall, hlarge⟩ := hnot (by omega)
  rw [jdRealloc, run_get_bind] at hrealloc
  split_ifs at hrealloc with hgrow
  · have hjd : jd₁.bufSize = jd.bufSize + (UInt32.ofNat (piece.length + 2) + sizeInc) := by
      cases hrealloc
      rfl
    rw [UInt32.le_iff_toNat_le, UInt32.toNat_add, hn, UInt32.toNat_sub_of_le _ _
      (UInt32.le_iff_toNat_le.mpr (by rw [UInt32.toNat_one]; omega)), UInt32.toNat_one] at hgrow
    rw [hjd, UInt32.toNat_add, UInt32.toNat_add, hn, hinc] at hlength
    rcases htaken with ⟨hnil, htaken⟩ | htaken
    · omega
    · omega
  · have hjd : jd₁.bufSize = jd.bufSize := by
      cases hrealloc
      rfl
    rw [UInt32.le_iff_toNat_le, UInt32.toNat_add, hn, UInt32.toNat_sub_of_le _ _
      (UInt32.le_iff_toNat_le.mpr (by rw [UInt32.toNat_one]; omega)), UInt32.toNat_one] at hgrow
    rw [hjd] at hlength
    rcases htaken with ⟨hnil, htaken⟩ | htaken
    · omega
    · omega

end Adding

end Tdnf.JsonDump
