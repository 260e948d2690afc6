import Tdnf.Llconf.Reading

/-!
# Reading what was written

A setting is written into a buffer of 1024 bytes and read through one of 1023,
so a long one loses its line end and takes the next line with it. The settings
of a tree are read again exactly if all of them fit.
-/

namespace Tdnf.Llconf

open PathText Common

/-- A setting that is read as it was written, behind some spaces in its line. -/
def SettingReads (lead : ℕ) (name value : Text) : Prop :=
  value.head? ≠ some '{' ∧
    lead + name.length + (if value = [] then 2 else value.length + 3) ≤ 1022

/-- All settings of a section are read as they were written. A name of 1020 bytes without a
value leaves the last space of its line to the next one. -/
def Reads : ℕ → List CnfNode → Prop
  | _, [] => True
  | lead, node :: nodes =>
    if isLineName node.name then Reads 0 nodes
    else SettingReads lead node.name (node.value.getD []) ∧
      Reads (if node.name.length = 1020 then 1 else 0) nodes

/-! ## Lines -/

/-- What is read from a text in a section. -/
def readText (s : Text) : Option (List Setting × List (Text × List Setting)) :=
  readSection (readConflines s)

/-- Spaces at the start of a line. -/
def pad (lead : ℕ) : Text := List.replicate lead ' '

section Texts

variable {l s u name value : Text} {lead : ℕ}

theorem cstr_append (h : '\x00' ∉ l) (s : Text) : cstr (l ++ s) = l ++ cstr s := by
  rw [cstr, List.takeWhile_append_of_pos, cstr]
  intro c hc
  simpa using fun hc' : c = '\x00' => h (hc' ▸ hc)

theorem cstr_of_not_mem (h : '\x00' ∉ l) : cstr l = l := by
  have happend := cstr_append h []
  have hnil : cstr [] = [] := rfl
  rwa [List.append_nil, hnil, List.append_nil] at happend

theorem readConflines_line (hl : '\n' ∉ l) (hnul : '\x00' ∉ l) (hlen : l.length ≤ 1021) (s : Text) :
    readConflines (l ++ '\n' :: s) = (l ++ ['\n']) :: readConflines s := by
  rw [readConflines, LineChunks.pieces_line hl hlen, List.map_cons, cstr_append hnul]
  rfl

theorem readConflines_full (hl : '\n' ∉ l) (hnul : '\x00' ∉ l) (hlen : l.length = 1022) (s : Text) :
    readConflines (l ++ s) = l :: readConflines s := by
  rw [readConflines, LineChunks.pieces_full hl hlen, List.map_cons, cstr_of_not_mem hnul]
  rfl

theorem readConflines_start (hl : '\n' ∉ l) (hnul : '\x00' ∉ l) (hne : l ≠ [])
    (hlen : l.length ≤ 1022) (s : Text) :
    ∃ t cl, readConflines (l ++ s) = (l ++ t) :: cl := by
  obtain ⟨t, ps, hpieces⟩ := LineChunks.pieces_start hl hne hlen s
  refine ⟨cstr t, ps.map cstr, ?_⟩
  rw [readConflines, hpieces, List.map_cons, cstr_append hnul]

theorem isSpace_of_mem_pad {c : Char} (h : c ∈ pad lead) : isSpace c = true := by
  rw [List.eq_of_mem_replicate h]
  rfl

theorem lineKind_pad (lead : ℕ) (line : Text) : lineKind (pad lead ++ line) = lineKind line :=
  lineKind_append (fun _ => isSpace_of_mem_pad) line

theorem readText_lineEnd (s : Text) : readText ('\n' :: s) = readText s := by
  have hline : readConflines ('\n' :: s) = ['\n'] :: readConflines s :=
    readConflines_line (l := []) (by simp) (by simp) (by simp) s
  rw [readText, hline]
  exact readSection_aside (lineKind_aside (.inl rfl))

/-- A line of up to 1022 bytes is read as a whole, with or without its end. -/
theorem readText_of_step (hl : '\n' ∉ l) (hnul : '\x00' ∉ l) (hlen : l.length ≤ 1022)
    {f : List Setting × List (Text × List Setting) → List Setting × List (Text × List Setting)}
    (hstep : ∀ e, e = [] ∨ e = ['\n'] → ∀ cl, readSection ((l ++ e) :: cl) =
      (readSection cl).map f) (s : Text) :
    readText (l ++ '\n' :: s) = (readText s).map f := by
  by_cases hfull : l.length = 1022
  · have hrest := hstep [] (.inl rfl) (readConflines ('\n' :: s))
    rw [List.append_nil] at hrest
    rw [readText, readConflines_full hl hnul hfull, hrest]
    exact congrArg (Option.map f) (readText_lineEnd s)
  · rw [readText, readConflines_line hl hnul (by omega), hstep _ (.inr rfl)]
    rfl

/-- The text of a line that says nothing about settings. -/
structure AsideText (u : Text) : Prop where
  line : '\n' ∉ u
  nul : '\x00' ∉ u
  short : u.length ≤ 1021
  kind : skipSpaces u = [] ∨ (skipSpaces u).head? = some '#'

theorem AsideText.lineKind (h : AsideText u) (lead : ℕ) {e : Text} (he : e = [] ∨ e = ['\n']) :
    lineKind (pad lead ++ u ++ e) = .aside := by
  rw [List.append_assoc, lineKind_pad]
  apply lineKind_aside
  rcases h.kind with hempty | hcomment
  · left
    have hspaces : ∀ c ∈ u, isSpace c = true := List.dropWhile_eq_nil_iff.mp hempty
    rw [skipSpaces_append hspaces]
    rcases he with rfl | rfl <;> rfl
  · right
    have hne : skipSpaces u ≠ [] := by
      intro hnil
      rw [hnil] at hcomment
      cases hcomment
    rw [skipSpaces_append_of_ne_nil hne, List.head?_append, hcomment]
    rfl

theorem not_mem_pad {c : Char} (hc : c ≠ ' ') (lead : ℕ) : c ∉ pad lead :=
  fun h => hc (List.eq_of_mem_replicate h)

theorem readText_aside (h : AsideText u) (hlead : lead ≤ 1) (s : Text) :
    readText (pad lead ++ (u ++ '\n' :: s)) = readText s := by
  have hl : '\n' ∉ pad lead ++ u := by
    simp [not_mem_pad, h.line]
  have hnul : '\x00' ∉ pad lead ++ u := by
    simp [not_mem_pad, h.nul]
  have hlen : (pad lead ++ u).length ≤ 1022 := by
    have hshort := h.short
    simp only [List.length_append, pad, List.length_replicate]
    omega
  rw [← List.append_assoc, readText_of_step (f := id) hl hnul hlen]
  · simp
  · intro e he cl
    rw [readSection_aside (h.lineKind lead he)]
    simp

/-- The name and the value of a setting in a tree that was read, or of the new one. -/
structure SettingText (name value : Text) : Prop where
  key : KeyText name
  notLine : isLineName name = false
  line : '\n' ∉ value
  nul : '\x00' ∉ name ∧ '\x00' ∉ value
  head : ∀ c ∈ value.head?, isSpace c = false
  short : name.length ≤ 1020
  shorter : value ≠ [] → name.length ≤ 1019
  brace : value.head? = some '{' → name.length ≤ 255

theorem KeyText.not_mem (h : KeyText name) : '\n' ∉ name := by
  intro hmem
  have hchar := h.chars _ hmem
  exact absurd hchar (by decide)

theorem readSection_settingLine (h : SettingText name value) (hbrace : value.head? ≠ some '{')
    (hlen : value.length ≤ 1023) (lead : ℕ) {e : Text} (he : e = [] ∨ e = ['\n'])
    (cl : List Text) :
    readSection ((pad lead ++ (name ++ ([' '] ++ '=' :: ([' '] ++ (value ++ e))))) :: cl) =
      (readSection cl).map fun r => ((name, some value) :: r.1, r.2) := by
  have hspace : ∀ c ∈ [' '], isSpace c = true := by simp [isSpace]
  refine readSection_setting ?_ h.notLine
  rw [lineKind_pad, lineKind_equals h.key (h.short.trans (by omega)) hspace]
  exact kindBehind_value hspace h.head hbrace h.line hlen he

theorem head?_take_of_mem {c : Char} {n : ℕ} (h : c ∈ (value.take n).head?) : c ∈ value.head? := by
  cases n with
  | zero => cases h
  | succ n =>
      cases value with
      | nil => cases h
      | cons d value => exact h

/-- Of a line that is cut behind the equals sign the name is read, and the rest of the value. -/
theorem readSection_cut (h : SettingText name value) (hbrace : value.head? ≠ some '{')
    {n : ℕ} (hn : n ≤ 1023) (lead : ℕ) (cl : List Text) :
    readSection ((pad lead ++ (name ++ ' ' :: '=' :: (' ' :: value).take n)) :: cl) =
      (readSection cl).map fun r => ((name, some (value.take (n - 1))) :: r.1, r.2) := by
  have hspace : ∀ c ∈ [' '], isSpace c = true := by simp [isSpace]
  refine readSection_setting ?_ h.notLine
  have hkind := lineKind_equals h.key (h.short.trans (by omega)) hspace ((' ' :: value).take n)
  rw [lineKind_pad]
  refine hkind.trans ?_
  cases n with
  | zero => rfl
  | succ n =>
      have hvalue : kindBehind name ([' '] ++ (value.take n ++ [])) =
          .setting name (value.take n) :=
        kindBehind_value hspace (fun c hc => h.head c (head?_take_of_mem hc))
          (fun hc => hbrace (Option.mem_def.mp (head?_take_of_mem hc)))
          (fun hc => h.line (List.mem_of_mem_take hc))
          ((List.length_take_le n value).trans (by omega)) (.inl rfl)
      rw [List.append_nil] at hvalue
      exact hvalue

/-- The text of a setting, as far as it fits into the buffer. -/
def settingLine (name value : Text) : Text :=
  snprintf 1024 (name ++ " = ".toList ++ value ++ ['\n'])

theorem settingLine_eq (name value : Text) :
    settingLine name value = (name ++ ' ' :: '=' :: ' ' :: (value ++ ['\n'])).take 1023 := by
  simp [settingLine, snprintf]

/-- What is at the start of a setting, if it fits. -/
theorem settingLine_start {t rest : Text}
    (h : name ++ ' ' :: '=' :: ' ' :: (value ++ ['\n']) = t ++ rest) (ht : t.length ≤ 1023) :
    settingLine name value = t ++ rest.take (1023 - t.length) := by
  rw [settingLine_eq, h, List.take_append, List.take_of_length_le ht]

/-- A setting that fits, and where the next line starts. -/
theorem readText_setting (h : SettingText name value) (hlead : lead ≤ 1)
    (hreads : SettingReads lead name value) (s : Text) :
    readText (pad lead ++ (settingLine name value ++ s)) =
      (readText (pad (if name.length = 1020 then 1 else 0) ++ s)).map
        fun r => ((name, some value) :: r.1, r.2) := by
  obtain ⟨hbrace, hlen⟩ := hreads
  rw [settingLine_eq]
  by_cases hwhole : lead + name.length + 3 + value.length ≤ 1022
  · have hl : '\n' ∉ pad lead ++ (name ++ ' ' :: '=' :: ' ' :: value) := by
      simp [not_mem_pad, h.key.not_mem, h.line]
    have hnul : '\x00' ∉ pad lead ++ (name ++ ' ' :: '=' :: ' ' :: value) := by
      simp [not_mem_pad, h.nul]
    have hline : (name ++ ' ' :: '=' :: ' ' :: (value ++ ['\n'])).take 1023 =
        name ++ ' ' :: '=' :: ' ' :: (value ++ ['\n']) := by
      refine List.take_of_length_le ?_
      simp only [List.length_append, List.length_cons, List.length_nil]
      omega
    have hsplit : pad lead ++ (name ++ ' ' :: '=' :: ' ' :: (value ++ ['\n']) ++ s) =
        (pad lead ++ (name ++ ' ' :: '=' :: ' ' :: value)) ++ '\n' :: s := by
      simp
    rw [hline, hsplit, if_neg (by omega), readText_of_step hl hnul]
    · rfl
    · simp only [List.length_append, List.length_cons, pad, List.length_replicate]
      omega
    · intro e he cl
      have hstep := readSection_settingLine h hbrace (by omega) lead he cl
      simpa using hstep
  · -- only the space behind the equals sign does not fit
    obtain rfl : value = [] := by
      by_contra hne
      rw [if_neg hne] at hlen
      omega
    rw [if_pos rfl] at hlen
    rw [List.length_nil] at hwhole
    have hl : '\n' ∉ pad lead ++ (name ++ [' ', '=']) := by
      simp [not_mem_pad, h.key.not_mem]
    have hnul : '\x00' ∉ pad lead ++ (name ++ [' ', '=']) := by
      simp [not_mem_pad, h.nul.1]
    have hfull : (pad lead ++ (name ++ [' ', '='])).length = 1022 := by
      simp only [List.length_append, List.length_cons, List.length_nil, pad, List.length_replicate]
      omega
    have hstep (t : Text) : readText (pad lead ++ (name ++ [' ', '=']) ++ t) =
        (readText t).map fun r => ((name, some []) :: r.1, r.2) := by
      have hcut := readSection_cut h hbrace (Nat.zero_le _) lead (readConflines t)
      rw [readText, readConflines_full hl hnul hfull]
      exact hcut
    rcases Nat.le_one_iff_eq_zero_or_eq_one.mp hlead with rfl | rfl
    · have hn : name.length = 1020 := by omega
      have hline : (name ++ ' ' :: '=' :: ' ' :: ([] ++ ['\n'])).take 1023 =
          name ++ [' ', '='] ++ pad 1 := by
        rw [List.take_append, List.take_of_length_le (by omega), hn]
        simp [pad]
      have hsplit : pad 0 ++ (name ++ [' ', '='] ++ pad 1 ++ s) =
          pad 0 ++ (name ++ [' ', '=']) ++ (pad 1 ++ s) := by
        simp
      rw [hline, hsplit, hstep, if_pos hn]
    · have hn : name.length = 1019 := by omega
      have hline : (name ++ ' ' :: '=' :: ' ' :: ([] ++ ['\n'])).take 1023 =
          name ++ [' ', '='] ++ [' ', '\n'] := by
        rw [List.take_append, List.take_of_length_le (by omega), hn]
        simp
      have hsplit : pad 1 ++ (name ++ [' ', '='] ++ [' ', '\n'] ++ s) =
          pad 1 ++ (name ++ [' ', '=']) ++ (pad 1 ++ ([] ++ '\n' :: s)) := by
        simp [pad]
      have hblank : readText (pad 1 ++ ([] ++ '\n' :: s)) = readText s :=
        readText_aside ⟨by simp, by simp, by simp, .inl rfl⟩ le_rfl s
      rw [hline, hsplit, hstep, hblank, if_neg (by omega)]
      rfl

/-- A line that starts with an equals sign gives a value to the empty name. -/
theorem readText_equals {r : List Setting × List (Text × List Setting)}
    (h : readText ('=' :: s) = some r) : ∃ value, r.1.head? = some ([], value) := by
  have hstart := readConflines_start (l := ['=']) (by simp) (by simp) (by simp) (by simp) s
  obtain ⟨t, cl, hlines⟩ := hstart
  have hkey : KeyText [] := ⟨by simp, by simp⟩
  have hgap : ∀ c ∈ ([] : Text), isSpace c = true := by simp
  have hkind : lineKind ('=' :: t) = kindBehind [] t :=
    lineKind_equals hkey (Nat.zero_le _) hgap t
  have hlines' : readConflines ('=' :: s) = ('=' :: t) :: cl := hlines
  rw [readText, hlines'] at h
  rw [kindBehind] at hkind
  split_ifs at hkind
  · rw [readSection_setting hkind rfl] at h
    obtain ⟨r', -, rfl⟩ := Option.map_eq_some_iff.mp h
    exact ⟨_, rfl⟩
  · exact ⟨none, readSection_opening hkind rfl h⟩

theorem lineKind_name (h : KeyText name) (hn : name.length ≤ 1023) (hne : name ≠ []) :
    lineKind (name ++ [' ']) = .aside := by
  cases name with
  | nil => exact absurd rfl hne
  | cons c name =>
      have hskip : skipSpaces (c :: name ++ [' ']) = c :: name ++ [' '] := by
        refine skipSpaces_of_head fun d hd => ?_
        obtain rfl : c = d := by simpa using hd
        exact not_isSpace_of_isKeyChar (h.chars c List.mem_cons_self)
      have hkey : takeKey (c :: name ++ [' ']) 1023 = (c :: name, [' ']) :=
        takeKey_append h.chars hn (by simp [isKeyChar, isSpace])
      have hheading : c ≠ '[' := by simpa using h.head.1
      have hcomment : c ≠ '#' := by simpa using h.head.2
      rw [lineKind, hskip, hkey]
      simp [hheading, hcomment, skipSpaces, isSpace]

section Unfit

variable {r : List Setting × List (Text × List Setting)}

/-- A brace at the start of the value opens a subsection. -/
theorem readText_brace (h : SettingText name ('{' :: value)) (hlead : lead ≤ 1) (s : Text)
    (hr : readText (pad lead ++ (settingLine name ('{' :: value) ++ s)) = some r) :
    r.1.head? = some (name, none) := by
  have hshort := h.brace rfl
  have hl : '\n' ∉ pad lead ++ (name ++ [' ', '=', ' ', '{']) := by
    simp [not_mem_pad, h.key.not_mem]
  have hnul : '\x00' ∉ pad lead ++ (name ++ [' ', '=', ' ', '{']) := by
    simp [not_mem_pad, h.nul.1]
  have hlen : (pad lead ++ (name ++ [' ', '=', ' ', '{'])).length ≤ 1022 := by
    simp only [List.length_append, List.length_cons, List.length_nil, pad, List.length_replicate]
    omega
  obtain ⟨rest, hline⟩ : ∃ rest, settingLine name ('{' :: value) =
      name ++ [' ', '=', ' ', '{'] ++ rest := by
    have happend : name ++ ' ' :: '=' :: ' ' :: ('{' :: value ++ ['\n']) =
        name ++ [' ', '=', ' ', '{'] ++ (value ++ ['\n']) := by
      simp
    refine ⟨_, settingLine_start happend ?_⟩
    simp only [List.length_append, List.length_cons, List.length_nil]
    omega
  obtain ⟨t, cl, hlines⟩ := readConflines_start hl hnul (by simp) hlen (rest ++ s)
  have hspace : ∀ c ∈ [' '], isSpace c = true := by simp [isSpace]
  have hkind : lineKind (pad lead ++ (name ++ [' ', '=', ' ', '{']) ++ t) = .opening name := by
    have hequals := lineKind_equals h.key (h.short.trans (by omega)) hspace ([' '] ++ '{' :: t)
    rw [kindBehind_brace hspace rfl] at hequals
    rw [List.append_assoc, lineKind_pad, ← hequals]
    simp
  have hsplit : pad lead ++ (name ++ [' ', '=', ' ', '{'] ++ rest ++ s) =
      pad lead ++ (name ++ [' ', '=', ' ', '{']) ++ (rest ++ s) := by
    simp
  rw [hline, hsplit, readText, hlines] at hr
  exact readSection_opening hkind h.notLine hr

/-- Behind a space, a name of 1020 bytes leaves its equals sign to the next piece. -/
theorem readText_longName (h : SettingText name []) (hn : name.length = 1020) (s : Text)
    (hr : readText (pad 1 ++ (settingLine name [] ++ s)) = some r) :
    ∃ value, r.1.head? = some ([], value) := by
  have hname : name ≠ [] := by
    rintro rfl
    cases hn
  have hline : settingLine name [] = name ++ [' '] ++ ['=', ' '] := by
    rw [settingLine_eq, List.take_append, List.take_of_length_le (by omega), hn]
    simp
  have hsplit : pad 1 ++ (name ++ [' '] ++ ['=', ' '] ++ s) =
      pad 1 ++ (name ++ [' ']) ++ '=' :: ' ' :: s := by
    simp
  have hfull : (pad 1 ++ (name ++ [' '])).length = 1022 := by
    simp only [List.length_append, List.length_cons, List.length_nil, pad, List.length_replicate]
    omega
  have hkind : lineKind (pad 1 ++ (name ++ [' '])) = .aside := by
    rw [lineKind_pad, lineKind_name h.key (by omega) hname]
  rw [hline, hsplit, readText, readConflines_full (by simp [not_mem_pad, h.key.not_mem])
    (by simp [not_mem_pad, h.nul.1]) hfull, readSection_aside hkind] at hr
  exact readText_equals hr

/-- A value that is too long is cut; its last bytes come at the start of the next piece. -/
theorem readText_longValue (h : SettingText name value) (hbrace : value.head? ≠ some '{')
    {k : ℕ} (hk : lead + name.length + 2 + k = 1022) (hvalue : k ≤ value.length) (hlead : lead ≤ 1)
    (s : Text) (hr : readText (pad lead ++ (settingLine name value ++ s)) = some r) :
    r.1.head? = some (name, some (value.take (k - 1))) := by
  have htake : ((' ' :: value).take k).length = k :=
    List.length_take_of_le (hvalue.trans (Nat.le_succ _))
  obtain ⟨rest, hline⟩ : ∃ rest, settingLine name value =
      name ++ ' ' :: '=' :: (' ' :: value).take k ++ rest := by
    have happend : name ++ ' ' :: '=' :: ' ' :: (value ++ ['\n']) =
        name ++ ' ' :: '=' :: (' ' :: value).take k ++ ((' ' :: value).drop k ++ ['\n']) := by
      have hcut : (' ' :: value).take k ++ ((' ' :: value).drop k ++ ['\n']) =
          ' ' :: (value ++ ['\n']) := by
        rw [← List.append_assoc, List.take_append_drop, List.cons_append]
      rw [List.append_assoc, List.cons_append, List.cons_append, hcut]
    refine ⟨_, settingLine_start happend ?_⟩
    simp only [List.length_append, List.length_cons, htake]
    omega
  have hsplit : pad lead ++ (name ++ ' ' :: '=' :: (' ' :: value).take k ++ rest ++ s) =
      pad lead ++ (name ++ ' ' :: '=' :: (' ' :: value).take k) ++ (rest ++ s) := by
    simp
  have hfull : (pad lead ++ (name ++ ' ' :: '=' :: (' ' :: value).take k)).length = 1022 := by
    simp only [List.length_append, List.length_cons, htake, pad, List.length_replicate]
    omega
  have hmem {c : Char} (hc : c ∉ ' ' :: value) : c ∉ (' ' :: value).take k :=
    fun h => hc (List.mem_of_mem_take h)
  have hl : '\n' ∉ pad lead ++ (name ++ ' ' :: '=' :: (' ' :: value).take k) := by
    have hrest := hmem (c := '\n') (by simp [h.line])
    simp [not_mem_pad, h.key.not_mem, hrest]
  have hnul : '\x00' ∉ pad lead ++ (name ++ ' ' :: '=' :: (' ' :: value).take k) := by
    have hrest := hmem (c := '\x00') (by simp [h.nul.2])
    simp [not_mem_pad, h.nul.1, hrest]
  rw [hline, hsplit, readText, readConflines_full hl hnul hfull,
    readSection_cut h hbrace (by omega)] at hr
  obtain ⟨r', -, rfl⟩ := Option.map_eq_some_iff.mp hr
  rfl

/-- A setting that does not fit is not what is read. -/
theorem readText_setting_ne (h : SettingText name value) (hlead : lead ≤ 1)
    (hreads : ¬ SettingReads lead name value) (s : Text)
    (hr : readText (pad lead ++ (settingLine name value ++ s)) = some r) :
    r.1.head? ≠ some (name, some value) := by
  by_cases hbrace : value.head? = some '{'
  · obtain ⟨value, rfl⟩ := List.head?_eq_some_iff.mp hbrace
    rw [readText_brace h hlead s hr]
    simp
  · have hlong : ¬ lead + name.length + (if value = [] then 2 else value.length + 3) ≤ 1022 :=
      fun hle => hreads ⟨hbrace, hle⟩
    by_cases hne : value = []
    · subst hne
      rw [if_pos rfl] at hlong
      have hshort := h.short
      obtain rfl : lead = 1 := by omega
      have hn : name.length = 1020 := by omega
      obtain ⟨value, hhead⟩ := readText_longName h hn s hr
      rw [hhead]
      rintro heq
      rw [← (Prod.mk.inj (Option.some.inj heq)).1] at hn
      cases hn
    · rw [if_neg hne] at hlong
      have hshorter := h.shorter hne
      obtain ⟨k, hk⟩ : ∃ k, lead + name.length + 2 + k = 1022 :=
        ⟨1022 - (lead + name.length + 2), by omega⟩
      rw [readText_longValue h hbrace hk (by omega) hlead s hr]
      intro heq
      have hvalue := Option.some.inj (Prod.mk.inj (Option.some.inj heq)).2
      have hlen := congrArg List.length hvalue
      rw [List.length_take] at hlen
      have hpos := List.length_pos_of_ne_nil hne
      omega

end Unfit

end Texts

/-! ## Sections -/

/-- A node of a section, in a tree that was read or edited. -/
def ChildShape (node : CnfNode) : Prop :=
  (isLineName node.name = true ∧ ∃ u, node.value = some u ∧ AsideText u) ∨
    ∃ value, node.value = some value ∧ SettingText node.name value

/-- A section, in a tree that was read or edited. -/
structure SectionShape (node : CnfNode) : Prop where
  isSection : node.value = none
  line : '\n' ∉ node.name
  nul : '\x00' ∉ node.name
  bracket : ']' ∉ node.name
  head : ∀ c ∈ node.name.head?, isSpace c = false
  short : node.name.length ≤ 1019
  children : ∀ child ∈ node.children, ChildShape child

/-- A node for a line in front of all sections. -/
structure TopShape (node : CnfNode) : Prop where
  name : node.name.head? = some '.'
  value : ∃ u, node.value = some u ∧ '\n' ∉ u ∧ '\x00' ∉ u ∧ u.length ≤ 1021 ∧
    (skipSpaces u).head? ≠ some '['

/-- The text of the nodes of a section. -/
def bodyText (nodes : List CnfNode) : Text := (nodes.flatMap unparseChild).flatten

/-- The text of the nodes below the root. -/
def nodesText (nodes : List CnfNode) : Text := (nodes.flatMap unparseSection).flatten

section Nodes

variable {node : CnfNode} {nodes : List CnfNode} {name u : Text} {lead : ℕ}
  {sections : List (Text × List Setting)}

theorem bodyText_cons (node : CnfNode) (nodes : List CnfNode) :
    bodyText (node :: nodes) = (unparseChild node).flatten ++ bodyText nodes := by
  rw [bodyText, List.flatMap_cons, List.flatten_append]
  rfl

theorem nodesText_cons (node : CnfNode) (nodes : List CnfNode) :
    nodesText (node :: nodes) = (unparseSection node).flatten ++ nodesText nodes := by
  rw [nodesText, List.flatMap_cons, List.flatten_append]
  rfl

theorem snprintf_line (h : u.length ≤ 1022) : snprintf 1024 (u ++ ['\n']) = u ++ ['\n'] := by
  refine List.take_of_length_le ?_
  rw [List.length_append, List.length_singleton]
  omega

theorem unparseChild_line (hname : isLineName node.name = true) (hvalue : node.value = some u)
    (h : u.length ≤ 1022) : (unparseChild node).flatten = u ++ ['\n'] := by
  rw [unparseChild, if_pos hname, hvalue, shown, Option.getD_some, snprintf_line h]
  simp

theorem unparseChild_setting {value : Text} (hname : isLineName node.name = false)
    (hvalue : node.value = some value) :
    (unparseChild node).flatten = settingLine node.name value := by
  rw [unparseChild, if_neg (by simp [hname]), hvalue, settingLine]
  simp

/-- The settings of a section are read again exactly if they all fit. -/
theorem readText_body_iff (h : ∀ child ∈ nodes, ChildShape child) (hlead : lead ≤ 1) :
    ∃ lead' ≤ 1, ∀ s sections,
      readText (pad lead ++ (bodyText nodes ++ s)) = some (settingsOf nodes, sections) ↔
        Reads lead nodes ∧ readText (pad lead' ++ s) = some ([], sections) := by
  induction nodes generalizing lead with
  | nil => exact ⟨lead, hlead, fun s sections => by simp [bodyText, settingsOf, Reads]⟩
  | cons node nodes ih =>
      obtain ⟨hnode, hnodes⟩ := List.forall_mem_cons.mp h
      rcases hnode with ⟨hname, u, hvalue, haside⟩ | ⟨value, hvalue, hsetting⟩
      · obtain ⟨lead', hlead', hiff⟩ := ih hnodes (Nat.zero_le 1)
        refine ⟨lead', hlead', fun s sections => ?_⟩
        have hsplit : pad lead ++ (u ++ ['\n'] ++ bodyText nodes ++ s) =
            pad lead ++ (u ++ '\n' :: (bodyText nodes ++ s)) := by
          simp
        have hrest := hiff s sections
        rw [bodyText_cons, unparseChild_line hname hvalue (haside.short.trans (by omega)), hsplit,
          readText_aside haside hlead, settingsOf_cons_of_line hname, Reads, if_pos hname]
        exact hrest
      · have hname := hsetting.notLine
        have hnext : (if node.name.length = 1020 then 1 else 0) ≤ 1 := by split_ifs <;> omega
        obtain ⟨lead', hlead', hiff⟩ := ih hnodes hnext
        refine ⟨lead', hlead', fun s sections => ?_⟩
        rw [bodyText_cons, unparseChild_setting hname hvalue, settingsOf_cons_of_setting hname,
          List.append_assoc, Reads, if_neg (by simp [hname]), hvalue, Option.getD_some]
        by_cases hreads : SettingReads lead node.name value
        · rw [readText_setting hsetting hlead hreads, and_iff_right hreads, ← hiff]
          cases readText (pad (if node.name.length = 1020 then 1 else 0) ++
            (bodyText nodes ++ s)) with
          | none => simp
          | some r =>
              obtain ⟨settings, more⟩ := r
              simp
        · simp only [hreads, false_and, iff_false]
          intro hr
          exact readText_setting_ne hsetting hlead hreads _ hr rfl

theorem readText_heading (h : SectionShape node) (hlead : lead ≤ 1) (s : Text) :
    readText (pad lead ++ ('[' :: node.name ++ [']'] ++ '\n' :: s)) =
      (readText s).map fun r => ([], (node.name, r.1) :: r.2) := by
  have hl : '\n' ∉ pad lead ++ ('[' :: node.name ++ [']']) := by
    simp [not_mem_pad, h.line]
  have hnul : '\x00' ∉ pad lead ++ ('[' :: node.name ++ [']']) := by
    simp [not_mem_pad, h.nul]
  have hlen : (pad lead ++ ('[' :: node.name ++ [']'])).length ≤ 1022 := by
    have hshort := h.short
    simp only [List.length_append, List.length_cons, List.length_nil, pad, List.length_replicate]
    omega
  rw [← List.append_assoc, readText_of_step hl hnul hlen]
  intro e he cl
  refine readSection_heading ?_
  have hgap : ∀ c ∈ ([] : Text), isSpace c = true := by simp
  have hkind := lineKind_heading h.head h.bracket (h.short.trans (by omega)) hgap e
  rw [List.append_assoc, lineKind_pad, ← hkind]
  simp

theorem unparseSection_heading (h : SectionShape node) (hname : node.name.head? ≠ some '.')
    (s : Text) :
    (unparseSection node).flatten ++ s =
      '[' :: node.name ++ [']'] ++ '\n' :: (bodyText node.children ++ s) := by
  have hline : snprintf 1024 ('[' :: node.name ++ "]\n".toList) =
      '[' :: node.name ++ [']'] ++ ['\n'] := by
    have hshort := h.short
    rw [← snprintf_line]
    · simp
    · simp only [List.length_append, List.length_cons, List.length_nil]
      omega
  rw [unparseSection, if_neg hname, List.flatten_cons, hline, bodyText]
  simp

/-- The name and the settings of such a section are lost. -/
theorem unparseSection_dot (h : node.value = none) (hname : node.name.head? = some '.') :
    (unparseSection node).flatten = "(null)\n".toList := by
  rw [unparseSection, if_pos hname, h]
  rfl

theorem readText_null (hlead : lead ≤ 1) (s : Text) :
    readText (pad lead ++ ("(null)\n".toList ++ s)) = readText s := by
  have hsplit : pad lead ++ ("(null)\n".toList ++ s) =
      pad lead ++ "(null)".toList ++ '\n' :: s := by
    simp
  have hlen : (pad lead ++ "(null)".toList).length ≤ 1022 := by
    rw [List.length_append, pad, List.length_replicate]
    exact (Nat.add_le_add_right hlead 6).trans (by omega)
  rw [hsplit, readText_of_step (f := id) (by simp [not_mem_pad]) (by simp [not_mem_pad]) hlen]
  · simp
  · intro e he cl
    have hkind : lineKind ("(null)".toList ++ e) = .aside := by
      rcases he with rfl | rfl <;> decide +kernel
    rw [List.append_assoc, readSection_aside ((lineKind_pad _ _).trans hkind)]
    simp

theorem readText_pad (hlead : lead ≤ 1) : readText (pad lead) = some ([], []) := by
  rcases Nat.le_one_iff_eq_zero_or_eq_one.mp hlead with rfl | rfl
  · have hnone : readConflines (pad 0) = [] := by
      rw [readConflines, pad, List.replicate_zero, LineChunks.pieces_nil, List.map_nil]
    rw [readText, hnone, readSection_nil]
  · have hone : readConflines (pad 1) = [[' ']] := by
      rw [readConflines, LineChunks.pieces_last (by simp [pad]) (by simp [pad]) (by simp [pad])]
      rfl
    rw [readText, hone, readSection_aside (lineKind_aside (.inl rfl)), readSection_nil]

/-- Behind a section nothing comes but sections, and none of them starts with a dot. -/
theorem readText_nodes_some (h : ∀ node ∈ nodes, SectionShape node) (hlead : lead ≤ 1)
    {r : List Setting × List (Text × List Setting)}
    (hr : readText (pad lead ++ nodesText nodes) = some r) :
    r.1 = [] ∧ ∀ s ∈ r.2.head?, s.1.head? ≠ some '.' := by
  induction nodes generalizing lead with
  | nil =>
      rw [nodesText, List.flatMap_nil, List.flatten_nil, List.append_nil, readText_pad hlead] at hr
      obtain rfl := Option.some.inj hr
      simp
  | cons node nodes ih =>
      obtain ⟨hnode, hnodes⟩ := List.forall_mem_cons.mp h
      rw [nodesText_cons] at hr
      by_cases hname : node.name.head? = some '.'
      · rw [unparseSection_dot hnode.isSection hname, readText_null hlead] at hr
        exact ih hnodes (Nat.zero_le 1) hr
      · rw [unparseSection_heading hnode hname, readText_heading hnode hlead] at hr
        obtain ⟨r', -, rfl⟩ := Option.map_eq_some_iff.mp hr
        simpa using hname

/-- The sections are read again exactly if no name starts with a dot and all settings fit. -/
theorem readText_nodes_iff (h : ∀ node ∈ nodes, SectionShape node) (hlead : lead ≤ 1) :
    readText (pad lead ++ nodesText nodes) = some ([], sectionsOf nodes) ↔
      ∀ node ∈ nodes, node.name.head? ≠ some '.' ∧ Reads 0 node.children := by
  induction nodes generalizing lead with
  | nil =>
      rw [nodesText, List.flatMap_nil, List.flatten_nil, List.append_nil, readText_pad hlead]
      simp [sectionsOf]
  | cons node nodes ih =>
      obtain ⟨hnode, hnodes⟩ := List.forall_mem_cons.mp h
      have hsections : sectionsOf (node :: nodes) =
          (node.name, settingsOf node.children) :: sectionsOf nodes := by
        simp [sectionsOf, CnfNode.isSection, hnode.isSection]
      rw [nodesText_cons, List.forall_mem_cons, hsections]
      by_cases hname : node.name.head? = some '.'
      · rw [unparseSection_dot hnode.isSection hname, readText_null hlead]
        simp only [hname, ne_eq, not_true, false_and, iff_false]
        intro hr
        exact (readText_nodes_some hnodes (Nat.zero_le 1) hr).2 _ rfl hname
      · obtain ⟨lead', hlead', hiff⟩ := readText_body_iff hnode.children (Nat.zero_le 1)
        rw [unparseSection_heading hnode hname, readText_heading hnode hlead,
          and_iff_right hname, ← ih hnodes hlead', ← hiff]
        change Option.map _ (readText (bodyText node.children ++ nodesText nodes)) = _ ↔
          readText (bodyText node.children ++ nodesText nodes) = _
        cases readText (bodyText node.children ++ nodesText nodes) with
        | none => simp
        | some r =>
            obtain ⟨settings, more⟩ := r
            simp

end Nodes

end Tdnf.Llconf
