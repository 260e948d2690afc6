import Tdnf.Llconf.Ini

/-!
# What a configuration file says

A file says which sections there are, in their order, and for each of them the
settings with their values. It says so line by line: a line is a heading, a
setting, the first line of a subsection, or nothing of these.
-/

namespace Tdnf.Llconf

open PathText Common

/-- A name with a value; a subsection has none. -/
abbrev Setting := Text × Option Text

/-- The settings among the nodes of a section. -/
def settingsOf (nodes : List CnfNode) : List Setting :=
  (nodes.filter fun node => !isLineName node.name).map fun node => (node.name, node.value)

/-- A node below the root is a section if it has no value. -/
def CnfNode.isSection (node : CnfNode) : Bool := node.value.isNone

/-- The sections below the root, with their settings. -/
def sectionsOf (nodes : List CnfNode) : List (Text × List Setting) :=
  (nodes.filter CnfNode.isSection).map fun node => (node.name, settingsOf node.children)

/-- What is read from lines outside of sections. -/
def readTop (cl : List Text) : Option (List (Text × List Setting)) :=
  (parseIniLines cl).map sectionsOf

/-- What is read from lines in a section: its settings, and the sections behind it. -/
def readSection (cl : List Text) : Option (List Setting × List (Text × List Setting)) :=
  match parseIniSection cl with
  | none => none
  | some (nodes, rest) => (readTop rest.1).map fun sections => (settingsOf nodes, sections)

/-- What a file says. -/
def contents (file : Text) : Option (List (Text × List Setting)) :=
  (parseIni file).map fun root => sectionsOf root.children

/-! ## One line -/

/-- The kinds of lines. -/
inductive LineKind where
  | aside
  | heading (name : Text)
  | setting (name value : Text)
  | opening (name : Text)
deriving DecidableEq, Repr

/-- A setting or the first line of a subsection, by what is behind the equals sign -/
def kindBehind (name p : Text) : LineKind :=
  if (skipSpaces p).head? ≠ some '{' then .setting name (dupNextLineB (skipSpaces p) 1023)
  else .opening name

/-- The kind of a line of a section -/
def lineKind (line : Text) : LineKind :=
  let p := skipSpaces line
  if p = [] then .aside
  else if p.head? = some '[' then
    .heading (((skipSpaces p.tail).takeWhile (· ≠ ']')).take 1023)
  else if p.head? = some '#' then .aside
  else if (skipSpaces (takeKey p 1023).2).head? = some '=' then
    kindBehind (takeKey p 1023).1 (skipSpaces (takeKey p 1023).2).tail
  else .aside

section Lines

variable {line : Text} {cl : List Text} {name value : Text}

theorem settingsOf_append (nodes nodes' : List CnfNode) :
    settingsOf (nodes ++ nodes') = settingsOf nodes ++ settingsOf nodes' := by
  simp [settingsOf]

theorem settingsOf_cons_of_line {node : CnfNode} (h : isLineName node.name = true)
    (nodes : List CnfNode) : settingsOf (node :: nodes) = settingsOf nodes := by
  simp [settingsOf, h]

theorem settingsOf_cons_of_setting {node : CnfNode} (h : isLineName node.name = false)
    (nodes : List CnfNode) :
    settingsOf (node :: nodes) = (node.name, node.value) :: settingsOf nodes := by
  simp [settingsOf, h]

theorem readSection_nil : readSection [] = some ([], []) := by
  rw [readSection, parseIniSection]
  simp [readTop, parseIniLines, settingsOf, sectionsOf]

/-- The nodes of a line come in front of what follows. -/
theorem readSection_of_push {rest : List Text} {nodes : List CnfNode}
    {hle : rest.length ≤ (line :: cl).length}
    (h : parseIniSection (line :: cl) = Parsed.push nodes hle (parseIniSection rest)) :
    readSection (line :: cl) =
      (readSection rest).map fun r => (settingsOf nodes ++ r.1, r.2) := by
  rw [readSection, h, readSection, Parsed.push]
  cases parseIniSection rest with
  | none => rfl
  | some parsed => simp [settingsOf_append, Function.comp_def]

theorem parseIniSection_blank (h : skipSpaces line = []) :
    parseIniSection (line :: cl) = Parsed.push [⟨".empty".toList, some [], []⟩] (Nat.le_succ _)
      (parseIniSection cl) := by
  rw [parseIniSection]
  simp only [h, if_true]

theorem parseIniSection_comment (h : (skipSpaces line).head? = some '#') :
    parseIniSection (line :: cl) = Parsed.push [lineNode ".comment" line] (Nat.le_succ _)
      (parseIniSection cl) := by
  have hne : skipSpaces line ≠ [] := by
    intro hnil
    rw [hnil] at h
    cases h
  rw [parseIniSection]
  simp [h, hne]

theorem parseIniSection_heading (h : lineKind line = .heading name) :
    parseIniSection (line :: cl) = some ([], ⟨line :: cl, le_rfl⟩) := by
  rw [lineKind] at h
  split_ifs at h with hempty hheading hcomment hequals
  · rw [parseIniSection]
    simp only [hempty, hheading, if_true, if_false]
  · rw [kindBehind] at h
    split_ifs at h

/-- A comment behind a value is added with the whole line. -/
theorem parseIniSection_setting (h : lineKind line = .setting name value) :
    ∃ p comment, p <:+ line ∧ value = dupNextLineB p 1023 ∧
      comment = (if (skipSpaces (p.drop value.length)).head? = some '#' then
        [lineNode ".comment" line] else []) ∧
      parseIniSection (line :: cl) = Parsed.push (⟨name, some value, []⟩ :: comment)
        (Nat.le_succ _) (parseIniSection cl) := by
  rw [lineKind] at h
  split_ifs at h with hempty hheading hcomment hequals
  rw [kindBehind] at h
  split_ifs at h with hbrace
  obtain ⟨rfl, rfl⟩ := LineKind.setting.inj h
  rw [parseIniSection]
  simp only [hempty, hheading, hcomment, hequals, if_true, if_false]
  rw [if_pos hbrace]
  refine ⟨_, _, ?_, rfl, rfl, rfl⟩
  exact (List.dropWhile_suffix _).trans ((List.tail_suffix _).trans
    ((List.dropWhile_suffix _).trans ((List.drop_suffix _ _).trans (List.dropWhile_suffix _))))

theorem parseIniSection_unparsed (h : lineKind line = .aside) (hempty : skipSpaces line ≠ [])
    (hcomment : (skipSpaces line).head? ≠ some '#') :
    parseIniSection (line :: cl) = Parsed.push [lineNode ".unparsed" line] (Nat.le_succ _)
      (parseIniSection cl) := by
  rw [lineKind, if_neg hempty] at h
  split_ifs at h with hheading hequals
  · rw [kindBehind] at h
    split_ifs at h
  · rw [parseIniSection]
    simp only [hempty, hheading, hcomment, hequals, if_false]

theorem readSection_aside (h : lineKind line = .aside) :
    readSection (line :: cl) = readSection cl := by
  obtain ⟨node, hname, hpush⟩ : ∃ node, isLineName node.name = true ∧
      parseIniSection (line :: cl) =
        Parsed.push [node] (Nat.le_succ _) (parseIniSection cl) := by
    by_cases hempty : skipSpaces line = []
    · exact ⟨_, rfl, parseIniSection_blank hempty⟩
    · by_cases hcomment : (skipSpaces line).head? = some '#'
      · exact ⟨_, rfl, parseIniSection_comment hcomment⟩
      · exact ⟨_, rfl, parseIniSection_unparsed h hempty hcomment⟩
  rw [readSection_of_push hpush, settingsOf_cons_of_line hname]
  simp [settingsOf]

theorem settingsOf_lines {nodes : List CnfNode} (h : ∀ node ∈ nodes, isLineName node.name = true) :
    settingsOf nodes = [] := by
  rw [settingsOf, List.filter_eq_nil_iff.mpr]
  · rfl
  · simpa using h

theorem readSection_setting (h : lineKind line = .setting name value)
    (hname : isLineName name = false) :
    readSection (line :: cl) =
      (readSection cl).map fun r => ((name, some value) :: r.1, r.2) := by
  obtain ⟨p, comment, -, -, hcomment, hpush⟩ := parseIniSection_setting h
  have hlines : ∀ node ∈ comment, isLineName node.name = true := by
    intro node hnode
    rw [hcomment] at hnode
    split_ifs at hnode
    · rw [List.mem_singleton.mp hnode]
      rfl
    · cases hnode
  rw [readSection_of_push hpush, settingsOf_cons_of_setting hname, settingsOf_lines hlines]
  rfl

/-- The node of a subsection comes first, unless the parser fails in it. -/
theorem parseIniSection_opening (h : lineKind line = .opening name)
    {nodes : List CnfNode} {rest : {rest : List Text // rest.length ≤ (line :: cl).length}}
    (hparse : parseIniSection (line :: cl) = some (nodes, rest)) :
    ∃ children more, nodes = ⟨name, none, children⟩ :: more := by
  rw [lineKind] at h
  split_ifs at h with hempty hheading hcomment hequals
  rw [kindBehind] at h
  split_ifs at h with hbrace
  obtain rfl := LineKind.opening.inj h
  rw [parseIniSection] at hparse
  simp only [hempty, hheading, hcomment, hequals, if_true, if_false] at hparse
  rw [if_neg hbrace] at hparse
  have hpush {first : CnfNode} {more : List CnfNode} {rest' : List Text}
      {hle : rest'.length ≤ (line :: cl).length} (hfirst : ∃ children,
        first = ⟨(takeKey (skipSpaces line) 1023).1, none, children⟩)
      (hp : Parsed.push (first :: more) hle (parseIniSection rest') = some (nodes, rest)) :
      ∃ children more, nodes = ⟨(takeKey (skipSpaces line) 1023).1, none, children⟩ :: more := by
    obtain ⟨children, rfl⟩ := hfirst
    obtain ⟨parsed, -, heq⟩ := Option.map_eq_some_iff.mp hp
    exact ⟨children, more ++ parsed.1, (Prod.ext_iff.mp heq).1.symm⟩
  split at hparse
  · split at hparse
    · cases hparse
    · split_ifs at hparse
      obtain ⟨rfl, -⟩ := Prod.mk.inj (Option.some.inj hparse)
      exact ⟨_, _, rfl⟩
    · exact hpush ⟨_, rfl⟩ hparse
  · exact hpush ⟨_, rfl⟩ hparse

/-- A subsection has a name and no value, whatever is in it. -/
theorem readSection_opening (h : lineKind line = .opening name) (hname : isLineName name = false)
    {r : List Setting × List (Text × List Setting)} (hr : readSection (line :: cl) = some r) :
    r.1.head? = some (name, none) := by
  rw [readSection] at hr
  cases hparse : parseIniSection (line :: cl) with
  | none =>
      rw [hparse] at hr
      cases hr
  | some parsed =>
      obtain ⟨children, more, hnodes⟩ := parseIniSection_opening h hparse
      rw [hparse] at hr
      obtain ⟨sections, -, rfl⟩ := Option.map_eq_some_iff.mp hr
      simp only
      rw [hnodes, settingsOf_cons_of_setting hname, List.head?_cons]

theorem readTop_nil : readTop [] = some [] := by
  simp [readTop, parseIniLines, sectionsOf]

theorem parseIniLines_heading (h : lineKind line = .heading name) :
    parseIniLines (line :: cl) = (parseIniSection cl).bind fun parsed =>
      (parseIniLines parsed.2.1).map (⟨name, none, parsed.1⟩ :: ·) := by
  rw [lineKind] at h
  split_ifs at h with hempty hheading hcomment hequals
  · obtain rfl := LineKind.heading.inj h
    rw [parseIniLines]
    simp only [hempty, hheading, if_true, if_false]
    cases parseIniSection cl with
    | none => rfl
    | some parsed => rfl
  · rw [kindBehind] at h
    split_ifs at h

/-- Outside of sections, a line that is no heading is kept in a node of its own. -/
theorem parseIniLines_other (h : (skipSpaces line).head? ≠ some '[') :
    parseIniLines (line :: cl) = (parseIniLines cl).map
      ((if skipSpaces line = [] then ⟨".empty".toList, some [], []⟩
        else lineNode ".comment" line) :: ·) := by
  rw [parseIniLines]
  simp only [h, if_false]
  split_ifs <;> rfl

theorem readTop_heading (h : lineKind line = .heading name) :
    readTop (line :: cl) = (readSection cl).map fun r => (name, r.1) :: r.2 := by
  rw [readTop, parseIniLines_heading h, readSection]
  cases parseIniSection cl with
  | none => rfl
  | some parsed =>
      simp only [readTop, Option.bind_some, Option.map_map]
      rfl

/-- Outside of sections only headings count. -/
theorem readTop_skip (h : (skipSpaces line).head? ≠ some '[') :
    readTop (line :: cl) = readTop cl := by
  rw [readTop, parseIniLines_other h, Option.map_map, readTop]
  split_ifs <;> rfl

theorem readSection_heading (h : lineKind line = .heading name) :
    readSection (line :: cl) = (readSection cl).map fun r => ([], (name, r.1) :: r.2) := by
  rw [readSection, parseIniSection_heading h]
  simp only
  rw [readTop_heading h, Option.map_map]
  rfl

end Lines

/-! ## Texts of lines -/

section Texts

variable {name value spaces gap lineEnd p : Text}

theorem skipSpaces_append (h : ∀ c ∈ spaces, isSpace c = true) (p : Text) :
    skipSpaces (spaces ++ p) = skipSpaces p :=
  List.dropWhile_append_of_pos h

theorem skipSpaces_spaces (h : ∀ c ∈ spaces, isSpace c = true) : skipSpaces spaces = [] :=
  List.dropWhile_eq_nil_iff.mpr h

theorem skipSpaces_of_head (h : ∀ c ∈ p.head?, isSpace c = false) : skipSpaces p = p := by
  cases p with
  | nil => rfl
  | cons c p =>
      have hc : isSpace c = false := h c rfl
      rw [skipSpaces, List.dropWhile_cons_of_neg (by simp [hc])]

/-- What is behind a text that has more than spaces does not matter for skipping. -/
theorem skipSpaces_append_of_ne_nil (h : skipSpaces p ≠ []) (t : Text) :
    skipSpaces (p ++ t) = skipSpaces p ++ t := by
  rw [skipSpaces, List.dropWhile_append, if_neg]
  · rfl
  · exact fun hempty => h (List.isEmpty_iff.mp hempty)

theorem lineKind_append (h : ∀ c ∈ spaces, isSpace c = true) (line : Text) :
    lineKind (spaces ++ line) = lineKind line := by
  rw [lineKind, skipSpaces_append h, lineKind]

/-- The characters of a key, which is not the start of a heading or of a comment. -/
structure KeyText (name : Text) : Prop where
  chars : ∀ c ∈ name, isKeyChar c = true
  head : name.head? ≠ some '[' ∧ name.head? ≠ some '#'

theorem not_isSpace_of_isKeyChar {c : Char} (h : isKeyChar c = true) : isSpace c = false := by
  simpa using (Bool.and_eq_true_iff.mp h).1

theorem takeKey_append (h : ∀ c ∈ name, isKeyChar c = true) {n : ℕ} (hn : name.length ≤ n)
    (hp : ∀ c ∈ p.head?, isKeyChar c = false) : takeKey (name ++ p) n = (name, p) := by
  have hnone : p.takeWhile isKeyChar = [] := by
    cases p with
    | nil => rfl
    | cons c p =>
        have hc : isKeyChar c = false := hp c rfl
        rw [List.takeWhile_cons_of_neg (by simp [hc])]
  rw [takeKey, List.takeWhile_append_of_pos h, hnone, List.append_nil, List.take_of_length_le hn]
  simp

/-- A key and an equals sign. -/
theorem lineKind_equals (hname : KeyText name) (hn : name.length ≤ 1023)
    (hgap : ∀ c ∈ gap, isSpace c = true) (p : Text) :
    lineKind (name ++ (gap ++ '=' :: p)) = kindBehind name p := by
  have hskip : skipSpaces ('=' :: p) = '=' :: p := skipSpaces_of_head (by simp [isSpace])
  have hbehind : ∀ c ∈ (gap ++ '=' :: p).head?, isKeyChar c = false := by
    intro c hc
    cases gap with
    | nil =>
        obtain rfl : '=' = c := by simpa using hc
        decide
    | cons g gap =>
        obtain rfl : g = c := by simpa using hc
        simp [isKeyChar, hgap g List.mem_cons_self]
  cases name with
  | nil =>
      -- without a key the gap is skipped at once
      have hkey : takeKey ('=' :: p) 1023 = ([], '=' :: p) := by
        simp [takeKey, isKeyChar]
      rw [List.nil_append, lineKind_append hgap, lineKind, hskip, hkey]
      simp [hskip]
  | cons c name =>
      have hskip' : skipSpaces (c :: name ++ (gap ++ '=' :: p)) =
          c :: name ++ (gap ++ '=' :: p) := by
        refine skipSpaces_of_head fun d hd => ?_
        obtain rfl : c = d := by simpa using hd
        exact not_isSpace_of_isKeyChar (hname.chars c List.mem_cons_self)
      have hkey := takeKey_append hname.chars hn hbehind
      have hheading : c ≠ '[' := by simpa using hname.head.1
      have hcomment : c ≠ '#' := by simpa using hname.head.2
      rw [lineKind, hskip', hkey]
      simp only
      rw [skipSpaces_append hgap, hskip]
      simp [hheading, hcomment]

theorem dupNextLineB_append (hline : '\n' ∉ p) {n : ℕ} (hlen : p.length ≤ n)
    (hend : lineEnd = [] ∨ lineEnd = ['\n']) : dupNextLineB (p ++ lineEnd) n = p := by
  have hstops : lineEnd.takeWhile (· ≠ '\n') = [] := by
    rcases hend with rfl | rfl <;> rfl
  rw [dupNextLineB, List.takeWhile_append_of_pos, hstops, List.append_nil,
    List.take_of_length_le hlen]
  intro c hc
  simpa using fun hc' : c = '\n' => hline (hc' ▸ hc)

theorem isSpace_of_mem_lineEnd (hend : lineEnd = [] ∨ lineEnd = ['\n']) :
    ∀ c ∈ lineEnd, isSpace c = true := by
  rcases hend with rfl | rfl <;> simp [isSpace]

/-- A value up to the end of the line. -/
theorem kindBehind_value (hgap : ∀ c ∈ gap, isSpace c = true)
    (hhead : ∀ c ∈ value.head?, isSpace c = false) (hbrace : value.head? ≠ some '{')
    (hline : '\n' ∉ value) (hlen : value.length ≤ 1023) (hend : lineEnd = [] ∨ lineEnd = ['\n']) :
    kindBehind name (gap ++ (value ++ lineEnd)) = .setting name value := by
  rw [kindBehind, skipSpaces_append hgap]
  cases value with
  | nil =>
      rw [List.nil_append, skipSpaces_spaces (isSpace_of_mem_lineEnd hend)]
      rfl
  | cons c value =>
      have hskip : skipSpaces (c :: value ++ lineEnd) = c :: value ++ lineEnd :=
        skipSpaces_of_head fun d hd => hhead d (by simpa using hd)
      rw [hskip, if_pos (by simpa using hbrace), dupNextLineB_append hline hlen hend]

theorem kindBehind_brace (hgap : ∀ c ∈ gap, isSpace c = true) (hbrace : p.head? = some '{') :
    kindBehind name (gap ++ p) = .opening name := by
  have hskip : skipSpaces p = p := by
    refine skipSpaces_of_head fun c hc => ?_
    obtain rfl : '{' = c := by simpa [hbrace] using hc
    decide
  rw [kindBehind, skipSpaces_append hgap, hskip, if_neg (by simp [hbrace])]

theorem lineKind_heading (hhead : ∀ c ∈ name.head?, isSpace c = false) (hname : ']' ∉ name)
    (hlen : name.length ≤ 1023) (hgap : ∀ c ∈ gap, isSpace c = true) (p : Text) :
    lineKind ('[' :: (gap ++ (name ++ ']' :: p))) = .heading name := by
  have hskip : skipSpaces ('[' :: (gap ++ (name ++ ']' :: p))) =
      '[' :: (gap ++ (name ++ ']' :: p)) := skipSpaces_of_head (by simp [isSpace])
  have hskip' : skipSpaces (name ++ ']' :: p) = name ++ ']' :: p := by
    refine skipSpaces_of_head fun c hc => ?_
    cases name with
    | nil =>
        obtain rfl : ']' = c := by simpa using hc
        decide
    | cons d name => exact hhead c (by simpa using hc)
  have htake : (name ++ ']' :: p).takeWhile (· ≠ ']') = name := by
    rw [List.takeWhile_append_of_pos]
    · simp
    · intro d hd
      simpa using fun hd' : d = ']' => hname (hd' ▸ hd)
  rw [lineKind, hskip]
  simp only [List.tail_cons]
  rw [skipSpaces_append hgap, hskip', htake, List.take_of_length_le hlen]
  simp

/-- Spaces, and then a comment or nothing. -/
theorem lineKind_aside (h : skipSpaces p = [] ∨ (skipSpaces p).head? = some '#') :
    lineKind p = .aside := by
  rw [lineKind]
  rcases h with h | h
  · simp [h]
  · simp [h]

end Texts

end Tdnf.Llconf
