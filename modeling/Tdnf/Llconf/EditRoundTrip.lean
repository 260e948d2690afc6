import Tdnf.Llconf.WrittenText

/-!
# An edited file, read again

After a value was set, the file should say what it said before, but for this
value. It does so for settings that fit into the buffers.
-/

namespace Tdnf.Llconf

open PathText Common

/-! ## What an edit is for -/

/-- The settings of a section when one gets a value; a new one is the last. -/
def putSetting (key value : Text) (settings : List Setting) : List Setting :=
  match Keyed.lookup Prod.fst key settings with
  | none => settings ++ [(key, some value)]
  | some _ => Keyed.update Prod.fst key (fun setting => (setting.1, some value)) settings

/-- The sections when a setting of one of them gets a value. -/
def putIn (repo key value : Text) (sections : List (Text × List Setting)) :
    List (Text × List Setting) :=
  Keyed.update Prod.fst repo (fun s => (s.1, putSetting key value s.2)) sections

/-- What is written says the same as the file, in the same order, but for the value. -/
def Right (file repo key value written : Text) : Prop :=
  ∃ sections, contents file = some sections ∧
    contents written = some (putIn repo key (skipSpaces value) sections)

/-- A line of a plain file, without its line end. -/
inductive PlainLine : Text → Prop where
  | blank {spaces : Text} (h : ∀ c ∈ spaces, isSpace c = true) : PlainLine spaces
  | comment {spaces : Text} (h : ∀ c ∈ spaces, isSpace c = true) (text : Text) :
      PlainLine (spaces ++ '#' :: text)
  | heading {spaces gap name : Text} (h : ∀ c ∈ spaces, isSpace c = true)
      (hgap : ∀ c ∈ gap, isSpace c = true) (hhead : ∀ c ∈ name.head?, isSpace c = false)
      (hname : ']' ∉ name) (text : Text) :
      PlainLine (spaces ++ '[' :: (gap ++ (name ++ ']' :: text)))
  | setting {spaces name gap gap' value : Text} (h : ∀ c ∈ spaces, isSpace c = true)
      (hname : KeyText name) (hline : isLineName name = false)
      (hgap : ∀ c ∈ gap, isSpace c = true) (hgap' : ∀ c ∈ gap', isSpace c = true)
      (hhead : ∀ c ∈ value.head?, isSpace c = false) (hbrace : value.head? ≠ some '{') :
      PlainLine (spaces ++ (name ++ (gap ++ '=' :: (gap' ++ value))))

/-- What is asked for: a value for a setting of a section of a plain file. -/
structure EditRequest (file repo key value : Text) : Prop where
  /-- the lines fit into the buffer of the reader, with their line ends -/
  lines : ∀ line ∈ file.splitOn '\n', line.length ≤ 1021 ∧ PlainLine (cstr line)
  section_mem : ∃ sections, contents file = some sections ∧ repo ∈ sections.map Prod.fst
  key_ne : key ≠ []
  key_chars : ∀ c ∈ key, isKeyChar c = true
  key_head : ∀ c ∈ key.head?, c ≠ '.' ∧ c ≠ '#' ∧ c ≠ '['
  value_line : '\n' ∉ value
  value_head : value.head? ≠ some '{'
  /-- arguments are C strings -/
  nul : '\x00' ∉ key ∧ '\x00' ∉ value

/-- The nodes of a section when a setting gets a value. -/
def putNode (key value : Text) (nodes : List CnfNode) : List CnfNode :=
  match Keyed.lookup CnfNode.name key nodes with
  | none => nodes ++ [⟨key, some value, []⟩]
  | some _ => Keyed.update CnfNode.name key (fun node => { node with value := some value }) nodes

/-- The name of a node that is a section. -/
def CnfNode.sectionName (node : CnfNode) : Option Text :=
  if node.isSection then some node.name else none

/-- The nodes of a file when a setting of a section gets a value. -/
def editedNodes (repo key value : Text) (nodes : List CnfNode) : List CnfNode :=
  Keyed.update CnfNode.sectionName (some repo)
    (fun node => { node with children := putNode key value node.children }) nodes

/-- When the edited file says what it should. -/
def Fits (file repo key value : Text) : Prop :=
  ∃ root, parseIni file = some root ∧
    ∀ node ∈ editedNodes repo key (skipSpaces value) root.children, node.isSection = true →
      node.name.head? ≠ some '.' ∧ Reads 0 node.children

/-! ## Trees of plain files -/

/-- A line of a plain file, as it is read. -/
def ReadLine (cl : Text) : Prop :=
  ∃ line, '\n' ∉ line ∧ '\x00' ∉ line ∧ line.length ≤ 1021 ∧ PlainLine line ∧
    (cl = line ∨ cl = line ++ ['\n'])

section Trees

variable {file line cl : Text} {lines : List Text}

theorem cstr_append_of_mem (h : '\x00' ∈ line) (s : Text) : cstr (line ++ s) = cstr line := by
  induction line with
  | nil => cases h
  | cons c line ih =>
      by_cases hc : c = '\x00'
      · simp [cstr, hc]
      · have hmem : '\x00' ∈ line := (List.mem_cons.mp h).resolve_left (Ne.symm hc)
        have hrest := ih hmem
        simp only [cstr] at hrest ⊢
        rw [List.cons_append, List.takeWhile_cons_of_pos (by simp [hc]), hrest,
          List.takeWhile_cons_of_pos (by simp [hc])]

theorem nul_not_mem_cstr (line : Text) : '\x00' ∉ cstr line := by
  intro h
  simpa using List.mem_takeWhile_imp h

theorem readLine_of_plain
    (h : ∀ line ∈ file.splitOn '\n', line.length ≤ 1021 ∧ PlainLine (cstr line)) :
    ∀ cl ∈ readConflines file, ReadLine cl := by
  intro cl hcl
  obtain ⟨piece, hpiece, rfl⟩ := List.mem_map.mp hcl
  obtain ⟨line, hline, hend, hcase⟩ := LineChunks.mem_pieces (fun l hl => (h l hl).1) piece hpiece
  obtain ⟨hlen, hplain⟩ := h line hline
  refine ⟨cstr line, fun hmem => hend (List.takeWhile_subset _ hmem), nul_not_mem_cstr line,
    (List.takeWhile_sublist _).length_le.trans hlen, hplain, ?_⟩
  rcases hcase with rfl | rfl
  · exact .inl rfl
  · by_cases hnul : '\x00' ∈ line
    · exact .inl (cstr_append_of_mem hnul _)
    · right
      rw [cstr_append hnul, cstr_of_not_mem hnul]
      rfl

/-- Behind a value that goes up to the end of the line there is no comment. -/
theorem skipSpaces_behind (hline : '\n' ∉ line) (hlen : line.length ≤ 1021)
    (hcl : cl = line ∨ cl = line ++ ['\n']) {p : Text} (hp : p <:+ cl) :
    skipSpaces (p.drop (dupNextLineB p 1023).length) = [] := by
  obtain ⟨l, e, rfl, hl, hllen, he⟩ : ∃ l e, p = l ++ e ∧ '\n' ∉ l ∧ l.length ≤ 1023 ∧
      (e = [] ∨ e = ['\n']) := by
    rcases hcl with rfl | rfl
    · exact ⟨p, [], by simp, fun hmem => hline (hp.subset hmem), by have := hp.length_le; omega,
        .inl rfl⟩
    · rcases List.suffix_concat_iff.mp hp with rfl | ⟨l, rfl, hl⟩
      · exact ⟨[], [], rfl, by simp, by simp, .inl rfl⟩
      · exact ⟨l, ['\n'], rfl, fun hmem => hline (hl.subset hmem),
          by have := hl.length_le; omega, .inr rfl⟩
  rw [dupNextLineB_append hl hllen he, List.drop_left,
    skipSpaces_spaces (isSpace_of_mem_lineEnd he)]

theorem heading_of_head (h : (skipSpaces cl).head? = some '[') :
    ∃ name, lineKind cl = .heading name := by
  have hne : skipSpaces cl ≠ [] := by
    intro hnil
    rw [hnil] at h
    cases h
  exact ⟨_, by rw [lineKind, if_neg hne, if_pos h]⟩

theorem lineEnd_of_readLine (h : cl = line ∨ cl = line ++ ['\n']) :
    ∃ e, cl = line ++ e ∧ (e = [] ∨ e = ['\n']) := by
  rcases h with rfl | rfl
  · exact ⟨[], by simp, .inl rfl⟩
  · exact ⟨_, rfl, .inr rfl⟩

/-- A plain line is a heading, or there are nodes for it. -/
theorem child_of_readLine (h : ReadLine cl) :
    (∃ node, SectionShape node ∧ node.children = [] ∧ lineKind cl = .heading node.name) ∨
      (skipSpaces cl).head? ≠ some '[' ∧ ∃ nodes, (∀ node ∈ nodes, ChildShape node) ∧
        ∀ lines, parseIniSection (cl :: lines) =
          Parsed.push nodes (Nat.le_succ _) (parseIniSection lines) := by
  obtain ⟨line, hline, hnul, hlen, hplain, hcl⟩ := h
  obtain ⟨e, rfl, he⟩ := lineEnd_of_readLine hcl
  have hspaces := isSpace_of_mem_lineEnd he
  cases hplain with
  | blank h =>
      right
      have hskip : skipSpaces (line ++ e) = [] := by
        rw [skipSpaces_append h, skipSpaces_spaces hspaces]
      refine ⟨by simp [hskip], [⟨".empty".toList, some [], []⟩], ?_,
        fun lines => parseIniSection_blank hskip⟩
      intro node hnode
      rw [List.mem_singleton.mp hnode]
      exact .inl ⟨rfl, [], rfl, by simp, by simp, by simp, .inl rfl⟩
  | @comment spaces h text =>
      right
      have hskip : skipSpaces (spaces ++ '#' :: text) = '#' :: text := by
        rw [skipSpaces_append h]
        exact skipSpaces_of_head (by simp [isSpace])
      have hvalue := dupNextLineB_append hline (hlen.trans (by omega : 1021 ≤ 1023)) he
      have hhead : (skipSpaces (spaces ++ '#' :: text ++ e)).head? = some '#' := by
        rw [skipSpaces_append_of_ne_nil (by simp [hskip]), hskip, List.cons_append, List.head?_cons]
      refine ⟨by rw [hhead]; decide, [lineNode ".comment" (spaces ++ '#' :: text ++ e)], ?_,
        fun lines => parseIniSection_comment hhead⟩
      intro node hnode
      rw [List.mem_singleton.mp hnode]
      refine .inl ⟨rfl, _, congrArg some hvalue, hline, hnul, hlen, .inr ?_⟩
      rw [hskip, List.head?_cons]
  | @heading spaces gap name h hgap hhead hname text =>
      left
      have hshort : name.length ≤ 1019 := by
        simp only [List.length_append, List.length_cons] at hlen
        omega
      refine ⟨⟨name, none, []⟩, ⟨rfl, fun hmem => hline ?_, fun hmem => hnul ?_, hname, hhead,
        hshort, by simp⟩, rfl, ?_⟩
      · simp [hmem]
      · simp [hmem]
      · have hkind := lineKind_heading hhead hname (hshort.trans (by omega)) hgap (text ++ e)
        rw [List.append_assoc, lineKind_append h, ← hkind]
        simp
  | @setting spaces name gap gap' value h hname hline' hgap hgap' hhead hbrace =>
      right
      have hlens : name.length + value.length + 1 ≤ 1021 := by
        simp only [List.length_append, List.length_cons] at hlen
        omega
      have hvalue : '\n' ∉ value := fun hmem => hline (by simp [hmem])
      have hkind : lineKind (spaces ++ (name ++ (gap ++ '=' :: (gap' ++ value))) ++ e) =
          .setting name value := by
        have hequals := lineKind_equals hname (by omega) hgap (gap' ++ (value ++ e))
        rw [kindBehind_value hgap' hhead hbrace hvalue (by omega) he] at hequals
        rw [List.append_assoc, lineKind_append h, ← hequals]
        simp
      refine ⟨fun hhead' => ?_, [⟨name, some value, []⟩], ?_, fun lines => ?_⟩
      · obtain ⟨name', hheading⟩ := heading_of_head hhead'
        rw [hkind] at hheading
        cases hheading
      · intro node hnode
        rw [List.mem_singleton.mp hnode]
        refine .inr ⟨value, rfl, hname, hline', hvalue, ⟨fun hmem => hnul ?_, fun hmem => hnul ?_⟩,
          hhead, ?_, fun hne => ?_, fun hopen => absurd hopen hbrace⟩
        · simp [hmem]
        · simp [hmem]
        · simp only
          omega
        · have hpos := List.length_pos_of_ne_nil hne
          simp only
          omega
      · obtain ⟨p, comment, hp, hpvalue, hcomment, hpush⟩ := parseIniSection_setting hkind
        rw [hpvalue, skipSpaces_behind hline hlen hcl hp] at hcomment
        rw [hpush, hcomment]
        rfl

/-- A list of lines that starts with a heading, if it is not empty. -/
def AtHeading (lines : List Text) : Prop :=
  ∀ cl ∈ lines.head?, ∃ node, SectionShape node ∧ node.children = [] ∧
    lineKind cl = .heading node.name

theorem section_of_readLines (h : ∀ cl ∈ lines, ReadLine cl) :
    ∃ nodes rest hle, parseIniSection lines = some (nodes, ⟨rest, hle⟩) ∧
      (∀ node ∈ nodes, ChildShape node) ∧ rest <:+ lines ∧ AtHeading rest := by
  induction lines with
  | nil =>
      refine ⟨[], [], le_rfl, ?_, by simp, List.suffix_rfl, by simp [AtHeading]⟩
      rw [parseIniSection]
  | cons cl lines ih =>
      obtain ⟨hcl, hlines⟩ := List.forall_mem_cons.mp h
      rcases child_of_readLine hcl with ⟨node, hnode, hchildren, hkind⟩ | ⟨-, nodes, hnodes, hparse⟩
      · refine ⟨[], cl :: lines, le_rfl, parseIniSection_heading hkind, by simp,
          List.suffix_rfl, ?_⟩
        intro cl' hcl'
        obtain rfl : cl = cl' := by simpa using hcl'
        exact ⟨node, hnode, hchildren, hkind⟩
      · obtain ⟨more, rest, hle, hmore, hshape, hsuffix, hat⟩ := ih hlines
        refine ⟨nodes ++ more, rest, hle.trans (Nat.le_succ _), ?_, ?_,
          hsuffix.trans (List.suffix_cons _ _), hat⟩
        · rw [hparse, hmore]
          rfl
        · intro node hnode
          exact (List.mem_append.mp hnode).elim (hnodes node) (hshape node)

/-- From a heading on there are only sections. -/
theorem sections_of_readLines (h : ∀ cl ∈ lines, ReadLine cl) (hat : AtHeading lines) :
    ∃ nodes, parseIniLines lines = some nodes ∧ ∀ node ∈ nodes, SectionShape node := by
  induction hlen : lines.length using Nat.strong_induction_on generalizing lines with
  | _ n ih =>
      cases lines with
      | nil =>
          refine ⟨[], ?_, by simp⟩
          rw [parseIniLines]
      | cons cl lines =>
          obtain ⟨node, hnode, -, hkind⟩ := hat cl rfl
          obtain ⟨-, hlines⟩ := List.forall_mem_cons.mp h
          obtain ⟨children, rest, hle, hparse, hchildren, hsuffix, hrest⟩ :=
            section_of_readLines hlines
          obtain ⟨nodes, hnodes, hshapes⟩ := ih rest.length
            (by rw [← hlen]; exact Nat.lt_succ_of_le hle)
            (fun cl hcl => hlines cl (hsuffix.subset hcl)) hrest rfl
          refine ⟨⟨node.name, none, children⟩ :: nodes, ?_, List.forall_mem_cons.mpr ⟨?_, hshapes⟩⟩
          · rw [parseIniLines_heading hkind, hparse, Option.bind_some, hnodes]
            rfl
          · exact ⟨rfl, hnode.line, hnode.nul, hnode.bracket, hnode.head, hnode.short, hchildren⟩

theorem topShape_of_readLine (h : ReadLine cl) (hhead : (skipSpaces cl).head? ≠ some '[') :
    TopShape (if skipSpaces cl = [] then ⟨".empty".toList, some [], []⟩
      else lineNode ".comment" cl) := by
  obtain ⟨line, hline, hnul, hlen, -, hcl⟩ := h
  obtain ⟨e, rfl, he⟩ := lineEnd_of_readLine hcl
  split_ifs with hempty
  · exact ⟨rfl, [], rfl, by simp, by simp, by simp, by simp [skipSpaces]⟩
  · have hvalue := dupNextLineB_append hline (hlen.trans (by omega : 1021 ≤ 1023)) he
    refine ⟨rfl, line, congrArg some hvalue, hline, hnul, hlen, fun hbracket => hhead ?_⟩
    have hne : skipSpaces line ≠ [] := by
      intro hnil
      rw [hnil] at hbracket
      cases hbracket
    rw [skipSpaces_append_of_ne_nil hne, List.head?_append, hbracket]
    rfl

/-- The tree of a plain file: lines of their own, and then sections. -/
theorem tree_of_readLines (h : ∀ cl ∈ lines, ReadLine cl) :
    ∃ tops sections, parseIniLines lines = some (tops ++ sections) ∧
      (∀ node ∈ tops, TopShape node) ∧ ∀ node ∈ sections, SectionShape node := by
  induction lines with
  | nil =>
      refine ⟨[], [], ?_, by simp, by simp⟩
      rw [parseIniLines]
      rfl
  | cons cl lines ih =>
      obtain ⟨hcl, hlines⟩ := List.forall_mem_cons.mp h
      by_cases hhead : (skipSpaces cl).head? = some '['
      · have hat : AtHeading (cl :: lines) := by
          intro cl' hcl'
          obtain rfl : cl = cl' := by simpa using hcl'
          exact (child_of_readLine hcl).resolve_right fun hother => hother.1 hhead
        obtain ⟨sections, hparse, hshapes⟩ := sections_of_readLines h hat
        exact ⟨[], sections, hparse, by simp, hshapes⟩
      · obtain ⟨tops, sections, hparse, htops, hsections⟩ := ih hlines
        refine ⟨_ :: tops, sections, by rw [parseIniLines_other hhead, hparse]; rfl,
          List.forall_mem_cons.mpr ⟨?_, htops⟩, hsections⟩
        exact topShape_of_readLine hcl hhead

end Trees

/-! ## Editing -/

section Editing

variable {file repo key value written : Text} {node : CnfNode} {nodes tops : List CnfNode}

theorem contents_eq (file : Text) : contents file = readTop (readConflines file) := by
  rw [contents, parseIni, readTop, Option.map_map]
  rfl

theorem isLineName_of_head (h : ∀ c ∈ key.head?, c ≠ '.') : isLineName key = false := by
  cases key with
  | nil => rfl
  | cons c key =>
      have hc : c ≠ '.' := h c rfl
      simp [isLineName, hc]

theorem skipSpaces_equals (p : Text) : skipSpaces ('=' :: p) = '=' :: p :=
  skipSpaces_of_head (by simp [isSpace])

/-- A key has to fit into its buffer. -/
theorem setKeyValue_eq (hkey : ∀ c ∈ key, isKeyChar c = true) {cnRepo cnRepo' : CnfNode}
    (h : setKeyValue cnRepo (key ++ '=' :: value) = .ok cnRepo') :
    key.length ≤ 255 ∧
      cnRepo' = { cnRepo with children := putNode key (skipSpaces value) cnRepo.children } := by
  have hequals : ∀ c ∈ ('=' :: value).head?, isKeyChar c = false := by
    simp [isKeyChar]
  by_cases hlen : key.length ≤ 255
  · refine ⟨hlen, ?_⟩
    rw [setKeyValue, takeKey_append hkey hlen hequals] at h
    simp only [skipSpaces_equals, List.head?_cons, if_true, List.tail_cons] at h
    rw [putNode]
    cases hlookup : Keyed.lookup CnfNode.name key cnRepo.children with
    | none =>
        rw [hlookup] at h
        exact (Except.ok.inj h).symm
    | some cn =>
        rw [hlookup] at h
        exact (Except.ok.inj h).symm
  · have htake : (key ++ '=' :: value).takeWhile isKeyChar = key := by
      rw [List.takeWhile_append_of_pos hkey]
      simp [isKeyChar]
    have hcut : takeKey (key ++ '=' :: value) 255 =
        (key.take 255, key.drop 255 ++ '=' :: value) := by
      rw [takeKey, htake, List.length_take_of_le (by omega),
        List.drop_append_of_le_length (by omega)]
    obtain ⟨c, more, hmore⟩ : ∃ c more, key.drop 255 = c :: more := by
      refine List.exists_cons_of_ne_nil fun hnil => hlen ?_
      exact List.drop_eq_nil_iff.mp hnil
    have hc : isKeyChar c = true := by
      refine hkey c (List.mem_of_mem_drop (i := 255) ?_)
      rw [hmore]
      exact List.mem_cons_self
    have hskip : skipSpaces (c :: (more ++ '=' :: value)) = c :: (more ++ '=' :: value) := by
      refine skipSpaces_of_head fun d hd => ?_
      obtain rfl : c = d := by simpa using hd
      exact not_isSpace_of_isKeyChar hc
    have hne : c ≠ '=' := by
      rintro rfl
      exact absurd hc (by decide)
    rw [setKeyValue, hcut, hmore] at h
    simp only [List.cons_append, hskip, List.head?_cons, Option.some.injEq, hne, if_false] at h
    cases h

theorem settingsOf_update (hkey : isLineName key = false) (v : Text) (nodes : List CnfNode) :
    settingsOf (Keyed.update CnfNode.name key (fun node => { node with value := some v }) nodes) =
      Keyed.update Prod.fst key (fun setting => (setting.1, some v)) (settingsOf nodes) := by
  induction nodes with
  | nil => rfl
  | cons node nodes ih =>
      by_cases hname : node.name = key
      · have hsetting : isLineName node.name = false := by rw [hname, hkey]
        have hfst : Prod.fst (node.name, node.value) = key := hname
        rw [Keyed.update_cons_of_eq hname, settingsOf_cons_of_setting hsetting,
          Keyed.update_cons_of_eq hfst]
        have hnew : isLineName ({ node with value := some v } : CnfNode).name = false := hsetting
        exact settingsOf_cons_of_setting hnew nodes
      · rw [Keyed.update_cons_of_ne hname]
        cases hline : isLineName node.name with
        | true => rw [settingsOf_cons_of_line hline, settingsOf_cons_of_line hline, ih]
        | false =>
            have hfst : Prod.fst (node.name, node.value) ≠ key := hname
            rw [settingsOf_cons_of_setting hline, settingsOf_cons_of_setting hline,
              Keyed.update_cons_of_ne hfst, ih]

theorem lookup_settingsOf (hkey : isLineName key = false) (nodes : List CnfNode) :
    Keyed.lookup Prod.fst key (settingsOf nodes) = none ↔
      Keyed.lookup CnfNode.name key nodes = none := by
  rw [Keyed.lookup_eq_none_iff, Keyed.lookup_eq_none_iff, not_iff_not]
  simp only [settingsOf, List.map_map, List.mem_map, List.mem_filter, Function.comp_def]
  constructor
  · rintro ⟨node, ⟨hnode, -⟩, rfl⟩
    exact ⟨node, hnode, rfl⟩
  · rintro ⟨node, hnode, rfl⟩
    exact ⟨node, ⟨hnode, by simp [hkey]⟩, rfl⟩

theorem settingsOf_putNode (hkey : isLineName key = false) (v : Text) (nodes : List CnfNode) :
    settingsOf (putNode key v nodes) = putSetting key v (settingsOf nodes) := by
  rw [putNode, putSetting]
  cases hlookup : Keyed.lookup CnfNode.name key nodes with
  | none =>
      have hnone := (lookup_settingsOf hkey nodes).mpr hlookup
      simp only [hnone]
      rw [settingsOf_append, settingsOf_cons_of_setting hkey]
      rfl
  | some node =>
      have hsome : Keyed.lookup Prod.fst key (settingsOf nodes) ≠ none := by
        rw [ne_eq, lookup_settingsOf hkey, hlookup]
        simp
      obtain ⟨setting, hsetting⟩ := Option.ne_none_iff_exists'.mp hsome
      simp only [hsetting]
      exact settingsOf_update hkey v nodes

theorem sectionsOf_cons_of_section (h : node.value = none) (nodes : List CnfNode) :
    sectionsOf (node :: nodes) = (node.name, settingsOf node.children) :: sectionsOf nodes := by
  simp [sectionsOf, CnfNode.isSection, h]

theorem sectionsOf_cons_of_line (h : node.value ≠ none) (nodes : List CnfNode) :
    sectionsOf (node :: nodes) = sectionsOf nodes := by
  simp [sectionsOf, CnfNode.isSection, h]

theorem sectionName_of_section (h : node.value = none) : node.sectionName = some node.name := by
  simp [CnfNode.sectionName, CnfNode.isSection, h]

theorem sectionName_of_line (h : node.value ≠ none) : node.sectionName = none := by
  simp [CnfNode.sectionName, CnfNode.isSection, h]

theorem sectionsOf_editedNodes (hkey : isLineName key = false) (v : Text) (nodes : List CnfNode) :
    sectionsOf (editedNodes repo key v nodes) = putIn repo key v (sectionsOf nodes) := by
  rw [editedNodes, putIn]
  induction nodes with
  | nil => rfl
  | cons node nodes ih =>
      by_cases hvalue : node.value = none
      · by_cases hname : node.name = repo
        · have hsection : node.sectionName = some repo := by
            rw [sectionName_of_section hvalue, hname]
          have hfst : Prod.fst (node.name, settingsOf node.children) = repo := hname
          rw [Keyed.update_cons_of_eq hsection, sectionsOf_cons_of_section hvalue,
            Keyed.update_cons_of_eq hfst, ← settingsOf_putNode hkey]
          have hnew : ({ node with children := putNode key v node.children } : CnfNode).value =
              none := hvalue
          exact sectionsOf_cons_of_section hnew nodes
        · have hother : node.sectionName ≠ some repo := by
            rw [sectionName_of_section hvalue]
            exact fun heq => hname (Option.some.inj heq)
          have hfst : Prod.fst (node.name, settingsOf node.children) ≠ repo := hname
          rw [Keyed.update_cons_of_ne hother, sectionsOf_cons_of_section hvalue,
            sectionsOf_cons_of_section hvalue, Keyed.update_cons_of_ne hfst, ih]
      · have hother : node.sectionName ≠ some repo := by
          rw [sectionName_of_line hvalue]
          simp
        rw [Keyed.update_cons_of_ne hother, sectionsOf_cons_of_line hvalue,
          sectionsOf_cons_of_line hvalue, ih]

/-- The settings of a section whose name starts with a dot are not written. -/
theorem unparseSection_of_dot (h : node.name.head? = some '.') (children : List CnfNode) :
    unparseSection { node with children := children } = unparseSection node := by
  rw [unparseSection, if_pos h, unparseSection, if_pos h]

theorem nodesText_editedNodes_of_dot (h : repo.head? = some '.') (v : Text)
    (nodes : List CnfNode) : nodesText (editedNodes repo key v nodes) = nodesText nodes := by
  rw [editedNodes]
  induction nodes with
  | nil => rfl
  | cons node nodes ih =>
      by_cases hname : node.sectionName = some repo
      · have hdot : node.name.head? = some '.' := by
          rw [CnfNode.sectionName] at hname
          split_ifs at hname
          rw [Option.some.inj hname, h]
        rw [Keyed.update_cons_of_eq hname, nodesText_cons, nodesText_cons,
          unparseSection_of_dot hdot]
      · rw [Keyed.update_cons_of_ne hname, nodesText_cons, nodesText_cons, ih]

/-- A node for a line may have the name of the section. Then the name starts with a dot, and it
makes no difference for the text which of the two nodes is edited. -/
theorem nodesText_update (v : Text)
    (hnodes : ∀ node ∈ nodes, node.value ≠ none → node.name.head? = some '.') :
    nodesText (Keyed.update CnfNode.name repo
      (fun node => { node with children := putNode key v node.children }) nodes) =
      nodesText (editedNodes repo key v nodes) := by
  induction nodes with
  | nil => rfl
  | cons node nodes ih =>
      obtain ⟨hnode, hnodes⟩ := List.forall_mem_cons.mp hnodes
      by_cases hname : node.name = repo
      · rw [Keyed.update_cons_of_eq hname]
        by_cases hvalue : node.value = none
        · have hsection : node.sectionName = some repo := by
            rw [sectionName_of_section hvalue, hname]
          rw [editedNodes, Keyed.update_cons_of_eq hsection]
        · have hdot := hnode hvalue
          rw [nodesText_editedNodes_of_dot (hname ▸ hdot), nodesText_cons, nodesText_cons,
            unparseSection_of_dot hdot]
      · have hother : node.sectionName ≠ some repo := by
          rw [CnfNode.sectionName]
          split_ifs
          · exact fun heq => hname (Option.some.inj heq)
          · simp
        rw [Keyed.update_cons_of_ne hname, editedNodes, Keyed.update_cons_of_ne hother,
          nodesText_cons, nodesText_cons, ih hnodes]
        rfl

theorem edit_eq_ok (hkey : ∀ c ∈ key, isKeyChar c = true) {root : CnfNode}
    (hroot : parseIni file = some root) (hmem : repo ∈ root.children.map CnfNode.name)
    (hnodes : ∀ node ∈ root.children, node.value ≠ none → node.name.head? = some '.')
    (h : edit file repo [key ++ '=' :: value] = .ok written) :
    key.length ≤ 255 ∧
      written = nodesText (editedNodes repo key (skipSpaces value) root.children) := by
  obtain ⟨cnRepo, hlookup⟩ := Keyed.exists_lookup_iff.mpr hmem
  rw [edit, hroot] at h
  simp only [setKeyValues, hlookup, List.foldlM_cons, List.foldlM_nil] at h
  cases hset : setKeyValue cnRepo (key ++ '=' :: value) with
  | error halt =>
      rw [hset] at h
      cases h
  | ok cnRepo' =>
      rw [hset] at h
      obtain ⟨hlen, rfl⟩ := setKeyValue_eq hkey hset
      refine ⟨hlen, (Except.ok.inj h).symm.trans ?_⟩
      have hconst := Keyed.update_const (f := fun node : CnfNode =>
        { node with children := putNode key (skipSpaces value) node.children }) hlookup
      rw [← nodesText_update _ hnodes, ← hconst]
      rfl

/-- What is read from the text of sections does not depend on where it is read. -/
theorem readTop_sections (hnodes : ∀ node ∈ nodes, SectionShape node) :
    readTop (readConflines (nodesText nodes)) = (readText (nodesText nodes)).map Prod.snd := by
  induction nodes with
  | nil =>
      have hnone : readConflines (nodesText []) = [] := by
        rw [nodesText, List.flatMap_nil, List.flatten_nil, readConflines, LineChunks.pieces_nil,
          List.map_nil]
      rw [readText, hnone, readTop_nil, readSection_nil]
      rfl
  | cons node nodes ih =>
      obtain ⟨hnode, hnodes⟩ := List.forall_mem_cons.mp hnodes
      rw [nodesText_cons]
      by_cases hdot : node.name.head? = some '.'
      · have hline : readConflines ("(null)\n".toList ++ nodesText nodes) =
            "(null)\n".toList :: readConflines (nodesText nodes) :=
          readConflines_line (l := "(null)".toList) (by decide) (by decide) (by decide) _
        have hsection := readText_null (Nat.zero_le 1) (nodesText nodes)
        rw [pad, List.replicate_zero, List.nil_append] at hsection
        rw [unparseSection_dot hnode.isSection hdot, hsection, hline, readTop_skip (by decide),
          ih hnodes]
      · have hlen : ('[' :: node.name ++ [']']).length ≤ 1021 := by
          have hshort := hnode.short
          simp only [List.length_append, List.length_cons, List.length_nil]
          omega
        have hgap : ∀ c ∈ ([] : Text), isSpace c = true := by simp
        have hkind : lineKind ('[' :: node.name ++ [']'] ++ ['\n']) = .heading node.name := by
          have hheading := lineKind_heading hnode.head hnode.bracket
            (hnode.short.trans (by omega)) hgap ['\n']
          rw [← hheading]
          simp
        rw [unparseSection_heading hnode hdot, readText, readConflines_line
          (by simp [hnode.line]) (by simp [hnode.nul]) hlen, readTop_heading hkind,
          readSection_heading hkind, Option.map_map]
        rfl

/-- What is read from the text of lines and sections. -/
theorem readTop_nodesText (htops : ∀ node ∈ tops, TopShape node)
    (hnodes : ∀ node ∈ nodes, SectionShape node) :
    readTop (readConflines (nodesText (tops ++ nodes))) =
      (readText (nodesText nodes)).map Prod.snd := by
  induction tops with
  | nil => exact readTop_sections hnodes
  | cons node tops ih =>
      obtain ⟨⟨hname, u, hvalue, hline, hnul, hlen, hhead⟩, htops⟩ := List.forall_mem_cons.mp htops
      have htext : (unparseSection node).flatten ++ nodesText (tops ++ nodes) =
          u ++ '\n' :: nodesText (tops ++ nodes) := by
        rw [unparseSection, if_pos hname, hvalue, shown, Option.getD_some,
          snprintf_line (hlen.trans (by omega))]
        simp
      have hskip : (skipSpaces (u ++ ['\n'])).head? ≠ some '[' := by
        by_cases hempty : skipSpaces u = []
        · have hspaces : ∀ c ∈ u, isSpace c = true := List.dropWhile_eq_nil_iff.mp hempty
          rw [skipSpaces_append hspaces]
          decide
        · obtain ⟨c, more, hmore⟩ := List.exists_cons_of_ne_nil hempty
          rw [skipSpaces_append_of_ne_nil hempty, hmore]
          rwa [hmore] at hhead
      rw [List.cons_append, nodesText_cons, htext, readConflines_line hline hnul hlen,
        readTop_skip hskip, ih htops]

theorem childShape_putNode {v : Text} (hsetting : SettingText key v)
    (hnodes : ∀ node ∈ nodes, ChildShape node) : ∀ node ∈ putNode key v nodes, ChildShape node := by
  rw [putNode]
  cases Keyed.lookup CnfNode.name key nodes with
  | none =>
      intro node hnode
      rcases List.mem_append.mp hnode with hnode | hnode
      · exact hnodes node hnode
      · rw [List.mem_singleton.mp hnode]
        exact .inr ⟨v, rfl, hsetting⟩
  | some _ =>
      refine Keyed.forall_mem_update hnodes fun node hname _ => .inr ⟨v, rfl, ?_⟩
      exact hname ▸ hsetting

theorem sectionShape_edited {v : Text} (hsetting : SettingText key v)
    (hnodes : ∀ node ∈ nodes, SectionShape node) :
    ∀ node ∈ editedNodes repo key v nodes, SectionShape node := by
  refine Keyed.forall_mem_update hnodes fun node _ hnode => ?_
  exact ⟨hnode.isSection, hnode.line, hnode.nul, hnode.bracket, hnode.head, hnode.short,
    childShape_putNode hsetting hnode.children⟩

theorem TopShape.value_ne (h : TopShape node) : node.value ≠ none := by
  obtain ⟨-, u, hvalue, -⟩ := h
  rw [hvalue]
  simp

/-- Lines of their own are not edited. -/
theorem editedNodes_append (htops : ∀ node ∈ tops, TopShape node) (v : Text)
    (nodes : List CnfNode) :
    editedNodes repo key v (tops ++ nodes) = tops ++ editedNodes repo key v nodes := by
  rw [editedNodes, editedNodes]
  induction tops with
  | nil => rfl
  | cons node tops ih =>
      obtain ⟨hnode, htops⟩ := List.forall_mem_cons.mp htops
      have hother : node.sectionName ≠ some repo := by
        rw [sectionName_of_line hnode.value_ne]
        simp
      rw [List.cons_append, Keyed.update_cons_of_ne hother, ih htops, List.cons_append]

theorem sectionsOf_append (htops : ∀ node ∈ tops, TopShape node) (nodes : List CnfNode) :
    sectionsOf (tops ++ nodes) = sectionsOf nodes := by
  induction tops with
  | nil => rfl
  | cons node tops ih =>
      obtain ⟨hnode, htops⟩ := List.forall_mem_cons.mp htops
      rw [List.cons_append, sectionsOf_cons_of_line hnode.value_ne, ih htops]

theorem settingText_of_request (h : EditRequest file repo key value) (hlen : key.length ≤ 255) :
    SettingText key (skipSpaces value) where
  key := by
    refine ⟨h.key_chars, fun hhead => ?_, fun hhead => ?_⟩
    · exact (h.key_head _ hhead).2.2 rfl
    · exact (h.key_head _ hhead).2.1 rfl
  notLine := isLineName_of_head fun c hc => (h.key_head c hc).1
  line := fun hmem => h.value_line ((List.dropWhile_suffix _).subset hmem)
  nul := ⟨h.nul.1, fun hmem => h.nul.2 ((List.dropWhile_suffix _).subset hmem)⟩
  head := by
    intro c hc
    have hnot := List.head?_dropWhile_not isSpace value
    rw [skipSpaces] at hc
    rw [Option.mem_def.mp hc] at hnot
    simpa using hnot
  short := hlen.trans (by omega)
  shorter := fun _ => hlen.trans (by omega)
  brace := fun _ => hlen

end Editing

/-- After an edit the file says what it should exactly if no section has a name that starts with
a dot, and all settings fit into the buffers. -/
theorem edit_right_iff {file repo key value written : Text}
    (h : EditRequest file repo key value)
    (hwritten : edit file repo [key ++ '=' :: value] = .ok written) :
    Right file repo key value written ↔ Fits file repo key value := by
  obtain ⟨tops, nodes, hparse, htops, hnodes⟩ := tree_of_readLines (readLine_of_plain h.lines)
  have hroot : parseIni file = some ⟨"(root)".toList, none, tops ++ nodes⟩ := by
    rw [parseIni, hparse]
    rfl
  have hcontents : contents file = some (sectionsOf (tops ++ nodes)) := by
    rw [contents, hroot]
    rfl
  have hmem : repo ∈ (tops ++ nodes).map CnfNode.name := by
    obtain ⟨sections, hsections, hrepo⟩ := h.section_mem
    rw [← Option.some.inj (hcontents.symm.trans hsections)] at hrepo
    obtain ⟨s, hs, rfl⟩ := List.mem_map.mp hrepo
    obtain ⟨node, hnode, rfl⟩ := List.mem_map.mp hs
    exact List.mem_map_of_mem (List.mem_of_mem_filter hnode)
  have hlines : ∀ node ∈ tops ++ nodes, node.value ≠ none → node.name.head? = some '.' := by
    intro node hnode hvalue
    rcases List.mem_append.mp hnode with hnode | hnode
    · exact (htops node hnode).name
    · exact absurd (hnodes node hnode).isSection hvalue
  obtain ⟨hlen, hwritten⟩ := edit_eq_ok h.key_chars hroot hmem hlines hwritten
  have hsetting := settingText_of_request h hlen
  have hshapes : ∀ node ∈ editedNodes repo key (skipSpaces value) nodes, SectionShape node :=
    sectionShape_edited hsetting hnodes
  have hafter : contents written =
      (readText (nodesText (editedNodes repo key (skipSpaces value) nodes))).map Prod.snd := by
    rw [contents_eq, hwritten]
    simp only
    rw [editedNodes_append htops, readTop_nodesText htops hshapes]
  have hright : Right file repo key value written ↔
      contents written =
        some (sectionsOf (editedNodes repo key (skipSpaces value) nodes)) := by
    rw [Right, hcontents, sectionsOf_append htops,
      sectionsOf_editedNodes hsetting.notLine]
    simp
  have hfits : Fits file repo key value ↔
      ∀ node ∈ editedNodes repo key (skipSpaces value) nodes,
        node.name.head? ≠ some '.' ∧ Reads 0 node.children := by
    constructor
    · rintro ⟨root, hroot', hfits⟩ node hnode
      rw [hroot] at hroot'
      obtain rfl := Option.some.inj hroot'
      refine hfits node ?_ (Option.isNone_iff_eq_none.mpr (hshapes node hnode).isSection)
      rw [editedNodes_append htops]
      exact List.mem_append_right tops hnode
    · refine fun hfits => ⟨_, hroot, fun node hnode hsection => ?_⟩
      rw [editedNodes_append htops] at hnode
      rcases List.mem_append.mp hnode with hnode | hnode
      · exact absurd (Option.isNone_iff_eq_none.mp hsection) (htops node hnode).value_ne
      · exact hfits node hnode
  rw [hright, hfits, hafter, ← readText_nodes_iff hshapes (Nat.zero_le 1)]
  change _ ↔ readText (nodesText (editedNodes repo key (skipSpaces value) nodes)) = _
  cases hread : readText (nodesText (editedNodes repo key (skipSpaces value) nodes)) with
  | none => simp
  | some r =>
      have hnil := (readText_nodes_some hshapes (Nat.zero_le 1) hread).1
      obtain ⟨settings, sections⟩ := r
      obtain rfl : settings = [] := hnil
      simp

/-- A file with two settings. -/
def twoSettings : Text := "[main]\nk=1\nb=2\n".toList

theorem twoSettings_plain :
    ∀ line ∈ twoSettings.splitOn '\n', line.length ≤ 1021 ∧ PlainLine (cstr line) := by
  have hlines : twoSettings.splitOn '\n' = ["[main]".toList, "k=1".toList, "b=2".toList, []] := by
    decide +kernel
  have hnone : ∀ c ∈ ([] : Text), isSpace c = true := by simp
  have hsetting (name value : Char) (hkey : isKeyChar name = true)
      (hname : [name].head? ≠ some '[' ∧ [name].head? ≠ some '#')
      (hline : isLineName [name] = false) (hspace : isSpace value = false)
      (hbrace : [value].head? ≠ some '{') :
      PlainLine ([] ++ ([name] ++ ([] ++ '=' :: ([] ++ [value])))) := by
    refine .setting hnone ⟨?_, hname⟩ hline hnone hnone ?_ hbrace
    · rwa [List.forall_mem_singleton]
    · intro c hc
      obtain rfl : value = c := by simpa using hc
      exact hspace
  rw [hlines]
  simp only [List.forall_mem_cons]
  refine ⟨⟨by decide, ?_⟩, ⟨by decide, ?_⟩, ⟨by decide, ?_⟩, ⟨by decide, .blank (by simp [cstr])⟩,
    by simp⟩
  · have hhead : ∀ c ∈ "main".toList.head?, isSpace c = false := by
      intro c hc
      obtain rfl : 'm' = c := by simpa using hc
      decide
    have hheading : PlainLine ([] ++ '[' :: ([] ++ ("main".toList ++ ']' :: []))) :=
      .heading hnone hnone hhead (by decide) []
    exact hheading
  · exact hsetting 'k' '1' (by decide) (by decide) (by decide) (by decide) (by decide)
  · exact hsetting 'b' '2' (by decide) (by decide) (by decide) (by decide) (by decide)

theorem twoSettings_contents :
    contents twoSettings = some [("main".toList,
      [(['k'], some ['1']), (['b'], some ['2'])])] := by
  decide +kernel

theorem request_twoSettings {value : Text} (hline : '\n' ∉ value) (hhead : value.head? ≠ some '{')
    (hnul : '\x00' ∉ value) : EditRequest twoSettings "main".toList ['k'] value where
  lines := twoSettings_plain
  section_mem := ⟨_, twoSettings_contents, by decide⟩
  key_ne := by simp
  key_chars := by
    rw [List.forall_mem_singleton]
    decide
  key_head := by simp
  value_line := hline
  value_head := hhead
  nul := ⟨by decide, hnul⟩

theorem eq_ok_of_toOption {α : Type} {x : Except Halt α} {a : α} (h : x.toOption = some a) :
    x = .ok a := by
  cases x with
  | error halt => cases h
  | ok b => exact congrArg Except.ok (Option.some.inj h)

theorem edit_right_twoSettings :
    Right twoSettings "main".toList ['k'] ['5'] "[main]\nk = 5\nb = 2\n".toList ↔
      Fits twoSettings "main".toList ['k'] ['5'] :=
  edit_right_iff (request_twoSettings (by decide) (by decide) (by decide))
    (eq_ok_of_toOption (by decide +kernel))

/-- A value of 1019 bytes. -/
def longValue : Text := 'x' :: List.replicate 1018 'x'

theorem eq_of_mem_longValue {c : Char} (h : c ∈ longValue) : c = 'x' :=
  (List.mem_cons.mp h).elim id List.eq_of_mem_replicate

/-- The long value loses the end of its line, and the next setting gets another name. -/
theorem long_value_renames_next : ∃ file repo key value written,
    EditRequest file repo key value ∧ edit file repo [key ++ '=' :: value] = .ok written ∧
      ¬ Right file repo key value written := by
  have hline : '\n' ∉ longValue := fun h => absurd (eq_of_mem_longValue h) (by decide)
  have hnul : '\x00' ∉ longValue := fun h => absurd (eq_of_mem_longValue h) (by decide)
  refine ⟨twoSettings, "main".toList, ['k'], longValue,
    "[main]\nk = ".toList ++ longValue ++ "b = 2\n".toList,
    request_twoSettings hline (by rw [longValue, List.head?_cons]; decide) hnul,
    eq_ok_of_toOption (by decide +kernel), ?_⟩
  rintro ⟨sections, hbefore, hafter⟩
  rw [twoSettings_contents] at hbefore
  rw [← Option.some.inj hbefore] at hafter
  have hnames := congrArg (Option.map fun sections : List (Text × List Setting) =>
    sections.map fun s => s.2.map Prod.fst) hafter
  exact absurd hnames (by decide +kernel)

end Tdnf.Llconf
