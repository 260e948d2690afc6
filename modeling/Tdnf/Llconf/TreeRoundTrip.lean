import Tdnf.Llconf.EditRoundTrip

/-!
# Trees, written and read again

A tree whose lines fit into the buffers and whose names stay within a line is read
from the text that is written of it as it was, with its comments and empty lines.
-/

namespace Tdnf.Llconf

open PathText Common

/-- A node of a section: an empty line, a comment, or a setting that fits into its line. -/
inductive TidyChild : CnfNode → Prop where
  | empty : TidyChild ⟨".empty".toList, some [], []⟩
  | comment {u : Text} (h : AsideText u) (hcomment : (skipSpaces u).head? = some '#') :
      TidyChild ⟨".comment".toList, some u, []⟩
  | setting {name value : Text} (h : SettingText name value) (hbrace : value.head? ≠ some '{')
      (hfits : name.length + value.length ≤ 1018) : TidyChild ⟨name, some value, []⟩

/-- A section whose name is found again. -/
structure TidySection (node : CnfNode) : Prop where
  isSection : node.value = none
  line : '\n' ∉ node.name
  nul : '\x00' ∉ node.name
  bracket : ']' ∉ node.name
  head : ∀ c ∈ node.name.head?, isSpace c = false
  short : node.name.length ≤ 1019
  dot : node.name.head? ≠ some '.'
  children : ∀ child ∈ node.children, TidyChild child

/-- A node that fits has the shape of one that was read. -/
theorem TidyChild.shape {node : CnfNode} (h : TidyChild node) : ChildShape node := by
  cases h with
  | empty => exact .inl ⟨rfl, [], rfl, by simp, by simp, by simp, .inl rfl⟩
  | comment h => exact .inl ⟨rfl, _, rfl, h⟩
  | setting h => exact .inr ⟨_, rfl, h⟩

theorem TidySection.shape {node : CnfNode} (h : TidySection node) : SectionShape node :=
  ⟨h.isSection, h.line, h.nul, h.bracket, h.head, h.short,
    fun child hchild => (h.children child hchild).shape⟩

/-- A line in front of all sections. -/
inductive TidyTop : CnfNode → Prop where
  | empty : TidyTop ⟨".empty".toList, some [], []⟩
  | comment {u : Text} (hline : '\n' ∉ u) (hnul : '\x00' ∉ u) (hshort : u.length ≤ 1021)
      (hne : skipSpaces u ≠ []) (hhead : (skipSpaces u).head? ≠ some '[') :
      TidyTop ⟨".comment".toList, some u, []⟩

/-- Lines, and then sections. -/
structure Tidy (root : CnfNode) : Prop where
  name : root.name = "(root)".toList
  value : root.value = none
  split : ∃ tops sections, root.children = tops ++ sections ∧ (∀ node ∈ tops, TidyTop node) ∧
    ∀ node ∈ sections, TidySection node

/-- The nodes of a section, and the lines that are left. -/
def sectionNodes (cl : List Text) : Option (List CnfNode × List Text) :=
  (parseIniSection cl).map fun parsed => (parsed.1, parsed.2.1)

section Reading

variable {node : CnfNode} {nodes tops : List CnfNode} {line s : Text} {cl : List Text}

theorem sectionNodes_of_push {rest : List Text} {hle : rest.length ≤ (line :: cl).length}
    (h : parseIniSection (line :: cl) = Parsed.push nodes hle (parseIniSection rest)) :
    sectionNodes (line :: cl) = (sectionNodes rest).map fun r => (nodes ++ r.1, r.2) := by
  rw [sectionNodes, h, sectionNodes, Parsed.push, Option.map_map, Option.map_map]
  rfl

/-- A node of a section is read from its line. -/
theorem sectionNodes_child (h : TidyChild node) (s : Text) :
    sectionNodes (readConflines ((unparseChild node).flatten ++ s)) =
      (sectionNodes (readConflines s)).map fun r => (node :: r.1, r.2) := by
  cases h with
  | empty =>
      have hline : readConflines ([] ++ '\n' :: s) = ['\n'] :: readConflines s :=
        readConflines_line (by simp) (by simp) (by simp) s
      have htext : (unparseChild ⟨".empty".toList, some [], []⟩).flatten ++ s = [] ++ '\n' :: s := by
        rw [unparseChild_line rfl rfl (by simp)]
        rfl
      rw [htext, hline, sectionNodes_of_push (parseIniSection_blank (by decide))]
      rfl
  | @comment u h hcomment =>
      have hskip : skipSpaces u ≠ [] := by
        intro hnil
        rw [hnil] at hcomment
        cases hcomment
      have hhead : (skipSpaces (u ++ ['\n'])).head? = some '#' := by
        rw [skipSpaces_append_of_ne_nil hskip, List.head?_append, hcomment]
        rfl
      have hshort := h.short
      rw [unparseChild_line rfl rfl (by omega), List.append_assoc, List.singleton_append,
        readConflines_line h.line h.nul h.short, sectionNodes_of_push (parseIniSection_comment hhead),
        lineNode, dupNextLineB_append h.line (by omega) (.inr rfl)]
      rfl
  | @setting name value h hbrace hfits =>
      have htext : (unparseChild ⟨name, some value, []⟩).flatten ++ s =
          (name ++ ' ' :: '=' :: ' ' :: value) ++ '\n' :: s := by
        rw [unparseChild_setting h.notLine rfl, settingLine_eq, List.take_of_length_le]
        · simp
        · simp only [List.length_append, List.length_cons, List.length_nil]
          omega
      have hl : '\n' ∉ name ++ ' ' :: '=' :: ' ' :: value := by
        simp [h.key.not_mem, h.line]
      have hnul : '\x00' ∉ name ++ ' ' :: '=' :: ' ' :: value := by
        simp [h.nul]
      have hlen : (name ++ ' ' :: '=' :: ' ' :: value).length ≤ 1021 := by
        simp only [List.length_append, List.length_cons]
        omega
      have hspace : ∀ c ∈ [' '], isSpace c = true := by simp [isSpace]
      have hkind : lineKind (name ++ ' ' :: '=' :: ' ' :: value ++ ['\n']) =
          .setting name value := by
        have hequals := lineKind_equals h.key (h.short.trans (by omega)) hspace
          ([' '] ++ (value ++ ['\n']))
        rw [kindBehind_value hspace h.head hbrace h.line (by omega) (.inr rfl)] at hequals
        rw [← hequals]
        simp
      obtain ⟨p, comment, hp, hvalue, hcomment, hpush⟩ := parseIniSection_setting hkind
      rw [hvalue, skipSpaces_behind hl hlen (.inr rfl) hp] at hcomment
      rw [htext, readConflines_line hl hnul hlen, sectionNodes_of_push hpush, hcomment]
      rfl

theorem sectionNodes_body (h : ∀ node ∈ nodes, TidyChild node) (s : Text) :
    sectionNodes (readConflines (bodyText nodes ++ s)) =
      (sectionNodes (readConflines s)).map fun r => (nodes ++ r.1, r.2) := by
  induction nodes with
  | nil =>
      rw [bodyText, List.flatMap_nil, List.flatten_nil, List.nil_append]
      cases sectionNodes (readConflines s) with
      | none => rfl
      | some r => rfl
  | cons node nodes ih =>
      rw [List.forall_mem_cons] at h
      rw [bodyText_cons, List.append_assoc, sectionNodes_child h.1, ih h.2, Option.map_map]
      rfl

/-- The heading of a section. -/
theorem heading_line (h : TidySection node) :
    '\n' ∉ '[' :: node.name ++ [']'] ∧ '\x00' ∉ '[' :: node.name ++ [']'] ∧
      ('[' :: node.name ++ [']']).length ≤ 1021 ∧
      lineKind ('[' :: node.name ++ [']'] ++ ['\n']) = .heading node.name := by
  have hshort := h.short
  refine ⟨by simp [h.line], by simp [h.nul], ?_, ?_⟩
  · simp only [List.length_append, List.length_cons, List.length_nil]
    omega
  · have hgap : ∀ c ∈ ([] : Text), isSpace c = true := by simp
    have hkind := lineKind_heading h.head h.bracket (by omega) hgap ['\n']
    rw [← hkind]
    simp

theorem TidySection.text (h : TidySection node) (s : Text) :
    (unparseSection node).flatten ++ s =
      '[' :: node.name ++ [']'] ++ '\n' :: (bodyText node.children ++ s) :=
  unparseSection_heading h.shape h.dot s

/-- A section ends where the next one starts. -/
theorem sectionNodes_sections (h : ∀ node ∈ nodes, TidySection node) :
    sectionNodes (readConflines (nodesText nodes)) = some ([], readConflines (nodesText nodes)) := by
  cases nodes with
  | nil =>
      have hnone : readConflines (nodesText []) = [] := by
        rw [nodesText, List.flatMap_nil, List.flatten_nil, readConflines, LineChunks.pieces_nil,
          List.map_nil]
      rw [hnone, sectionNodes, parseIniSection]
      rfl
  | cons node nodes =>
      rw [List.forall_mem_cons] at h
      obtain ⟨hl, hnul, hlen, hkind⟩ := heading_line h.1
      rw [nodesText_cons, h.1.text, readConflines_line hl hnul hlen, sectionNodes,
        parseIniSection_heading hkind]
      rfl

theorem parseIniLines_sections (h : ∀ node ∈ nodes, TidySection node) :
    parseIniLines (readConflines (nodesText nodes)) = some nodes := by
  induction nodes with
  | nil =>
      have hnone : readConflines (nodesText []) = [] := by
        rw [nodesText, List.flatMap_nil, List.flatten_nil, readConflines, LineChunks.pieces_nil,
          List.map_nil]
      rw [hnone, parseIniLines]
  | cons node nodes ih =>
      rw [List.forall_mem_cons] at h
      obtain ⟨hl, hnul, hlen, hkind⟩ := heading_line h.1
      have hbody := sectionNodes_body h.1.children (nodesText nodes)
      rw [sectionNodes_sections h.2, Option.map_some, List.append_nil] at hbody
      rw [nodesText_cons, h.1.text, readConflines_line hl hnul hlen, parseIniLines_heading hkind]
      obtain ⟨parsed, hparsed, hparts⟩ := Option.map_eq_some_iff.mp hbody
      obtain ⟨hchildren, hrest⟩ := Prod.mk.inj hparts
      rw [hparsed, Option.bind_some, hchildren, hrest, ih h.2, Option.map_some, ← h.1.isSection]
      cases node with
      | mk name value children => rfl

theorem unparseSection_line {u : Text} (hname : node.name.head? = some '.')
    (hvalue : node.value = some u) (h : u.length ≤ 1022) :
    (unparseSection node).flatten = u ++ ['\n'] := by
  rw [unparseSection, if_pos hname, hvalue, shown, Option.getD_some, snprintf_line h]
  simp

/-- A line in front of all sections is read from its text. -/
theorem parseIniLines_top (h : TidyTop node) (s : Text) :
    parseIniLines (readConflines ((unparseSection node).flatten ++ s)) =
      (parseIniLines (readConflines s)).map (node :: ·) := by
  cases h with
  | empty =>
      have htext : (unparseSection ⟨".empty".toList, some [], []⟩).flatten ++ s = [] ++ '\n' :: s :=
        rfl
      rw [htext, readConflines_line (by simp) (by simp) (by simp), parseIniLines_other (by decide)]
      rfl
  | @comment u hline hnul hshort hne hhead =>
      have htext : (unparseSection ⟨".comment".toList, some u, []⟩).flatten ++ s = u ++ '\n' :: s := by
        rw [unparseSection_line rfl rfl (by omega), List.append_assoc, List.singleton_append]
      have hskip : skipSpaces (u ++ ['\n']) = skipSpaces u ++ ['\n'] :=
        skipSpaces_append_of_ne_nil hne _
      have hhead' : (skipSpaces (u ++ ['\n'])).head? ≠ some '[' := by
        obtain ⟨c, more, hmore⟩ := List.exists_cons_of_ne_nil hne
        rw [hskip, hmore]
        rwa [hmore] at hhead
      have hne' : skipSpaces (u ++ ['\n']) ≠ [] := by
        rw [hskip]
        simp
      rw [htext, readConflines_line hline hnul hshort, parseIniLines_other hhead', if_neg hne',
        lineNode, dupNextLineB_append hline (by omega) (.inr rfl)]

theorem parseIniLines_tops (htops : ∀ node ∈ tops, TidyTop node)
    (hnodes : ∀ node ∈ nodes, TidySection node) :
    parseIniLines (readConflines (nodesText (tops ++ nodes))) = some (tops ++ nodes) := by
  induction tops with
  | nil => exact parseIniLines_sections hnodes
  | cons node tops ih =>
      rw [List.forall_mem_cons] at htops
      rw [List.cons_append, nodesText_cons, parseIniLines_top htops.1, ih htops.2, Option.map_some]

/-- A tidy tree is read from its text as it was. -/
theorem parseIni_written {root : CnfNode} (h : Tidy root) :
    parseIni (unparseIni root) = some root := by
  obtain ⟨tops, sections, hsplit, htops, hsections⟩ := h.split
  have hlines : parseIniLines (readConflines (nodesText (tops ++ sections))) =
      some (tops ++ sections) := parseIniLines_tops htops hsections
  rw [parseIni, unparseIni, hsplit]
  change Option.map _ (parseIniLines (readConflines (nodesText (tops ++ sections)))) = _
  rw [hlines, ← hsplit, Option.map_some, ← h.name, ← h.value]
  cases root with
  | mk name value children => rfl

/-- Reading inverts writing, and no other tidy tree is written the same. -/
theorem parseIni_unparseIni {root : CnfNode} (h : Tidy root) :
    parseIni (unparseIni root) = some root ∧
      ∀ root', Tidy root' → unparseIni root' = unparseIni root → root' = root := by
  refine ⟨parseIni_written h, fun root' h' hsame => ?_⟩
  have hread := parseIni_written h'
  rw [hsame, parseIni_written h] at hread
  exact (Option.some.inj hread).symm

end Reading

theorem parseIni_unparseIni_commented :
    let root : CnfNode := ⟨"(root)".toList, none,
      [⟨".comment".toList, some "# all of them".toList, []⟩,
        ⟨"base".toList, none,
          [⟨"enabled".toList, some "1".toList, []⟩, ⟨".empty".toList, some [], []⟩]⟩]⟩
    parseIni (unparseIni root) = some root ∧
      ∀ root', Tidy root' → unparseIni root' = unparseIni root → root' = root := by
  intro root
  refine parseIni_unparseIni ⟨rfl, rfl, [_], [_], rfl, ?_, ?_⟩
  · rw [List.forall_mem_singleton]
    exact .comment (by decide) (by decide) (by decide) (by decide) (by decide)
  · rw [List.forall_mem_singleton]
    refine ⟨rfl, by decide, by decide, by decide, by simp [isSpace], by decide, by decide, ?_⟩
    rw [List.forall_mem_cons, List.forall_mem_singleton]
    have hkey : KeyText "enabled".toList := ⟨by simp [isKeyChar, isSpace], by decide⟩
    have hsetting : SettingText "enabled".toList "1".toList :=
      ⟨hkey, by decide, by decide, by decide, by simp [isSpace], by decide, by decide, by decide⟩
    exact ⟨.setting hsetting (by decide) (by decide), .empty⟩

end Tdnf.Llconf
