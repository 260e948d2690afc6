import Tdnf.Common.Strings
import Tdnf.Library.Keyed
import Tdnf.Library.LineChunks

/-!
# Editing configuration files

`tdnf-config` reads a configuration file into a tree of nodes, changes values in
the tree, and writes the tree to the file. The lines pass through buffers of
1024 bytes when they are read, when they are parsed and when they are written.
A character of a text stands for a byte.
-/

namespace Tdnf.Llconf

open PathText Common

/-- `struct cnfnode`; the value may be NULL. -/
structure CnfNode where
  name : Text
  value : Option Text
  children : List CnfNode

/-- How a run of `tdnf-config` ends before it has written the file. -/
inductive Halt where
  | nullPointer
  | exit (rc : ℕ)
deriving DecidableEq, Repr

/-! ## Lines -/

/-- A text up to its NUL -/
def cstr (s : Text) : Text := s.takeWhile (· ≠ '\x00')

/-- `read_conflines`, with `fgets` for at most 1022 bytes -/
def readConflines (file : Text) : List Text := (LineChunks.pieces '\n' 1021 file).map cstr

/-- `skip_spaces` -/
def skipSpaces (p : Text) : Text := p.dropWhile isSpace

/-- `dup_next_line_b`, with a buffer for `n` bytes -/
def dupNextLineB (p : Text) (n : ℕ) : Text := (p.takeWhile (· ≠ '\n')).take n

/-- What a key is made of. -/
def isKeyChar (c : Char) : Bool := !isSpace c && c ≠ '='

/-- The key at the start of a text, in a buffer for `n` bytes, and what is behind it -/
def takeKey (p : Text) (n : ℕ) : Text × Text :=
  let key := (p.takeWhile isKeyChar).take n
  (key, p.drop key.length)

/-- `snprintf` into a buffer of `n` bytes -/
def snprintf (n : ℕ) (s : Text) : Text := s.take (n - 1)

/-- How `%s` shows a value. -/
def shown (value : Option Text) : Text := value.getD "(null)".toList

/-! ## Parsing -/

/-- The nodes of some lines, and the lines that are left; `none` where a NULL pointer is used -/
abbrev Parsed (cl : List Text) :=
  Option (List CnfNode × {rest : List Text // rest.length ≤ cl.length})

/-- Nodes in front of those of the lines that follow. -/
def Parsed.push {cl rest : List Text} (nodes : List CnfNode) (h : rest.length ≤ cl.length)
    (r : Parsed rest) : Parsed cl :=
  r.map fun x => (nodes ++ x.1, ⟨x.2.1, x.2.2.trans h⟩)

/-- A node for a line that is kept as it is. -/
def lineNode (name : String) (line : Text) : CnfNode :=
  ⟨name.toList, some (dupNextLineB line 1023), []⟩

/-- `parse_ini_subsection`, on the lines behind the opening one -/
def parseIniSubsection : (cl : List Text) → Parsed cl
  | [] => some ([], ⟨[], le_rfl⟩)
  | line :: cl =>
    let p := skipSpaces line
    if p.head? = some '}' then some ([], ⟨line :: cl, le_rfl⟩)
    else if p = [] then
      Parsed.push [lineNode ".empty" line] (Nat.le_succ _) (parseIniSubsection cl)
    else if p.head? = some '#' then
      Parsed.push [lineNode ".comment" line] (Nat.le_succ _) (parseIniSubsection cl)
    else
      let key := takeKey p 1023
      let p := skipSpaces key.2
      if p.head? = some '=' then
        let p := skipSpaces p.tail
        if p.head? ≠ some '{' then
          let value := (p.take 1023).rdropWhile isSpace
          Parsed.push [⟨key.1, some value, []⟩] (Nat.le_succ _) (parseIniSubsection cl)
        else
          let p := skipSpaces p.tail
          if p.head? ≠ some '}' then
            match parseIniSubsection cl with
            | none => none
            | some (_, ⟨[], _⟩) => none
            | some (children, ⟨_ :: rest, h⟩) =>
              Parsed.push [⟨key.1, none, children⟩]
                (Nat.le_of_succ_le (h.trans (Nat.le_succ _))) (parseIniSubsection rest)
          else Parsed.push [⟨key.1, none, []⟩] (Nat.le_succ _) (parseIniSubsection cl)
      else Parsed.push [lineNode ".unparsed" line] (Nat.le_succ _) (parseIniSubsection cl)
termination_by cl => cl.length
decreasing_by
  all_goals simp only [List.length_cons] at *
  all_goals omega

/-- `parse_ini_section`, on the lines behind the heading -/
def parseIniSection : (cl : List Text) → Parsed cl
  | [] => some ([], ⟨[], le_rfl⟩)
  | line :: cl =>
    let p := skipSpaces line
    if p = [] then
      Parsed.push [⟨".empty".toList, some [], []⟩] (Nat.le_succ _) (parseIniSection cl)
    else if p.head? = some '[' then some ([], ⟨line :: cl, le_rfl⟩)
    else if p.head? = some '#' then
      Parsed.push [lineNode ".comment" line] (Nat.le_succ _) (parseIniSection cl)
    else
      let key := takeKey p 1023
      let p := skipSpaces key.2
      if p.head? = some '=' then
        let p := skipSpaces p.tail
        if p.head? ≠ some '{' then
          let value := dupNextLineB p 1023
          -- a comment behind the value is added as a node with the whole line
          let comment := if (skipSpaces (p.drop value.length)).head? = some '#' then
            [lineNode ".comment" line] else []
          Parsed.push (⟨key.1, some value, []⟩ :: comment) (Nat.le_succ _) (parseIniSection cl)
        else
          let p := skipSpaces p.tail
          if p.head? ≠ some '}' then
            match parseIniSubsection cl with
            | none => none
            | some (children, ⟨[], _⟩) =>
              if p.head? = some '#' then none
              else some ([⟨key.1, none, children⟩], ⟨[], Nat.zero_le _⟩)
            | some (children, ⟨closing :: rest, h⟩) =>
              let comment := if p.head? = some '#' then [lineNode ".comment" closing] else []
              Parsed.push (⟨key.1, none, children⟩ :: comment)
                (Nat.le_of_succ_le (h.trans (Nat.le_succ _))) (parseIniSection rest)
          else Parsed.push [⟨key.1, none, []⟩] (Nat.le_succ _) (parseIniSection cl)
      else Parsed.push [lineNode ".unparsed" line] (Nat.le_succ _) (parseIniSection cl)
termination_by cl => cl.length
decreasing_by
  all_goals simp only [List.length_cons] at *
  all_goals omega

/-- The loop of `parse_ini` over the lines; its nodes -/
def parseIniLines : List Text → Option (List CnfNode)
  | [] => some []
  | line :: cl =>
    let p := skipSpaces line
    if p = [] then (parseIniLines cl).map (⟨".empty".toList, some [], []⟩ :: ·)
    else if p.head? = some '[' then
      let name := ((skipSpaces p.tail).takeWhile (· ≠ ']')).take 1023
      match parseIniSection cl with
      | none => none
      | some (children, rest) => (parseIniLines rest.1).map (⟨name, none, children⟩ :: ·)
    else (parseIniLines cl).map (lineNode ".comment" line :: ·)
termination_by cl => cl.length
decreasing_by
  · exact Nat.lt_succ_self _
  · exact Nat.lt_succ_of_le rest.2
  · exact Nat.lt_succ_self _

/-- `parse_ini` of a file -/
def parseIni (file : Text) : Option CnfNode :=
  (parseIniLines (readConflines file)).map fun nodes => ⟨"(root)".toList, none, nodes⟩

/-! ## Writing -/

/-- The names of the nodes that stand for other lines than settings. -/
def isLineName (name : Text) : Bool :=
  name = ".comment".toList || name = ".empty".toList || name = ".unparsed".toList

mutual

/-- `unparse_ini_subsection` -/
def unparseIniSubsection (level : ℕ) : CnfNode → List Text
  | ⟨name, _, children⟩ =>
    let ident := List.replicate (min (level * 8) 255) ' '
    [snprintf 1024 (ident ++ name ++ " = \x7b\n".toList)] ++
      unparseIniSubsectionLines level children ++ [snprintf 1024 (ident ++ "\x7d\n".toList)]

/-- Its loop over the children -/
def unparseIniSubsectionLines (level : ℕ) : List CnfNode → List Text
  | [] => []
  | ⟨name, value, children⟩ :: nodes =>
    let ident := List.replicate (min (level * 8) 255) ' '
    (match value with
      | some value =>
        if isLineName name then [snprintf 1024 (value ++ ['\n'])]
        else [snprintf 1024
          ("        ".toList ++ ident ++ name ++ " = ".toList ++ value ++ ['\n'])]
      | none => unparseIniSubsection (level + 1) ⟨name, none, children⟩) ++
    unparseIniSubsectionLines level nodes

end

/-- The lines of a node in a section -/
def unparseChild (node : CnfNode) : List Text :=
  if isLineName node.name then [snprintf 1024 (shown node.value ++ ['\n'])]
  else
    match node.value with
    | some value => [snprintf 1024 (node.name ++ " = ".toList ++ value ++ ['\n'])]
    | none => unparseIniSubsection 1 node

/-- The lines of a node below the root -/
def unparseSection (node : CnfNode) : List Text :=
  if node.name.head? = some '.' then [snprintf 1024 (shown node.value ++ ['\n'])]
  else snprintf 1024 ('[' :: node.name ++ "]\n".toList) :: node.children.flatMap unparseChild

/-- `unparse_ini`: the text that is written -/
def unparseIni (root : CnfNode) : Text := (root.children.flatMap unparseSection).flatten

/-! ## Editing -/

/-- `set_key_value` -/
def setKeyValue (cnRepo : CnfNode) (keyval : Text) : Except Halt CnfNode :=
  let key := takeKey keyval 255
  let p := skipSpaces key.2
  if p.head? = some '=' then
    let value := skipSpaces p.tail
    match Keyed.lookup CnfNode.name key.1 cnRepo.children with
    | none => .ok { cnRepo with children := cnRepo.children ++ [⟨key.1, some value, []⟩] }
    | some _ => .ok { cnRepo with
        children := Keyed.update CnfNode.name key.1 (fun cn => { cn with value := some value })
          cnRepo.children }
  else .error (.exit 1)

/-- `set_key_values` -/
def setKeyValues (cnRoot : CnfNode) (repo : Text) (kv : List Text) : Except Halt CnfNode :=
  match Keyed.lookup CnfNode.name repo cnRoot.children with
  | none => .ok cnRoot
  | some cnRepo => do
    let cnRepo ← kv.foldlM setKeyValue cnRepo
    .ok { cnRoot with children := Keyed.update CnfNode.name repo (fun _ => cnRepo) cnRoot.children }

/-- `edit` on the file of the section: what the file holds afterwards -/
def edit (file repo : Text) (kv : List Text) : Except Halt Text :=
  match parseIni file with
  | none => .error .nullPointer
  | some cnRoot => do
    let cnRoot ← setKeyValues cnRoot repo kv
    .ok (unparseIni cnRoot)

end Tdnf.Llconf
