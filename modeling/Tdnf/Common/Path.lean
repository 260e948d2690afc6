import Tdnf.Common.Error
import Tdnf.Library.FileTree

/-!
# Paths of the downloader

Joining path nodes, the path part of a URI, and `TDNFNormalizePath`, which
copies a path into a buffer without dots, double slashes and whole directories
that are left by two dots. The last section says what the copying does to the
location: two dots that follow two dots are lost.
-/

namespace Tdnf.Common

open PathText FileTree FileTree.Tree

/-- The value of `errno`. -/
def errnoCode : Errno → ℕ
  | .noent => 2
  | .busy => 16
  | .exist => 17
  | .notdir => 20
  | .isdir => 21

/-- The nodes of a path without the slashes at their ends, with slashes between. -/
def joinNodes : List Text → Text
  | [] => []
  | [node] => rstrip (lstrip node)
  | node :: nodes => rstrip (lstrip node) ++ '/' :: joinNodes nodes

/-- `TDNFJoinPath` -/
def joinPath (nodes : List Text) : Text :=
  match nodes.head? with
  -- if the first node is an absolute path, the result is absolute
  | some ('/' :: _) => '/' :: joinNodes nodes
  | _ => joinNodes nodes

def protocols : List Text :=
  ["http://".toList, "https://".toList, "ftp://".toList, "ftps://".toList, "file://".toList]

/-- `strncasecmp` of a text with a whole lower case prefix -/
def startsWithCase (s pre : Text) : Bool := (s.take pre.length).map Char.toLower == pre

/-- `TDNFUriIsRemote` -/
def uriIsRemote (url : Text) : Except TdnfError Bool :=
  let remotes := ["http://".toList, "https://".toList, "ftp://".toList, "ftps://".toList]
  if url = [] then .error .invalidParameter
  else if remotes.any (startsWithCase url) then .ok true
  else if startsWithCase url "file://".toList then .ok false
  else .error .urlInvalid

/-- `TDNFPathFromUri` -/
def pathFromUri (uri : Text) : Except TdnfError Text :=
  if uri = [] then .error .invalidParameter
  else match protocols.find? (startsWithCase uri) with
    | none => .error .urlInvalid
    | some protocol =>
      let path := uri.drop protocol.length
      if path = [] then .error .urlInvalid
      else if '#' ∈ path then .error .urlInvalid
      else
        -- skip hostname in the uri
        match path.dropWhile (· != '/') with
        | [] => .error .urlInvalid
        | c :: path => .ok (c :: path)

/-- The buffer of `TDNFNormalizePath` around the pointer `q`: what stands before it, the last
character first, and what stands from it on, up to characters that are still zero. -/
structure Buffer where
  left : Text
  right : Text
deriving DecidableEq

namespace Buffer

/-- The buffer as a string that ends at `q`. -/
def text (b : Buffer) : Text := b.left.reverse

/-- `*q++ = c` -/
def put (b : Buffer) (c : Char) : Buffer := ⟨c :: b.left, b.right.tail⟩

/-- `*q = 0` -/
def terminate (b : Buffer) : Buffer := ⟨b.left, '\x00' :: b.right.tail⟩

/-- `while (q > pszNormalPath && *q != '/') q--` -/
def eraseFrom : Text → Text → Buffer
  | [], right => ⟨[], right⟩
  | c :: left, right =>
    if right.head? = some '/' then ⟨c :: left, right⟩ else eraseFrom left (c :: right)

/-- Erase the last directory. -/
def erase (b : Buffer) : Buffer := eraseFrom b.left b.right

/-- Terminate the buffer and let `realpath` resolve it. -/
def checkReal (fs : Tree) (b : Buffer) : Except TdnfError Buffer :=
  match realpath fs b.text with
  | .ok real => if real = b.text then .ok b.terminate else .ok ⟨real.reverse, []⟩
  -- it's okay if path doesn't exist, bail on other errors
  | .error .noent => .ok b.terminate
  | .error e => .error (.system (errnoCode e))

end Buffer

/-- A slash or the end of the string follows. -/
def AtBoundary (p : Text) : Prop := p = [] ∨ p.head? = some '/'

instance (p : Text) : Decidable (AtBoundary p) := inferInstanceAs (Decidable (_ ∨ _))

/-- The loop of `TDNFNormalizePath` -/
def normalizeLoop (fs : Tree) : Text → Buffer → Except TdnfError Buffer
  | [], b => .ok b
  | c :: p, b =>
    -- double slashes
    if c = '/' ∧ p.head? = some '/' then normalizeLoop fs p b
    -- single dots
    else if c = '/' ∧ p.head? = some '.' ∧ AtBoundary (p.drop 1) then
      normalizeLoop fs (p.drop 1) b
    -- double dots
    else if c = '/' ∧ p.take 2 = ['.', '.'] ∧ AtBoundary (p.drop 2) then
      -- breaking out
      if b.left = [] then .error .invalidParameter
      else normalizeLoop fs (p.drop 2) b.erase
    else if c = '/' then do
      let b ← b.checkReal fs
      -- skip over last slash in path
      if p = [] then .ok b else normalizeLoop fs p (b.put c)
    else normalizeLoop fs p (b.put c)
termination_by p => p.length
decreasing_by all_goals simp only [List.length_drop, List.length_cons]; omega

/-- `TDNFNormalizePath` -/
def normalizePath (fs : Tree) (path : Text) : Except TdnfError Text := do
  if path = [] then throw .invalidParameter
  -- ensure an absolute path
  if path.head? ≠ some '/' then throw .invalidParameter
  let b ← normalizeLoop fs path ⟨[], []⟩
  -- an empty path should evaluate to a slash
  let normal := if b.text = [] then ['/'] else b.text
  -- check real path for leaf node, which wasn't checked above
  match realpath fs normal with
  | .ok real => return real
  | .error .noent => return normal
  | .error e => throw (.system (errnoCode e))

/-! ## Joining -/

theorem moves_joinNodes (nodes : List Text) : moves (joinNodes nodes) = nodes.flatMap moves := by
  induction nodes with
  | nil => rfl
  | cons node nodes ih =>
      cases nodes with
      | nil => simp [joinNodes]
      | cons node' nodes => simp [joinNodes, moves_append_slash, ih]

theorem moves_joinPath (nodes : List Text) : moves (joinPath nodes) = nodes.flatMap moves := by
  simp only [joinPath]
  split
  · rw [moves_slash, moves_joinNodes]
  · exact moves_joinNodes nodes

theorem head_joinPath {node : Text} (hnode : node.head? = some '/') (nodes : List Text) :
    (joinPath (node :: nodes)).head? = some '/' := by
  obtain ⟨rest, rfl⟩ : ∃ rest, node = '/' :: rest := by
    cases node with
    | nil => cases hnode
    | cons c rest => exact ⟨rest, by simpa using hnode⟩
  rfl

theorem moves_join (c : Loc) (path : Text) :
    moves (joinPath [render c, path]) = c.reverse.map .down ++ moves path := by
  simp [moves_joinPath, moves_render]

/-- A path below a directory leads on from there. -/
theorem locOf_join (c : Loc) (path : Text) :
    locOf (joinPath [render c, path]) = lexical c (moves path) := by
  calc locOf (joinPath [render c, path])
      = lexical [] (moves (joinPath [render c, path])) := (lexical_moves [] _).symm
    _ = lexical (lexical [] (c.reverse.map .down)) (moves path) := by
        rw [moves_join, lexical_append]
    _ = lexical c (moves path) := by rw [lexical_down, List.append_nil]

theorem locOf_join_name (d : Loc) (name : Name) :
    locOf (joinPath [render d, name.val]) = name :: d := by
  rw [locOf_join, moves_name]
  rfl

theorem joinPath_ne_nil (c : Loc) (nodes : List Text) : joinPath (render c :: nodes) ≠ [] := by
  intro h
  have hhead := head_joinPath (head_render c) nodes
  rw [h] at hhead
  cases hhead

theorem lstrip_name (name : Name) : lstrip name.val = name.val := by
  rw [lstrip, List.dropWhile_eq_self_iff]
  intro hlength hhead
  have hmem := List.getElem_mem hlength
  rw [beq_iff_eq.mp hhead] at hmem
  exact name.property.2.1 hmem

theorem strip_name (name : Name) : rstrip (lstrip name.val) = name.val := by
  rw [lstrip_name]
  exact rstrip_append_name [] name

/-- The names of a location start with a single slash. -/
theorem slash_lstrip_body (name : Name) (d : Loc) :
    '/' :: lstrip (body (name :: d)) = body (name :: d) := by
  induction d generalizing name with
  | nil =>
      change '/' :: lstrip name.val = '/' :: name.val
      rw [lstrip_name]
  | cons name' d ih =>
      have hne : lstrip (body (name' :: d)) ≠ [] := by
        intro hnil
        have hbody := ih name'
        rw [hnil] at hbody
        have hlast := getLast_render (List.cons_ne_nil name' d)
        rw [render_of_ne_nil (List.cons_ne_nil name' d), ← hbody] at hlast
        exact hlast rfl
      have happend : lstrip (body (name' :: d) ++ '/' :: name.val) =
          lstrip (body (name' :: d)) ++ '/' :: name.val := by
        rw [lstrip, List.dropWhile_append, if_neg (by simpa [lstrip] using hne)]
        rfl
      rw [body, happend, ← List.cons_append, ih name']

/-- A name below a location other than the root. -/
theorem joinPath_name {d : Loc} (hd : d ≠ []) (name : Name) :
    joinPath [render d, name.val] = render (name :: d) := by
  obtain ⟨last, d, rfl⟩ := List.exists_cons_of_ne_nil hd
  have hslash := slash_lstrip_body last d
  have hstrip : rstrip (lstrip (body (last :: d))) = lstrip (body (last :: d)) := by
    have hbody : rstrip ('/' :: lstrip (body (last :: d))) = '/' :: lstrip (body (last :: d)) := by
      rw [hslash, rstrip_body]
    rw [rstrip, List.rdropWhile_eq_self_iff] at hbody ⊢
    intro hne hlast
    exact hbody (List.cons_ne_nil _ _) (by rwa [List.getLast_cons hne])
  calc joinPath [render (last :: d), name.val]
      = '/' :: joinNodes [body (last :: d), name.val] := by
        rw [render_of_ne_nil hd, joinPath, ← hslash]
        rfl
    _ = '/' :: (lstrip (body (last :: d)) ++ '/' :: name.val) := by
        rw [joinNodes, joinNodes, hstrip, strip_name]
        exact List.cons_ne_nil _ _
    _ = render (name :: last :: d) := by
        rw [← List.cons_append, hslash, render_cons]

theorem lastPiece_join (c : Loc) (name : Name) :
    lastPiece (joinPath [render c, name.val]) = name.val := by
  have hjoin : joinPath [render c, name.val] =
      ('/' :: rstrip (lstrip (render c)) ++ ['/']) ++ name.val := by
    obtain ⟨s, hs⟩ : ∃ s, render c = '/' :: s := by
      cases hrender : render c with
      | nil => exact absurd hrender (render_ne_nil c)
      | cons a s =>
          have hhead := head_render c
          rw [hrender, List.head?_cons, Option.some.injEq] at hhead
          exact ⟨s, by rw [hhead]⟩
    simp [joinPath, hs, joinNodes, strip_name]
  rw [hjoin, lastPiece_append _ name.property.2.1]
  simp [lastPiece]

/-- The path of a URI is what follows its first part. -/
theorem pathFromUri_ok {uri path : Text} (h : pathFromUri uri = .ok path) :
    ∃ a s, uri = a ++ '/' :: s ∧ path = '/' :: s := by
  simp only [pathFromUri] at h
  split at h
  · cases h
  · split at h
    · cases h
    · rename_i protocol hprotocol
      split at h
      · cases h
      · split at h
        · cases h
        · split at h
          · cases h
          · rename_i c s hdrop
            cases h
            have hc : c = '/' := by
              have hhead := List.head?_dropWhile_not (· != '/') (uri.drop protocol.length)
              simpa [hdrop] using hhead
            refine ⟨uri.take protocol.length ++
              (uri.drop protocol.length).takeWhile (· != '/'), s, ?_, by rw [hc]⟩
            calc uri = uri.take protocol.length ++ uri.drop protocol.length :=
                  (List.take_append_drop _ _).symm
              _ = uri.take protocol.length ++
                    ((uri.drop protocol.length).takeWhile (· != '/') ++ c :: s) := by
                  rw [← hdrop, List.takeWhile_append_dropWhile]
              _ = _ := by rw [hc, List.append_assoc]

theorem pathFromUri_error {uri : Text} {e : TdnfError} (huri : uri ≠ [])
    (h : pathFromUri uri = .error e) : e = .urlInvalid := by
  simp only [pathFromUri, huri, if_false] at h
  split at h
  · cases h
    rfl
  · split at h
    · cases h
      rfl
    · split at h
      · cases h
        rfl
      · split at h
        · cases h
          rfl
        · cases h

/-! ## What normalising does to a location -/

/-- The location that the buffer holds, and whether `q` still stands on the slash that two dots
have moved it to. -/
structure Progress where
  loc : Loc
  onSlash : Bool

/-- One step of a path. Two dots that follow two dots find `q` on a slash and erase nothing. -/
def Progress.next (s : Progress) : Comp → Option Progress
  | .here => some s
  | .up =>
    if s.loc = [] then none
    else if s.onSlash then some s
    else some ⟨s.loc.tail, true⟩
  | .down name => some ⟨name :: s.loc, false⟩

def progress (s : Progress) (steps : List Comp) : Option Progress :=
  steps.foldlM Progress.next s

/-- The location that normalising makes of a path below `cur`. -/
def normalFrom (cur : Loc) (steps : List Comp) : Option Loc :=
  (progress ⟨cur, false⟩ steps).map Progress.loc

theorem progress_cons (s : Progress) (c : Comp) (steps : List Comp) :
    progress s (c :: steps) = (s.next c).bind fun s' => progress s' steps := rfl

theorem progress_append (s : Progress) (a b : List Comp) :
    progress s (a ++ b) = (progress s a).bind fun s' => progress s' b := by
  simp [progress, List.foldlM_append]

theorem progress_filter (s : Progress) (steps : List Comp) :
    progress s (steps.filter (· ≠ .here)) = progress s steps := by
  induction steps generalizing s with
  | nil => rfl
  | cons c steps ih =>
      by_cases hc : c = .here
      · simpa [hc, progress_cons, Progress.next] using ih s
      · simp only [ne_eq, hc, not_false_eq_true, decide_true, List.filter_cons_of_pos,
          progress_cons]
        cases s.next c with
        | none => rfl
        | some s' => exact ih s'

theorem progress_down (cur d : Loc) :
    progress ⟨cur, false⟩ (d.reverse.map .down) = some ⟨d ++ cur, false⟩ := by
  induction d with
  | nil => rfl
  | cons name d ih =>
      rw [List.reverse_cons, List.map_append, progress_append, ih]
      rfl

theorem normalFrom_join (c : Loc) (path : Text) :
    normalFrom [] (moves (joinPath [render c, path])) = normalFrom c (moves path) := by
  calc normalFrom [] (moves (joinPath [render c, path]))
      = ((progress ⟨[], false⟩ (c.reverse.map .down)).bind fun s =>
          progress s (moves path)).map Progress.loc := by
        rw [moves_join, normalFrom, progress_append]
    _ = (progress ⟨c, false⟩ (moves path)).map Progress.loc := by
        rw [progress_down, List.append_nil, Option.bind_some]
    _ = normalFrom c (moves path) := rfl

/-- A name at the end of a path stays at the end. -/
theorem normalFrom_down {cur n : Loc} {steps : List Comp} {name : Name}
    (h : normalFrom cur (steps ++ [.down name]) = some n) : ∃ d, n = name :: d := by
  rw [normalFrom, progress_append, Option.map_eq_some_iff] at h
  obtain ⟨s, hs, rfl⟩ := h
  rw [Option.bind_eq_some_iff] at hs
  obtain ⟨s₁, -, hs⟩ := hs
  cases hs
  exact ⟨s₁.loc, rfl⟩

/-- What the buffer holds while the loop runs. -/
structure Buffer.Holds (b : Buffer) (s : Progress) : Prop where
  text_eq : b.text = body s.loc
  clean : '/' ∉ b.right.tail
  slash_iff : s.onSlash = true ↔ b.right.head? = some '/'

namespace Buffer

variable {b : Buffer} {s : Progress}

theorem left_eq_nil_iff (hb : b.Holds s) : b.left = [] ↔ s.loc = [] := by
  rw [← List.reverse_eq_nil_iff]
  change b.text = [] ↔ _
  rw [hb.text_eq]
  cases s.loc with
  | nil => simp [body]
  | cons name d => simp [body]

theorem Holds.terminate (hb : b.Holds s) : b.terminate.Holds ⟨s.loc, false⟩ where
  text_eq := hb.text_eq
  clean := hb.clean
  slash_iff := by simp [Buffer.terminate]

/-- Several characters in turn. -/
def puts (b : Buffer) (x : Text) : Buffer := x.foldl put b

@[simp] theorem puts_left (b : Buffer) (x : Text) : (b.puts x).left = x.reverse ++ b.left := by
  induction x generalizing b with
  | nil => rfl
  | cons c x ih => simpa [puts, put] using ih (b.put c)

@[simp] theorem puts_right (b : Buffer) (x : Text) : (b.puts x).right = b.right.drop x.length := by
  induction x generalizing b with
  | nil => rfl
  | cons c x ih => simpa [puts, put] using ih (b.put c)

theorem Holds.puts_name (hb : b.Holds s) (name : Name) :
    (b.puts ('/' :: name.val)).Holds ⟨name :: s.loc, false⟩ := by
  have hright : '/' ∉ (b.puts ('/' :: name.val)).right := by
    intro hmem
    rw [puts_right, List.length_cons, ← List.drop_tail] at hmem
    exact hb.clean (List.mem_of_mem_drop hmem)
  refine ⟨?_, fun hmem => hright (List.mem_of_mem_tail hmem), ?_⟩
  · have htext := hb.text_eq
    simp only [text] at htext ⊢
    simp [htext, body]
  · constructor
    · intro h
      cases h
    · intro h
      exact absurd (List.mem_of_mem_head? h) hright

/-- Moving back over a name stops on the slash before it. -/
theorem eraseFrom_name (x rest right : Text) (hx : '/' ∉ x) (hright : right.head? ≠ some '/') :
    eraseFrom (x ++ '/' :: rest) right = ⟨rest, '/' :: (x.reverse ++ right)⟩ := by
  induction x generalizing right with
  | nil =>
      rw [List.nil_append, eraseFrom, if_neg hright]
      cases rest with
      | nil => rfl
      | cons c rest => rfl
  | cons c x ih =>
      simp only [List.mem_cons, not_or] at hx
      rw [List.cons_append, eraseFrom, if_neg hright,
        ih (c :: right) hx.2 (by simpa using Ne.symm hx.1)]
      simp

theorem Holds.erase (hb : b.Holds s) (hloc : s.loc ≠ []) :
    b.erase.Holds (if s.onSlash then s else ⟨s.loc.tail, true⟩) := by
  obtain ⟨name, d, hd⟩ := List.exists_cons_of_ne_nil hloc
  have hleft : b.left = name.val.reverse ++ '/' :: (body d).reverse := by
    have htext := congrArg List.reverse hb.text_eq
    simpa [text, hd, body] using htext
  by_cases hs : s.onSlash = true
  · have hhead := hb.slash_iff.mp hs
    have herase : b.erase = b := by
      obtain ⟨c, left, hc⟩ := List.exists_cons_of_ne_nil
        (fun h => hloc ((left_eq_nil_iff hb).mp h))
      simp only [Buffer.erase, hc, eraseFrom, if_pos hhead]
      cases b
      simp_all
    rw [if_pos hs, herase]
    exact hb
  · have hhead : b.right.head? ≠ some '/' := fun h => hs (hb.slash_iff.mpr h)
    have hname : '/' ∉ name.val.reverse := by simpa using name.property.2.1
    have hclean : '/' ∉ b.right := by
      intro hmem
      cases hright : b.right with
      | nil => simp [hright] at hmem
      | cons c right =>
          have htail := hb.clean
          simp only [hright, List.tail_cons, List.mem_cons, List.head?_cons, ne_eq,
            Option.some.injEq] at htail hmem hhead
          obtain hc | hmem := hmem
          · exact hhead hc.symm
          · exact htail hmem
    have herase := eraseFrom_name name.val.reverse (body d).reverse b.right hname hhead
    rw [if_neg hs, Buffer.erase, hleft, herase, hd]
    refine ⟨by simp [text], ?_, by simp⟩
    simpa using ⟨name.property.2.1, hclean⟩

theorem Holds.checkReal {fs : Tree} {b' : Buffer} (hb : b.Holds s)
    (h : b.checkReal fs = .ok b') : b'.Holds ⟨s.loc, false⟩ := by
  simp only [Buffer.checkReal] at h
  split at h
  · rename_i real hreal
    split at h
    · cases h
      exact hb.terminate
    · cases h
      obtain ⟨hne, hreal⟩ := realpath_ok hreal
      refine ⟨?_, by simp, by simp⟩
      rw [hb.text_eq] at hreal hne
      have hloc : s.loc ≠ [] := fun hloc => hne (by rw [hloc, body])
      simp only [text, List.reverse_reverse]
      rw [hreal, ← render_of_ne_nil hloc, locOf_render]
  · cases h
    exact hb.terminate
  · cases h

theorem checkReal_of_noFiles {fs : Tree} (hfs : fs.NoFiles) (b : Buffer) :
    ∃ b', b.checkReal fs = .ok b' := by
  simp only [Buffer.checkReal]
  split
  · split
    · exact ⟨_, rfl⟩
    · exact ⟨_, rfl⟩
  · exact ⟨_, rfl⟩
  · rename_i e hne herror
    exact absurd (hfs.realpath_error herror) hne

end Buffer

theorem atBoundary_slashed (ps : List Text) : AtBoundary (slashed ps) := by
  cases ps with
  | nil => exact .inl rfl
  | cons x ps => exact .inr rfl

theorem not_atBoundary_append {x : Text} (hne : x ≠ []) (hx : '/' ∉ x) (p : Text) :
    ¬ AtBoundary (x ++ p) := by
  obtain ⟨c, x, rfl⟩ := List.exists_cons_of_ne_nil hne
  simp only [List.mem_cons, not_or] at hx
  simp [AtBoundary, Ne.symm hx.1]

section Loop

variable {fs : Tree} {b : Buffer} {ps : List Text}

theorem normalizeLoop_empty (hps : ps ≠ []) :
    normalizeLoop fs (slashed ([] :: ps)) b = normalizeLoop fs (slashed ps) b := by
  obtain ⟨x, ps, rfl⟩ := List.exists_cons_of_ne_nil hps
  change normalizeLoop fs ('/' :: slashed (x :: ps)) b = _
  have hhead : (slashed (x :: ps)).head? = some '/' := rfl
  rw [normalizeLoop]
  simp [hhead]

theorem normalizeLoop_last : normalizeLoop fs (slashed [[]]) b = b.checkReal fs := by
  change normalizeLoop fs ['/'] b = _
  rw [normalizeLoop]
  cases hreal : b.checkReal fs with
  | ok b' => simp [bind, Except.bind]
  | error e => simp [bind, Except.bind]

theorem normalizeLoop_dot :
    normalizeLoop fs (slashed (['.'] :: ps)) b = normalizeLoop fs (slashed ps) b := by
  change normalizeLoop fs ('/' :: '.' :: slashed ps) b = _
  rw [normalizeLoop]
  simp [atBoundary_slashed ps]

theorem normalizeLoop_dots :
    normalizeLoop fs (slashed (['.', '.'] :: ps)) b =
      if b.left = [] then .error .invalidParameter
      else normalizeLoop fs (slashed ps) b.erase := by
  change normalizeLoop fs ('/' :: '.' :: '.' :: slashed ps) b = _
  have hdot : ¬ AtBoundary ('.' :: slashed ps) := by simp [AtBoundary]
  rw [normalizeLoop]
  simp [atBoundary_slashed ps, hdot]

theorem normalizeLoop_copy {x : Text} (hx : '/' ∉ x) (p : Text) :
    normalizeLoop fs (x ++ p) b = normalizeLoop fs p (b.puts x) := by
  induction x generalizing b with
  | nil => rfl
  | cons c x ih =>
      simp only [List.mem_cons, not_or] at hx
      rw [List.cons_append, normalizeLoop]
      simp only [Ne.symm hx.1, false_and, if_false]
      exact ih hx.2

theorem normalizeLoop_name (name : Name) :
    normalizeLoop fs (slashed (name.val :: ps)) b = (b.checkReal fs).bind fun b =>
      normalizeLoop fs (slashed ps) (b.puts ('/' :: name.val)) := by
  obtain ⟨x, hne, hslash, hdot, hdots⟩ := name
  change normalizeLoop fs ('/' :: (x ++ slashed ps)) b = _
  obtain ⟨c, x, rfl⟩ := List.exists_cons_of_ne_nil hne
  simp only [List.mem_cons, not_or] at hslash
  have hempty : c :: x ++ slashed ps ≠ [] := by simp
  have hhead : (c :: x ++ slashed ps).head? ≠ some '/' := by simpa using Ne.symm hslash.1
  have hsingle : ¬ ((c :: x ++ slashed ps).head? = some '.' ∧
      AtBoundary ((c :: x ++ slashed ps).drop 1)) := by
    rintro ⟨hc, hend⟩
    have hx : x ≠ [] := by
      rintro rfl
      simp only [List.cons_append, List.head?_cons, Option.some.injEq] at hc
      exact hdot (by rw [hc])
    exact not_atBoundary_append hx hslash.2 (slashed ps) hend
  have hdouble : ¬ ((c :: x ++ slashed ps).take 2 = ['.', '.'] ∧
      AtBoundary ((c :: x ++ slashed ps).drop 2)) := by
    rintro ⟨hc, hend⟩
    cases x with
    | nil =>
        -- a boundary follows the only character, not a second dot
        cases ps with
        | nil => simp [slashed] at hc
        | cons y ps => simp [slashed] at hc
    | cons c' x =>
        simp only [List.mem_cons, not_or] at hslash
        have hx : x ≠ [] := by
          rintro rfl
          simp only [List.cons_append, List.take_succ_cons, List.take_zero, List.cons.injEq,
            and_true] at hc
          exact hdots (by rw [hc.1, hc.2])
        exact not_atBoundary_append hx hslash.2.2 (slashed ps) hend
  rw [normalizeLoop]
  simp only [hhead, hsingle, hdouble, hempty, and_false, if_false, if_true]
  refine congrArg (Except.bind (b.checkReal fs)) (funext fun b => ?_)
  exact normalizeLoop_copy (by simpa using hslash) (slashed ps)

/-- The loop follows the steps of the path. -/
theorem normalizeLoop_progress {s : Progress} {b' : Buffer} (hb : b.Holds s)
    (hps : ∀ x ∈ ps, '/' ∉ x) (h : normalizeLoop fs (slashed ps) b = .ok b') :
    ∃ s', progress s (ps.map classify) = some s' ∧ b'.text = body s'.loc := by
  induction ps generalizing b s with
  | nil =>
      simp only [slashed, List.flatMap_nil] at h
      rw [normalizeLoop] at h
      cases h
      exact ⟨s, rfl, hb.text_eq⟩
  | cons x ps ih =>
      simp only [List.forall_mem_cons] at hps
      rw [List.map_cons, progress_cons]
      obtain rfl | rfl | rfl | hname := piece_cases hps.1
      · by_cases hlast : ps = []
        · subst hlast
          rw [normalizeLoop_last] at h
          exact ⟨s, rfl, (hb.checkReal h).text_eq⟩
        · rw [normalizeLoop_empty hlast] at h
          exact ih hb hps.2 h
      · rw [normalizeLoop_dot] at h
        exact ih hb hps.2 h
      · rw [normalizeLoop_dots] at h
        split at h
        · cases h
        · rename_i hleft
          have hloc : s.loc ≠ [] := fun hloc => hleft ((Buffer.left_eq_nil_iff hb).mpr hloc)
          obtain ⟨s', hs', htext⟩ := ih (hb.erase hloc) hps.2 h
          refine ⟨s', ?_, htext⟩
          rw [classify_dots, Progress.next, if_neg hloc, ← hs']
          split <;> rfl
      · rw [normalizeLoop_name ⟨x, hname⟩] at h
        obtain ⟨b₁, hreal, h⟩ := Procedure.exists_of_bind_ok h
        obtain ⟨s', hs', htext⟩ := ih ((hb.checkReal hreal).puts_name ⟨x, hname⟩) hps.2 h
        exact ⟨s', by rw [classify_isName hname]; exact hs', htext⟩

/-- Where no file is in the way, only two dots at the root stop the loop. -/
theorem normalizeLoop_of_noFiles (hfs : fs.NoFiles) {s s' : Progress} (hb : b.Holds s)
    (hps : ∀ x ∈ ps, '/' ∉ x) (h : progress s (ps.map classify) = some s') :
    ∃ b', normalizeLoop fs (slashed ps) b = .ok b' := by
  induction ps generalizing b s with
  | nil => exact ⟨b, by rw [slashed, List.flatMap_nil, normalizeLoop]⟩
  | cons x ps ih =>
      simp only [List.forall_mem_cons] at hps
      rw [List.map_cons, progress_cons, Option.bind_eq_some_iff] at h
      obtain ⟨s₁, hnext, h⟩ := h
      obtain rfl | rfl | rfl | hname := piece_cases hps.1
      · cases hnext
        by_cases hlast : ps = []
        · subst hlast
          rw [normalizeLoop_last]
          exact Buffer.checkReal_of_noFiles hfs b
        · rw [normalizeLoop_empty hlast]
          exact ih hb hps.2 h
      · cases hnext
        rw [normalizeLoop_dot]
        exact ih hb hps.2 h
      · rw [classify_dots, Progress.next] at hnext
        split at hnext
        · cases hnext
        · rename_i hloc
          rw [normalizeLoop_dots, if_neg (fun hleft => hloc ((Buffer.left_eq_nil_iff hb).mp hleft))]
          refine ih (s := s₁) ?_ hps.2 h
          have hnext : s₁ = if s.onSlash then s else ⟨s.loc.tail, true⟩ := by
            split at hnext <;> cases hnext <;> simp_all
          rw [hnext]
          exact hb.erase hloc
      · rw [classify_isName hname] at hnext
        cases hnext
        obtain ⟨b₁, hreal⟩ := Buffer.checkReal_of_noFiles hfs b
        rw [normalizeLoop_name ⟨x, hname⟩, hreal]
        exact ih ((hb.checkReal hreal).puts_name ⟨x, hname⟩) hps.2 h

end Loop

theorem holds_empty : (⟨[], []⟩ : Buffer).Holds ⟨[], false⟩ :=
  ⟨rfl, by simp, by simp⟩

theorem normalFrom_moves (cur : Loc) (s : Text) :
    normalFrom cur (moves s) =
      (progress ⟨cur, false⟩ ((pieces s).map classify)).map Progress.loc :=
  congrArg (Option.map Progress.loc) (progress_filter ⟨cur, false⟩ (comps s))

theorem ite_body (n : Loc) : (if body n = [] then ['/'] else body n) = render n := by
  cases n with
  | nil => rfl
  | cons name d => simp [body]

/-- The last `realpath` changes nothing. -/
theorem realpath_render {fs : Tree} {n : Loc} {real : Text}
    (h : realpath fs (render n) = .ok real) : real = render n := by
  rw [(realpath_ok h).2, locOf_render]

/-- What `TDNFNormalizePath` returns is the text of the location its steps make, which no file
is above. -/
theorem normalizePath_ok {fs : Tree} {path normal : Text} (h : normalizePath fs path = .ok normal) :
    ∃ n, normalFrom [] (moves path) = some n ∧ normal = render n ∧
      ∀ size, fs.node n.tail ≠ some (.file size) := by
  cases path with
  | nil => cases h
  | cons c s =>
      by_cases hc : c = '/'
      · subst hc
        obtain ⟨b, hloop, h⟩ := Procedure.exists_of_bind_ok h
        rw [← slashed_pieces] at hloop
        obtain ⟨s', hs', htext⟩ :=
          normalizeLoop_progress holds_empty (fun _ => not_mem_pieces) hloop
        simp only [htext, ite_body] at h
        refine ⟨s'.loc, by rw [moves_slash, normalFrom_moves, hs', Option.map_some], ?_, ?_⟩
        · split at h
          · rename_i real hreal
            cases h
            exact realpath_render hreal
          · cases h
            rfl
          · cases h
        · intro size hfile
          rw [realpath_below_file hfile] at h
          cases h
      · simp [normalizePath, hc, bind, Except.bind, throw, throwThe, MonadExceptOf.throw] at h

/-- Where no file is in the way, every path whose dots stay inside the root is normalised. -/
theorem normalizePath_of_noFiles {fs : Tree} (hfs : fs.NoFiles) {path : Text} {n : Loc}
    (hpath : path.head? = some '/') (h : normalFrom [] (moves path) = some n) :
    normalizePath fs path = .ok (render n) := by
  cases path with
  | nil => cases hpath
  | cons c s =>
      obtain rfl : c = '/' := by simpa using hpath
      rw [moves_slash, normalFrom_moves, Option.map_eq_some_iff] at h
      obtain ⟨s', hs', rfl⟩ := h
      have hslash : ∀ x ∈ pieces s, '/' ∉ x := fun _ => not_mem_pieces
      obtain ⟨b, hloop⟩ := normalizeLoop_of_noFiles hfs holds_empty hslash hs'
      obtain ⟨s'', hs'', htext⟩ := normalizeLoop_progress holds_empty hslash hloop
      obtain rfl : s' = s'' := Option.some.inj (hs'.symm.trans hs'')
      rw [slashed_pieces] at hloop
      simp only [normalizePath, reduceCtorEq, if_false, List.head?_cons, ne_eq, not_true_eq_false,
        hloop, bind, Except.bind, pure, Except.pure, htext, ite_body]
      split
      · rename_i real hreal
        rw [realpath_render hreal]
      · rfl
      · rename_i e hne herror
        exact absurd (hfs.realpath_error herror) hne

end Tdnf.Common
