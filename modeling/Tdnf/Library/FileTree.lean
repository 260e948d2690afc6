import Tdnf.Library.PathText
import Tdnf.Library.Procedure

/-!
# A file tree without links

Directories and files, each in a directory of the tree. A path is followed step
by step from the root, and every step has to start in a directory. Without
symbolic links the place it leads to depends on the text alone.
-/

namespace FileTree

open PathText

inductive Node where
  | dir
  | file (size : ℕ)
deriving DecidableEq

inductive Errno where
  | noent
  | busy
  | exist
  | notdir
  | isdir
deriving DecidableEq

/-- The nodes of a file system; whatever it holds is held by a directory. -/
structure Tree where
  node : Loc → Option Node
  root : node [] = some .dir
  holder : ∀ name d, node (name :: d) ≠ none → node d = some .dir

namespace Tree

variable {t : Tree}

theorem dir_tail {d : Loc} (hd : t.node d = some .dir) : t.node d.tail = some .dir := by
  cases d with
  | nil => exact t.root
  | cons name d => exact t.holder name d (by simp [hd])

theorem dir_of_suffix {d l : Loc} (h : d <:+ l) (hl : t.node l = some .dir) :
    t.node d = some .dir := by
  obtain ⟨names, rfl⟩ := h
  induction names with
  | nil => exact hl
  | cons name names ih => exact ih (dir_tail hl)

/-- A place in a directory of the tree, where something may be or come to be. -/
structure Entry (t : Tree) where
  loc : Loc
  inDir : t.node loc.tail = some .dir

def rootEntry (t : Tree) : Entry t := ⟨[], t.root⟩

/-- One step of a path that starts in a directory. -/
def Entry.step (e : Entry t) (h : t.node e.loc = some .dir) : Comp → Entry t
  | .here => e
  | .up => ⟨e.loc.tail, dir_tail (dir_tail h)⟩
  | .down name => ⟨name :: e.loc, h⟩

@[simp] theorem Entry.step_loc (e : Entry t) (h : t.node e.loc = some .dir) (c : Comp) :
    (e.step h c).loc = c.next e.loc := by
  cases c <;> rfl

/-- Follow the steps of a path. -/
def walk (e : Entry t) : List Comp → Except Errno (Entry t)
  | [] => .ok e
  | c :: steps =>
    if h : t.node e.loc = some .dir then walk (e.step h c) steps
    else if t.node e.loc = none then .error .noent
    else .error .notdir

/-- The locations that steps start from. -/
def stations (cur : Loc) : List Comp → List Loc
  | [] => []
  | c :: steps => cur :: stations (c.next cur) steps

theorem walk_ok {e e' : Entry t} {steps : List Comp} (h : walk e steps = .ok e') :
    e'.loc = lexical e.loc steps ∧ ∀ d ∈ stations e.loc steps, t.node d = some .dir := by
  induction steps generalizing e with
  | nil =>
      cases h
      exact ⟨rfl, by simp [stations]⟩
  | cons c steps ih =>
      simp only [walk] at h
      split at h
      · rename_i hdir
        obtain ⟨hloc, hdirs⟩ := ih h
        rw [Entry.step_loc] at hloc hdirs
        refine ⟨hloc, ?_⟩
        simpa [stations, hdir] using hdirs
      · split at h <;> cases h

theorem walk_of_dirs (e : Entry t) {steps : List Comp}
    (h : ∀ d ∈ stations e.loc steps, t.node d = some .dir) :
    ∃ e', walk e steps = .ok e' ∧ e'.loc = lexical e.loc steps := by
  induction steps generalizing e with
  | nil => exact ⟨e, rfl, rfl⟩
  | cons c steps ih =>
      simp only [stations, List.forall_mem_cons] at h
      obtain ⟨e', hwalk, hloc⟩ := ih (e.step h.1 c) (by simpa using h.2)
      refine ⟨e', by simpa [walk, h.1] using hwalk, ?_⟩
      rw [hloc, Entry.step_loc]
      rfl

theorem walk_append (e : Entry t) (a b : List Comp) :
    walk e (a ++ b) = (walk e a).bind fun e' => walk e' b := by
  induction a generalizing e with
  | nil => rfl
  | cons c a ih =>
      simp only [List.cons_append, walk]
      split
      · exact ih _
      · split <;> rfl

/-- Follow a path from the root; only absolute paths lead anywhere. -/
def resolve (t : Tree) (p : Text) : Except Errno (Entry t) :=
  if p.head? = some '/' then walk (rootEntry t) (comps p) else .error .noent

/-- Where a path leads depends on its text alone. -/
theorem resolve_loc {p : Text} {e : Entry t} (h : resolve t p = .ok e) :
    e.loc = locOf p := by
  simp only [resolve] at h
  split at h
  · exact (walk_ok h).1
  · cases h

/-- The directories that have to be there for a path to lead anywhere. -/
def dirsOf (p : Text) : List Loc := stations [] (comps p)

theorem resolve_dirs {p : Text} {e : Entry t} (h : resolve t p = .ok e) :
    ∀ d ∈ dirsOf p, t.node d = some .dir := by
  simp only [resolve] at h
  split at h
  · exact (walk_ok h).2
  · cases h

theorem walk_error {e : Entry t} {steps : List Comp} {err : Errno}
    (h : walk e steps = .error err) : err ≠ .exist := by
  induction steps generalizing e with
  | nil => cases h
  | cons c steps ih =>
      simp only [walk] at h
      split at h
      · exact ih h
      · split at h <;> cases h <;> simp

theorem resolve_error {p : Text} {err : Errno} (h : resolve t p = .error err) : err ≠ .exist := by
  simp only [resolve] at h
  split at h
  · exact walk_error h
  · cases h
    simp

theorem resolve_of_dirs {p : Text} (hp : p.head? = some '/')
    (h : ∀ d ∈ dirsOf p, t.node d = some .dir) :
    ∃ e, resolve t p = .ok e ∧ e.loc = locOf p := by
  simp only [resolve, hp, if_true]
  exact walk_of_dirs (rootEntry t) h

/-- The node at an entry becomes `x`, unless it is a directory. -/
def put (t : Tree) (e : Entry t) (x : Node) (h : t.node e.loc ≠ some .dir) : Tree where
  node l := if l = e.loc then some x else t.node l
  root := by
    have hne : [] ≠ e.loc := fun hl => h (hl ▸ t.root)
    rw [if_neg hne, t.root]
  holder name d hnode := by
    by_cases hloc : name :: d = e.loc
    · have hdir : t.node d = some .dir := by simpa [← hloc] using e.inDir
      have hne : d ≠ e.loc := fun hl => h (hl ▸ hdir)
      rw [if_neg hne, hdir]
    · rw [if_neg hloc] at hnode
      have hdir := t.holder name d hnode
      have hne : d ≠ e.loc := fun hl => h (hl ▸ hdir)
      rw [if_neg hne, hdir]

/-- A file is removed. -/
def remove (t : Tree) (l : Loc) (h : t.node l ≠ some .dir) : Tree where
  node l' := if l' = l then none else t.node l'
  root := by
    have hne : [] ≠ l := fun hl => h (hl ▸ t.root)
    rw [if_neg hne, t.root]
  holder name d hnode := by
    have hloc : name :: d ≠ l := by
      intro hl
      simp [hl] at hnode
    rw [if_neg hloc] at hnode
    have hdir := t.holder name d hnode
    have hne : d ≠ l := fun hl => h (hl ▸ hdir)
    rw [if_neg hne, hdir]

@[simp] theorem put_node (e : Entry t) (x : Node) (h : t.node e.loc ≠ some .dir) (l : Loc) :
    (t.put e x h).node l = if l = e.loc then some x else t.node l := rfl

@[simp] theorem remove_node {l : Loc} (h : t.node l ≠ some .dir) (l' : Loc) :
    (t.remove l h).node l' = if l' = l then none else t.node l' := rfl

/-- `stat` -/
def stat (t : Tree) (p : Text) : Except Errno Node := do
  let e ← resolve t p
  match t.node e.loc with
  | none => .error .noent
  | some x => .ok x

/-- `access` for existence -/
def access (t : Tree) (p : Text) : Except Errno Unit := do
  let _ ← stat t p
  return ()

/-- `realpath` -/
def realpath (t : Tree) (p : Text) : Except Errno Text := do
  let e ← resolve t p
  match t.node e.loc with
  | none => .error .noent
  | some _ => .ok (render e.loc)

theorem realpath_ok {p r : Text} (h : realpath t p = .ok r) :
    p ≠ [] ∧ r = render (locOf p) := by
  obtain ⟨e, hresolve, h⟩ := Procedure.exists_of_bind_ok h
  have hp : p ≠ [] := by
    intro hp
    simp [hp, resolve] at hresolve
  cases hnode : t.node e.loc with
  | none => simp [hnode] at h
  | some x =>
      simp only [hnode, Except.ok.injEq] at h
      exact ⟨hp, by rw [← h, resolve_loc hresolve]⟩

/-- No file stands where a path wants a directory. -/
def NoFiles (t : Tree) : Prop := ∀ l size, t.node l ≠ some (.file size)

theorem NoFiles.walk_error (ht : t.NoFiles) {e : Entry t} {steps : List Comp} {err : Errno}
    (h : walk e steps = .error err) : err = .noent := by
  induction steps generalizing e with
  | nil => cases h
  | cons c steps ih =>
      simp only [walk] at h
      split at h
      · exact ih h
      · split at h
        · cases h
          rfl
        · rename_i hdir hnone
          obtain ⟨x, hx⟩ := Option.ne_none_iff_exists'.mp hnone
          cases x with
          | dir => exact absurd hx hdir
          | file size => exact absurd hx (ht e.loc size)

theorem NoFiles.resolve_error (ht : t.NoFiles) {p : Text} {err : Errno}
    (h : resolve t p = .error err) : err = .noent := by
  simp only [resolve] at h
  split at h
  · exact ht.walk_error h
  · cases h
    rfl

theorem NoFiles.realpath_error (ht : t.NoFiles) {p : Text} {err : Errno}
    (h : realpath t p = .error err) : err = .noent := by
  cases hresolve : resolve t p with
  | error err' =>
      simp only [realpath, hresolve, bind, Except.bind, Except.error.injEq] at h
      exact h ▸ ht.resolve_error hresolve
  | ok e =>
      cases hnode : t.node e.loc with
      | none =>
          simp only [realpath, hresolve, bind, Except.bind, hnode, Except.error.injEq] at h
          exact h.symm
      | some x => simp [realpath, hresolve, bind, Except.bind, hnode] at h

/-- `mkdir`, with the location of the new directory -/
def mkdir (t : Tree) (p : Text) : Except Errno (Loc × Tree) := do
  let e ← resolve t p
  if h : t.node e.loc = none then .ok (e.loc, t.put e .dir (by simp [h]))
  else .error .exist

/-- Open a file for writing and write `size` bytes, with the location of the file. -/
def write (t : Tree) (p : Text) (size : ℕ) : Except Errno (Loc × Tree) := do
  let e ← resolve t p
  if h : t.node e.loc = some .dir then .error .isdir
  else .ok (e.loc, t.put e (.file size) h)

/-- `unlink` -/
def unlink (t : Tree) (p : Text) : Except Errno Tree := do
  let e ← resolve t p
  if t.node e.loc = none then .error .noent
  else if h : t.node e.loc = some .dir then .error .isdir
  else .ok (t.remove e.loc h)

/-- `rename` of a file, with its new location -/
def rename (t : Tree) (old new : Text) : Except Errno (Loc × Tree) := do
  let src ← resolve t old
  let dst ← resolve t new
  if ¬ IsName (basename new) then .error .busy
  else match hsrc : t.node src.loc with
    | none => .error .noent
    | some .dir => .error .isdir
    | some (.file size) =>
      if hdst : t.node dst.loc = some .dir then .error .isdir
      else
        have hfile : t.node src.loc ≠ some .dir := by simp [hsrc]
        have hholder : (t.remove src.loc hfile).node dst.loc.tail = some .dir := by
          have hne : dst.loc.tail ≠ src.loc := fun hl => hfile (hl ▸ dst.inDir)
          rw [remove_node, if_neg hne, dst.inDir]
        have hnode : (t.remove src.loc hfile).node dst.loc ≠ some .dir := by
          rw [remove_node]
          split
          · simp
          · exact hdst
        .ok (dst.loc, (t.remove src.loc hfile).put ⟨dst.loc, hholder⟩ (.file size) hnode)

/-! ## What the operations do -/

/-- A file may be written at a path: its directories are there and it is no directory. -/
structure Writable (t : Tree) (p : Text) : Prop where
  absolute : p.head? = some '/'
  dirs : ∀ d ∈ dirsOf p, t.node d = some .dir
  notDir : t.node (locOf p) ≠ some .dir

theorem write_ok {p : Text} {size : ℕ} {l : Loc} {t' : Tree} (h : t.write p size = .ok (l, t')) :
    l = locOf p ∧ t.Writable p ∧
      ∀ l', t'.node l' = if l' = locOf p then some (.file size) else t.node l' := by
  obtain ⟨e, hresolve, h⟩ := Procedure.exists_of_bind_ok h
  have hloc := resolve_loc hresolve
  have habs : p.head? = some '/' := by
    by_contra hp
    simp [resolve, hp] at hresolve
  split at h
  · cases h
  · rename_i hnode
    cases h
    rw [hloc] at hnode
    refine ⟨hloc, ⟨habs, resolve_dirs hresolve, hnode⟩, fun l' => ?_⟩
    rw [put_node, hloc]

theorem write_of_writable {p : Text} (h : t.Writable p) (size : ℕ) :
    ∃ t', t.write p size = .ok (locOf p, t') := by
  obtain ⟨e, hresolve, hloc⟩ := resolve_of_dirs h.absolute h.dirs
  have hnode : t.node e.loc ≠ some .dir := hloc ▸ h.notDir
  refine ⟨t.put e (.file size) hnode, ?_⟩
  simp only [write, hresolve, bind, Except.bind]
  rw [dif_neg hnode, hloc]

theorem write_error {p : Text} {size : ℕ} {err : Errno} (h : t.write p size = .error err) :
    err ≠ .exist := by
  cases hresolve : resolve t p with
  | error e =>
      simp only [write, hresolve, bind, Except.bind, Except.error.injEq] at h
      exact h ▸ resolve_error hresolve
  | ok e =>
      simp only [write, hresolve, bind, Except.bind] at h
      split at h
      · cases h
        simp
      · cases h

theorem mkdir_ok {p : Text} {l : Loc} {t' : Tree} (h : t.mkdir p = .ok (l, t')) :
    l = locOf p ∧ ∀ l', t'.node l' = if l' = locOf p then some .dir else t.node l' := by
  obtain ⟨e, hresolve, h⟩ := Procedure.exists_of_bind_ok h
  have hloc := resolve_loc hresolve
  split at h
  · cases h
    refine ⟨hloc, fun l' => ?_⟩
    rw [put_node, hloc]
  · cases h

theorem mkdir_exist {p : Text} (h : t.mkdir p = .error .exist) : t.node (locOf p) ≠ none := by
  cases hresolve : resolve t p with
  | error e =>
      simp only [mkdir, hresolve, bind, Except.bind, Except.error.injEq] at h
      exact absurd h (resolve_error hresolve)
  | ok e =>
      rw [← resolve_loc hresolve]
      intro hnode
      simp [mkdir, hresolve, bind, Except.bind, hnode] at h

theorem rename_ok {old new : Text} {l : Loc} {t' : Tree} (h : t.rename old new = .ok (l, t')) :
    l = locOf new ∧ IsName (basename new) ∧ t.node (locOf new) ≠ some .dir ∧
      ∀ l', t.node l' = some .dir → t'.node l' = some .dir := by
  obtain ⟨src, hsrc, h⟩ := Procedure.exists_of_bind_ok h
  obtain ⟨dst, hdst, h⟩ := Procedure.exists_of_bind_ok h
  have hloc := resolve_loc hdst
  split at h
  · cases h
  · rename_i hname
    split at h
    · cases h
    · cases h
    · rename_i size hfile
      split at h
      · cases h
      · rename_i hnode
        cases h
        refine ⟨hloc, not_not.mp hname, hloc ▸ hnode, fun l' hdir => ?_⟩
        have hsrc' : l' ≠ src.loc := by
          rintro rfl
          rw [hdir] at hfile
          cases hfile
        have hdst' : l' ≠ dst.loc := fun hl => hnode (hl ▸ hdir)
        rw [put_node, if_neg hdst', remove_node, if_neg hsrc', hdir]

/-- Apart from its two places a rename changes nothing. -/
theorem rename_node {old new : Text} {l l' : Loc} {t' : Tree}
    (h : t.rename old new = .ok (l, t')) (hold : l' ≠ locOf old) (hnew : l' ≠ locOf new) :
    t'.node l' = t.node l' := by
  obtain ⟨src, hsrc, h⟩ := Procedure.exists_of_bind_ok h
  obtain ⟨dst, hdst, h⟩ := Procedure.exists_of_bind_ok h
  rw [← resolve_loc hsrc] at hold
  rw [← resolve_loc hdst] at hnew
  split at h
  · cases h
  · split at h
    · cases h
    · cases h
    · split at h
      · cases h
      · cases h
        rw [put_node, if_neg hnew, remove_node, if_neg hold]

theorem rename_of_writable {old new : Text} {size : ℕ} (hold : old.head? = some '/')
    (hdirs : ∀ d ∈ dirsOf old, t.node d = some .dir)
    (hfile : t.node (locOf old) = some (.file size)) (hname : IsName (basename new))
    (hnew : t.Writable new) : ∃ t', t.rename old new = .ok (locOf new, t') := by
  obtain ⟨src, hsrc, hsrcLoc⟩ := resolve_of_dirs hold hdirs
  obtain ⟨dst, hdst, hdstLoc⟩ := resolve_of_dirs hnew.absolute hnew.dirs
  rw [← hsrcLoc] at hfile
  have hnode : t.node dst.loc ≠ some .dir := hdstLoc ▸ hnew.notDir
  simp only [rename, hsrc, hdst, bind, Except.bind, hname, not_true_eq_false, if_false]
  split
  · rename_i hnone
    rw [hfile] at hnone
    cases hnone
  · rename_i hdir
    rw [hfile] at hdir
    cases hdir
  · rw [dif_neg hnode]
    exact ⟨_, congrArg Except.ok (Prod.ext hdstLoc rfl)⟩

/-- What cannot be written cannot be removed as a file either. -/
theorem unlink_of_not_writable {p : Text} (h : ¬ t.Writable p) : ∃ e, t.unlink p = .error e := by
  cases hresolve : resolve t p with
  | error e => exact ⟨e, by simp [unlink, hresolve, bind, Except.bind]⟩
  | ok e =>
      have habs : p.head? = some '/' := by
        by_contra hp
        simp [resolve, hp] at hresolve
      have hdir : t.node e.loc = some .dir := by
        by_contra hnode
        exact h ⟨habs, resolve_dirs hresolve, resolve_loc hresolve ▸ hnode⟩
      exact ⟨.isdir, by simp [unlink, hresolve, bind, Except.bind, hdir]⟩

/-- Apart from its place a removal changes nothing. -/
theorem unlink_node {p : Text} {l : Loc} {t' : Tree} (h : t.unlink p = .ok t')
    (hl : l ≠ locOf p) : t'.node l = t.node l := by
  obtain ⟨e, hresolve, h⟩ := Procedure.exists_of_bind_ok h
  rw [← resolve_loc hresolve] at hl
  split at h
  · cases h
  · split at h
    · cases h
    · cases h
      rw [remove_node, if_neg hl]

theorem unlink_dirs {p : Text} {t' : Tree} (h : t.unlink p = .ok t') {l : Loc}
    (hl : t.node l = some .dir) : t'.node l = some .dir := by
  obtain ⟨e, hresolve, h⟩ := Procedure.exists_of_bind_ok h
  split at h
  · cases h
  · split at h
    · cases h
    · rename_i hnode
      cases h
      have hne : l ≠ e.loc := fun hl' => hnode (hl' ▸ hl)
      rw [remove_node, if_neg hne, hl]

/-- A path leads to its location: its directories are there. -/
structure Reaches (t : Tree) (p : Text) : Prop where
  absolute : p.head? = some '/'
  dirs : ∀ d ∈ dirsOf p, t.node d = some .dir

theorem reaches_of_stat {p : Text} {x : Node} (h : t.stat p = .ok x) : t.Reaches p := by
  obtain ⟨e, hresolve, -⟩ := Procedure.exists_of_bind_ok h
  refine ⟨?_, resolve_dirs hresolve⟩
  by_contra hp
  simp [resolve, hp] at hresolve

namespace Reaches

variable {p : Text}

theorem of_dirs {t' : Tree} (h : t.Reaches p)
    (hdirs : ∀ d, t.node d = some .dir → t'.node d = some .dir) : t'.Reaches p :=
  ⟨h.absolute, fun d hd => hdirs d (h.dirs d hd)⟩

theorem stat_eq (h : t.Reaches p) :
    t.stat p = (t.node (locOf p)).elim (.error .noent) .ok := by
  obtain ⟨e, hresolve, hloc⟩ := resolve_of_dirs h.absolute h.dirs
  rw [← hloc]
  cases hnode : t.node e.loc with
  | none => simp [stat, hresolve, bind, Except.bind, hnode]
  | some x => simp [stat, hresolve, bind, Except.bind, hnode]

/-- A file at the end of a path can be removed. -/
theorem unlink_file (h : t.Reaches p) {size : ℕ} (hfile : t.node (locOf p) = some (.file size)) :
    ∃ t', t.unlink p = .ok t' ∧ ∀ l, t'.node l = if l = locOf p then none else t.node l := by
  obtain ⟨e, hresolve, hloc⟩ := resolve_of_dirs h.absolute h.dirs
  rw [← hloc] at hfile
  have hnone : t.node e.loc ≠ none := by simp [hfile]
  have hdir : t.node e.loc ≠ some .dir := by simp [hfile]
  refine ⟨t.remove e.loc hdir, ?_, fun l => ?_⟩
  · simp only [unlink, hresolve, bind, Except.bind]
    rw [if_neg hnone, dif_neg hdir]
  · rw [remove_node, hloc]

theorem unlink_other (h : t.Reaches p) (hfile : ∀ size, t.node (locOf p) ≠ some (.file size)) :
    ∃ e, t.unlink p = .error e := by
  obtain ⟨e, hresolve, hloc⟩ := resolve_of_dirs h.absolute h.dirs
  rw [← hloc] at hfile
  cases hnode : t.node e.loc with
  | none => exact ⟨.noent, by simp [unlink, hresolve, bind, Except.bind, hnode]⟩
  | some x =>
      cases x with
      | dir => exact ⟨.isdir, by simp [unlink, hresolve, bind, Except.bind, hnode]⟩
      | file size => exact absurd hnode (hfile size)

end Reaches

/-- The directories that lead to some locations, and nothing else. -/
def skeleton (dirs : List Loc) : Tree where
  node l := if l = [] ∨ ∃ d ∈ dirs, l <:+ d then some .dir else none
  root := by simp
  holder name d h := by
    obtain h | ⟨d', hd', hsuffix⟩ : name :: d = [] ∨ ∃ d' ∈ dirs, name :: d <:+ d' := by
      by_contra hno
      exact h (if_neg hno)
    · cases h
    · rw [if_pos (Or.inr ⟨d', hd', (List.suffix_cons name d).trans hsuffix⟩)]

theorem skeleton_dir {dirs : List Loc} {l : Loc} :
    (skeleton dirs).node l = some .dir ↔ l = [] ∨ ∃ d ∈ dirs, l <:+ d := by
  simp only [skeleton]
  split <;> simp_all

theorem skeleton_none {dirs : List Loc} {l : Loc} (h : (skeleton dirs).node l ≠ some .dir) :
    (skeleton dirs).node l = none := by
  rw [ne_eq, skeleton_dir] at h
  exact if_neg h

theorem skeleton_noFiles (dirs : List Loc) : (skeleton dirs).NoFiles := by
  intro l size h
  rw [skeleton_none (by simp [h])] at h
  cases h

theorem skeleton_of_mem {dirs : List Loc} {d : Loc} (hd : d ∈ dirs) :
    (skeleton dirs).node d = some .dir :=
  skeleton_dir.mpr (.inr ⟨d, hd, List.suffix_refl d⟩)

/-- A tree has the directories of the skeleton of some of its directories. -/
theorem dir_of_skeleton {dirs : List Loc} (h : ∀ d ∈ dirs, t.node d = some .dir) {l : Loc}
    (hl : (skeleton dirs).node l = some .dir) : t.node l = some .dir := by
  obtain rfl | ⟨d, hd, hsuffix⟩ := skeleton_dir.mp hl
  · exact t.root
  · exact dir_of_suffix hsuffix (h d hd)

theorem stations_append (cur : Loc) (a b : List Comp) :
    stations cur (a ++ b) = stations cur a ++ stations (lexical cur a) b := by
  induction a generalizing cur with
  | nil => rfl
  | cons c a ih => simp [stations, ih, lexical]

/-- The last piece of a path decides nothing about the directories before it. -/
theorem dirsOf_append (p : Text) {x : Text} (hx : '/' ∉ x) : dirsOf (p ++ x) = dirsOf p := by
  calc dirsOf (p ++ x) = stations [] (parents (p ++ x) ++ [classify (lastPiece (p ++ x))]) := by
        rw [dirsOf, comps_eq_parents]
    _ = stations [] (parents p) ++ [lexical [] (parents p)] := by
        rw [parents_append p hx, stations_append]
        rfl
    _ = stations [] (parents p ++ [classify (lastPiece p)]) := by
        rw [stations_append]
        rfl
    _ = dirsOf p := by rw [dirsOf, ← comps_eq_parents]

namespace Reaches

variable {p : Text}

theorem append (h : t.Reaches p) {x : Text} (hx : '/' ∉ x) : t.Reaches (p ++ x) where
  absolute := by
    have hne : p ≠ [] := by
      rintro rfl
      cases h.absolute
    rw [List.head?_append_of_ne_nil _ hne, h.absolute]
  dirs := by
    rw [dirsOf_append p hx]
    exact h.dirs

/-- Whatever is below a place is reached along the path to it. -/
theorem below (h : t.Reaches p) {d : Loc} (hd : t.node (d ++ locOf p) ≠ none) :
    t.Reaches (p ++ body d) := by
  induction d with
  | nil => simpa [body] using h
  | cons name d ih =>
      have hdir : t.node (d ++ locOf p) = some .dir := t.holder name _ hd
      have hbelow := ih (by simp [hdir])
      refine ⟨?_, fun l hl => ?_⟩
      · have hne : p ++ body d ≠ [] := by
          intro hnil
          have habs := hbelow.absolute
          simp [hnil] at habs
        rw [body, ← List.append_assoc, List.head?_append_of_ne_nil _ hne, hbelow.absolute]
      · rw [body, ← List.append_assoc, dirsOf, comps_append_slash, stations_append,
          List.mem_append, comps_name] at hl
        obtain hl | hl := hl
        · exact hbelow.dirs l hl
        · rw [stations, stations, List.mem_singleton] at hl
          rw [hl]
          change t.node (locOf (p ++ body d)) = _
          rw [locOf_append_body, hdir]

end Reaches

/-- Apart from the place it leads to, a path needs the directories that its moves start from. -/
theorem dirsOf_moves {p : Text} {l : Loc} (hl : l ∈ dirsOf p) :
    l ∈ stations [] (moves p) ∨ l = locOf p := by
  suffices h : ∀ cur steps, l ∈ stations cur steps →
      l ∈ stations cur (steps.filter (· ≠ .here)) ∨ l = lexical cur steps from h [] (comps p) hl
  intro cur steps hl
  induction steps generalizing cur with
  | nil => cases hl
  | cons c steps ih =>
      rw [stations, List.mem_cons] at hl
      by_cases hc : c = .here
      · subst hc
        have hskip : (Comp.here :: steps).filter (· ≠ .here) = steps.filter (· ≠ .here) := by
          simp
        rw [hskip]
        obtain rfl | hl := hl
        · cases hmoves : steps.filter (· ≠ .here) with
          | nil =>
              right
              change l = lexical l steps
              rw [← lexical_filter, hmoves]
              rfl
          | cons c' moves =>
              left
              simp [stations]
        · exact ih cur hl
      · have hkeep : (c :: steps).filter (· ≠ .here) = c :: steps.filter (· ≠ .here) := by
          simp [hc]
        rw [hkeep, stations, List.mem_cons]
        obtain rfl | hl := hl
        · exact .inl (.inl rfl)
        · exact (ih (c.next cur) hl).imp_left .inr

/-- The steps to a location start from the directories above it. -/
theorem stations_down {d l : Loc} (hl : l ∈ stations [] (d.reverse.map .down)) :
    l <:+ d.tail := by
  induction d with
  | nil => simp [stations] at hl
  | cons name d ih =>
      rw [List.reverse_cons, List.map_append, stations_append, lexical_down, List.append_nil,
        List.mem_append] at hl
      obtain hl | hl := hl
      · exact (ih hl).trans (List.tail_suffix d)
      · simp only [List.map_cons, List.map_nil, stations, List.mem_singleton] at hl
        subst hl
        exact List.suffix_refl l

theorem dirsOf_render (d : Loc) {l : Loc} (hl : l ∈ dirsOf (render d)) : l <:+ d.tail := by
  cases d with
  | nil =>
      have hroot : ∀ l ∈ dirsOf (render []), l = [] := by decide
      obtain rfl := hroot l hl
      exact List.nil_suffix
  | cons name d =>
      rw [render_of_ne_nil (List.cons_ne_nil name d), dirsOf, comps_body, stations,
        List.mem_cons] at hl
      obtain rfl | hl := hl
      · exact List.nil_suffix
      · exact stations_down hl

theorem reaches_render {d : Loc} (hd : t.node d.tail = some .dir) : t.Reaches (render d) :=
  ⟨head_render d, fun _ hl => dir_of_suffix (dirsOf_render d hl) hd⟩

/-- Whatever is in the tree is found under the text of its location. -/
theorem resolve_render {d : Loc} (hd : t.node d.tail = some .dir) :
    ∃ e, resolve t (render d) = .ok e ∧ e.loc = d := by
  simpa using resolve_of_dirs (head_render d)
    fun l hl => dir_of_suffix (dirsOf_render d hl) hd

theorem access_render {d : Loc} {x : Node} (hx : t.node d = some x) :
    access t (render d) = .ok () := by
  have hd : t.node d.tail = some .dir := by
    cases d with
    | nil => exact t.root
    | cons name d => exact t.holder name d (by simp [hx])
  obtain ⟨e, hresolve, rfl⟩ := resolve_render hd
  simp [access, stat, hresolve, bind, Except.bind, hx, pure, Except.pure]

theorem stat_of_none {p : Text} (h : t.node (locOf p) = none) : ∃ e, t.stat p = .error e := by
  cases hresolve : resolve t p with
  | error e => exact ⟨e, by simp [stat, hresolve, bind, Except.bind]⟩
  | ok e =>
      rw [← resolve_loc hresolve] at h
      exact ⟨.noent, by simp [stat, hresolve, bind, Except.bind, h]⟩

theorem stat_of_node {p : Text} {x : Node} (hp : p.head? = some '/')
    (hdirs : ∀ d ∈ dirsOf p, t.node d = some .dir) (hx : t.node (locOf p) = some x) :
    t.stat p = .ok x := by
  obtain ⟨e, hresolve, hloc⟩ := resolve_of_dirs hp hdirs
  rw [← hloc] at hx
  simp [stat, hresolve, bind, Except.bind, hx]

theorem mkdir_of_none {d : Loc} (hd : t.node d.tail = some .dir) (hnone : t.node d = none) :
    ∃ t', t.mkdir (render d) = .ok (d, t') := by
  obtain ⟨e, hresolve, rfl⟩ := resolve_render hd
  simp only [mkdir, hresolve, bind, Except.bind]
  rw [dif_pos hnone]
  exact ⟨_, rfl⟩

/-- A path through a file leads nowhere. -/
theorem resolve_below_file {d : Loc} {size : ℕ} (hd : t.node d = some (.file size)) (name : Name) :
    resolve t (render (name :: d)) = .error .notdir := by
  have hholder : t.node d.tail = some .dir := by
    cases d with
    | nil => exact t.root
    | cons name' d => exact t.holder name' d (by simp [hd])
  have hcomps : comps (render (name :: d)) = comps (body d) ++ [.down name] := by
    rw [render_cons, comps_append_slash, comps_name]
  have hdirs : ∀ l ∈ stations (rootEntry t).loc (comps (body d)), t.node l = some .dir := by
    intro l hl
    rw [comps_body, stations, List.mem_cons] at hl
    obtain rfl | hl := hl
    · exact t.root
    · exact dir_of_suffix (stations_down hl) hholder
  obtain ⟨e, hwalk, hloc⟩ := walk_of_dirs (rootEntry t) hdirs
  have hd' : t.node e.loc = some (.file size) := by
    rw [hloc, ← lexical_moves, moves_body, lexical_down]
    simpa [rootEntry] using hd
  rw [resolve, if_pos (head_render (name :: d)), hcomps, walk_append, hwalk]
  simp [Except.bind, walk, hd']

theorem realpath_below_file {d : Loc} {size : ℕ} (hd : t.node d.tail = some (.file size)) :
    realpath t (render d) = .error .notdir := by
  cases d with
  | nil =>
      rw [List.tail_nil, t.root] at hd
      cases hd
  | cons name d =>
      rw [List.tail_cons] at hd
      rw [realpath, resolve_below_file hd name]
      rfl

theorem access_ok {p : Text} (h : access t p = .ok ()) : t.node (locOf p) ≠ none := by
  obtain ⟨x, hstat, -⟩ := Procedure.exists_of_bind_ok h
  obtain ⟨e, hresolve, hnode⟩ := Procedure.exists_of_bind_ok hstat
  rw [← resolve_loc hresolve]
  intro hnone
  simp [hnone] at hnode

theorem NoFiles.access_error (ht : t.NoFiles) {p : Text} (h : t.node (locOf p) = none) :
    access t p = .error .noent := by
  cases hresolve : resolve t p with
  | error e =>
      obtain rfl := ht.resolve_error hresolve
      simp [access, stat, hresolve, bind, Except.bind]
  | ok e =>
      rw [← resolve_loc hresolve] at h
      simp [access, stat, hresolve, bind, Except.bind, h]

end Tree

end FileTree
