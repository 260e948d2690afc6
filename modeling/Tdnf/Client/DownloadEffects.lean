import Tdnf.Client.Download

/-!
# What downloading leaves of a disk

One rule for each call: which files it may have written, what it has certainly
written when it succeeds, and when it has left the disk alone. Making the parent
directories of a file only adds directories.
-/

namespace Tdnf.Client

open Procedure PathText FileTree FileTree.Tree Common

/-! ## Disks that grow -/

/-- The second disk came from the first by making directories and writing some files. -/
structure Extends (files : List Loc) (s u : Disk) : Prop where
  wrote : ∀ l ∈ u.wrote, l ∈ s.wrote ∨ l ∈ files
  keptWrote : ∀ l ∈ s.wrote, l ∈ u.wrote
  keptMade : ∀ l ∈ s.made, l ∈ u.made
  keptDirs : ∀ l, s.fs.node l = some .dir → u.fs.node l = some .dir

namespace Extends

variable {files : List Loc} {s u v : Disk}

theorem refl (files : List Loc) (s : Disk) : Extends files s s :=
  ⟨fun _ => .inl, fun _ => id, fun _ => id, fun _ => id⟩

theorem trans (h : Extends files s u) (h' : Extends files u v) : Extends files s v where
  wrote l hl := by
    obtain hu | hfiles := h'.wrote l hl
    · exact h.wrote l hu
    · exact .inr hfiles
  keptWrote l hl := h'.keptWrote l (h.keptWrote l hl)
  keptMade l hl := h'.keptMade l (h.keptMade l hl)
  keptDirs l hl := h'.keptDirs l (h.keptDirs l hl)

theorem mono {files' : List Loc} (h : Extends files s u) (hfiles : files ⊆ files') :
    Extends files' s u where
  wrote l hl := (h.wrote l hl).imp_right fun hf => hfiles hf
  keptWrote := h.keptWrote
  keptMade := h.keptMade
  keptDirs := h.keptDirs

end Extends

@[simp] theorem wp_bailErrno {α : Type} (x : Except Errno α) {Q : α → Disk → Prop}
    {E : TdnfError → Disk → Prop} {s : Disk} :
    wp (bailErrno x) Q E s ↔
      (∀ a, x = .ok a → Q a s) ∧ ∀ e, x = .error e → E (.system (errnoCode e)) s := by
  cases x with
  | ok a => simp [bailErrno]
  | error e => simp [bailErrno]

/-! ## Receiving a file -/

/-- A file was received: it could be written and has been. -/
def Received (file : Text) (s u : Disk) : Prop :=
  s.fs.Writable file ∧ locOf file ∈ u.wrote ∧ Extends [locOf file] s u

theorem receive_spec (file : Text) (size : ℕ) (s : Disk) :
    wp (receive file size) (fun _ u => Received file s u ∧
        ∀ l, u.fs.node l = if l = locOf file then some (.file size) else s.fs.node l)
      (fun _ u => u = s ∧ ¬ s.fs.Writable file) s := by
  simp only [receive, wp_bind, wp_get, wp_bailErrno]
  constructor
  · rintro ⟨loc, fs⟩ hwrite
    obtain ⟨rfl, hwritable, hnode⟩ := write_ok hwrite
    refine ⟨⟨hwritable, List.mem_cons_self, ?_⟩, hnode⟩
    refine ⟨fun l hl => ?_, fun l hl => List.mem_cons_of_mem _ hl, fun _ => id, fun l hl => ?_⟩
    · obtain rfl | hl := List.mem_cons.mp hl
      · exact .inr List.mem_cons_self
      · exact .inl hl
    · have hne : l ≠ locOf file := fun hloc => hwritable.notDir (hloc ▸ hl)
      rw [hnode, if_neg hne, hl]
  · intro e hwrite
    refine ⟨trivial, fun hwritable => ?_⟩
    obtain ⟨fs, hok⟩ := write_of_writable hwritable size
    rw [hok] at hwrite
    cases hwrite

theorem Received.again {file : Text} {s u v : Disk} (h : Received file s u)
    (h' : Extends [locOf file] u v) : Received file s v :=
  ⟨h.1, h'.keptWrote _ h.2.1, h.2.2.trans h'⟩

/-- The attempts receive the file, or leave the disk alone since it cannot be written. -/
theorem attempts_spec (perform : ℕ → Perform) (fileTmp : Text) (retries i : ℕ) (s : Disk) :
    wp (attempts perform fileTmp retries i) (fun _ u => Received fileTmp s u)
      (fun _ u => (u = s ∧ ¬ s.fs.Writable fileTmp) ∨ Received fileTmp s u) s := by
  induction retries generalizing s i with
  | zero =>
      simp only [attempts, wp_bind]
      refine wp_mono (receive_spec fileTmp (perform i).size s) ?_ fun _ u => .inl
      rintro - u ⟨hu, -⟩
      rw [wp_ite]
      exact ⟨fun _ => .inr hu, fun _ => hu⟩
  | succ retries ih =>
      simp only [attempts, wp_bind]
      refine wp_mono (receive_spec fileTmp (perform i).size s) ?_ fun _ u => .inl
      rintro - u ⟨hu, -⟩
      rw [wp_ite]
      refine ⟨fun _ => ?_, fun _ => hu⟩
      rw [wp_ite]
      refine ⟨fun _ => .inr hu, fun _ => ?_⟩
      refine wp_mono (ih (i + 1) u) (fun _ v hv => hu.again hv.2.2) ?_
      rintro - v (⟨rfl, -⟩ | hv)
      · exact .inr hu
      · exact .inr (hu.again hv.2.2)

theorem renameFile_spec (old new : Text) (s : Disk) :
    wp (renameFile old new) (fun _ u => Extends [locOf new] s u ∧ locOf new ∈ u.wrote ∧
        IsName (basename new) ∧ s.fs.node (locOf new) ≠ some .dir)
      (fun _ u => u = s) s := by
  simp only [renameFile, wp_bind, wp_get, wp_bailErrno]
  refine ⟨?_, fun _ _ => trivial⟩
  rintro ⟨loc, fs⟩ hrename
  obtain ⟨rfl, hname, hnode, hdirs⟩ := rename_ok hrename
  refine ⟨⟨fun l hl => ?_, fun l hl => List.mem_cons_of_mem _ hl, fun _ => id, hdirs⟩,
    List.mem_cons_self, hname, hnode⟩
  obtain rfl | hl := List.mem_cons.mp hl
  · exact .inr List.mem_cons_self
  · exact .inl hl

theorem unlink_extends (p : Text) (s : Disk) : Extends [] s (s.unlink p) := by
  simp only [Disk.unlink]
  split
  · rename_i fs hunlink
    exact ⟨fun _ => .inl, fun _ => id, fun _ => id, fun _ => unlink_dirs hunlink⟩
  · exact Extends.refl [] s

theorem unlink_eq (p : Text) {s : Disk} (h : ¬ s.fs.Writable p) : s.unlink p = s := by
  obtain ⟨e, hunlink⟩ := unlink_of_not_writable h
  simp [Disk.unlink, hunlink]

/-- The files of one download. -/
def filesOf (file : Text) : List Loc := [locOf (tmpOf file), locOf file]

/-- The download gets as far as opening its file. -/
def Opens (t : Transfer) (fileUrl file : Text) (fs : Tree) : Prop :=
  fileUrl ≠ [] ∧ file ≠ [] ∧ t.setup = none ∧ fs.Writable (tmpOf file)

/-- A download that succeeds has put the file in its place; one that fails has opened the
temporary file or changed nothing. -/
theorem downloadFile_spec (pRepo : RepoData) (t : Transfer) (fileUrl file : Text) (s : Disk) :
    wp (downloadFile pRepo t fileUrl file)
      (fun _ u => Extends (filesOf file) s u ∧ locOf file ∈ u.wrote ∧
        s.fs.Writable (tmpOf file) ∧ IsName (basename file) ∧ s.fs.node (locOf file) ≠ some .dir)
      (fun _ u => (u = s ∧ ¬ Opens t fileUrl file s.fs) ∨
        (Extends (filesOf file) s u ∧ locOf (tmpOf file) ∈ u.wrote ∧
          s.fs.Writable (tmpOf file))) s := by
  have hreceived : ∀ u, Received (tmpOf file) s u →
      Extends (filesOf file) s (u.unlink (tmpOf file)) ∧
        locOf (tmpOf file) ∈ (u.unlink (tmpOf file)).wrote ∧ s.fs.Writable (tmpOf file) := by
    intro u hu
    have hunlink := unlink_extends (tmpOf file) u
    exact ⟨(hu.2.2.mono (by simp [filesOf])).trans (hunlink.mono (List.nil_subset _)),
      hunlink.keptWrote _ hu.2.1, hu.1⟩
  by_cases harg : fileUrl = [] ∨ file = []
  · simp only [downloadFile, harg, if_true, wp_bind, wp_throw]
    exact .inl ⟨trivial, fun h => harg.elim h.1 h.2.1⟩
  · cases hsetup : t.setup with
    | some e =>
        simp only [downloadFile, harg, if_false, hsetup, wp_bind, wp_throw]
        refine .inl ⟨trivial, fun h => ?_⟩
        have hnone := h.2.2.1
        rw [hsetup] at hnone
        cases hnone
    | none =>
        simp only [downloadFile, harg, if_false, hsetup, wp_bind, wp_finishing, id]
        refine wp_mono (attempts_spec t.perform (tmpOf file) pRepo.nRetries 0 s) ?_ ?_
        · rintro - u hu
          cases t.status with
          | error code => exact .inr (hreceived u hu)
          | ok status =>
              simp only [wp_ite, wp_throw, wp_bind]
              refine ⟨fun _ => .inr (hreceived u hu), fun _ => ?_⟩
              refine wp_mono (renameFile_spec (tmpOf file) file u) ?_ ?_
              · rintro - v ⟨hv, hmem, hname, hnode⟩
                have hextends : Extends (filesOf file) s v :=
                  (hu.2.2.mono (by simp [filesOf])).trans (hv.mono (by simp [filesOf]))
                cases t.chmod with
                | some errno =>
                    have hunlink := unlink_extends (tmpOf file) v
                    exact .inr ⟨hextends.trans (hunlink.mono (List.nil_subset _)),
                      hunlink.keptWrote _ (hv.keptWrote _ hu.2.1), hu.1⟩
                | none =>
                    exact ⟨hextends, hmem, hu.1, hname, fun h => hnode (hu.2.2.keptDirs _ h)⟩
              · rintro - v rfl
                exact .inr (hreceived v hu)
        · rintro - u (⟨rfl, hwritable⟩ | hu)
          · refine .inl ⟨unlink_eq (tmpOf file) hwritable, fun h => hwritable h.2.2.2⟩
          · exact .inr (hreceived u hu)

theorem downloadFile_extends (pRepo : RepoData) (t : Transfer) (fileUrl file : Text) (s : Disk) :
    wp (downloadFile pRepo t fileUrl file)
      (fun _ u => Extends (filesOf file) s u ∧ locOf file ∈ u.wrote)
      (fun _ u => Extends (filesOf file) s u) s := by
  refine wp_mono (downloadFile_spec pRepo t fileUrl file s) ?_ ?_
  · exact fun _ u hu => ⟨hu.1, hu.2.1⟩
  · rintro - u (⟨rfl, -⟩ | hu)
    · exact Extends.refl (filesOf file) u
    · exact hu.1

theorem tryBaseUrls_spec (pRepo : RepoData) (net : ℕ → Transfer) (location file : Text) (i : ℕ)
    {urls : List Text} (hurls : urls ≠ []) (s : Disk) :
    wp (tryBaseUrls pRepo net location file i urls)
      (fun _ u => Extends (filesOf file) s u ∧ locOf file ∈ u.wrote)
      (fun _ u => Extends (filesOf file) s u) s := by
  induction urls generalizing i s with
  | nil => exact absurd rfl hurls
  | cons url urls ih =>
      cases urls with
      | nil => exact downloadFile_extends pRepo (net i) (joinPath [url, location]) file s
      | cons url' urls =>
          rw [tryBaseUrls, wp_orElse]
          · refine wp_mono (downloadFile_extends pRepo (net i) (joinPath [url, location]) file s)
              (fun _ _ => id) fun _ u hu => ?_
            refine wp_mono (ih (i + 1) (List.cons_ne_nil url' urls) u) ?_ ?_
            · exact fun _ v hv => ⟨hu.trans hv.1, hv.2⟩
            · exact fun _ v hv => hu.trans hv
          · simp

/-- The downloads of a file from the base URLs of a repository. -/
theorem downloadFileFromRepo_spec (pRepo : RepoData) (net : ℕ → Transfer) (location file : Text)
    (s : Disk) :
    wp (downloadFileFromRepo pRepo net location file)
      (fun _ u => Extends (filesOf file) s u ∧ locOf file ∈ u.wrote)
      (fun _ u => Extends (filesOf file) s u) s := by
  by_cases harg : location = [] ∨ file = []
  · simp only [downloadFileFromRepo, harg, if_true, wp_bind, wp_throw]
    exact Extends.refl (filesOf file) s
  · simp only [downloadFileFromRepo, harg, if_false, wp_ite]
    exact ⟨fun _ => downloadFile_extends pRepo (net 0) location file s,
      fun hurls => tryBaseUrls_spec pRepo net location file 0 hurls s⟩

theorem not_mem_tmp : '/' ∉ ".tmp".toList := by decide

/-- A download that goes well where the file may be put. -/
theorem downloadFile_succeeds (pRepo : RepoData) {t : Transfer} {fileUrl file : Text} {s : Disk}
    (hopens : Opens t fileUrl file s.fs) (hperform : (t.perform 0).code = 0)
    (hstatus : t.status = .ok 200) (hchmod : t.chmod = none) (hname : IsName (basename file))
    (hnode : s.fs.node (locOf file) ≠ some .dir) :
    ∃ u, (downloadFile pRepo t fileUrl file).run s = .ok () u := by
  obtain ⟨hurl, hfile, hsetup, hwritable⟩ := hopens
  have harg : ¬ (fileUrl = [] ∨ file = []) := by simp [hurl, hfile]
  have hrename : ∀ u, Received (tmpOf file) s u ∧ (∀ l, u.fs.node l =
      if l = locOf (tmpOf file) then some (.file (t.perform 0).size) else s.fs.node l) →
      ∃ fs, u.fs.rename (tmpOf file) file = .ok (locOf file, fs) := by
    rintro u ⟨hu, hnodes⟩
    have hdirs : ∀ d ∈ dirsOf (tmpOf file), u.fs.node d = some .dir :=
      fun d hd => hu.2.2.keptDirs d (hwritable.dirs d hd)
    refine rename_of_writable hwritable.absolute hdirs (by rw [hnodes, if_pos rfl]) hname
      ⟨?_, ?_, ?_⟩
    · have habs := hwritable.absolute
      rwa [tmpOf, List.head?_append_of_ne_nil _ hfile] at habs
    · rwa [tmpOf, dirsOf_append file not_mem_tmp] at hdirs
    · rw [hnodes]
      split
      · simp
      · exact hnode
  have hreceive := receive_spec (tmpOf file) (t.perform 0).size s
  have hattempts : wp (attempts t.perform (tmpOf file) pRepo.nRetries 0)
      (fun _ u => ∃ fs, u.fs.rename (tmpOf file) file = .ok (locOf file, fs))
      (fun _ _ => False) s := by
    cases pRepo.nRetries with
    | zero =>
        simp only [attempts, wp_bind]
        refine wp_mono hreceive (fun _ u hu => ?_) fun _ u hu => hu.2 hwritable
        simpa [hperform] using hrename u hu
    | succ retries =>
        simp only [attempts, wp_bind]
        refine wp_mono hreceive (fun _ u hu => ?_) fun _ u hu => hu.2 hwritable
        simpa [hperform] using hrename u hu
  have hrun : wp (downloadFile pRepo t fileUrl file) (fun _ _ => True) (fun _ _ => False) s := by
    simp only [downloadFile, harg, if_false, hsetup, wp_bind, wp_finishing]
    refine wp_mono hattempts (fun _ u hu => ?_) fun _ _ => False.elim
    obtain ⟨fs, hfs⟩ := hu
    simp [hstatus, renameFile, hchmod, hfs]
  obtain ⟨⟨⟩, u, hu, -⟩ := exists_ok hrun
  exact ⟨u, hu⟩

/-! ## Making the directories of a file -/

/-- The second disk came from the first by making directories. -/
structure MadeDirs (s u : Disk) : Prop extends Extends [] s u where
  files : ∀ l size, u.fs.node l = some (.file size) → s.fs.node l = some (.file size)

theorem MadeDirs.refl (s : Disk) : MadeDirs s s := ⟨Extends.refl [] s, fun _ _ => id⟩

theorem MadeDirs.trans {s u v : Disk} (h : MadeDirs s u) (h' : MadeDirs u v) : MadeDirs s v :=
  ⟨h.toExtends.trans h'.toExtends, fun l size hl => h.files l size (h'.files l size hl)⟩

theorem makeDir_spec (dir : Text) (s : Disk) :
    wp (makeDir dir) (fun _ u => MadeDirs s u ∧ u.fs.node (locOf dir) ≠ none)
      (fun _ u => MadeDirs s u) s := by
  simp only [makeDir, wp_bind, wp_ite, wp_throw, wp_get]
  refine ⟨fun _ => MadeDirs.refl s, fun _ => ?_⟩
  cases hmkdir : s.fs.mkdir dir with
  | ok made =>
      obtain ⟨loc, fs⟩ := made
      obtain ⟨rfl, hnode⟩ := mkdir_ok hmkdir
      refine ⟨⟨⟨fun _ => .inl, fun _ => id, fun l hl => List.mem_cons_of_mem _ hl, ?_⟩, ?_⟩, ?_⟩
      · intro l hl
        rw [hnode]
        split
        · rfl
        · exact hl
      · intro l size hl
        rw [hnode] at hl
        split at hl
        · cases hl
        · exact hl
      · simp [hnode]
  | error e =>
      by_cases he : e = .exist
      · subst he
        exact ⟨MadeDirs.refl s, mkdir_exist hmkdir⟩
      · simp only
        exact MadeDirs.refl s

theorem forM_makeDir_spec {paths : List Text} {path : Text} (hlast : paths.getLast? = some path)
    (s : Disk) :
    wp (paths.forM makeDir) (fun _ u => MadeDirs s u ∧ u.fs.node (locOf path) ≠ none)
      (fun _ u => MadeDirs s u) s := by
  induction paths generalizing s with
  | nil => cases hlast
  | cons first paths ih =>
      rw [List.forM, wp_bind]
      refine wp_mono (makeDir_spec first s) (fun _ u hu => ?_) fun _ _ => id
      cases paths with
      | nil =>
          obtain rfl : first = path := by simpa using hlast
          exact hu
      | cons second paths =>
          rw [List.getLast?_cons_cons] at hlast
          refine wp_mono (ih hlast u) (fun _ v hv => ?_) fun _ v hv => hu.1.trans hv
          exact ⟨hu.1.trans hv.1, hv.2⟩

theorem dirPrefixes_getLast (before path : Text) :
    (dirPrefixes before path).getLast? = some (before ++ path) := by
  induction path generalizing before with
  | nil => simp [dirPrefixes]
  | cons c path ih =>
      rw [dirPrefixes]
      split
      · rw [List.getLast?_cons, ih]
        simp
      · rw [ih]
        simp

theorem dirPrefixes_append {before p : Text} (h : before ++ p ≠ []) (q : Text) :
    dirPrefixes before (p ++ '/' :: q) =
      dirPrefixes before p ++ dirPrefixes (before ++ p ++ ['/']) q := by
  induction p generalizing before with
  | nil =>
      rw [List.append_nil] at h
      simp [dirPrefixes, h]
  | cons c p ih =>
      have ih := ih (by simp : before ++ [c] ++ p ≠ [])
      rw [List.cons_append, dirPrefixes, dirPrefixes, ih]
      split <;> simp

theorem dirPrefixes_name (before : Text) {x : Text} (hx : '/' ∉ x) :
    dirPrefixes before x = [before ++ x] := by
  induction x generalizing before with
  | nil => simp [dirPrefixes]
  | cons c x ih =>
      simp only [List.mem_cons, not_or] at hx
      rw [dirPrefixes, if_neg (fun h => hx.1 h.1.symm), ih _ hx.2]
      simp

/-- The directories are made from the root on. -/
theorem dirPrefixes_render {d : Loc} (hd : d ≠ []) :
    ∃ name rest, dirPrefixes [] (render d) = render [name] :: rest := by
  induction d with
  | nil => exact absurd rfl hd
  | cons name d ih =>
      by_cases hnil : d = []
      · subst hnil
        refine ⟨name, [], ?_⟩
        have hname := dirPrefixes_name ['/'] name.property.2.1
        simpa [body, dirPrefixes] using hname
      · obtain ⟨first, rest, hrest⟩ := ih hnil
        rw [render_cons, ← render_of_ne_nil hnil, dirPrefixes_append (by simp [render_ne_nil]),
          hrest]
        exact ⟨first, _, rfl⟩

theorem trim_render {d : Loc} (hd : d ≠ []) :
    (if (render d).getLast? = some '/' then (render d).dropLast else render d) = render d :=
  if_neg (getLast_render hd)

theorem makeDirs_spec (d : Loc) (s : Disk) :
    wp (makeDirs (render d)) (fun _ u => MadeDirs s u ∧ u.fs.node d = some .dir)
      (fun _ u => MadeDirs s u) s := by
  simp only [makeDirs, render_ne_nil, if_false, wp_bind, wp_get]
  cases haccess : s.fs.access (render d) with
  | ok found => exact MadeDirs.refl s
  | error e =>
      by_cases he : e = .noent
      · subst he
        have hnode : s.fs.node d = none := by
          by_contra hne
          obtain ⟨x, hx⟩ := Option.ne_none_iff_exists'.mp hne
          rw [access_render hx] at haccess
          cases haccess
        have hd : d ≠ [] := by
          rintro rfl
          rw [s.fs.root] at hnode
          cases hnode
        simp only [trim_render hd]
        refine wp_mono (forM_makeDir_spec (dirPrefixes_getLast [] (render d)) s)
          (fun _ u hu => ⟨hu.1, ?_⟩) fun _ _ => id
        obtain ⟨x, hx⟩ := Option.ne_none_iff_exists'.mp hu.2
        rw [List.nil_append, locOf_render] at hx
        cases x with
        | dir => exact hx
        | file size =>
            rw [hu.1.files d size hx] at hnode
            cases hnode
      · simp only
        exact MadeDirs.refl s

@[simp] theorem wp_ifMissing (p : Text) (x : Call Unit) {Q : Unit → Disk → Prop}
    {E : TdnfError → Disk → Prop} {s : Disk} :
    wp (ifMissing p x) Q E s ↔
      (s.fs.access p = .ok () → Q () s) ∧ (s.fs.access p = .error .noent → wp x Q E s) ∧
        ∀ e, s.fs.access p = .error e → e ≠ .noent → E (.system (errnoCode e)) s := by
  simp only [ifMissing, wp_bind, wp_get]
  cases haccess : s.fs.access p with
  | ok found => simp
  | error e =>
      by_cases he : e = .noent
      · subst he
        simp
      · cases e <;> simp_all

/-- Nothing is run for a place that is there. -/
theorem wp_ifMissing_of_node {d : Loc} {x : Node} {y : Call Unit} {Q : Unit → Disk → Prop}
    {E : TdnfError → Disk → Prop} {s : Disk} (hx : s.fs.node d = some x) (h : Q () s) :
    wp (ifMissing (render d) y) Q E s := by
  rw [wp_ifMissing, access_render hx]
  refine ⟨fun _ => h, fun hmissing => ?_, fun e he => ?_⟩
  · cases hmissing
  · cases he

/-- The parent directory of a file is there when it is no file itself. -/
theorem parentDir_spec (d : Loc) {s : Disk} (hfile : ∀ size, s.fs.node d ≠ some (.file size)) :
    wp (ifMissing (render d) (makeDirs (render d)))
      (fun _ u => MadeDirs s u ∧ u.fs.node d = some .dir) (fun _ u => MadeDirs s u) s := by
  rw [wp_ifMissing]
  refine ⟨fun haccess => ⟨MadeDirs.refl s, ?_⟩, fun _ => makeDirs_spec d s,
    fun _ _ _ => MadeDirs.refl s⟩
  have hnode := access_ok haccess
  rw [locOf_render] at hnode
  obtain ⟨x, hx⟩ := Option.ne_none_iff_exists'.mp hnode
  cases x with
  | dir => exact hx
  | file size => exact absurd hx (hfile size)

/-- On an empty file system the first directory is made. -/
theorem makeDirs_makes {d : Loc} (hd : d ≠ []) :
    wp (makeDirs (render d)) (fun _ u => u.made ≠ []) (fun _ u => u.made ≠ [])
      (Disk.start (skeleton [])) := by
  have hnone : (skeleton []).node d = none := skeleton_none (by simp [skeleton_dir, hd])
  have haccess : (skeleton []).access (render d) = .error .noent :=
    (skeleton_noFiles []).access_error (by rwa [locOf_render])
  obtain ⟨name, rest, hprefixes⟩ := dirPrefixes_render hd
  obtain ⟨fs, hmkdir⟩ := mkdir_of_none (t := skeleton []) (d := [name]) (skeleton []).root
    (skeleton_none (by simp [skeleton_dir]))
  have hmade : ∀ s u : Disk, MadeDirs s u → s.made ≠ [] → u.made ≠ [] := by
    intro s u hu hs
    obtain ⟨l, hl⟩ := List.exists_mem_of_ne_nil s.made hs
    exact List.ne_nil_of_mem (hu.keptMade l hl)
  simp only [makeDirs, render_ne_nil, if_false, wp_bind, wp_get, Disk.start, haccess,
    trim_render hd, hprefixes, List.forM, makeDir, hmkdir, wp_set]
  by_cases hrest : rest = []
  · subst hrest
    simp [List.forM]
  · refine wp_mono (forM_makeDir_spec (List.getLast?_eq_some_getLast hrest) _)
      (fun _ u hu => ?_) fun _ u hu => ?_
    · exact hmade _ u hu.1 (List.cons_ne_nil [name] [])
    · exact hmade _ u hu (List.cons_ne_nil [name] [])

end Tdnf.Client
