import Tdnf.Client.DownloadEffects

/-!
# Downloads stay inside the cache directory

A package or a key is fetched along a path that the repository or the user
chose. The path is normalised and compared with the cache directory as a text,
and then written to by another path: the parent directory with the base name of
the location, or the path as it was. The theorem says for which locations and
URLs this keeps every file strictly below the cache directory, whatever the
network and the file system are.
-/

namespace Tdnf.Client

open Procedure PathText FileTree FileTree.Tree Common

/-- What a call that downloads into `c` along a path that leads to `l` should do. -/
structure Contained (c l : Loc) (fs : Tree) (x : Call Text) : Prop where
  /-- every file written is strictly below the cache directory -/
  inside : ∀ path u, x.run (Disk.start fs) = .ok path u → ∀ f ∈ u.wrote, Below c f
  /-- the path returned names the file that was downloaded, unless it was already there -/
  names : ∀ path u, x.run (Disk.start fs) = .ok path u →
    ∃ f, path = render f ∧ Below c f ∧ (f ∈ u.wrote ∨ u.wrote = [] ∧ u.fs.node f ≠ none)
  /-- a path that leads elsewhere makes the call fail with nothing written -/
  outside : ¬ Below c l → ∃ e, x.run (Disk.start fs) = .error e (Disk.start fs)

/-- What holds after a contained call that succeeds. -/
def Placed (c : Loc) (path : Text) (u : Disk) : Prop :=
  (∀ f ∈ u.wrote, Below c f) ∧
    ∃ f, path = render f ∧ Below c f ∧ (f ∈ u.wrote ∨ u.wrote = [] ∧ u.fs.node f ≠ none)

theorem contained_iff_wp {c l : Loc} {fs : Tree} {x : Call Text} :
    Contained c l fs x ↔
      wp x (fun path u => Below c l ∧ Placed c path u)
        (fun _ u => ¬ Below c l → u = Disk.start fs) (Disk.start fs) := by
  constructor
  · intro h
    simp only [wp]
    cases hrun : x.run (Disk.start fs) with
    | ok path u =>
        refine ⟨?_, h.inside path u hrun, h.names path u hrun⟩
        by_contra hl
        obtain ⟨e, he⟩ := h.outside hl
        rw [hrun] at he
        cases he
    | error e u =>
        intro hl
        obtain ⟨e', he⟩ := h.outside hl
        rw [hrun] at he
        cases he
        rfl
  · intro h
    refine ⟨fun path u hrun => (wp_ok h hrun).2.1, fun path u hrun => (wp_ok h hrun).2.2, ?_⟩
    intro hl
    cases hrun : x.run (Disk.start fs) with
    | ok path u => exact absurd (wp_ok h hrun).1 hl
    | error e u => exact ⟨e, by rw [wp_error h hrun hl]⟩

/-! ## Packages -/

/-- The path part of a package location. -/
def treePath (location : Text) : Text := (remotePath location).toOption.getD []

/-- Every download of a package into `c` is contained. -/
def TreeContained (c : Loc) (location pkgName : Text) : Prop :=
  ∀ pRepo net nSize fs, Contained c (lexical c (moves (treePath location))) fs
    (downloadPackageToTree pRepo net nSize location pkgName (render c))

/-- The location is refused by the normaliser or the comparison of texts, or it leads strictly
below `c`, as does its normal form, and ends with the name of a file. -/
def TreeSafe (c : Loc) (location pkgName : Text) : Prop :=
  location = [] ∨ pkgName = [] ∨
    ∀ n, normalFrom c (moves (treePath location)) = some n → render c <+: render n →
      Below c (lexical c (moves (treePath location))) ∧ Below c n ∧ IsName (basename location)

theorem remotePath_eq {location : Text} (h : location ≠ []) :
    remotePath location = .ok (treePath location) := by
  have hpath : ∃ path, remotePath location = .ok path := by
    simp only [remotePath]
    cases huri : pathFromUri location with
    | ok path => exact ⟨path, rfl⟩
    | error e =>
        obtain rfl := pathFromUri_error h huri
        exact ⟨location, rfl⟩
  obtain ⟨path, hpath⟩ := hpath
  rw [treePath, hpath]
  rfl

/-- The moves of the path part are the last moves of the location. -/
theorem moves_treePath {location : Text} (h : location ≠ []) :
    ∃ a, moves location = a ++ moves (treePath location) := by
  have hpath := remotePath_eq h
  simp only [remotePath] at hpath
  cases huri : pathFromUri location with
  | ok path =>
      rw [huri] at hpath
      cases hpath
      obtain ⟨a, s, hlocation, hs⟩ := pathFromUri_ok huri
      refine ⟨moves a, ?_⟩
      conv_lhs => rw [hlocation, moves_append_slash]
      rw [hs, moves_slash]
  | error e =>
      obtain rfl := pathFromUri_error h huri
      rw [huri] at hpath
      exact ⟨[], by rw [← Except.ok.inj hpath, List.nil_append]⟩

/-- A base name that is a name is the last move of a path that moves at all. -/
theorem treePath_last {location : Text} (hname : IsName (basename location))
    (hmoves : moves (treePath location) ≠ []) :
    ∃ a, moves (treePath location) = a ++ [.down ⟨basename location, hname⟩] := by
  have hne : location ≠ [] := by
    rintro rfl
    exact absurd hname (by decide)
  obtain ⟨a, ha⟩ := moves_basename (rstrip_ne_nil_of_isName hname)
  obtain ⟨b, hb⟩ := moves_treePath hne
  have hbase : moves (basename location) = [.down ⟨basename location, hname⟩] :=
    moves_name ⟨basename location, hname⟩
  rw [hbase, hb] at ha
  obtain ⟨init, last, hlast⟩ := (List.eq_nil_or_concat _).resolve_left hmoves
  rw [List.concat_eq_append] at hlast
  rw [hlast, ← List.append_assoc] at ha
  obtain ⟨-, hlast'⟩ := List.append_inj' ha rfl
  exact ⟨init, by rw [hlast, hlast']⟩

/-- What `TDNFDownloadPackageToTree` comes to once the location is accepted. -/
theorem wp_downloadPackageToTree {pRepo : RepoData} {net : ℕ → Transfer} {nSize : ℤ} {c : Loc}
    {location pkgName : Text} {Q : Text → Disk → Prop} {E : TdnfError → Disk → Prop} {s : Disk}
    (hlocation : location ≠ []) (hpkg : pkgName ≠ [])
    (hreject : (∀ n, normalFrom c (moves (treePath location)) = some n →
      normalizePath s.fs (joinPath [render c, treePath location]) = .ok (render n) →
        ¬ render c <+: render n) → ∀ e, E e s)
    (haccept : ∀ n, normalFrom c (moves (treePath location)) = some n →
      (∀ size, s.fs.node n.tail ≠ some (.file size)) → render c <+: render n →
        wp (ifMissing (render n.tail) (makeDirs (render n.tail)))
          (fun _ u => wp (ifMissing (render n)
            (downloadPackage pRepo net nSize location pkgName (render n.tail)))
              (fun _ v => Q (render n) v) E u) E s) :
    wp (downloadPackageToTree pRepo net nSize location pkgName (render c)) Q E s := by
  have harg : ¬ (location = [] ∨ pkgName = [] ∨ render c = []) := by
    simp [hlocation, hpkg, render_ne_nil]
  simp only [downloadPackageToTree, harg, if_false, wp_bind, remotePath_eq hlocation,
    wp_fromExcept, wp_get]
  refine ⟨?_, fun e he => by cases he⟩
  rintro path hpath
  cases hpath
  refine ⟨fun normal hnormal => ?_, fun e he => ?_⟩
  · obtain ⟨n, hn, rfl, hfile⟩ := normalizePath_ok hnormal
    rw [normalFrom_join] at hn
    rw [wp_ite, dirname_render]
    refine ⟨fun hstarts => ?_, fun hstarts => ?_⟩
    · rw [wp_bind, wp_throw]
      refine hreject (fun n' hn' _ => ?_) _
      rwa [Option.some.inj (hn'.symm.trans hn)]
    · simp only [wp_bind, wp_pure]
      exact haccept n hn hfile (not_not.mp hstarts)
  · refine hreject (fun n _ hnormal => ?_) e
    rw [he] at hnormal
    cases hnormal

/-- The temporary file is beside the file. -/
theorem locOf_tmpOf {file : Text} (hname : IsName (lastPiece file)) :
    ∃ name : Name, name.val = tmpOf (lastPiece file) ∧
      locOf (tmpOf file) = name :: (locOf file).tail := by
  refine ⟨⟨tmpOf (lastPiece file), isName_append (not_mem_lastPiece file) not_mem_tmp
    (by decide)⟩, rfl, ?_⟩
  rw [tmpOf, locOf_append file not_mem_tmp (by decide), locOf_of_isName hname, List.tail_cons]
  rfl

theorem filesOf_below {c : Loc} {file : Text} (hname : IsName (lastPiece file))
    (hbelow : Below c (locOf file)) : ∀ l ∈ filesOf file, Below c l := by
  obtain ⟨name, -, htmp⟩ := locOf_tmpOf hname
  have htail : c <:+ (locOf file).tail := by
    rw [locOf_of_isName hname, below_cons] at hbelow
    rwa [locOf_of_isName hname, List.tail_cons]
  intro l hl
  simp only [filesOf, List.mem_cons, List.not_mem_nil, or_false] at hl
  obtain rfl | rfl := hl
  · rw [htmp, below_cons]
    exact htail
  · exact hbelow

/-- Where the package is missing, it is downloaded into its place. -/
theorem downloadPackage_spec (pRepo : RepoData) (net : ℕ → Transfer) (nSize : ℤ)
    {location : Text} (pkgName : Text) (hname : IsName (basename location)) (d : Loc) {s : Disk}
    (hnone : s.fs.node (⟨basename location, hname⟩ :: d) = none) :
    wp (downloadPackage pRepo net nSize location pkgName (render d))
      (fun _ u => Extends (filesOf (joinPath [render d, basename location])) s u ∧
        ⟨basename location, hname⟩ :: d ∈ u.wrote)
      (fun _ _ => True) s := by
  have hfile := joinPath_ne_nil d [basename location]
  rw [← locOf_join_name d ⟨basename location, hname⟩] at hnone ⊢
  obtain ⟨e, hstat⟩ := stat_of_none hnone
  by_cases harg : location = [] ∨ pkgName = []
  · simp only [downloadPackage, harg, if_true, wp_bind, wp_throw]
  · simp only [downloadPackage, harg, if_false, wp_bind, wp_get, getFileSize, hfile, hstat,
      or_true, if_true]
    exact wp_mono (downloadFileFromRepo_spec pRepo net location _ s) (fun _ _ => id)
      fun _ _ _ => trivial

theorem treeContained_of_safe {c : Loc} {location pkgName : Text}
    (h : TreeSafe c location pkgName) : TreeContained c location pkgName := by
  intro pRepo net nSize fs
  rw [contained_iff_wp]
  by_cases harg : location = [] ∨ pkgName = []
  · have harg' : location = [] ∨ pkgName = [] ∨ render c = [] := harg.imp_right .inl
    simp only [downloadPackageToTree, harg', if_true, wp_bind, wp_throw]
    exact fun _ => trivial
  · obtain ⟨hlocation, hpkg⟩ := not_or.mp harg
    replace h := (h.resolve_left hlocation).resolve_left hpkg
    apply wp_downloadPackageToTree hlocation hpkg (fun _ _ _ => rfl)
    intro n hn hfile hstarts
    obtain ⟨hl, hbelow, hname⟩ := h n hn hstarts
    have hmoves : moves (treePath location) ≠ [] := by
      intro hnil
      rw [hnil] at hl
      exact hl.2 rfl
    obtain ⟨a, ha⟩ := treePath_last hname hmoves
    rw [ha] at hn
    obtain ⟨d, rfl⟩ := normalFrom_down hn
    refine wp_mono (parentDir_spec d hfile) (fun _ u hu => ?_) fun _ u _ hout => absurd hl hout
    have hwrote : u.wrote = [] := by
      apply List.eq_nil_iff_forall_not_mem.mpr
      intro l hl
      simpa [Disk.start] using hu.1.wrote l hl
    rw [wp_ifMissing]
    refine ⟨fun haccess => ⟨hl, by simp [hwrote], _, rfl, hbelow, .inr ⟨hwrote, ?_⟩⟩,
      fun haccess => ?_, fun _ _ _ hout => absurd hl hout⟩
    · have hnode := access_ok haccess
      rwa [locOf_render] at hnode
    · have hnone : u.fs.node (⟨basename location, hname⟩ :: d) = none := by
        by_contra hne
        obtain ⟨x, hx⟩ := Option.ne_none_iff_exists'.mp hne
        rw [access_render hx] at haccess
        cases haccess
      refine wp_mono (downloadPackage_spec pRepo net nSize pkgName hname d hnone)
        (fun _ v hv => ⟨hl, fun f hf => ?_, _, rfl, hbelow, .inl hv.2⟩)
        fun _ _ _ hout => absurd hl hout
      rw [← locOf_join_name d ⟨basename location, hname⟩] at hbelow
      have hlast : IsName (lastPiece (joinPath [render d, basename location])) := by
        rw [lastPiece_join d ⟨basename location, hname⟩]
        exact hname
      apply filesOf_below hlast hbelow f
      have hmem := hv.1.wrote f hf
      rw [hwrote] at hmem
      exact hmem.resolve_left List.not_mem_nil

/-- A transfer without any trouble. -/
def goodTransfer : Transfer := ⟨none, fun _ => ⟨0, 1⟩, .ok 200, none⟩

/-- Everything the call looks at where only directories lie about. -/
theorem tree_accepts (pRepo : RepoData) (net : ℕ → Transfer) (nSize : ℤ) {c n : Loc}
    {location pkgName : Text} {Q : Text → Disk → Prop} {dirs : List Loc}
    (hlocation : location ≠ []) (hpkg : pkgName ≠ [])
    (hn : normalFrom c (moves (treePath location)) = some n) (hstarts : render c <+: render n)
    (hparent : (skeleton dirs).node n.tail = some .dir)
    (h : wp (ifMissing (render n) (downloadPackage pRepo net nSize location pkgName
      (render n.tail))) (fun _ u => Q (render n) u) (fun _ _ => False)
        (Disk.start (skeleton dirs))) :
    wp (downloadPackageToTree pRepo net nSize location pkgName (render c)) Q (fun _ _ => False)
      (Disk.start (skeleton dirs)) := by
  refine wp_downloadPackageToTree hlocation hpkg (fun hreject _ => ?_) fun n' hn' _ _ => ?_
  · refine hreject n hn (normalizePath_of_noFiles (skeleton_noFiles dirs) ?_ ?_) hstarts
    · exact head_joinPath (head_render c) [treePath location]
    · rw [normalFrom_join, hn]
  · obtain rfl : n' = n := Option.some.inj (hn'.symm.trans hn)
    exact wp_ifMissing_of_node hparent h

/-- A base name that is no name leads to a directory. -/
theorem stat_base {t : Tree} {d : Loc} (hd : t.node d = some .dir) {location : Text}
    (hname : ¬ IsName (basename location)) :
    t.stat (joinPath [render d, basename location]) = .ok .dir := by
  have hloc : t.node (locOf (joinPath [render d, basename location])) = some .dir := by
    rw [locOf_join]
    obtain h | h := moves_not_isName hname
    · rw [h]
      exact hd
    · rw [h]
      exact dir_tail hd
  refine stat_of_node (head_joinPath (head_render d) _) (fun l hl => ?_) hloc
  obtain hl | rfl := dirsOf_moves hl
  · rw [moves_join, stations_append, List.mem_append, lexical_down, List.append_nil] at hl
    obtain hl | hl := hl
    · exact dir_of_suffix ((stations_down hl).trans (List.tail_suffix d)) hd
    · obtain h | h := moves_not_isName hname
      · rw [h] at hl
        cases hl
      · rw [h, stations, stations, List.mem_singleton] at hl
        rw [hl, hd]
  · exact hloc

theorem treeSafe_of_contained {c : Loc} {location pkgName : Text}
    (h : TreeContained c location pkgName) : TreeSafe c location pkgName := by
  by_cases hlocation : location = []
  · exact .inl hlocation
  by_cases hpkg : pkgName = []
  · exact .inr (.inl hpkg)
  refine .inr (.inr fun n hn hstarts => ?_)
  have hcontained := fun nSize fs => contained_iff_wp.mp
    (h ⟨[], none, [], 0⟩ (fun _ => goodTransfer) nSize fs)
  -- with a directory at the normal form the call returns its path at once
  have hbelow : Below c (lexical c (moves (treePath location))) ∧ Below c n := by
    have hdir : (skeleton [n]).node n = some .dir := skeleton_of_mem List.mem_cons_self
    have hwp := tree_accepts (Q := fun path _ => path = render n) ⟨[], none, [], 0⟩
      (fun _ => goodTransfer) 0 hlocation hpkg hn hstarts (dir_tail hdir)
      (wp_ifMissing_of_node hdir rfl)
    obtain ⟨path, u, -, hpath, hl, hplaced⟩ :=
      exists_ok (wp_mono (wp_and hwp (hcontained 0 (skeleton [n]))) (fun _ _ => id)
        fun _ _ => And.left)
    obtain ⟨-, f, hf, hfbelow, -⟩ := hplaced
    exact ⟨hl, render_injective (hpath.symm.trans hf) ▸ hfbelow⟩
  refine ⟨hbelow.1, hbelow.2, ?_⟩
  -- without one, a base name that is a directory passes for the package
  by_contra hname
  have hdir : (skeleton [n.tail]).node n.tail = some .dir := skeleton_of_mem List.mem_cons_self
  have hnone : (skeleton [n.tail]).node n = none := by
    apply skeleton_none
    intro hn
    obtain hnil | ⟨d, hd, hsuffix⟩ := skeleton_dir.mp hn
    · exact hbelow.2.ne_nil hnil
    · rw [List.mem_singleton.mp hd] at hsuffix
      have hlength := hsuffix.length_le
      have hpos := List.length_pos_of_ne_nil hbelow.2.ne_nil
      rw [List.length_tail] at hlength
      omega
  have haccess : (skeleton [n.tail]).access (render n) = .error .noent :=
    (skeleton_noFiles [n.tail]).access_error (by rwa [locOf_render])
  have hwp := tree_accepts
    (Q := fun path u => path = render n ∧ u = Disk.start (skeleton [n.tail]))
    ⟨[], none, [], 0⟩ (fun _ => goodTransfer) 1 hlocation hpkg hn hstarts hdir (by
      have harg : ¬ (location = [] ∨ pkgName = []) := not_or.mpr ⟨hlocation, hpkg⟩
      rw [wp_ifMissing, Disk.start, haccess]
      refine ⟨fun h => ?_, fun _ => ?_, fun e he hne => ?_⟩
      · cases h
      · simp [downloadPackage, harg, getFileSize, joinPath_ne_nil, stat_base hdir hname]
      · exact hne (Except.error.inj he).symm)
  obtain ⟨path, u, -, ⟨hpath, hu⟩, -, hplaced⟩ :=
    exists_ok (wp_mono (wp_and hwp (hcontained 1 (skeleton [n.tail]))) (fun _ _ => id)
      fun _ _ => And.left)
  obtain ⟨-, f, hf, -, hmem⟩ := hplaced
  rw [hu, ← render_injective (hpath.symm.trans hf)] at hmem
  obtain hmem | ⟨-, hnode⟩ := hmem
  · exact absurd hmem List.not_mem_nil
  · exact hnode hnone

end Tdnf.Client
