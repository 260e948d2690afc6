import Tdnf.Client.Containment

/-!
# Downloads of keys

The path of a key is normalised for the comparison and for making directories,
but the key is written to the path as it was. The two agree unless two dots
follow two dots. Some paths can never be written, since they need a directory
where the file is to be; these are harmless.
-/

namespace Tdnf.Client

open Procedure PathText FileTree FileTree.Tree Common

/-- The path part of a key URL. -/
def keyPart (url : Text) : Text := (keyPath url).toOption.getD []

/-- The normalised cache directory for the keys of a repository, if there is one. -/
def keyCacheDir (cacheDir : Text) (pRepo : RepoData) : Option Loc :=
  let path := getCachePath cacheDir pRepo "keys".toList
  if path.head? = some '/' then normalFrom [] (moves path) else none

/-- The path that a key is written to. -/
def keyFile (c : Loc) (url : Text) : Text := basenameRest (joinPath [render c, keyPart url])

/-- Every download of a key is contained. -/
def KeyContained (cacheDir : Text) (pRepo : RepoData) (url : Text) : Prop :=
  ∀ c, keyCacheDir cacheDir pRepo = some c → ∀ t fs,
    Contained c (lexical c (moves (keyPart url))) fs (fetchRemoteGPGKey cacheDir pRepo t url)

/-- Writing a file after the parent directory of `n` was made needs a directory at `l`. -/
def NeedsDir (n : Loc) (file : Text) (l : Loc) : Prop :=
  (skeleton (n.tail :: dirsOf file)).node l = some .dir

/-- The URL is refused, or it leads strictly below `c` to the place that its normal form names,
or it leads to a place that cannot be written. -/
def KeySafe (c : Loc) (url : Text) : Prop :=
  (∃ e, keyPath url = .error e) ∨
    ∀ n, normalFrom c (moves (keyPart url)) = some n → render c <+: render n →
      (Below c (locOf (keyFile c url)) ∧
        (n = locOf (keyFile c url) ∨ ¬ IsName (basename (keyFile c url)) ∨
          NeedsDir n (keyFile c url) (locOf (keyFile c url)) ∨
          NeedsDir n (keyFile c url) (locOf (tmpOf (keyFile c url))))) ∨
      (¬ Below c (locOf (keyFile c url)) ∧ n.length ≤ 1 ∧
        NeedsDir n (keyFile c url) (locOf (tmpOf (keyFile c url))))

theorem locOf_keyFile (c : Loc) (url : Text) :
    locOf (keyFile c url) = lexical c (moves (keyPart url)) := by
  calc locOf (keyFile c url) = locOf (joinPath [render c, keyPart url]) :=
        locOf_basenameRest (joinPath [render c, keyPart url])
    _ = lexical c (moves (keyPart url)) := locOf_join c (keyPart url)

theorem keyPath_eq {url path : Text} (h : keyPath url = .ok path) : path = keyPart url := by
  rw [keyPart, h]
  rfl

theorem url_ne_nil {url path : Text} (h : keyPath url = .ok path) : url ≠ [] := by
  rintro rfl
  cases h

/-- What `TDNFFetchRemoteGPGKey` comes to once the URL is accepted. -/
theorem wp_fetchRemoteGPGKey {cacheDir : Text} {pRepo : RepoData} {t : Transfer} {c : Loc}
    {url path : Text} {Q : Text → Disk → Prop} {E : TdnfError → Disk → Prop} {s : Disk}
    (hc : keyCacheDir cacheDir pRepo = some c) (hpath : keyPath url = .ok path)
    (hreject : (∀ n, normalFrom c (moves (keyPart url)) = some n →
      normalizePath s.fs (getCachePath cacheDir pRepo "keys".toList) = .ok (render c) →
      normalizePath s.fs (joinPath [render c, keyPart url]) = .ok (render n) →
        ¬ render c <+: render n) → ∀ e, E e s)
    (haccept : ∀ n, normalFrom c (moves (keyPart url)) = some n →
      (∀ size, s.fs.node n.tail ≠ some (.file size)) → render c <+: render n →
        wp (ifMissing (render n.tail) (makeDirs (render n.tail)))
          (fun _ u => wp (downloadFile pRepo t url (keyFile c url))
            (fun _ v => Q (render n) v) E u) E s) :
    wp (fetchRemoteGPGKey cacheDir pRepo t url) Q E s := by
  obtain rfl := keyPath_eq hpath
  simp only [fetchRemoteGPGKey, url_ne_nil hpath, if_false, wp_bind, hpath, wp_fromExcept, wp_get]
  refine ⟨?_, fun e he => by cases he⟩
  rintro key hkey
  cases hkey
  refine ⟨fun real hreal => ?_, fun e he => ?_⟩
  · obtain ⟨c', hc', rfl, -⟩ := normalizePath_ok hreal
    obtain rfl : c' = c := by
      simp only [keyCacheDir] at hc
      split at hc
      · exact Option.some.inj (hc'.symm.trans hc)
      · cases hc
    refine ⟨fun normal hnormal => ?_, fun e he => ?_⟩
    · obtain ⟨n, hn, rfl, hfile⟩ := normalizePath_ok hnormal
      rw [normalFrom_join] at hn
      rw [wp_ite, dirname_render]
      refine ⟨fun hstarts => ?_, fun hstarts => ?_⟩
      · rw [wp_bind, wp_throw]
        refine hreject (fun n' hn' _ _ => ?_) _
        rwa [Option.some.inj (hn'.symm.trans hn)]
      · simp only [wp_bind, wp_pure]
        exact haccept n hn hfile (not_not.mp hstarts)
    · refine hreject (fun n _ _ hnormal => ?_) e
      rw [he] at hnormal
      cases hnormal
  · refine hreject (fun n _ hreal _ => ?_) e
    rw [he] at hreal
    cases hreal

/-- A download that succeeds needed its directories. -/
theorem not_needsDir {n : Loc} {file : Text} {u : Disk} (hparent : u.fs.node n.tail = some .dir)
    (hwritable : u.fs.Writable (tmpOf file)) {l : Loc} (hl : u.fs.node l ≠ some .dir) :
    ¬ NeedsDir n file l := by
  intro hneeds
  refine hl (dir_of_skeleton (fun d hd => ?_) hneeds)
  obtain rfl | hd := List.mem_cons.mp hd
  · exact hparent
  · apply hwritable.dirs d
    rwa [tmpOf, dirsOf_append file not_mem_tmp]

theorem keyContained_of_safe {cacheDir : Text} {pRepo : RepoData} {url : Text}
    (h : ∀ c, keyCacheDir cacheDir pRepo = some c → KeySafe c url) :
    KeyContained cacheDir pRepo url := by
  intro c hc t fs
  rw [contained_iff_wp, ← locOf_keyFile]
  cases hpath : keyPath url with
  | error e =>
      by_cases hurl : url = []
      · simp [fetchRemoteGPGKey, hurl]
      · simp [fetchRemoteGPGKey, hurl, hpath]
  | ok path =>
      apply wp_fetchRemoteGPGKey hc hpath (fun _ _ _ => rfl)
      intro n hn hfile hstarts
      have hsafe := (h c hc).resolve_left (by simp [hpath]) n hn hstarts
      obtain ⟨hl, hsafe⟩ | ⟨hl, hlength, hneeds⟩ := hsafe
      · refine wp_mono (parentDir_spec n.tail hfile) (fun _ u hu => ?_) fun _ u _ hout =>
          absurd hl hout
        refine wp_mono (downloadFile_spec pRepo t url (keyFile c url) u) (fun _ v hv => ?_)
          fun _ v _ hout => absurd hl hout
        obtain ⟨hextends, hmem, hwritable, hname, hnode⟩ := hv
        have htmp := not_needsDir hu.2 hwritable hwritable.notDir
        have htarget := not_needsDir hu.2 hwritable hnode
        obtain rfl | hsafe | hsafe | hsafe := hsafe
        · refine ⟨hl, fun f hf => ?_, _, rfl, hl, .inl hmem⟩
          have hlast : IsName (lastPiece (keyFile c url)) := by
            rw [keyFile, lastPiece_of_isName hname]
            exact hname
          refine filesOf_below hlast hl f ((hextends.wrote f hf).resolve_left fun hold => ?_)
          simpa [Disk.start] using hu.1.wrote f hold
        · exact absurd hname hsafe
        · exact absurd hsafe htarget
        · exact absurd hsafe htmp
      · have hnil : n.tail = [] := by
          rw [← List.length_eq_zero_iff, List.length_tail]
          omega
        have hroot : (Disk.start fs).fs.node n.tail = some .dir := by
          rw [hnil]
          exact fs.root
        apply wp_ifMissing_of_node hroot
        refine wp_mono (downloadFile_spec pRepo t url (keyFile c url) (Disk.start fs)) ?_ ?_
        · rintro - v ⟨-, -, hwritable, -⟩
          exact absurd hneeds (not_needsDir hroot hwritable hwritable.notDir)
        · rintro - v (⟨rfl, -⟩ | ⟨-, -, hwritable⟩)
          · exact fun _ => rfl
          · exact absurd hneeds (not_needsDir hroot hwritable hwritable.notDir)

/-- Everything the call looks at where only directories lie about. -/
theorem key_accepts {cacheDir : Text} {pRepo : RepoData} {t : Transfer} {c n : Loc}
    {url path : Text} {Q : Text → Disk → Prop} {E : TdnfError → Disk → Prop} (dirs : List Loc)
    (hc : keyCacheDir cacheDir pRepo = some c) (hpath : keyPath url = .ok path)
    (hn : normalFrom c (moves (keyPart url)) = some n) (hstarts : render c <+: render n)
    (h : wp (ifMissing (render n.tail) (makeDirs (render n.tail)))
      (fun _ u => wp (downloadFile pRepo t url (keyFile c url)) (fun _ v => Q (render n) v) E u)
        E (Disk.start (skeleton dirs))) :
    wp (fetchRemoteGPGKey cacheDir pRepo t url) Q E (Disk.start (skeleton dirs)) := by
  refine wp_fetchRemoteGPGKey hc hpath (fun hreject => ?_) fun n' hn' _ _ => ?_
  · refine absurd hstarts (hreject n hn ?_ ?_)
    · simp only [keyCacheDir] at hc
      split at hc
      · rename_i habsolute
        exact normalizePath_of_noFiles (skeleton_noFiles dirs) habsolute hc
      · cases hc
    · refine normalizePath_of_noFiles (skeleton_noFiles dirs) ?_ ?_
      · exact head_joinPath (head_render c) [keyPart url]
      · rw [normalFrom_join, hn]
  · rwa [Option.some.inj (hn'.symm.trans hn)]

theorem keyFile_ne_nil {c : Loc} {url : Text} : keyFile c url ≠ [] := by
  rw [keyFile, basenameRest]
  split
  · exact joinPath_ne_nil c [keyPart url]
  · rename_i hstrip
    exact hstrip

/-- Where its directories are and no directory is in its place, the temporary file is opened. -/
theorem opens_of_not_needsDir {c n : Loc} {url path : Text} (hpath : keyPath url = .ok path)
    (htmp : ¬ NeedsDir n (keyFile c url) (locOf (tmpOf (keyFile c url)))) :
    Opens goodTransfer url (keyFile c url) (skeleton (n.tail :: dirsOf (keyFile c url))) := by
  refine ⟨url_ne_nil hpath, keyFile_ne_nil, rfl, ?_, fun d hd => ?_, htmp⟩
  · rw [tmpOf, List.head?_append_of_ne_nil _ keyFile_ne_nil]
    exact head_basenameRest (head_joinPath (head_render c) [keyPart url])
  · rw [tmpOf, dirsOf_append _ not_mem_tmp] at hd
    exact skeleton_of_mem (List.mem_cons_of_mem _ hd)

/-- A URL that leads elsewhere and makes directories is not contained. -/
theorem length_le_one {cacheDir : Text} {pRepo : RepoData} {c n : Loc} {url path : Text}
    (h : KeyContained cacheDir pRepo url) (hc : keyCacheDir cacheDir pRepo = some c)
    (hpath : keyPath url = .ok path) (hn : normalFrom c (moves (keyPart url)) = some n)
    (hstarts : render c <+: render n) (hl : ¬ Below c (locOf (keyFile c url))) :
    n.length ≤ 1 := by
  by_contra hlength
  have htail : n.tail ≠ [] := by
    rw [ne_eq, ← List.length_eq_zero_iff, List.length_tail]
    omega
  have hcontained := contained_iff_wp.mp (h c hc goodTransfer (skeleton []))
  rw [← locOf_keyFile] at hcontained
  have hkeeps : ∀ u : Disk, u.made ≠ [] →
      wp (downloadFile pRepo goodTransfer url (keyFile c url)) (fun _ v => v.made ≠ [])
        (fun _ v => v.made ≠ []) u := by
    intro u hu
    obtain ⟨l, hl⟩ := List.exists_mem_of_ne_nil u.made hu
    exact wp_mono (downloadFile_extends pRepo goodTransfer url (keyFile c url) u)
      (fun _ v hv => List.ne_nil_of_mem (hv.1.keptMade l hl))
      fun _ v hv => List.ne_nil_of_mem (hv.keptMade l hl)
  have hmakes := key_accepts (t := goodTransfer) (Q := fun _ u => u.made ≠ [])
    (E := fun _ u => u.made ≠ []) [] hc hpath hn hstarts (by
      have hnone : (skeleton []).node n.tail = none :=
        skeleton_none (by simp [skeleton_dir, htail])
      have haccess := (skeleton_noFiles []).access_error (p := render n.tail)
        (by rwa [locOf_render])
      rw [wp_ifMissing, Disk.start, haccess]
      refine ⟨fun he => ?_, fun _ => ?_, fun e he hne => ?_⟩
      · cases he
      · exact wp_mono (makeDirs_makes htail) (fun _ u hu => hkeeps u hu) fun _ _ => id
      · exact absurd (Except.error.inj he).symm hne)
  refine not_wp_false (wp_mono (wp_and hmakes hcontained) ?_ ?_)
  · rintro - u ⟨-, hbelow, -⟩
    exact hl hbelow
  · rintro - u ⟨hmade, hstart⟩
    rw [hstart hl] at hmade
    exact hmade rfl

/-- A URL that leads elsewhere to a place that can be written is not contained. -/
theorem needsDir_of_elsewhere {cacheDir : Text} {pRepo : RepoData} {c n : Loc} {url path : Text}
    (h : KeyContained cacheDir pRepo url) (hc : keyCacheDir cacheDir pRepo = some c)
    (hpath : keyPath url = .ok path) (hn : normalFrom c (moves (keyPart url)) = some n)
    (hstarts : render c <+: render n) (hl : ¬ Below c (locOf (keyFile c url))) :
    NeedsDir n (keyFile c url) (locOf (tmpOf (keyFile c url))) := by
  by_contra htmp
  have hopens := opens_of_not_needsDir hpath htmp
  have hparent : (skeleton (n.tail :: dirsOf (keyFile c url))).node n.tail = some .dir :=
    skeleton_of_mem List.mem_cons_self
  have hcontained := contained_iff_wp.mp
    (h c hc goodTransfer (skeleton (n.tail :: dirsOf (keyFile c url))))
  rw [← locOf_keyFile] at hcontained
  have hwrites := key_accepts (t := goodTransfer) (Q := fun _ u => u.wrote ≠ [])
    (E := fun _ u => u.wrote ≠ []) _ hc hpath hn hstarts (wp_ifMissing_of_node hparent
      (wp_mono (downloadFile_spec pRepo goodTransfer url (keyFile c url) (Disk.start _))
        (fun _ v hv => List.ne_nil_of_mem hv.2.1) fun _ v hv => by
          obtain ⟨-, hno⟩ | ⟨-, hmem, -⟩ := hv
          · exact absurd hopens hno
          · exact List.ne_nil_of_mem hmem))
  refine not_wp_false (wp_mono (wp_and hwrites hcontained) ?_ ?_)
  · rintro - u ⟨-, hbelow, -⟩
    exact hl hbelow
  · rintro - u ⟨hwrote, hstart⟩
    rw [hstart hl] at hwrote
    exact hwrote rfl

/-- The normal form does not end with the name of the temporary file. -/
theorem ne_tmp {c n : Loc} {url : Text} (hn : normalFrom c (moves (keyPart url)) = some n)
    (hname : IsName (basename (keyFile c url))) : n ≠ locOf (tmpOf (keyFile c url)) := by
  have hlast : IsName (lastPiece (keyFile c url)) := by
    rw [keyFile, lastPiece_of_isName hname]
    exact hname
  obtain ⟨a, ha⟩ := moves_of_isName hlast
  rw [← normalFrom_join, ← moves_basenameRest, ← keyFile, ha] at hn
  obtain ⟨d, rfl⟩ := normalFrom_down hn
  obtain ⟨name, hval, htmp⟩ := locOf_tmpOf hlast
  rw [htmp]
  intro heq
  have hhead : lastPiece (keyFile c url) = tmpOf (lastPiece (keyFile c url)) := by
    rw [← hval, ← (List.cons.inj heq).1]
  have hlength := congrArg List.length hhead
  simp [tmpOf] at hlength

/-- Below the cache directory the key is written to one place and another one returned, unless
they are the same or the place cannot be written. -/
theorem safe_of_below {cacheDir : Text} {pRepo : RepoData} {c n : Loc} {url path : Text}
    (h : KeyContained cacheDir pRepo url) (hc : keyCacheDir cacheDir pRepo = some c)
    (hpath : keyPath url = .ok path) (hn : normalFrom c (moves (keyPart url)) = some n)
    (hstarts : render c <+: render n) (hname : IsName (basename (keyFile c url)))
    (htarget : ¬ NeedsDir n (keyFile c url) (locOf (keyFile c url)))
    (htmp : ¬ NeedsDir n (keyFile c url) (locOf (tmpOf (keyFile c url)))) :
    n = locOf (keyFile c url) := by
  have hopens := opens_of_not_needsDir hpath htmp
  have hparent : (skeleton (n.tail :: dirsOf (keyFile c url))).node n.tail = some .dir :=
    skeleton_of_mem List.mem_cons_self
  obtain ⟨u, hrun⟩ := downloadFile_succeeds pRepo
    (s := Disk.start (skeleton (n.tail :: dirsOf (keyFile c url)))) hopens rfl rfl rfl hname htarget
  obtain ⟨hextends, hmem, -⟩ := wp_ok (downloadFile_spec pRepo goodTransfer url _ _) hrun
  have hwp := key_accepts (Q := fun path v => path = render n ∧ v = u) (E := fun _ _ => False)
    _ hc hpath hn hstarts (wp_ifMissing_of_node hparent (wp_of_ok hrun ⟨rfl, rfl⟩))
  have hcontained := contained_iff_wp.mp
    (h c hc goodTransfer (skeleton (n.tail :: dirsOf (keyFile c url))))
  obtain ⟨path, v, -, ⟨hv, rfl⟩, -, hplaced⟩ :=
    exists_ok (wp_mono (wp_and hwp hcontained) (fun _ _ => id) fun _ _ => And.left)
  obtain ⟨-, f, hf, -, hfile⟩ := hplaced
  rw [← render_injective (hv.symm.trans hf)] at hfile
  obtain hfile | ⟨hnil, -⟩ := hfile
  · have hfiles := (hextends.wrote n hfile).resolve_left List.not_mem_nil
    simp only [filesOf, List.mem_cons, List.not_mem_nil, or_false] at hfiles
    exact hfiles.resolve_left (ne_tmp hn hname)
  · rw [hnil] at hmem
    exact absurd hmem List.not_mem_nil

theorem keySafe_of_contained {cacheDir : Text} {pRepo : RepoData} {url : Text}
    (h : KeyContained cacheDir pRepo url) {c : Loc} (hc : keyCacheDir cacheDir pRepo = some c) :
    KeySafe c url := by
  cases hpath : keyPath url with
  | error e => exact .inl ⟨e, hpath⟩
  | ok path =>
      apply Or.inr
      intro n hn hstarts
      by_cases hl : Below c (locOf (keyFile c url))
      · refine .inl ⟨hl, ?_⟩
        by_cases hname : IsName (basename (keyFile c url))
        · by_cases htarget : NeedsDir n (keyFile c url) (locOf (keyFile c url))
          · exact .inr (.inr (.inl htarget))
          · by_cases htmp : NeedsDir n (keyFile c url) (locOf (tmpOf (keyFile c url)))
            · exact .inr (.inr (.inr htmp))
            · exact .inl (safe_of_below h hc hpath hn hstarts hname htarget htmp)
        · exact .inr (.inl hname)
      · exact .inr ⟨hl, length_le_one h hc hpath hn hstarts hl,
          needsDir_of_elsewhere h hc hpath hn hstarts hl⟩

/-- Downloads stay inside the cache directory exactly for the safe locations and the safe URLs. -/
theorem downloads_contained_iff (c : Loc) (location pkgName cacheDir url : Text)
    (pRepo : RepoData) :
    (TreeContained c location pkgName ↔ TreeSafe c location pkgName) ∧
      (KeyContained cacheDir pRepo url ↔
        ∀ c', keyCacheDir cacheDir pRepo = some c' → KeySafe c' url) :=
  ⟨⟨treeSafe_of_contained, treeContained_of_safe⟩,
    ⟨fun h _ hc => keySafe_of_contained h hc, keyContained_of_safe⟩⟩

/-- A sibling of the cache directory whose name starts with the name of the cache directory passes
the comparison of texts. -/
theorem downloads_escape_sibling :
    ¬ TreeContained [⟨"c".toList, by decide⟩] "../c-evil/x.rpm".toList "x".toList ∧
      ¬ KeyContained "/c".toList ⟨"r".toList, none, [], 0⟩ "http://h/../keys-evil/k".toList := by
  constructor
  · intro h
    obtain h | h | h := treeSafe_of_contained h
    · exact absurd h (by decide)
    · exact absurd h (by decide)
    · have hsafe := h [⟨"x.rpm".toList, by decide⟩, ⟨"c-evil".toList, by decide⟩]
        (by decide) (by decide)
      exact absurd hsafe.1 (by decide)
  · intro h
    have hc : keyCacheDir "/c".toList ⟨"r".toList, none, [], 0⟩ =
        some [⟨"keys".toList, by decide⟩, ⟨"r".toList, by decide⟩, ⟨"c".toList, by decide⟩] := by
      decide
    obtain ⟨e, he⟩ | h := keySafe_of_contained h hc
    · have hok : (keyPath "http://h/../keys-evil/k".toList).toOption ≠ none := by decide
      exact hok (by rw [he]; rfl)
    · obtain h | h := h [⟨"k".toList, by decide⟩, ⟨"keys-evil".toList, by decide⟩,
        ⟨"r".toList, by decide⟩, ⟨"c".toList, by decide⟩] (by decide) (by decide)
      · exact absurd h.1 (by decide)
      · exact absurd h.2.1 (by decide)

end Tdnf.Client
