import Tdnf.Client.Repo
import Tdnf.Common.Path
import Tdnf.Library.Chain
import Tdnf.Library.Lockstep
import Mathlib.Data.List.Perm.Lattice

/-!
# The list of repositories

`TDNFLoadRepoData` builds the list of repositories through a pointer to its end.
Three producers add to it: options that name a URL, options that name a
directory, and the `.repo` files of the configuration directory.
-/

namespace Tdnf.Client

open PathText Common Chain Chain.Heap

/-- A section of a `.repo` file: its name, and the keys in it with their values. -/
structure Section where
  name : Text
  entries : List (String × Option Text)

/-- What the loading of repositories reads and calls; the plugins keep a state of their own. -/
structure RepoHost (σ : Type) where
  /-- `nSSLVerify` of the main configuration -/
  nSSLVerify : Bool
  pszRepoDir : Text
  /-- `TDNFIsDir` -/
  isDir : Text → Except TdnfError Bool
  /-- the names that `readdir` yields for the configuration directory, or nothing if it cannot
  be opened -/
  readRepoDir : Option (List Text)
  /-- the sections of a `.repo` file -/
  parseFile : Text → Except TdnfError (List Section)
  /-- `TDNFEventRepoReadConfigStart` -/
  readConfigStart : Section → σ → Except TdnfError σ
  /-- `TDNFEventRepoReadConfigEnd` -/
  readConfigEnd : Section → σ → Except TdnfError σ

/-! ## One repository -/

/-- The multiplier that stands behind the number of `metadata_expire`. -/
def expireMultiplier : Text → Except TdnfError ℤ
  | [] => .ok 1
  | 's' :: _ => .ok 1
  | 'm' :: _ => .ok 60
  | 'h' :: _ => .ok (60 * 60)
  | 'd' :: _ => .ok (60 * 60 * 24)
  | _ => .error .metadataExpireParse

/-- What a `long` of 64 bits holds after an operation; a result that does not fit wraps around. -/
def wrapLong (n : ℤ) : ℤ := n.bmod 18446744073709551616

/-- `TDNFParseMetadataExpire` -/
def parseMetadataExpire (s : Text) : Except TdnfError ℤ :=
  if s = [] then .error .invalidParameter
  else if equalsCase s "never".toList then .ok (-1)
  else
    let (n, rest) := strtol s
    if n < 0 then .ok (-1)
    else if 0 < n then do
      let multiplier ← expireMultiplier rest
      return wrapLong (n * multiplier)
    else if rest ≠ [] then .error .metadataExpireParse
    else .ok 0

/-- One key of a section in `TDNFLoadReposFromFile` -/
def readEntry (repo : Repo) (key : String) (value : Text) : Except TdnfError Repo :=
  match key with
  | "enabled" => .ok { repo with nEnabled := isTrue value }
  | "name" => .ok { repo with pszName := some value }
  | "baseurl" => .ok { repo with ppszBaseUrls := some (splitStringToArray value ' ') }
  | "metalink" => .ok { repo with pszMetaLink := some value }
  | "mirrorlist" => .ok { repo with pszMirrorList := some value }
  | "skip_if_unavailable" => .ok { repo with nSkipIfUnavailable := isTrue value }
  | "gpgcheck" => .ok { repo with nGPGCheck := isTrue value }
  | "gpgkey" => .ok { repo with ppszUrlGPGKeys := some (splitStringToArray value ' ') }
  | "username" => .ok { repo with pszUser := some value }
  | "password" => .ok { repo with pszPass := some value }
  | "priority" => .ok { repo with nPriority := strtoi value }
  | "timeout" => .ok { repo with nTimeout := strtoi value }
  | "retries" => .ok { repo with nRetries := strtoi value }
  | "minrate" => .ok { repo with nMinrate := strtoi value }
  | "throttle" => .ok { repo with nThrottle := strtoi value }
  | "sslverify" => .ok { repo with nSSLVerify := isTrue value }
  | "sslcacert" => .ok { repo with pszSSLCaCert := some value }
  | "sslclientcert" => .ok { repo with pszSSLClientCert := some value }
  | "sslclientkey" => .ok { repo with pszSSLClientKey := some value }
  | "metadata_expire" => do
    let lMetadataExpire ← parseMetadataExpire value
    return { repo with lMetadataExpire }
  | "skip_md_filelists" => .ok { repo with nSkipMDFileLists := isTrue value }
  | "skip_md_updateinfo" => .ok { repo with nSkipMDUpdateInfo := isTrue value }
  | "skip_md_other" => .ok { repo with nSkipMDOther := isTrue value }
  | _ => .ok repo

/-- One round of the key loop: names that start with a dot and keys without a value are
skipped. -/
def readKey (repo : Repo) (entry : String × Option Text) : Except TdnfError Repo :=
  match entry.1.toList, entry.2 with
  | '.' :: _, _ => .ok repo
  | _, none => .ok repo
  | _, some value => readEntry repo entry.1 value

variable {σ : Type} (host : RepoHost σ)

/-- The repository of a section in `TDNFLoadReposFromFile` -/
def readSection (sec : Section) (plugins : σ) : Except TdnfError (Repo × σ) := do
  let plugins ← host.readConfigStart sec plugins
  let repo ← sec.entries.foldlM readKey (createRepo host.nSSLVerify sec.name)
  let plugins ← host.readConfigEnd sec plugins
  -- default to repo id if name isn't set
  return ({ repo with pszName := some (repo.pszName.getD repo.pszId) }, plugins)

/-- `TDNFCreateCmdLineRepo` -/
def createCmdLineRepo : Repo :=
  { createRepo host.nSSLVerify cmdlineRepoName with
    nHasMetaData := false, pszName := some cmdlineRepoName }

/-- The URL that `TDNFCreateRepoFromPath` finds for a path; a file at an absolute path has
none. -/
def urlOfPath (pszPath : Text) : Except TdnfError (List Text) :=
  if pszPath.head? = some '/' then do
    let nIsDir ← host.isDir pszPath
    return if nIsDir then ["file://".toList ++ pszPath] else []
  else do
    let _ ← uriIsRemote pszPath
    return [pszPath]

/-- `TDNFCreateRepoFromPath` -/
def createRepoFromPath (pszId pszPath : Text) : Except TdnfError Repo := do
  let urls ← urlOfPath host pszPath
  return { createRepo host.nSSLVerify pszId with
    nEnabled := true, pszName := some pszId, ppszBaseUrls := some urls }

/-- `TDNFCreateRepoFromDirectory` -/
def createRepoFromDirectory (pszId pszPath : Text) : Except TdnfError Repo := do
  let nIsDir ← host.isDir pszPath
  if nIsDir then
    return { createRepo host.nSSLVerify pszId with
      nHasMetaData := false, nEnabled := true, pszName := some pszId,
      ppszBaseUrls := some [pszPath] }
  else throw .invalidParameter

/-- The id and the path of a `repofrompath` or `repofromdir` option. -/
def urlIdTuple (pszOptValue : Text) : Except TdnfError (Text × Text) :=
  match splitStringToArray pszOptValue ',' with
  | pszId :: pszPath :: _ => .ok (pszId, pszPath)
  | _ => .error .invalidParameter

/-! ## The list -/

/-- The repositories allocated so far, with `pReposAll` and the pointers in them, and the slot
at which the next one is stored. -/
structure Builder where
  heap : Heap Repo
  ppRepoNext : Slot

/-- One round of the option loop in `TDNFLoadRepoData` -/
def addOption (b : Builder) (o : CmdOpt) : Except TdnfError Builder :=
  if o.pszOptName = "repofrompath" then do
    let (pszId, pszPath) ← urlIdTuple o.pszOptValue
    let repo ← createRepoFromPath host pszId pszPath
    let heap := (b.heap.alloc repo none).store b.ppRepoNext (some b.heap.nodes.length)
    return ⟨heap, heap.link b.ppRepoNext⟩
  else if o.pszOptName = "repofromdir" then do
    let (pszId, pszPath) ← urlIdTuple o.pszOptValue
    let repo ← createRepoFromDirectory host pszId pszPath
    -- the repository is stored in `pReposAll`
    let heap := (b.heap.alloc repo none).store none (some b.heap.nodes.length)
    return ⟨heap, b.ppRepoNext⟩
  else return b

/-- The repositories of a file so far: the heap, `pRepos`, and the state of the plugins. -/
structure FileBuilder (σ : Type) where
  heap : Heap Repo
  pRepos : Option ℕ
  plugins : σ

/-- One round of the section loop in `TDNFLoadReposFromFile` -/
def addSection (s : FileBuilder σ) (sec : Section) : Except TdnfError (FileBuilder σ) :=
  if sec.name.head? = some '.' then return s
  else do
    let (repo, plugins) ← readSection host sec s.plugins
    return ⟨s.heap.alloc repo s.pRepos, some s.heap.nodes.length, plugins⟩

/-- `TDNFLoadReposFromFile` -/
def loadReposFromFile (heap : Heap Repo) (plugins : σ) (pszRepoFile : Text) (ppRepos : Slot) :
    Except TdnfError (Heap Repo × σ) := do
  let sections ← host.parseFile pszRepoFile
  let s ← sections.foldlM (addSection host) ⟨heap, none, plugins⟩
  return (s.heap.store ppRepos s.pRepos, s.plugins)

/-- Whether a directory entry is a `.repo` file. -/
def isRepoFile (name : Text) : Bool :=
  ".repo".toList.length < name.length && ".repo".toList.isSuffixOf name

/-- One round of the directory loop in `TDNFLoadRepoData` -/
def addFile (s : Builder × σ) (name : Text) : Except TdnfError (Builder × σ) :=
  if isRepoFile name then do
    let (heap, plugins) ← loadReposFromFile host s.1.heap s.2 (joinPath [host.pszRepoDir, name])
      s.1.ppRepoNext
    -- may have added multiple repos, go to last one
    return (⟨heap, heap.seek heap.nodes.length s.1.ppRepoNext⟩, plugins)
  else return s

/-- The double loop that looks for two repositories with one id. -/
def hasDuplicateId : List Repo → Bool
  | [] => false
  | repo :: repos => repos.any (fun next => repo.pszId == next.pszId) || hasDuplicateId repos

/-- The part of `TDNFLoadRepoData` that builds the list. -/
def buildRepos (opts : List CmdOpt) (plugins : σ) : Except TdnfError Builder := do
  let heap := (Heap.empty.alloc (createCmdLineRepo host) none).store none (some 0)
  let b ← opts.foldlM (addOption host) ⟨heap, heap.link none⟩
  match host.readRepoDir with
  | none => throw .repoDirOpen
  | some names =>
    let (b, _) ← names.foldlM (addFile host) (b, plugins)
    return b

/-- `TDNFLoadRepoData` -/
def loadRepoData (opts : List CmdOpt) (plugins : σ) : Except TdnfError (List Repo) := do
  let b ← buildRepos host opts plugins
  let repos := b.heap.contents
  if hasDuplicateId repos then throw .duplicateRepoId
  else return repos

/-! ## What the list is for -/

/-- The repositories with the one that an option names. -/
def gatherOption (repos : List Repo) (o : CmdOpt) : Except TdnfError (List Repo) :=
  if o.pszOptName = "repofrompath" then do
    let (pszId, pszPath) ← urlIdTuple o.pszOptValue
    let repo ← createRepoFromPath host pszId pszPath
    return repos ++ [repo]
  else if o.pszOptName = "repofromdir" then do
    let (pszId, pszPath) ← urlIdTuple o.pszOptValue
    let repo ← createRepoFromDirectory host pszId pszPath
    return repos ++ [repo]
  else return repos

/-- The repositories with the one that a section describes. -/
def gatherSection (s : List Repo × σ) (sec : Section) : Except TdnfError (List Repo × σ) :=
  if sec.name.head? = some '.' then return s
  else do
    let (repo, plugins) ← readSection host sec s.2
    return (s.1 ++ [repo], plugins)

/-- The repositories with those that a `.repo` file describes. -/
def gatherFile (s : List Repo × σ) (name : Text) : Except TdnfError (List Repo × σ) :=
  if isRepoFile name then do
    let sections ← host.parseFile (joinPath [host.pszRepoDir, name])
    sections.foldlM (gatherSection host) s
  else return s

/-- All repositories that the options and the configuration directory describe, in the order in
which they are found; it fails where one of them cannot be made. -/
def gather (opts : List CmdOpt) (plugins : σ) : Except TdnfError (List Repo) := do
  let repos ← opts.foldlM (gatherOption host) [createCmdLineRepo host]
  match host.readRepoDir with
  | none => throw .repoDirOpen
  | some names =>
    let (repos, _) ← names.foldlM (gatherFile host) (repos, plugins)
    return repos

/-- The list has every repository once, with distinct ids, and it is refused for a double id
where nothing else fails exactly if there is one. -/
def Complete (opts : List CmdOpt) (plugins : σ) : Prop :=
  (∀ repos, loadRepoData host opts plugins = .ok repos →
    ∃ all, gather host opts plugins = .ok all ∧ repos.Perm all ∧ (repos.map Repo.pszId).Nodup) ∧
  ∀ all, gather host opts plugins = .ok all →
    (loadRepoData host opts plugins = .error .duplicateRepoId ↔ ¬ (all.map Repo.pszId).Nodup)

theorem hasDuplicateId_eq_false (repos : List Repo) :
    hasDuplicateId repos = false ↔ (repos.map Repo.pszId).Nodup := by
  induction repos with
  | nil => simp [hasDuplicateId]
  | cons repo repos ih =>
      rw [hasDuplicateId, Bool.or_eq_false_iff, ih, List.map_cons, List.nodup_cons]
      apply and_congr_left
      intro _
      rw [List.any_eq_false]
      constructor
      · intro hany hmem
        obtain ⟨next, hnext, heq⟩ := List.mem_map.mp hmem
        exact hany next hnext (beq_iff_eq.mpr heq.symm)
      · intro hmem next hnext heq
        apply hmem
        rw [beq_iff_eq.mp heq]
        exact List.mem_map_of_mem hnext

/-! ## What the builder holds -/

/-- The list holds the repositories gathered so far and is extended at its end. -/
def Intact (b : Builder) (all : List Repo) : Prop :=
  ∃ ids repos, Holds b.heap none ids repos ∧ b.ppRepoNext = lastSlot none ids ∧ ids ≠ [] ∧
    repos.Perm all

/-- The list holds one repository, and the slot to extend it belongs to a list that is lost. -/
def Replaced (b : Builder) : Prop :=
  ∃ i repo, Holds b.heap none [i] [repo] ∧ Holds b.heap b.ppRepoNext [] [] ∧
    b.ppRepoNext ∉ [none, some i]

/-- What the builder holds when repositories were gathered, with or without one from a
directory. -/
def Tracks : Bool → Builder → List Repo → Prop
  | false, b, all => Intact b all
  | true, b, all => Replaced b ∧ 2 ≤ all.length

variable {host} {b : Builder} {all more : List Repo} {fromDir : Bool} {heap : Heap Repo}
  {p : Option ℕ} {ids : List ℕ} {items : List Repo}

theorem Intact.next (h : Intact b all) :
    Holds b.heap b.ppRepoNext [] [] ∧ b.ppRepoNext ≠ none ∧ all ≠ [] := by
  obtain ⟨ids, repos, hholds, hnext, hids, hperm⟩ := h
  rw [hnext]
  refine ⟨hholds.tail, ?_, ?_⟩
  · cases hlast : ids.getLast? with
    | none => exact absurd (List.getLast?_eq_none_iff.mp hlast) hids
    | some i => simp [lastSlot, hlast]
  · rintro rfl
    have hitems : ids.map (fun i => b.heap.nodes[i]?) = repos.map some := hholds.items
    rw [hperm.eq_nil, List.map_nil, List.map_eq_nil_iff] at hitems
    exact hids hitems

/-- The slot to extend a list is the end of one, and not the variable itself. -/
theorem Tracks.next (h : Tracks fromDir b all) :
    Holds b.heap b.ppRepoNext [] [] ∧ b.ppRepoNext ≠ none ∧ all ≠ [] := by
  cases fromDir with
  | false => exact Intact.next h
  | true =>
      obtain ⟨⟨i, repo, hholds, hnext, hne⟩, hlength⟩ := h
      refine ⟨hnext, ?_, ?_⟩
      · intro heq
        apply hne
        rw [heq]
        exact List.mem_cons_self
      · rintro rfl
        exact absurd hlength (by decide)

theorem Tracks.old (h : Tracks fromDir b all) : Old b.heap.nodes.length b.ppRepoNext :=
  h.next.1.old _ List.mem_cons_self

theorem Intact.append (h : Intact b all) (hb : Batch b.heap heap p ids items)
    (hperm : items.Perm more) :
    Intact ⟨heap.store b.ppRepoNext p, lastSlot b.ppRepoNext ids⟩ (all ++ more) := by
  obtain ⟨ids₀, repos, hholds, hnext, hids, hall⟩ := h
  refine ⟨ids₀ ++ ids, repos ++ items, ?_, ?_, ?_, hall.append hperm⟩
  · rw [hnext]
    exact hholds.append hb
  · rw [hnext, lastSlot_append]
  · exact List.append_ne_nil_of_left_ne_nil hids ids

theorem Replaced.append (h : Replaced b) (hb : Batch b.heap heap p ids items) :
    Replaced ⟨heap.store b.ppRepoNext p, lastSlot b.ppRepoNext ids⟩ := by
  obtain ⟨i, repo, hholds, hnext, hne⟩ := h
  refine ⟨i, repo, hholds.frame hb hne p, (hnext.append hb).tail, ?_⟩
  intro hmem
  obtain heq | hmem' := List.mem_cons.mp (lastSlot_mem b.ppRepoNext ids)
  · rw [heq] at hmem
    exact hne hmem
  · obtain ⟨j, hj, hlast⟩ := List.mem_map.mp hmem'
    rw [← hlast] at hmem
    have hold : j < b.heap.nodes.length := hholds.old (some j) hmem j rfl
    exact Nat.not_lt_of_le (hb.bounds j hj).1 hold

/-- A batch is stored where the list is extended. -/
theorem Tracks.append (h : Tracks fromDir b all) (hb : Batch b.heap heap p ids items)
    (hperm : items.Perm more) :
    Tracks fromDir ⟨heap.store b.ppRepoNext p, lastSlot b.ppRepoNext ids⟩ (all ++ more) := by
  cases fromDir with
  | false => exact Intact.append h hb hperm
  | true =>
      refine ⟨h.1.append hb, h.2.trans ?_⟩
      rw [List.length_append]
      exact Nat.le_add_right _ _

/-- A repository from a directory is stored over the list. -/
theorem Tracks.replace (h : Tracks fromDir b all) (repo : Repo) :
    Tracks true ⟨(b.heap.alloc repo none).store none (some b.heap.nodes.length), b.ppRepoNext⟩
      (all ++ [repo]) := by
  obtain ⟨hnext, hne, hall⟩ := h.next
  have hb := Batch.one b.heap repo
  refine ⟨⟨b.heap.nodes.length, repo, hb.holds, hnext.frame hb ?_ _, ?_⟩, ?_⟩
  · simpa using hne.symm
  · intro hmem
    obtain heq | hmem := List.mem_cons.mp hmem
    · exact hne heq
    · exact Nat.lt_irrefl _ (h.old _ (List.mem_singleton.mp hmem))
  · have hpos := List.length_pos_iff.mpr hall
    rw [List.length_append, List.length_singleton]
    exact Nat.succ_le_succ hpos

/-! ## Rounds of the loops -/

open Lockstep

/-- A round of the option loop keeps what the builder holds. -/
theorem addOption_tracks (h : Tracks fromDir b all) (o : CmdOpt) :
    Agree (Tracks (fromDir || decide (o.pszOptName = "repofromdir"))) (addOption host b o)
      (gatherOption host all o) := by
  rw [addOption, gatherOption]
  by_cases hpath : o.pszOptName = "repofrompath"
  · simp only [if_pos hpath]
    have hdir : decide (o.pszOptName = "repofromdir") = false := by simp [hpath]
    rw [hdir, Bool.or_false]
    refine (agree_refl _).bind fun tuple _ htuple => ?_
    subst htuple
    refine (agree_refl _).bind fun repo _ hrepo => ?_
    subst hrepo
    have happend := h.append (Batch.one b.heap repo) (List.Perm.refl [repo])
    simpa [pure, Except.pure, lastSlot] using happend
  · simp only [if_neg hpath]
    by_cases hdir : o.pszOptName = "repofromdir"
    · simp only [if_pos hdir, decide_eq_true hdir, Bool.or_true]
      refine (agree_refl _).bind fun tuple _ htuple => ?_
      subst htuple
      refine (agree_refl _).bind fun repo _ hrepo => ?_
      subst hrepo
      exact h.replace repo
    · simp only [if_neg hdir, decide_eq_false hdir, Bool.or_false]
      exact h

/-- The option loop keeps what the builder holds. -/
theorem addOptions_tracks (host : RepoHost σ) (h : Tracks fromDir b all) (opts : List CmdOpt) :
    Agree (Tracks (fromDir || opts.any fun o => decide (o.pszOptName = "repofromdir")))
      (opts.foldlM (addOption host) b) (opts.foldlM (gatherOption host) all) := by
  induction opts generalizing fromDir b all with
  | nil =>
      rw [List.any_nil, Bool.or_false]
      exact h
  | cons o opts ih =>
      rw [List.foldlM_cons, List.foldlM_cons, List.any_cons, ← Bool.or_assoc]
      exact (addOption_tracks h o).bind fun b' all' h' => ih h'

/-- The sections read so far are a batch in front of which the next one is put. -/
def FileTracks (h : Heap Repo) (all : List Repo) (s : FileBuilder σ) (t : List Repo × σ) : Prop :=
  ∃ ids more, Batch h s.heap s.pRepos ids more.reverse ∧ t = (all ++ more, s.plugins)

theorem addSection_tracks {h : Heap Repo} {s : FileBuilder σ} {t : List Repo × σ}
    (hs : FileTracks h all s t) (sec : Section) :
    Agree (FileTracks h all) (addSection host s sec) (gatherSection host t sec) := by
  obtain ⟨ids, more, hb, rfl⟩ := hs
  rw [addSection, gatherSection]
  by_cases hdot : sec.name.head? = some '.'
  · simp only [if_pos hdot]
    exact ⟨ids, more, hb, rfl⟩
  · simp only [if_neg hdot]
    refine (agree_refl _).bind fun read _ hread => ?_
    subst hread
    refine ⟨s.heap.nodes.length :: ids, more ++ [read.1], ?_, ?_⟩
    · rw [List.reverse_append]
      exact hb.cons read.1
    · rw [← List.append_assoc]

/-- A round of the directory loop keeps what the builder holds. -/
theorem addFile_tracks {s : Builder × σ} {t : List Repo × σ} (h : Tracks fromDir s.1 t.1)
    (hplugins : s.2 = t.2) (name : Text) :
    Agree (fun s t => Tracks fromDir s.1 t.1 ∧ s.2 = t.2) (addFile host s name)
      (gatherFile host t name) := by
  obtain ⟨b, plugins⟩ := s
  obtain ⟨all, _⟩ := t
  subst hplugins
  rw [addFile, gatherFile]
  by_cases hfile : isRepoFile name = true
  · simp only [if_pos hfile, loadReposFromFile, bind_assoc]
    refine (agree_refl _).bind fun sections _ hsections => ?_
    subst hsections
    have hloop : Agree (FileTracks b.heap all)
        (sections.foldlM (addSection host) ⟨b.heap, none, plugins⟩)
        (sections.foldlM (gatherSection host) (all, plugins)) := by
      apply agree_foldlM (fun s t sec hs => addSection_tracks hs sec)
      exact ⟨[], [], Batch.empty b.heap, by rw [List.append_nil]⟩
    rw [← bind_pure (sections.foldlM (gatherSection host) (all, plugins))]
    refine hloop.bind fun s t hs => ?_
    obtain ⟨ids, more, hb, rfl⟩ := hs
    refine ⟨?_, rfl⟩
    have happend := h.append hb more.reverse_perm
    rw [← hb.seek h.old] at happend
    exact happend
  · simp only [if_neg hfile]
    exact ⟨h, rfl⟩

/-- The list is built where the repositories are gathered. -/
theorem buildRepos_tracks (host : RepoHost σ) (opts : List CmdOpt) (plugins : σ) :
    Agree (Tracks (opts.any fun o => decide (o.pszOptName = "repofromdir")))
      (buildRepos host opts plugins) (gather host opts plugins) := by
  have hstart : Tracks false
      ⟨(Heap.empty.alloc (createCmdLineRepo host) none).store none (some 0), some 0⟩
      [createCmdLineRepo host] :=
    ⟨[0], [createCmdLineRepo host], (Batch.one Heap.empty _).holds, rfl, by simp, .refl _⟩
  rw [buildRepos, gather]
  have hopts := addOptions_tracks host hstart opts
  rw [Bool.false_or] at hopts
  refine hopts.bind fun b all htracks => ?_
  cases host.readRepoDir with
  | none => rfl
  | some names =>
      have hfiles : Agree
          (fun s t => Tracks (opts.any fun o => decide (o.pszOptName = "repofromdir")) s.1 t.1 ∧
            s.2 = t.2)
          (names.foldlM (addFile host) (b, plugins))
          (names.foldlM (gatherFile host) (all, plugins)) :=
        agree_foldlM (fun s t name hst => addFile_tracks hst.1 hst.2 name) names ⟨htracks, rfl⟩
      exact hfiles.bind fun s t hst => hst.1

/-! ## When the list is complete -/

theorem Intact.contents (h : Intact b all) : b.heap.contents.Perm all := by
  obtain ⟨ids, repos, hholds, -, -, hperm⟩ := h
  rw [hholds.contents]
  exact hperm

theorem Replaced.length_contents (h : Replaced b) : b.heap.contents.length = 1 := by
  obtain ⟨i, repo, hholds, -, -⟩ := h
  rw [hholds.contents, List.length_singleton]

theorem hasDuplicateId_perm {repos : List Repo} (hperm : repos.Perm all) :
    hasDuplicateId repos = false ↔ (all.map Repo.pszId).Nodup := by
  rw [hasDuplicateId_eq_false]
  exact (hperm.map Repo.pszId).nodup_iff

variable {opts : List CmdOpt} {plugins : σ}

theorem loadRepoData_of_build (hbuild : buildRepos host opts plugins = .ok b) :
    loadRepoData host opts plugins =
      if hasDuplicateId b.heap.contents then .error .duplicateRepoId
      else .ok b.heap.contents := by
  rw [loadRepoData, hbuild]
  rfl

/-- A list with every repository once is complete. -/
theorem complete_of_perm (hbuild : buildRepos host opts plugins = .ok b)
    (hgather : gather host opts plugins = .ok all) (hperm : b.heap.contents.Perm all) :
    Complete host opts plugins := by
  have hnodup := hasDuplicateId_perm hperm
  have hload := loadRepoData_of_build hbuild
  cases hcheck : hasDuplicateId b.heap.contents with
  | true =>
      rw [hcheck] at hload hnodup
      constructor
      · intro repos hrepos
        cases hload.symm.trans hrepos
      · intro all' hall
        cases hgather.symm.trans hall
        exact iff_of_true hload fun h => absurd (hnodup.mpr h) (by decide)
  | false =>
      rw [hcheck] at hload hnodup
      constructor
      · intro repos hrepos
        cases hload.symm.trans hrepos
        exact ⟨all, hgather, hperm, (hasDuplicateId_eq_false _).mp hcheck⟩
      · intro all' hall
        cases hgather.symm.trans hall
        refine iff_of_false ?_ (not_not_intro (hnodup.mp rfl))
        intro hfail
        cases hload.symm.trans hfail

/-- A single repository is not all of them. -/
theorem not_complete_of_replaced (hbuild : buildRepos host opts plugins = .ok b)
    (hgather : gather host opts plugins = .ok all) (hb : Replaced b) (hall : 2 ≤ all.length) :
    ¬ Complete host opts plugins := by
  have hlength := hb.length_contents
  have hload := loadRepoData_of_build hbuild
  have hcheck : hasDuplicateId b.heap.contents = false := by
    obtain ⟨repo, hrepo⟩ := List.length_eq_one_iff.mp hlength
    rw [hrepo]
    rfl
  rw [hcheck] at hload
  intro hcomplete
  obtain ⟨all', hgather', hperm, -⟩ := hcomplete.1 b.heap.contents hload
  cases hgather.symm.trans hgather'
  rw [← hperm.length_eq, hlength] at hall
  exact absurd hall (by decide)

/-- The list is complete exactly if no option names a directory, or one of the repositories
cannot be made. -/
theorem loadRepoData_complete_iff (host : RepoHost σ) (opts : List CmdOpt) (plugins : σ) :
    Complete host opts plugins ↔
      (∀ o ∈ opts, o.pszOptName ≠ "repofromdir") ∨
        ∃ e, gather host opts plugins = .error e := by
  have htracks := buildRepos_tracks host opts plugins
  cases hgather : gather host opts plugins with
  | error e =>
      rw [hgather] at htracks
      refine iff_of_true ⟨?_, ?_⟩ (Or.inr ⟨e, rfl⟩)
      · intro repos hrepos
        rw [loadRepoData, htracks.of_error_right] at hrepos
        cases hrepos
      · intro all hall
        cases hgather.symm.trans hall
  | ok all =>
      rw [hgather] at htracks
      obtain ⟨b, hbuild, hb⟩ := htracks.of_ok_right
      have hdirs : (opts.any fun o => decide (o.pszOptName = "repofromdir")) = false ↔
          ∀ o ∈ opts, o.pszOptName ≠ "repofromdir" := by
        simp
      have hno : ¬ ∃ e, (.ok all : Except TdnfError (List Repo)) = .error e := by
        rintro ⟨e, he⟩
        cases he
      rw [← hdirs, or_iff_left hno]
      cases hany : opts.any fun o => decide (o.pszOptName = "repofromdir") with
      | false =>
          rw [hany] at hb
          exact iff_of_true (complete_of_perm hbuild hgather (Intact.contents hb)) rfl
      | true =>
          rw [hany] at hb
          exact iff_of_false (not_complete_of_replaced hbuild hgather hb.1 hb.2) (by decide)

/-- One directory without files in the configuration directory. -/
def oneDirectory : RepoHost Unit where
  nSSLVerify := true
  pszRepoDir := "/etc/yum.repos.d".toList
  isDir := fun _ => .ok true
  readRepoDir := some []
  parseFile := fun _ => .error .confFileLoad
  readConfigStart := fun _ _ => .ok ()
  readConfigEnd := fun _ _ => .ok ()

/-- `--repofromdir=local,/srv/rpms` loses the repository of the command line. -/
theorem cmdline_replaced :
    ¬ Complete oneDirectory [⟨"repofromdir", "local,/srv/rpms".toList⟩] () := by
  intro hcomplete
  let repo : Repo := { createRepo true "local".toList with
    nHasMetaData := false, nEnabled := true, pszName := some "local".toList,
    ppszBaseUrls := some ["/srv/rpms".toList] }
  obtain ⟨all, hall, hperm, -⟩ := hcomplete.1 [repo] rfl
  have hboth : all = [createCmdLineRepo oneDirectory, repo] := (Except.ok.inj hall).symm
  have hlength := hperm.length_eq
  rw [hboth] at hlength
  exact absurd hlength (by decide)

end Tdnf.Client
