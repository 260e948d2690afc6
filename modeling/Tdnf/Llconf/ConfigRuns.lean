import Tdnf.Library.Coupling
import Tdnf.Llconf.Config
import Tdnf.Llconf.TreeRoundTrip

/-!
# Runs of tdnf-config on texts and on trees

The files of `tdnf-config` could as well hold the trees: every run over files whose
texts are those of tidy trees ends as it would over the trees, and the files hold the
texts of tidy trees again.
-/

namespace Tdnf.Llconf

open PathText Common Procedure FileTable Coupling

/-- Files that hold trees. -/
def treeCodec : Codec CnfNode := ⟨some, id⟩

/-- A text from which a tidy tree is read. -/
structure Holds (text : Text) (tree : CnfNode) : Prop where
  read : parseIni text = some tree
  tidy : Tidy tree

/-- Files with texts, and the same files with their trees. -/
abbrev Stored (texts : Table Text Text) (trees : Table Text CnfNode) : Prop :=
  Alike Holds texts trees

/-- The same result on both sides. -/
def Same {β : Type} (P : β → Prop) (b b' : β) (texts : Table Text Text)
    (trees : Table Text CnfNode) : Prop :=
  b = b' ∧ P b ∧ Stored texts trees

theorem holds_unparse {tree : CnfNode} (h : Tidy tree) : Holds (unparseIni tree) tree :=
  ⟨parseIni_written h, h⟩

/-! ## What commands keep of a tree -/

/-- The key and the value of a command line argument. -/
def splitSetting (keyval : Text) : Option (Text × Text) :=
  let key := takeKey keyval 255
  let p := skipSpaces key.2
  if p.head? = some '=' then some (key.1, skipSpaces p.tail) else none

/-- A setting whose line is read again. -/
def FitsSetting (keyval : Text) : Prop :=
  ∀ key value, splitSetting keyval = some (key, value) → TidyChild ⟨key, some value, []⟩

/-- A name of a section that is read again. -/
structure FitsName (repo : Text) : Prop where
  line : '\n' ∉ repo
  nul : '\x00' ∉ repo
  bracket : ']' ∉ repo
  head : ∀ c ∈ repo.head?, isSpace c = false
  short : repo.length ≤ 1019
  dot : repo.head? ≠ some '.'

section Trees

variable {cnRoot cnRoot' cnRepo cnRepo' : CnfNode} {repo key value keyval : Text}
  {kv keys : List Text}

theorem TidyChild.children_eq (h : TidyChild cnRepo) : cnRepo.children = [] := by
  cases h with
  | empty => rfl
  | comment => rfl
  | setting => rfl

theorem setKeyValue_split (h : setKeyValue cnRepo keyval = .ok cnRepo') :
    ∃ key value, splitSetting keyval = some (key, value) ∧
      cnRepo' = { cnRepo with children := putNode key value cnRepo.children } := by
  simp only [setKeyValue] at h
  simp only [splitSetting]
  split at h
  · rename_i hequals
    refine ⟨_, _, if_pos hequals, ?_⟩
    rw [putNode]
    cases hlookup : Keyed.lookup CnfNode.name (takeKey keyval 255).1 cnRepo.children with
    | none =>
        rw [hlookup] at h
        exact (Except.ok.inj h).symm
    | some cn =>
        rw [hlookup] at h
        exact (Except.ok.inj h).symm
  · cases h

theorem tidyChild_putNode {nodes : List CnfNode} (h : ∀ node ∈ nodes, TidyChild node)
    (hnew : TidyChild ⟨key, some value, []⟩) : ∀ node ∈ putNode key value nodes, TidyChild node := by
  rw [putNode]
  cases Keyed.lookup CnfNode.name key nodes with
  | none =>
      intro node hnode
      obtain hold | hsingle := List.mem_append.mp hnode
      · exact h node hold
      · rw [List.mem_singleton.mp hsingle]
        exact hnew
  | some cn =>
      refine Keyed.forall_mem_update h fun node hname hnode => ?_
      rw [hname, hnode.children_eq]
      exact hnew

/-- Other children that fit. -/
theorem TidySection.withChildren (h : TidySection cnRepo) {nodes : List CnfNode}
    (hnodes : ∀ node ∈ nodes, TidyChild node) : TidySection { cnRepo with children := nodes } :=
  ⟨h.isSection, h.line, h.nul, h.bracket, h.head, h.short, h.dot, hnodes⟩

theorem TidyTop.head (h : TidyTop cnRepo) : cnRepo.name.head? = some '.' := by
  cases h with
  | empty => rfl
  | comment => rfl

theorem not_mem_tops {tops : List CnfNode} (htops : ∀ node ∈ tops, TidyTop node)
    (hdot : repo.head? ≠ some '.') : repo ∉ tops.map CnfNode.name := by
  intro hmem
  obtain ⟨node, hnode, rfl⟩ := List.mem_map.mp hmem
  exact hdot (htops node hnode).head

/-- A section that is found is no line in front of all sections. -/
theorem Tidy.find (h : Tidy cnRoot) (hdot : repo.head? ≠ some '.')
    (hfind : findChild cnRoot repo = some cnRepo) : TidySection cnRepo := by
  obtain ⟨tops, sections, hsplit, htops, hsections⟩ := h.split
  obtain rfl := Keyed.key_of_lookup hfind
  have hmem : cnRepo ∈ cnRoot.children := Keyed.mem_of_lookup hfind
  rw [hsplit, List.mem_append] at hmem
  obtain htop | hsection := hmem
  · exact absurd (htops cnRepo htop).head hdot
  · exact hsections cnRepo hsection

theorem Tidy.update (h : Tidy cnRoot) (hdot : repo.head? ≠ some '.')
    (hrepo : TidySection cnRepo') : Tidy { cnRoot with
      children := Keyed.update CnfNode.name repo (fun _ => cnRepo') cnRoot.children } := by
  obtain ⟨tops, sections, hsplit, htops, hsections⟩ := h.split
  refine ⟨h.name, h.value, tops, Keyed.update CnfNode.name repo (fun _ => cnRepo') sections, ?_,
    htops, Keyed.forall_mem_update hsections fun _ _ _ => hrepo⟩
  rw [hsplit]
  exact Keyed.update_append (not_mem_tops htops hdot) sections

theorem Tidy.unlinkChild (h : Tidy cnRoot) (hdot : repo.head? ≠ some '.') :
    Tidy (unlinkChild cnRoot repo) := by
  obtain ⟨tops, sections, hsplit, htops, hsections⟩ := h.split
  refine ⟨h.name, h.value, tops, sections.eraseP (·.name = repo), ?_, htops,
    fun node hnode => hsections node (List.mem_of_mem_eraseP hnode)⟩
  have hnone : ∀ node ∈ tops, ¬ decide (node.name = repo) = true := by
    intro node hnode hname
    exact not_mem_tops htops hdot (List.mem_map.mpr ⟨node, hnode, of_decide_eq_true hname⟩)
  simp only [Llconf.unlinkChild, hsplit]
  exact List.eraseP_append_right sections hnone

theorem tidy_root : Tidy (createCnfnode "(root)".toList) :=
  ⟨rfl, rfl, [], [], rfl, by simp, by simp⟩

theorem Tidy.append (h : Tidy cnRoot) (hrepo : TidySection cnRepo) :
    Tidy (appendNode cnRoot cnRepo) := by
  obtain ⟨tops, sections, hsplit, htops, hsections⟩ := h.split
  refine ⟨h.name, h.value, tops, sections ++ [cnRepo], ?_, htops, ?_⟩
  · rw [appendNode, hsplit, List.append_assoc]
  · intro node hnode
    obtain hold | hsingle := List.mem_append.mp hnode
    · exact hsections node hold
    · rw [List.mem_singleton.mp hsingle]
      exact hrepo

theorem FitsName.tidy (h : FitsName repo) : TidySection (createCnfnode repo) :=
  ⟨rfl, h.line, h.nul, h.bracket, h.head, h.short, h.dot, by simp [createCnfnode]⟩

theorem Tidy.setKeyValues (h : Tidy cnRoot) (hdot : repo.head? ≠ some '.')
    (hkv : ∀ keyval ∈ kv, FitsSetting keyval) (hset : setKeyValues cnRoot repo kv = .ok cnRoot') :
    Tidy cnRoot' := by
  rw [Llconf.setKeyValues] at hset
  cases hlookup : Keyed.lookup CnfNode.name repo cnRoot.children with
  | none =>
      rw [hlookup] at hset
      cases hset
      exact h
  | some cnRepo =>
      rw [hlookup] at hset
      obtain ⟨cnRepo', hrepo', hset⟩ := exists_of_bind_ok hset
      have hkept : TidySection cnRepo' := by
        refine keeps_of_foldlM_ok ?_ (h.find hdot hlookup) hrepo'
        intro node node' keyval hkeyval hnode hstep
        obtain ⟨key, value, hsplit, rfl⟩ := setKeyValue_split hstep
        have hnew : TidyChild ⟨key, some value, []⟩ := hkv keyval hkeyval key value hsplit
        exact hnode.withChildren (tidyChild_putNode hnode.children hnew)
      cases hset
      exact h.update hdot hkept

theorem Tidy.removeKeys (h : Tidy cnRoot) (hdot : repo.head? ≠ some '.')
    (hremove : removeKeys cnRoot repo keys = .ok cnRoot') : Tidy cnRoot' := by
  rw [Llconf.removeKeys] at hremove
  cases hfind : findChild cnRoot repo with
  | none =>
      rw [hfind] at hremove
      cases hremove
  | some cnRepo =>
      rw [hfind] at hremove
      obtain ⟨cnRepo', hrepo', hremove⟩ := exists_of_bind_ok hremove
      have hkept : TidySection cnRepo' := by
        refine keeps_of_foldlM_ok ?_ (h.find hdot hfind) hrepo'
        intro node node' key _ hnode hstep
        rw [removeKey] at hstep
        cases hkey : findChild node key with
        | none =>
            rw [hkey] at hstep
            cases hstep
        | some _ =>
            rw [hkey] at hstep
            cases hstep
            exact hnode.withChildren fun child hchild =>
              hnode.children child (List.mem_of_mem_eraseP hchild)
      cases hremove
      exact h.update hdot hkept

theorem Tidy.removeRepo (h : Tidy cnRoot) (hdot : repo.head? ≠ some '.')
    (hremove : removeRepo cnRoot repo = .ok cnRoot') : Tidy cnRoot' := by
  rw [Llconf.removeRepo] at hremove
  cases hfind : findChild cnRoot repo with
  | none =>
      rw [hfind] at hremove
      cases hremove
  | some cnRepo =>
      rw [hfind] at hremove
      cases hremove
      exact h.unlinkChild hdot

end Trees

/-! ## Commands side by side -/

section Commands

variable {host : Host} {options : ConfigOptions} {repo key fname mainConfig : Text}
  {β γ : Type} {P : β → Prop} {Q : γ → Prop} {x : ConfigProc Text β} {y : ConfigProc CnfNode β}

/-- What follows the same result may rely on what is known of it. -/
theorem bind_same {f : β → ConfigProc Text γ} {g : β → ConfigProc CnfNode γ}
    (h : Coupled Stored x y (Same P) Stored)
    (hf : ∀ b, P b → Coupled Stored (f b) (g b) (Same Q) Stored) :
    Coupled Stored (x >>= f) (y >>= g) (Same Q) Stored := by
  refine h.bind fun b b' s t hsame => ?_
  obtain ⟨rfl, hb, hstored⟩ := hsame
  exact hf b hb s t hstored

theorem same_pure {b : β} (hb : P b) :
    Coupled Stored (pure b : ConfigProc Text β) (pure b) (Same P) Stored :=
  coupled_pure fun _ _ hstored => ⟨rfl, hb, hstored⟩

theorem same_throw (halt : Halt) :
    Coupled Stored (throw halt : ConfigProc Text β) (throw halt) (Same P) Stored :=
  coupled_throw halt fun _ _ hstored => hstored

theorem same_fromExcept {z : Except Halt β} (h : ∀ b, z = .ok b → P b) :
    Coupled Stored (fromExcept z : ConfigProc Text β) (fromExcept z) (Same P) Stored :=
  coupled_fromExcept z (fun b hb _ _ hstored => ⟨rfl, h b hb, hstored⟩) fun _ _ hstored => hstored

theorem stored_get {f : Table Text Text → ConfigProc Text γ}
    {g : Table Text CnfNode → ConfigProc CnfNode γ}
    (h : ∀ texts trees, Stored texts trees → Coupled Stored (f texts) (g trees) (Same Q) Stored) :
    Coupled Stored (get >>= f) (get >>= g) (Same Q) Stored := by
  refine coupled_get fun texts trees hstored => (h texts trees hstored).weaken ?_
  rintro _ _ ⟨rfl, rfl⟩
  exact hstored

/-- What is known of a file that was opened. -/
def TidyFile (parsed : Except OpenError CnfNode) : Prop := ∀ cnRoot, parsed = .ok cnRoot → Tidy cnRoot

/-- What is known of a file that was found. -/
def TidyFound (found : Option (CnfNode × Text)) : Prop :=
  ∀ cnRoot path, found = some (cnRoot, path) → Tidy cnRoot

theorem tidyFile_error (e : OpenError) : TidyFile (.error e) := by
  intro cnRoot h
  cases h

theorem tidyFound_none : TidyFound none := by
  intro cnRoot path h
  cases h

theorem coupled_parseFile (host : Host) (fname : Text) :
    Coupled Stored (parseFile iniCodec host fname) (parseFile treeCodec host fname)
      (Same TidyFile) Stored := by
  refine stored_get fun texts trees hstored => ?_
  obtain ⟨htext, htree⟩ | ⟨text, tree, htext, htree, hholds⟩ := hstored.read fname
  · rw [htext, htree]
    exact same_pure (tidyFile_error _)
  · rw [htext, htree]
    simp only
    by_cases hreadable : host.readable fname = true
    · have htreeParse : treeCodec.parse tree = some tree := rfl
      have htextParse : iniCodec.parse text = some tree := hholds.read
      rw [if_pos hreadable, if_pos hreadable, htreeParse, htextParse]
      refine same_pure fun cnRoot h => ?_
      obtain rfl := Except.ok.inj h
      exact hholds.tidy
    · rw [if_neg hreadable, if_neg hreadable]
      exact same_pure (tidyFile_error _)

theorem coupled_getRepodir (host : Host) (mainConfig : Text) :
    Coupled Stored (getRepodir iniCodec host mainConfig) (getRepodir treeCodec host mainConfig)
      (Same fun _ => True) Stored := by
  refine bind_same (coupled_parseFile host mainConfig) fun parsed _ => ?_
  cases parsed with
  | error _ => exact same_pure trivial
  | ok cnRoot => exact same_fromExcept fun _ _ => trivial

theorem coupled_findRepoIn (host : Host) (repo : Text) (paths : List Text) :
    Coupled Stored (findRepoIn iniCodec host repo paths) (findRepoIn treeCodec host repo paths)
      (Same TidyFound) Stored := by
  induction paths with
  | nil => exact same_pure tidyFound_none
  | cons path paths ih =>
      refine bind_same (coupled_parseFile host path) fun parsed hparsed => ?_
      cases parsed with
      | error _ => exact same_pure tidyFound_none
      | ok cnRoot =>
          simp only
          cases findChild cnRoot repo with
          | none => exact ih
          | some cnRepo =>
              refine same_pure fun cnRoot' path' h => ?_
              cases h
              exact hparsed cnRoot rfl

theorem coupled_findRepo (host : Host) (repodir repo : Text) :
    Coupled Stored (findRepo iniCodec host repodir repo) (findRepo treeCodec host repodir repo)
      (Same TidyFound) Stored := by
  refine stored_get fun texts trees hstored => ?_
  rw [hstored.paths]
  cases host.glob (repoPattern repodir) trees.paths with
  | none => exact same_pure tidyFound_none
  | some paths => exact coupled_findRepoIn host repo paths

theorem coupled_getRepoRoot (host : Host) (mainConfig repo : Text) :
    Coupled Stored (getRepoRoot iniCodec host mainConfig repo)
      (getRepoRoot treeCodec host mainConfig repo) (Same fun found => Tidy found.1) Stored := by
  refine Coupled.ite Iff.rfl (fun _ => ?_) fun _ => ?_
  · refine bind_same (coupled_parseFile host mainConfig) fun parsed hparsed => ?_
    cases parsed with
    | error _ => exact same_throw _
    | ok cnRoot => exact same_pure (hparsed cnRoot rfl)
  · refine bind_same (coupled_getRepodir host mainConfig) fun repodir _ => ?_
    refine bind_same (coupled_findRepo host repodir repo) fun found hfound => ?_
    cases found with
    | none => exact same_throw _
    | some found => exact same_pure (hfound found.1 found.2 rfl)

theorem same_modify {f : Table Text Text → Table Text Text}
    {g : Table Text CnfNode → Table Text CnfNode}
    (h : ∀ texts trees, Stored texts trees → Stored (f texts) (g trees)) :
    Coupled Stored (modify f : ConfigProc Text PUnit) (modify g) (Same fun _ => True) Stored :=
  coupled_modify fun texts trees hstored => ⟨rfl, trivial, h texts trees hstored⟩

theorem coupled_writeFile (host : Host) {cnRoot : CnfNode} (h : Tidy cnRoot) (filename : Text) :
    Coupled Stored (writeFile iniCodec host cnRoot filename)
      (writeFile treeCodec host cnRoot filename) (Same fun _ => True) Stored := by
  refine Coupled.ite Iff.rfl (fun _ => ?_) fun _ => same_throw _
  refine bind_same (same_modify fun _ _ hstored => hstored.write (holds_unparse h)) fun _ _ => ?_
  refine Coupled.ite Iff.rfl (fun _ => ?_) fun _ => same_throw _
  exact same_modify fun _ _ hstored => hstored.rename

theorem coupled_storeOrUnlink (host : Host) {cnRoot : CnfNode} (h : Tidy cnRoot)
    (filename : Text) :
    Coupled Stored (storeOrUnlink iniCodec host cnRoot filename)
      (storeOrUnlink treeCodec host cnRoot filename) (Same fun _ => True) Stored := by
  refine Coupled.ite Iff.rfl (fun _ => coupled_writeFile host h filename) fun _ => ?_
  refine Coupled.ite Iff.rfl (fun _ => ?_) fun _ => same_throw _
  exact same_modify fun _ _ hstored => hstored.remove

end Commands

/-! ## Actions -/

/-- Command lines whose names and settings are read again. -/
def FitsArgs : List Text → Prop
  | action :: repo :: args =>
    repo.head? ≠ some '.' ∧ (action = "create".toList → FitsName repo) ∧
      (action = "edit".toList ∨ action = "create".toList → ∀ keyval ∈ args, FitsSetting keyval)
  | _ => True

section Actions

variable (host : Host) (options : ConfigOptions) {repo : Text} {args : List Text}

theorem coupled_editAction (hdot : repo.head? ≠ some '.') (hkv : ∀ keyval ∈ args, FitsSetting keyval) :
    Coupled Stored (editAction iniCodec host options repo args)
      (editAction treeCodec host options repo args) (Same fun _ => True) Stored := by
  refine bind_same (coupled_getRepoRoot host options.mainConfig repo) fun found hfound => ?_
  refine bind_same (P := Tidy)
    (same_fromExcept fun _ hset => hfound.setKeyValues hdot hkv hset) fun cnRoot hcnRoot => ?_
  refine bind_same (coupled_writeFile host hcnRoot found.2) fun _ _ => ?_
  exact same_pure trivial

theorem coupled_createTarget (repodir repo : Text) :
    Coupled Stored (createTarget iniCodec host options repodir repo)
      (createTarget treeCodec host options repodir repo) (Same fun target => Tidy target.1)
      Stored := by
  rw [createTarget, createTarget]
  cases options.repoConfig with
  | none => exact same_pure tidy_root
  | some repoConfig =>
      refine bind_same (coupled_parseFile host repoConfig) fun parsed hparsed => ?_
      cases parsed with
      | ok cnRoot => exact same_pure (hparsed cnRoot rfl)
      | error e =>
          cases e with
          | noEntry => exact same_pure tidy_root
          | other => exact same_throw _

theorem coupled_createAction (hname : FitsName repo) (hkv : ∀ keyval ∈ args, FitsSetting keyval) :
    Coupled Stored (createAction iniCodec host options repo args)
      (createAction treeCodec host options repo args) (Same fun _ => True) Stored := by
  refine Coupled.ite Iff.rfl (fun _ => same_throw _) fun _ => ?_
  refine bind_same (coupled_getRepodir host options.mainConfig) fun repodir _ => ?_
  refine bind_same (coupled_findRepo host repodir repo) fun found _ => ?_
  cases found with
  | some found => exact same_throw _
  | none =>
      refine bind_same (coupled_createTarget host options repodir repo) fun target htarget => ?_
      refine bind_same (P := Tidy) (same_fromExcept fun _ hset =>
        (htarget.append hname.tidy).setKeyValues hname.dot hkv hset) fun cnRoot hcnRoot => ?_
      refine bind_same (coupled_writeFile host hcnRoot target.2) fun _ _ => ?_
      exact same_pure trivial

theorem coupled_getAction (repo key : Text) :
    Coupled Stored (getAction iniCodec host options repo key)
      (getAction treeCodec host options repo key) (Same fun _ => True) Stored := by
  refine bind_same (coupled_getRepoRoot host options.mainConfig repo) fun found _ => ?_
  exact same_fromExcept fun _ _ => trivial

theorem coupled_removeAction (hdot : repo.head? ≠ some '.') (keys : List Text) :
    Coupled Stored (removeAction iniCodec host options repo keys)
      (removeAction treeCodec host options repo keys) (Same fun _ => True) Stored := by
  refine bind_same (coupled_getRepoRoot host options.mainConfig repo) fun found hfound => ?_
  refine bind_same (P := Tidy)
    (same_fromExcept fun _ hremove => hfound.removeKeys hdot hremove) fun cnRoot hcnRoot => ?_
  refine bind_same (coupled_writeFile host hcnRoot found.2) fun _ _ => ?_
  exact same_pure trivial

theorem coupled_removerepoAction (hdot : repo.head? ≠ some '.') :
    Coupled Stored (removerepoAction iniCodec host options repo)
      (removerepoAction treeCodec host options repo) (Same fun _ => True) Stored := by
  refine bind_same (coupled_getRepoRoot host options.mainConfig repo) fun found hfound => ?_
  refine bind_same (P := Tidy)
    (same_fromExcept fun _ hremove => hfound.removeRepo hdot hremove) fun cnRoot hcnRoot => ?_
  refine bind_same (coupled_storeOrUnlink host hcnRoot found.2) fun _ _ => ?_
  exact same_pure trivial

theorem coupled_dumpAction (repo : Text) :
    Coupled Stored (dumpAction iniCodec host options repo)
      (dumpAction treeCodec host options repo) (Same fun _ => True) Stored := by
  refine bind_same (coupled_getRepoRoot host options.mainConfig repo) fun found _ => ?_
  exact same_pure trivial

theorem coupled_configMain {argv : List Text} (hfits : FitsArgs argv) :
    Coupled Stored (configMain iniCodec host options argv) (configMain treeCodec host options argv)
      (Same fun _ => True) Stored := by
  cases argv with
  | nil => exact same_pure trivial
  | cons action argv =>
  cases argv with
  | nil => exact same_throw _
  | cons repo args =>
      obtain ⟨hdot, hname, hkv⟩ := hfits
      refine Coupled.ite Iff.rfl (fun _ => coupled_removerepoAction host options hdot) fun _ => ?_
      refine Coupled.ite Iff.rfl (fun _ => coupled_dumpAction host options repo) fun _ => ?_
      cases args with
      | nil => exact same_throw _
      | cons arg args =>
          refine Coupled.ite Iff.rfl (fun hedit => ?_) fun _ => ?_
          · exact coupled_editAction host options hdot (hkv (.inl hedit))
          refine Coupled.ite Iff.rfl (fun hcreate => ?_) fun _ => ?_
          · exact coupled_createAction host options (hname hcreate) (hkv (.inr hcreate))
          refine Coupled.ite Iff.rfl (fun _ => coupled_getAction host options repo arg) fun _ => ?_
          refine Coupled.ite Iff.rfl (fun _ => ?_) fun _ => same_throw _
          exact coupled_removeAction host options hdot (arg :: args)

end Actions

/-! ## Runs -/

/-- One run of the program: the system it meets and its command line. -/
structure Invocation where
  host : Host
  options : ConfigOptions
  argv : List Text

/-- One run after the other: what each prints or how it ends, and the files at the end. -/
def session {α : Type} (codec : Codec α) :
    List Invocation → Table Text α → List (Except Halt Text) × Table Text α
  | [], files => ([], files)
  | run :: runs, files =>
    match (configMain codec run.host run.options run.argv).run files with
    | .ok output files =>
      let rest := session codec runs files
      (.ok output :: rest.1, rest.2)
    | .error halt files =>
      let rest := session codec runs files
      (.error halt :: rest.1, rest.2)

/-- Whatever the system does, runs over texts end as runs over the trees, and leave the texts
of the trees that those leave. -/
theorem session_agrees {runs : List Invocation} (hfits : ∀ run ∈ runs, FitsArgs run.argv)
    {texts : Table Text Text} {trees : Table Text CnfNode} (hstored : Stored texts trees) :
    (session iniCodec runs texts).1 = (session treeCodec runs trees).1 ∧
      Stored (session iniCodec runs texts).2 (session treeCodec runs trees).2 := by
  induction runs generalizing texts trees with
  | nil => exact ⟨rfl, hstored⟩
  | cons run runs ih =>
      rw [List.forall_mem_cons] at hfits
      have hends := coupled_configMain run.host run.options hfits.1 texts trees hstored
      simp only [session]
      cases htree : (configMain treeCodec run.host run.options run.argv).run trees with
      | ok output trees' =>
          rw [htree] at hends
          obtain ⟨output', texts', htext, rfl, -, hstored'⟩ := hends.of_ok
          obtain ⟨hresults, hlast⟩ := ih hfits.2 hstored'
          rw [htext]
          exact ⟨congrArg _ hresults, hlast⟩
      | error halt trees' =>
          rw [htree] at hends
          obtain ⟨texts', htext, hstored'⟩ := hends.of_error
          obtain ⟨hresults, hlast⟩ := ih hfits.2 hstored'
          rw [htext]
          exact ⟨congrArg _ hresults, hlast⟩

/-- A file of the repository directory whose temporary name fits into its buffer. -/
def isRepoFile (path : Text) : Bool := ".repo".toList.isSuffixOf path && path.length ≤ 251

/-- A system that lets everything be read and written. -/
def openHost : Host where
  glob _ paths := some (paths.filter isRepoFile)
  readable _ := true
  writable _ := true
  renames _ _ := true
  unlinks _ := true

/-- A run with the options at their defaults. -/
def openRun (argv : List String) : Invocation :=
  ⟨openHost, ⟨"/etc/tdnf/tdnf.conf".toList, none⟩, argv.map String.toList⟩

theorem fitsSetting_enabled (value : Text) {keyval : Text}
    (hsplit : splitSetting keyval = some ("enabled".toList, value))
    (hvalue : value = "0".toList ∨ value = "1".toList) : FitsSetting keyval := by
  intro key value' h
  rw [hsplit] at h
  cases h
  have hkey : KeyText "enabled".toList := ⟨by simp [isKeyChar, isSpace], by decide⟩
  obtain rfl | rfl := hvalue
  · exact .setting ⟨hkey, by decide, by decide, by decide, by simp [isSpace], by decide, by decide,
      by decide⟩ (by decide) (by decide)
  · exact .setting ⟨hkey, by decide, by decide, by decide, by simp [isSpace], by decide, by decide,
      by decide⟩ (by decide) (by decide)

theorem fitsName_base : FitsName "base".toList :=
  ⟨by decide, by decide, by decide, by simp [isSpace], by decide, by decide⟩

/-- A section that is created, changed and read. -/
def baseRuns : List Invocation :=
  [openRun ["create", "base", "enabled=1"], openRun ["edit", "base", "enabled=0"],
    openRun ["get", "base", "enabled"]]

theorem baseRuns_fits : ∀ run ∈ baseRuns, FitsArgs run.argv := by
  have hone : FitsSetting "enabled=1".toList := fitsSetting_enabled "1".toList (by decide) (.inr rfl)
  have hzero : FitsSetting "enabled=0".toList := fitsSetting_enabled "0".toList (by decide) (.inl rfl)
  have hbase := fitsName_base
  simp only [baseRuns, List.forall_mem_cons, List.not_mem_nil, false_imp_iff, implies_true, and_true]
  refine ⟨⟨hbase.dot, fun _ => hbase, fun _ => ?_⟩, ⟨hbase.dot, fun _ => hbase, fun _ => ?_⟩,
    ⟨hbase.dot, fun _ => hbase, ?_⟩⟩
  · exact List.forall_mem_singleton.mpr hone
  · exact List.forall_mem_singleton.mpr hzero
  · rintro (h | h)
    · exact absurd h (by decide)
    · exact absurd h (by decide)

theorem session_agrees_created :
    (session iniCodec baseRuns []).1 = (session treeCodec baseRuns []).1 ∧
      Stored (session iniCodec baseRuns []).2 (session treeCodec baseRuns []).2 :=
  session_agrees baseRuns_fits .nil

end Tdnf.Llconf
