import Mathlib.Logic.Function.Basic
import Tdnf.Llconf.ConfigRuns

/-!
# Books of settings

Seen from outside, `tdnf-config` keeps sections of settings: for every name of a
section the values of its keys. A command line makes one such book of another. What
the commands do with the tree of a file is what they do with the book.
-/

namespace Tdnf.Llconf

open PathText Procedure FileTable

/-! ## Books of sections -/

/-- The values of the keys of a section. -/
abbrev Settings := Text → Option Text

/-- The sections by their names. -/
abbrev Book := Text → Option Settings

/-- A setting as it is given on a command line. -/
def Settings.set (s : Settings) (keyval : Text) : Except Halt Settings :=
  match splitSetting keyval with
  | none => .error (.exit 1)
  | some setting => .ok (Function.update s setting.1 (some setting.2))

/-- A key that is removed has to be there. -/
def Settings.remove (s : Settings) (key : Text) : Except Halt Settings :=
  match s key with
  | none => .error (.exit 4)
  | some _ => .ok (Function.update s key none)

/-- A section with other settings. -/
def Book.put (b : Book) (repo : Text) (s : Except Halt Settings) : Except Halt (Text × Book) :=
  s.map fun s => ([], Function.update b repo (some s))

namespace Book

variable (b : Book) (repo key : Text) (args : List Text)

/-- What `edit` makes of a book. -/
def edit : Except Halt (Text × Book) :=
  match b repo with
  | none => .error (.exit 3)
  | some s => b.put repo (args.foldlM Settings.set s)

/-- What `create` makes of a book. -/
def create : Except Halt (Text × Book) :=
  if repo = mainSection then .error (.exit 1)
  else
    match b repo with
    | some _ => .error (.exit 5)
    | none => b.put repo (args.foldlM Settings.set fun _ => none)

/-- What `get` prints. -/
def get : Except Halt (Text × Book) :=
  match b repo with
  | none => .error (.exit 3)
  | some s =>
    match s key with
    | none => .error (.exit 4)
    | some value => .ok (value ++ ['\n'], b)

/-- What `remove` makes of a book. -/
def remove : Except Halt (Text × Book) :=
  match b repo with
  | none => .error (.exit 3)
  | some s => b.put repo (args.foldlM Settings.remove s)

/-- What `removerepo` makes of a book. -/
def removerepo : Except Halt (Text × Book) :=
  match b repo with
  | none => .error (.exit 3)
  | some _ => .ok ([], Function.update b repo none)

/-- What a command line prints and makes of a book. -/
def step : List Text → Except Halt (Text × Book)
  | [] => .ok ([], b)
  | [_] => .error (.exit 1)
  | action :: repo :: args =>
    if action = "removerepo".toList then b.removerepo repo
    else
      match args with
      | [] => .error (.exit 1)
      | arg :: _ =>
        if action = "edit".toList then b.edit repo args
        else if action = "create".toList then b.create repo args
        else if action = "get".toList then b.get repo arg
        else if action = "remove".toList then b.remove repo args
        else .error (.exit 1)

end Book

/-! ## Sections -/

/-- The settings of a section. -/
def settings (cnRepo : CnfNode) : Settings := fun key => (findChild cnRepo key).bind CnfNode.value

/-- Names of children that are no lines occur once. -/
def Once (cn : CnfNode) : Prop :=
  (cn.children.map CnfNode.name).Pairwise fun m n => m.head? ≠ some '.' → n ≠ m

/-- A node with another value. -/
def CnfNode.withValue (value : Text) (node : CnfNode) : CnfNode := { node with value := some value }

/-- A node with other children. -/
def CnfNode.withChildren (children : List CnfNode) (node : CnfNode) : CnfNode :=
  { node with children := children }

theorem CnfNode.withValue_name (value : Text) (node : CnfNode) :
    (node.withValue value).name = node.name := rfl

theorem CnfNode.withChildren_name (children : List CnfNode) (node : CnfNode) :
    (node.withChildren children).name = node.name := rfl

section Sections

variable {cn cn' : CnfNode} {key key' value keyval : Text} {nodes : List CnfNode}

theorem setKeyValue_eq_elim (cn : CnfNode) (keyval : Text) : setKeyValue cn keyval =
    (splitSetting keyval).elim (.error (.exit 1))
      fun kv => .ok { cn with children := putNode kv.1 kv.2 cn.children } := by
  simp only [setKeyValue, splitSetting]
  split
  · rw [Option.elim_some, putNode]
    cases Keyed.lookup CnfNode.name (takeKey keyval 255).1 cn.children with
    | none => rfl
    | some _ => rfl
  · rfl

theorem putNode_of_new (h : Keyed.lookup CnfNode.name key nodes = none) :
    putNode key value nodes = nodes ++ [⟨key, some value, []⟩] := by
  rw [putNode, h]

theorem putNode_of_found (h : Keyed.lookup CnfNode.name key nodes = some cn) :
    putNode key value nodes = Keyed.update CnfNode.name key (CnfNode.withValue value) nodes := by
  rw [putNode, h]
  rfl

theorem lookup_putNode (key' : Text) :
    (Keyed.lookup CnfNode.name key' (putNode key value nodes)).bind CnfNode.value =
      if key' = key then some value
      else (Keyed.lookup CnfNode.name key' nodes).bind CnfNode.value := by
  cases hlookup : Keyed.lookup CnfNode.name key nodes with
  | none =>
      rw [putNode_of_new hlookup, Keyed.lookup_append, Keyed.lookup_cons]
      by_cases hkey : key' = key
      · subst hkey
        simp [hlookup]
      · have hne : ¬ key = key' := fun h => hkey h.symm
        simp [hkey, hne, Keyed.lookup]
  | some cn =>
      rw [putNode_of_found hlookup]
      by_cases hkey : key' = key
      · subst hkey
        rw [Keyed.lookup_update_self (CnfNode.withValue_name value), hlookup, if_pos rfl]
        rfl
      · rw [Keyed.lookup_update_of_ne (CnfNode.withValue_name value) hkey, if_neg hkey]

theorem settings_putNode (cn : CnfNode) (key value : Text) :
    settings { cn with children := putNode key value cn.children } =
      Function.update (settings cn) key (some value) := by
  funext key'
  simp only [settings, findChild, Function.update_apply]
  exact lookup_putNode key'

theorem settings_setKeyValue (cn : CnfNode) (keyval : Text) :
    (setKeyValue cn keyval).map settings = (settings cn).set keyval := by
  rw [setKeyValue_eq_elim, Settings.set]
  cases splitSetting keyval with
  | none => rfl
  | some kv => exact congrArg _ (settings_putNode cn kv.1 kv.2)

theorem Once.putNode (h : Once cn) (key value : Text) :
    Once (cn.withChildren (putNode key value cn.children)) := by
  rw [Once, CnfNode.withChildren]
  cases hlookup : Keyed.lookup CnfNode.name key cn.children with
  | none =>
      rw [putNode_of_new hlookup, List.map_append, List.pairwise_append]
      refine ⟨h, List.pairwise_singleton _ _, fun m hm n hn _ hsame => ?_⟩
      rw [List.map_singleton, List.mem_singleton] at hn
      rw [← hsame, hn] at hm
      exact Keyed.lookup_eq_none_iff.mp hlookup hm
  | some _ =>
      rw [putNode_of_found hlookup, Keyed.map_key_update (CnfNode.withValue_name value)]
      exact h

theorem Once.unlinkChild (h : Once cn) (key : Text) : Once (unlinkChild cn key) :=
  h.sublist (List.eraseP_sublist.map CnfNode.name)

/-- A name that is no line is found once. -/
theorem Once.pairwise (h : Once cn) (hdot : key.head? ≠ some '.') :
    (cn.children.map CnfNode.name).Pairwise fun m n => m = key → n ≠ key := by
  refine h.imp fun hmn hm => ?_
  subst hm
  exact hmn hdot

theorem settings_unlinkChild (h : Once cn) (hdot : key.head? ≠ some '.') :
    settings (unlinkChild cn key) = Function.update (settings cn) key none := by
  funext key'
  simp only [settings, findChild, Llconf.unlinkChild, Function.update_apply]
  by_cases hkey : key' = key
  · subst hkey
    rw [if_pos rfl, Keyed.lookup_eraseP_self (h.pairwise hdot)]
    rfl
  · rw [if_neg hkey, Keyed.lookup_eraseP_of_ne hkey]

/-- A setting that is found has a value. -/
theorem settings_eq_none_iff (h : TidySection cn) : settings cn key = none ↔
    findChild cn key = none := by
  rw [settings]
  cases hfind : findChild cn key with
  | none => exact iff_of_true rfl rfl
  | some child =>
      rw [Option.bind_some]
      refine iff_of_false (fun hvalue => ?_) (Option.some_ne_none child)
      cases h.children child (Keyed.mem_of_lookup hfind) with
      | empty => cases hvalue
      | comment => cases hvalue
      | setting => cases hvalue

theorem settings_removeKey (h : TidySection cn) (honce : Once cn) (hdot : key.head? ≠ some '.') :
    (removeKey cn key).map settings = (settings cn).remove key := by
  rw [removeKey, Settings.remove]
  cases hfind : findChild cn key with
  | none =>
      rw [(settings_eq_none_iff h).mpr hfind]
      rfl
  | some child =>
      cases hvalue : settings cn key with
      | none =>
          rw [(settings_eq_none_iff h).mp hvalue] at hfind
          cases hfind
      | some value => exact congrArg _ (settings_unlinkChild honce hdot)

end Sections

/-- A section with single settings. -/
structure OrderlySection (cn : CnfNode) : Prop where
  tidy : TidySection cn
  once : Once cn

/-- A file with single sections of single settings. -/
structure OrderlyFile (cnRoot : CnfNode) : Prop where
  tidy : Tidy cnRoot
  once : Once cnRoot
  sections : ∀ repo cnRepo, repo.head? ≠ some '.' → findChild cnRoot repo = some cnRepo →
    Once cnRepo

/-- A root with another section under a name. -/
def withSection (cnRoot : CnfNode) (repo : Text) (cnRepo : CnfNode) : CnfNode :=
  { cnRoot with children := Keyed.update CnfNode.name repo (fun _ => cnRepo) cnRoot.children }

section Files

variable {cnRoot cnRepo cnRepo' : CnfNode} {repo repo' : Text} {kv keys : List Text}
  {children : List CnfNode}

theorem OrderlyFile.section (h : OrderlyFile cnRoot) (hdot : repo.head? ≠ some '.')
    (hfind : findChild cnRoot repo = some cnRepo) : OrderlySection cnRepo :=
  ⟨h.tidy.find hdot hfind, h.sections repo cnRepo hdot hfind⟩

theorem OrderlySection.withChildren (h : OrderlySection cnRepo)
    (hchildren : ∀ node ∈ children, TidyChild node)
    (honce : Once (cnRepo.withChildren children)) : OrderlySection (cnRepo.withChildren children) :=
  ⟨h.tidy.withChildren hchildren, honce⟩

theorem withSection_eq (hfind : findChild cnRoot repo = some cnRepo) (children : List CnfNode) :
    withSection cnRoot repo (cnRepo.withChildren children) = cnRoot.withChildren
      (Keyed.update CnfNode.name repo (CnfNode.withChildren children) cnRoot.children) := by
  rw [withSection, Keyed.update_const (f := CnfNode.withChildren children) hfind]
  rfl

theorem findChild_withSection (hfind : findChild cnRoot repo = some cnRepo)
    (children : List CnfNode) (repo' : Text) :
    findChild (withSection cnRoot repo (cnRepo.withChildren children)) repo' =
      if repo' = repo then some (cnRepo.withChildren children) else findChild cnRoot repo' := by
  rw [withSection_eq hfind, findChild, CnfNode.withChildren]
  by_cases heq : repo' = repo
  · subst heq
    rw [findChild] at hfind
    rw [if_pos rfl, Keyed.lookup_update_self (CnfNode.withChildren_name children), hfind]
    rfl
  · rw [if_neg heq, Keyed.lookup_update_of_ne (CnfNode.withChildren_name children) heq, findChild]

theorem OrderlyFile.withSection (h : OrderlyFile cnRoot) (hdot : repo.head? ≠ some '.')
    (hfind : findChild cnRoot repo = some cnRepo)
    (hsection : OrderlySection (cnRepo.withChildren children)) :
    OrderlyFile (withSection cnRoot repo (cnRepo.withChildren children)) := by
  refine ⟨h.tidy.update hdot hsection.tidy, ?_, fun name node hname hnode => ?_⟩
  · rw [withSection_eq hfind, Once, CnfNode.withChildren,
      Keyed.map_key_update (CnfNode.withChildren_name children)]
    exact h.once
  · rw [findChild_withSection hfind] at hnode
    split at hnode
    · obtain rfl := Option.some.inj hnode
      exact hsection.once
    · exact h.sections name node hname hnode

theorem OrderlyFile.unlinkChild (h : OrderlyFile cnRoot) (hdot : repo.head? ≠ some '.') :
    OrderlyFile (unlinkChild cnRoot repo) := by
  refine ⟨h.tidy.unlinkChild hdot, h.once.unlinkChild repo, fun name node hname hnode => ?_⟩
  by_cases heq : name = repo
  · subst heq
    rw [findChild, Llconf.unlinkChild, Keyed.lookup_eraseP_self (h.once.pairwise hdot)] at hnode
    cases hnode
  · rw [findChild, Llconf.unlinkChild, Keyed.lookup_eraseP_of_ne heq] at hnode
    exact h.sections name node hname hnode

theorem findChild_unlinkChild (h : Once cnRoot) (hdot : repo.head? ≠ some '.') (repo' : Text) :
    findChild (Llconf.unlinkChild cnRoot repo) repo' =
      if repo' = repo then none else findChild cnRoot repo' := by
  rw [findChild, Llconf.unlinkChild]
  by_cases heq : repo' = repo
  · subst heq
    rw [if_pos rfl, Keyed.lookup_eraseP_self (h.pairwise hdot)]
  · rw [if_neg heq, Keyed.lookup_eraseP_of_ne heq, findChild]

theorem orderlyFile_root : OrderlyFile (createCnfnode "(root)".toList) :=
  ⟨tidy_root, List.Pairwise.nil, fun _ _ _ h => by cases h⟩

theorem findChild_appendNode (hnone : findChild cnRoot repo = none) (repo' : Text) :
    findChild (appendNode cnRoot (createCnfnode repo)) repo' =
      if repo' = repo then some (createCnfnode repo) else findChild cnRoot repo' := by
  rw [findChild, appendNode, Keyed.lookup_append, Keyed.lookup_cons, createCnfnode]
  by_cases heq : repo' = repo
  · subst heq
    rw [findChild] at hnone
    simp [hnone]
  · have hne : ¬ repo = repo' := fun h => heq h.symm
    simp [heq, hne, Keyed.lookup, findChild]

theorem OrderlyFile.append (h : OrderlyFile cnRoot) (hname : FitsName repo)
    (hnone : findChild cnRoot repo = none) :
    OrderlyFile (appendNode cnRoot (createCnfnode repo)) := by
  refine ⟨h.tidy.append hname.tidy, ?_, fun name node hdot hnode => ?_⟩
  · rw [Once, appendNode, List.map_append, List.pairwise_append]
    refine ⟨h.once, List.pairwise_singleton _ _, fun m hm n hn _ hsame => ?_⟩
    rw [List.map_singleton, List.mem_singleton] at hn
    rw [← hsame, hn] at hm
    exact Keyed.lookup_eq_none_iff.mp hnone hm
  · rw [findChild_appendNode hnone] at hnode
    split at hnode
    · obtain rfl := Option.some.inj hnode
      exact List.Pairwise.nil
    · exact h.sections name node hdot hnode

end Files

/-! ## Steps on a section -/

section Steps

variable {cnRoot cnRepo cnRepo' : CnfNode} {repo : Text} {kv keys : List Text}

/-- A section with other children, and single settings. -/
def Varies (cnRepo cnRepo' : CnfNode) : Prop :=
  OrderlySection cnRepo' ∧ ∃ children, cnRepo' = cnRepo.withChildren children

theorem setKeyValue_varies (h : OrderlySection cnRepo) {keyval : Text} (hfits : FitsSetting keyval)
    (hset : setKeyValue cnRepo keyval = .ok cnRepo') : Varies cnRepo cnRepo' := by
  obtain ⟨key, value, hsplit, rfl⟩ := setKeyValue_split hset
  have hchildren := tidyChild_putNode h.tidy.children (hfits key value hsplit)
  exact ⟨h.withChildren hchildren (h.once.putNode key value), _, rfl⟩

theorem removeKey_varies (h : OrderlySection cnRepo) {key : Text}
    (hremove : removeKey cnRepo key = .ok cnRepo') : Varies cnRepo cnRepo' := by
  rw [removeKey] at hremove
  cases hfind : findChild cnRepo key with
  | none =>
      rw [hfind] at hremove
      cases hremove
  | some child =>
      rw [hfind] at hremove
      cases hremove
      exact ⟨h.withChildren (fun node hnode => h.tidy.children node (List.mem_of_mem_eraseP hnode))
        (h.once.unlinkChild key), _, rfl⟩

/-- A loop of steps that vary a section varies it. -/
theorem foldlM_varies {f : CnfNode → Text → Except Halt CnfNode} {args : List Text}
    (hf : ∀ cn cn', ∀ arg ∈ args, OrderlySection cn → f cn arg = .ok cn' → Varies cn cn')
    (h : OrderlySection cnRepo) (hloop : args.foldlM f cnRepo = .ok cnRepo') :
    Varies cnRepo cnRepo' := by
  have hself : cnRepo = cnRepo.withChildren cnRepo.children := by
    cases cnRepo with
    | mk name value children => rfl
  refine keeps_of_foldlM_ok (I := Varies cnRepo) ?_ ⟨h, cnRepo.children, hself⟩ hloop
  intro cn cn' arg harg hvaries hstep
  obtain ⟨horderly, children, rfl⟩ := hvaries
  obtain ⟨horderly', children', rfl⟩ := hf _ cn' arg harg horderly hstep
  exact ⟨horderly', children', rfl⟩

theorem settings_setLoop (kv : List Text) (cnRepo : CnfNode) :
    (kv.foldlM setKeyValue cnRepo).map settings = kv.foldlM Settings.set (settings cnRepo) :=
  foldlM_map (I := fun _ => True) (fun cn keyval _ _ => settings_setKeyValue cn keyval)
    (fun _ _ _ _ _ _ => trivial) trivial

theorem settings_removeLoop (hkeys : ∀ key ∈ keys, key.head? ≠ some '.')
    (h : OrderlySection cnRepo) :
    (keys.foldlM removeKey cnRepo).map settings =
      keys.foldlM Settings.remove (settings cnRepo) :=
  foldlM_map (I := OrderlySection)
    (fun _ key hkey hcn => settings_removeKey hcn.tidy hcn.once (hkeys key hkey))
    (fun _ _ _ _ hcn hstep => (removeKey_varies hcn hstep).1) h

end Steps

end Tdnf.Llconf
