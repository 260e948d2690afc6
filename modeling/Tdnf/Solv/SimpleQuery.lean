import Tdnf.Library.Buffer
import Tdnf.Library.Procedure
import Tdnf.Solv.Nevra

/-!
# Lookups by NEVRA in memory

`split_nevra` walks a string backwards and cuts it by writing terminators into it.
The three parts are looked up among the strings of the pool, and the solvables
with their ids are added to a queue.
-/

namespace Tdnf.Solv.SimpleQuery

open PathText Procedure Buffer

/-! ## Splitting in place -/

/-- What `split_nevra` returns: its code, the string that it wrote to, and the positions in it
that it assigned to its pointers. -/
structure SplitResult where
  ret : ℤ
  nevra : Text
  name : Option ℕ
  evr : Option ℕ
  arch : Option ℕ
deriving DecidableEq, Repr

/-- `while (*p != c && p > nevra) p--;`, with the characters that it reads -/
def scanBack (nevra : Text) (c : Char) : ℕ → Option ℕ
  | 0 => do
    let _ ← nevra[0]?
    return 0
  | p + 1 => do
    let d ← nevra[p + 1]?
    if d ≠ c then scanBack nevra c p else return p + 1

/-- `split_nevra` of a string in memory; `none` is an access outside of it -/
def splitNevra (nevra : Text) : Option SplitResult := do
  let s ← stringAt '\x00' nevra 0
  match s.length with
  -- `p` starts in front of the string
  | 0 => none
  | last + 1 =>
    let p ← scanBack nevra '.' last
    if p = 0 then return ⟨-1, nevra, none, none, none⟩
    else
      let nevra ← write nevra p '\x00'
      let arch := p + 1
      let p ← scanBack nevra '-' (p - 1)
      if p = 0 then return ⟨-2, nevra, none, none, some arch⟩
      else
        let p ← scanBack nevra '-' (p - 1)
        if p = 0 then return ⟨-3, nevra, none, none, some arch⟩
        else
          let nevra ← write nevra p '\x00'
          return ⟨0, nevra, some 0, some (p + 1), some arch⟩

/-- The string at a pointer of the caller. -/
def SplitResult.string (r : SplitResult) (p : Option ℕ) : Option Text := do
  stringAt '\x00' r.nevra (← p)

/-! ## The pool -/

/-- The strings of a pool, from id 1 on, which is the empty string (`ID_EMPTY`); 0 is the id of
none (`ID_NULL`). -/
structure StringPool where
  strings : List Text
  nodup : strings.Nodup
  empty : strings[0]? = some []

/-- `pool_str2id` that does not create ids -/
def StringPool.str2id (pool : StringPool) (s : Text) : ℕ :=
  if pool.strings.contains s then pool.strings.idxOf s + 1 else 0

/-- `pool_id2str` -/
def StringPool.id2str (pool : StringPool) : ℕ → Option Text
  | 0 => none
  | id + 1 => pool.strings[id]?

/-- `Solvable`, with ids of strings and of the repository -/
structure SolvableIds where
  name : ℕ
  evr : ℕ
  arch : ℕ
  repo : ℕ
deriving DecidableEq, Repr

/-- A version with a release: there is exactly one dash. -/
def OneDash (evr : Text) : Prop :=
  ∃ version release, evr = version ++ '-' :: release ∧ '-' ∉ version ∧ '-' ∉ release

/-- A pool whose solvables have a name, a version with one dash and an architecture without a
dot. -/
structure Pool where
  strings : StringPool
  /-- `FOR_POOL_SOLVABLES` -/
  ids : List ℕ
  solvable : ℕ → SolvableIds
  /-- `pool->installed` -/
  installed : Option ℕ
  names : ∀ p ∈ ids, ∃ name, strings.id2str (solvable p).name = some name ∧ name ≠ []
  evrs : ∀ p ∈ ids, ∃ evr, strings.id2str (solvable p).evr = some evr ∧ OneDash evr
  archs : ∀ p ∈ ids, ∃ arch, strings.id2str (solvable p).arch = some arch ∧ '.' ∉ arch

namespace Pool

variable (pool : Pool)

/-- `s->repo == pool->installed` -/
def isInstalled (p : ℕ) : Bool := pool.installed == some (pool.solvable p).repo

/-- The printed form of a solvable: `name-evr.arch` -/
def nevra (p : ℕ) : Option Text := do
  let name ← pool.strings.id2str (pool.solvable p).name
  let evr ← pool.strings.id2str (pool.solvable p).evr
  let arch ← pool.strings.id2str (pool.solvable p).arch
  return name ++ '-' :: evr ++ '.' :: arch

/-- The solvables on a side that are printed as a string -/
def printedAs (installed : Bool) (s : Text) : List ℕ :=
  pool.ids.filter fun p => pool.isInstalled p = installed ∧ pool.nevra p = some s

end Pool

/-- A lookup returns an error, or it leaves the memory of its string. -/
inductive QueryFault where
  | outOfBounds
  | code (e : TdnfError)
deriving DecidableEq, Repr

/-- Lookups that push to a queue -/
abbrev QueryProc (α : Type) := Proc QueryFault (List ℕ) α

/-- One round of the loop in `SolvFindSolvablesByNevraId` -/
def pushSolvable (pool : Pool) (name evr arch : ℕ) (installed : Bool) (p : ℕ) : QueryProc Unit :=
  if installed = pool.isInstalled p then
    if (pool.solvable p).name = name ∧ (pool.solvable p).evr = evr ∧
        (pool.solvable p).arch = arch then
      modify fun qresult => qresult ++ [p]
    else pure ()
  else pure ()

/-- `SolvFindSolvablesByNevraId` -/
def findSolvablesByNevraId (pool : Pool) (name evr arch : ℕ) (installed : Bool) :
    QueryProc Unit :=
  pool.ids.forM (pushSolvable pool name evr arch installed)

/-- A string in memory that is there for the caller. -/
def readString (s : Option Text) : QueryProc Text :=
  match s with
  | some s => pure s
  | none => throw .outOfBounds

/-- `SolvFindSolvablesByNevraStr` -/
def findSolvablesByNevraStr (pool : Pool) (nevra : Text) (installed : Bool) :
    QueryProc Unit := do
  match splitNevra (nevra ++ ['\x00']) with
  | none => throw .outOfBounds
  | some r =>
    if r.ret ≠ 0 then throw (.code .invalidParameter)
    else
      let name ← readString (r.string r.name)
      let evr ← readString (r.string r.evr)
      let arch ← readString (r.string r.arch)
      let idName := pool.strings.str2id name
      let idEvr := pool.strings.str2id evr
      let idArch := pool.strings.str2id arch
      if idName ≠ 0 ∧ idEvr ≠ 0 ∧ idArch ≠ 0 then
        findSolvablesByNevraId pool idName idEvr idArch installed
      else pure ()

/-! ## The walks -/

section Walks

variable {c : Char} {s more before after : Text}

/-- Another character at the end leaves the last occurrence where it is. -/
theorem splitLast_concat {d : Char} (hd : d ≠ c) :
    splitLast c (s ++ [d]) = (splitLast c s).map fun parts => (parts.1, parts.2 ++ [d]) := by
  apply Option.ext
  rintro ⟨before, after⟩
  rw [Option.map_eq_some_iff, splitLast_eq_some_iff]
  constructor
  · rintro ⟨hbefore, hafter, heq⟩
    obtain rfl | ⟨front, e, rfl⟩ := List.eq_nil_or_concat' after
    · obtain ⟨-, hlast⟩ := List.append_inj' heq rfl
      exact absurd (List.cons.inj hlast).1 hd
    · have heq' : s ++ [d] = before ++ c :: front ++ [e] := heq.trans (by simp)
      obtain ⟨hfront, hlast⟩ := List.append_inj' heq' rfl
      cases hlast
      refine ⟨(before, front), splitLast_eq_some_iff.mpr ⟨hbefore, ?_, hfront⟩, rfl⟩
      exact fun hc => hafter (List.mem_append_left _ hc)
  · rintro ⟨⟨before', after'⟩, hsplit, heq⟩
    obtain ⟨hbefore, hafter, rfl⟩ := splitLast_eq_some_iff.mp hsplit
    cases heq
    refine ⟨hbefore, fun hc => ?_, by simp⟩
    obtain hc | hc := List.mem_append.mp hc
    · exact hafter hc
    · exact hd (List.mem_singleton.mp hc).symm

/-- A walk from the end of a text stops at the last occurrence, or at the start. -/
theorem scanBack_eq (hs : s ≠ []) (c : Char) (more : Text) :
    scanBack (s ++ more) c (s.length - 1) =
      some ((splitLast c s).elim 0 fun parts => parts.1.length) := by
  induction s using List.reverseRecOn generalizing more with
  | nil => exact absurd rfl hs
  | append_singleton front d ih =>
      have hread : (front ++ [d] ++ more)[front.length]? = some d := by
        rw [List.append_assoc]
        exact getElem?_middle
      have hlength : (front ++ [d]).length - 1 = front.length := by simp
      rw [hlength]
      cases front with
      | nil =>
          have hnone : splitLast c [d] = none := by
            rw [Option.eq_none_iff_forall_not_mem]
            rintro ⟨before, after⟩ hmem
            obtain ⟨hbefore, -, heq⟩ := splitLast_eq_some_iff.mp hmem
            have hcount := congrArg List.length heq
            have hpos := List.length_pos_of_ne_nil hbefore
            simp only [List.length_append, List.length_cons, List.length_nil] at hcount
            omega
          rw [List.nil_append, hnone]
          rfl
      | cons e front =>
          rw [List.length_cons] at hread ⊢
          rw [scanBack, hread]
          by_cases hd : d = c
          · have hsplit : splitLast c (e :: front ++ [d]) = some (e :: front, []) :=
              splitLast_eq_some_iff.mpr ⟨List.cons_ne_nil _ _, List.not_mem_nil, by rw [hd]⟩
            rw [hsplit]
            simp [hd]
          · have hrest := ih (List.cons_ne_nil e front) (d :: more)
            have hbuffer : e :: front ++ [d] ++ more = e :: front ++ d :: more := by simp
            rw [splitLast_concat hd, Option.elim_map, hbuffer]
            simp only [bind, Option.bind, ne_eq, hd, not_false_eq_true, if_true]
            exact hrest

end Walks

/-! ## The split of a string -/

/-- The string is `n-v-r.a`, with a name, no dash in the version or the release and no dot in the
architecture. -/
structure IsNevra (s n v r a : Text) : Prop where
  text : s = n ++ '-' :: (v ++ '-' :: r) ++ '.' :: a
  name : n ≠ []
  version : '-' ∉ v
  release : '-' ∉ r
  arch : '.' ∉ a

section Split

variable {s n v r a : Text}

theorem splitNevra_map {rest rest' release arch : Text} (hdot : splitLast '.' s = some (rest, arch))
    (hdash : splitLast '-' rest = some (rest', release)) :
    Solv.splitNevra s = (splitLast '-' rest').map fun parts =>
      (parts.1, parts.2 ++ '-' :: release, arch) := by
  rw [Solv.splitNevra, hdot]
  simp only [Option.bind_eq_bind, Option.bind_some, hdash]
  cases splitLast '-' rest' with
  | none => rfl
  | some parts => rfl

/-- The walks in memory find the parts that the string has. -/
theorem splitNevra_eq (hs : s ≠ []) (hnul : '\x00' ∉ s) :
    ∃ out, splitNevra (s ++ ['\x00']) = some out ∧
      (Solv.splitNevra s = none → out.ret ≠ 0) ∧
        ∀ name evr arch, Solv.splitNevra s = some (name, evr, arch) →
          out.ret = 0 ∧ out.string out.name = some name ∧ out.string out.evr = some evr ∧
            out.string out.arch = some arch := by
  have hstring : stringAt '\x00' (s ++ ['\x00']) 0 = some s :=
    stringAt_eq_some_iff.mpr ⟨hnul, [], rfl⟩
  obtain ⟨last, hlast⟩ := Nat.exists_eq_succ_of_ne_zero (mt List.length_eq_zero_iff.mp hs)
  have hdot := scanBack_eq hs '.' ['\x00']
  rw [hlast, Nat.succ_sub_one] at hdot
  rw [splitNevra, hstring, Option.bind_eq_bind, Option.bind_some, hlast]
  simp only [hdot, Option.bind_eq_bind, Option.bind_some, Option.pure_def]
  cases hsplit : splitLast '.' s with
  | none =>
      rw [Option.elim_none, if_pos rfl]
      refine ⟨_, rfl, fun _ => Int.negSucc_ne_zero 0, fun _ _ _ h => ?_⟩
      simp [Solv.splitNevra, hsplit] at h
  | some parts =>
      obtain ⟨rest, arch⟩ := parts
      obtain ⟨hrest, -, rfl⟩ := splitLast_eq_some_iff.mp hsplit
      have hne : rest.length ≠ 0 := mt List.length_eq_zero_iff.mp hrest
      have hwrite : write (rest ++ '.' :: arch ++ ['\x00']) rest.length '\x00' =
          some (rest ++ '\x00' :: (arch ++ ['\x00'])) := by
        rw [List.append_assoc]
        exact write_middle
      have hdash := scanBack_eq hrest '-' ('\x00' :: (arch ++ ['\x00']))
      simp only [Option.elim_some, if_neg hne, hwrite, Option.bind_some, hdash]
      cases hsplit' : splitLast '-' rest with
      | none =>
          rw [Option.elim_none, if_pos rfl]
          refine ⟨_, rfl, fun _ => Int.negSucc_ne_zero 1, fun _ _ _ h => ?_⟩
          simp [Solv.splitNevra, hsplit, hsplit'] at h
      | some parts =>
          obtain ⟨rest', release⟩ := parts
          obtain ⟨hrest', -, rfl⟩ := splitLast_eq_some_iff.mp hsplit'
          have hne' : rest'.length ≠ 0 := mt List.length_eq_zero_iff.mp hrest'
          have hbuffer : rest' ++ '-' :: release ++ '\x00' :: (arch ++ ['\x00']) =
              rest' ++ '-' :: (release ++ '\x00' :: (arch ++ ['\x00'])) := by simp
          have hdash' := scanBack_eq hrest' '-' ('-' :: (release ++ '\x00' :: (arch ++ ['\x00'])))
          rw [Option.elim_some, if_neg hne', hbuffer, hdash', Option.bind_some]
          cases hsplit'' : splitLast '-' rest' with
          | none =>
              rw [Option.elim_none, if_pos rfl]
              refine ⟨_, rfl, fun _ => Int.negSucc_ne_zero 2, fun _ _ _ h => ?_⟩
              rw [splitNevra_map hsplit hsplit', hsplit''] at h
              cases h
          | some parts =>
              obtain ⟨name, version⟩ := parts
              obtain ⟨hname, -, rfl⟩ := splitLast_eq_some_iff.mp hsplit''
              have hne'' : name.length ≠ 0 := mt List.length_eq_zero_iff.mp hname
              have hbuffer' : name ++ '-' :: version ++
                  '-' :: (release ++ '\x00' :: (arch ++ ['\x00'])) =
                  name ++ '-' :: (version ++ '-' :: (release ++ '\x00' :: (arch ++ ['\x00']))) := by
                simp
              rw [Option.elim_some, if_neg hne'', hbuffer', write_middle, Option.bind_some]
              have hwhole : Solv.splitNevra
                  (name ++ '-' :: version ++ '-' :: release ++ '.' :: arch) =
                  some (name, version ++ '-' :: release, arch) := by
                rw [splitNevra_map hsplit hsplit', hsplit'']
                rfl
              rw [hwhole]
              refine ⟨_, rfl, fun h => (by cases h), fun n e a h => ?_⟩
              obtain ⟨rfl, rfl, rfl⟩ := h
              simp only [List.mem_append, List.mem_cons, not_or] at hnul
              obtain ⟨⟨⟨hn, -, hv⟩, -, hr⟩, -, ha⟩ := hnul
              refine ⟨rfl, stringAt_eq_some_iff.mpr ⟨hn, _, rfl⟩, ?_, ?_⟩
              · have hevr : '\x00' ∉ version ++ '-' :: release := by
                  simpa [hv] using hr
                have hbehind : version ++ '-' :: (release ++ '\x00' :: (arch ++ ['\x00'])) =
                    version ++ '-' :: release ++ '\x00' :: (arch ++ ['\x00']) := by simp
                rw [hbehind]
                exact stringAt_after hevr
              · have hpre : (name ++ '-' :: version ++ '-' :: release).length =
                    (name ++ '\x00' :: version ++ '-' :: release).length := by simp
                have hbehind : name ++ '\x00' ::
                    (version ++ '-' :: (release ++ '\x00' :: (arch ++ ['\x00']))) =
                    name ++ '\x00' :: version ++ '-' :: release ++
                      '\x00' :: (arch ++ '\x00' :: []) := by simp
                rw [hpre, hbehind]
                exact stringAt_after ha

/-- A string has the parts exactly if it splits into them. -/
theorem isNevra_iff :
    IsNevra s n v r a ↔
      '-' ∉ v ∧ '-' ∉ r ∧ Solv.splitNevra s = some (n, v ++ '-' :: r, a) := by
  constructor
  · intro h
    let spelled : Solvable := ⟨n, v ++ '-' :: r, a, 0⟩
    have hsplit : Solv.splitNevra s = some (spelled.name, spelled.evr, spelled.arch) :=
      splitNevra_eq_some_iff.mpr
        ⟨h.name, ⟨v, r, rfl, h.version, h.release⟩, h.arch, by rw [h.text]⟩
    exact ⟨h.version, h.release, hsplit⟩
  · rintro ⟨hv, hr, hsplit⟩
    let spelled : Solvable := ⟨n, v ++ '-' :: r, a, 0⟩
    have hspelled : spelled.HasNevra s := splitNevra_eq_some_iff.mp hsplit
    obtain ⟨hn, -, ha, heq⟩ := hspelled
    exact ⟨heq, hn, hv, hr, ha⟩

theorem exists_isNevra_iff :
    (∃ n v r a, IsNevra s n v r a) ↔ Solv.splitNevra s ≠ none := by
  constructor
  · rintro ⟨n, v, r, a, h⟩ hnone
    rw [(isNevra_iff.mp h).2.2] at hnone
    cases hnone
  · intro hsome
    obtain ⟨⟨n, evr, a⟩, hsplit⟩ := Option.ne_none_iff_exists'.mp hsome
    let spelled : Solvable := ⟨n, evr, a, 0⟩
    have hspelled : spelled.HasNevra s := splitNevra_eq_some_iff.mp hsplit
    obtain ⟨hn, ⟨v, r, hevr, hv, hr⟩, ha, heq⟩ := hspelled
    exact ⟨n, v, r, a, by rw [heq, hevr], hn, hv, hr, ha⟩

end Split

/-! ## The lookup -/

section Lookup

variable {pool : Pool} {strings : StringPool} {s t name evr arch : Text} {installed : Bool}
  {id p : ℕ}

/-- The strings of a pool and their ids are one-to-one. -/
theorem str2id_eq_iff (h : strings.id2str id = some t) : strings.str2id s = id ↔ s = t := by
  cases id with
  | zero => cases h
  | succ id =>
      have hget : strings.strings[id]? = some t := h
      obtain ⟨hlt, hat⟩ := List.getElem?_eq_some_iff.mp hget
      constructor
      · intro hid
        rw [StringPool.str2id] at hid
        split at hid
        · next hmem =>
            have hidx : strings.strings.idxOf s = id := Nat.succ.inj hid
            have hback := List.getElem_idxOf (List.idxOf_lt_length_of_mem
              (List.contains_iff_mem.mp hmem))
            simp only [hidx] at hback
            exact hback.symm.trans hat
        · cases hid
      · rintro rfl
        have hmem : strings.strings.contains s = true :=
          List.contains_iff_mem.mpr (List.mem_of_getElem? hget)
        rw [StringPool.str2id, if_pos hmem, ← hat, strings.nodup.idxOf_getElem]

theorem ne_zero_of_id2str (h : strings.id2str id = some t) : id ≠ 0 := by
  rintro rfl
  cases h

/-- A solvable is printed as the parts that it has. -/
theorem nevra_eq_some_iff (hp : p ∈ pool.ids) :
    pool.nevra p = some s ↔ ∃ name evr arch, Solv.splitNevra s = some (name, evr, arch) ∧
      pool.strings.str2id name = (pool.solvable p).name ∧
        pool.strings.str2id evr = (pool.solvable p).evr ∧
          pool.strings.str2id arch = (pool.solvable p).arch := by
  obtain ⟨n, hn, hne⟩ := pool.names p hp
  obtain ⟨e, he, hdash⟩ := pool.evrs p hp
  obtain ⟨a, ha, hdot⟩ := pool.archs p hp
  have hprinted : pool.nevra p = some (n ++ '-' :: e ++ '.' :: a) := by
    rw [Pool.nevra, hn, he, ha]
    rfl
  let spelled : Solvable := ⟨n, e, a, 0⟩
  rw [hprinted]
  constructor
  · intro h
    cases h
    have hspelled : spelled.HasNevra (n ++ '-' :: e ++ '.' :: a) := ⟨hne, hdash, hdot, rfl⟩
    exact ⟨n, e, a, splitNevra_eq_some_iff.mpr hspelled, (str2id_eq_iff hn).mpr rfl,
      (str2id_eq_iff he).mpr rfl, (str2id_eq_iff ha).mpr rfl⟩
  · rintro ⟨name, evr, arch, hsplit, hname, hevr, harch⟩
    obtain rfl := (str2id_eq_iff hn).mp hname
    obtain rfl := (str2id_eq_iff he).mp hevr
    obtain rfl := (str2id_eq_iff ha).mp harch
    have hspelled : spelled.HasNevra s := splitNevra_eq_some_iff.mp hsplit
    exact congrArg some hspelled.2.2.2.symm

/-- The loop pushes the solvables that it asks for. -/
theorem forM_pushSolvable {n e a : ℕ} (ids queue : List ℕ) :
    (ids.forM (pushSolvable pool n e a installed)).run queue =
      .ok () (queue ++ ids.filter fun p => installed = pool.isInstalled p ∧
        (pool.solvable p).name = n ∧ (pool.solvable p).evr = e ∧ (pool.solvable p).arch = a) := by
  induction ids generalizing queue with
  | nil =>
      rw [List.filter_nil, List.append_nil]
      rfl
  | cons p ids ih =>
      change (pushSolvable pool n e a installed p >>= fun _ =>
        ids.forM (pushSolvable pool n e a installed)).run queue = _
      rw [List.filter_cons]
      by_cases hside : installed = pool.isInstalled p
      · by_cases hids : (pool.solvable p).name = n ∧ (pool.solvable p).evr = e ∧
          (pool.solvable p).arch = a
        · have hpush : (pushSolvable pool n e a installed p).run queue =
              .ok () (queue ++ [p]) := by
            rw [pushSolvable, if_pos hside, if_pos hids]
            rfl
          rw [run_bind_ok hpush, ih, if_pos (by simpa using ⟨hside, hids⟩), List.append_assoc,
            List.singleton_append]
        · have hskip : (pushSolvable pool n e a installed p).run queue = .ok () queue := by
            rw [pushSolvable, if_pos hside, if_neg hids]
            rfl
          rw [run_bind_ok hskip, ih, if_neg (by simpa [hside] using hids)]
      · have hskip : (pushSolvable pool n e a installed p).run queue = .ok () queue := by
          rw [pushSolvable, if_neg hside]
          rfl
        rw [run_bind_ok hskip, ih, if_neg (by simp [hside])]

/-- What a lookup pushes are the solvables that are printed as the string. -/
theorem run_findSolvablesByNevraStr (hs : s ≠ []) (hnul : '\x00' ∉ s) (queue : List ℕ) :
    (findSolvablesByNevraStr pool s installed).run queue =
      if Solv.splitNevra s = none then .error (.code .invalidParameter) queue
      else .ok () (queue ++ pool.printedAs installed s) := by
  obtain ⟨out, hout, hfails, hsplits⟩ := splitNevra_eq hs hnul
  simp only [findSolvablesByNevraStr, hout]
  cases hsplit : Solv.splitNevra s with
  | none =>
      rw [if_pos (hfails hsplit), if_pos rfl]
      rfl
  | some parts =>
      obtain ⟨name, evr, arch⟩ := parts
      obtain ⟨hret, hname, hevr, harch⟩ := hsplits name evr arch hsplit
      rw [if_neg (not_not.mpr hret), hname, hevr, harch, if_neg (by simp)]
      have hprinted : ∀ p ∈ pool.ids, pool.nevra p = some s ↔
          (pool.solvable p).name = pool.strings.str2id name ∧
            (pool.solvable p).evr = pool.strings.str2id evr ∧
              (pool.solvable p).arch = pool.strings.str2id arch := by
        intro p hp
        rw [nevra_eq_some_iff hp]
        constructor
        · rintro ⟨name', evr', arch', hsplit', hids⟩
          cases hsplit.symm.trans hsplit'
          exact ⟨hids.1.symm, hids.2.1.symm, hids.2.2.symm⟩
        · rintro ⟨hname, hevr, harch⟩
          exact ⟨name, evr, arch, hsplit, hname.symm, hevr.symm, harch.symm⟩
      have hfilter : pool.printedAs installed s = pool.ids.filter fun p =>
          installed = pool.isInstalled p ∧
            (pool.solvable p).name = pool.strings.str2id name ∧
              (pool.solvable p).evr = pool.strings.str2id evr ∧
                (pool.solvable p).arch = pool.strings.str2id arch := by
        refine List.filter_congr fun p hp => ?_
        rw [decide_eq_decide, hprinted p hp, eq_comm (a := installed)]
      by_cases hids : pool.strings.str2id name ≠ 0 ∧ pool.strings.str2id evr ≠ 0 ∧
        pool.strings.str2id arch ≠ 0
      · change (if _ then findSolvablesByNevraId pool _ _ _ installed else pure () :
          QueryProc Unit).run queue = _
        rw [if_pos hids, findSolvablesByNevraId, forM_pushSolvable, hfilter]
      · -- a part that no string of the pool equals is no part of a printed form
        have hnone : pool.printedAs installed s = [] := by
          rw [Pool.printedAs, List.filter_eq_nil_iff]
          intro p hp hcond
          obtain ⟨hname, hevr, harch⟩ := (hprinted p hp).mp (of_decide_eq_true hcond).2
          obtain ⟨n, hn, -⟩ := pool.names p hp
          obtain ⟨e, he, -⟩ := pool.evrs p hp
          obtain ⟨a, ha, -⟩ := pool.archs p hp
          rw [hname] at hn
          rw [hevr] at he
          rw [harch] at ha
          exact hids ⟨ne_zero_of_id2str hn, ne_zero_of_id2str he, ne_zero_of_id2str ha⟩
        change (if _ then findSolvablesByNevraId pool _ _ _ installed else pure () :
          QueryProc Unit).run queue = _
        rw [if_neg hids, hnone, List.append_nil]
        rfl

/-- Splitting a string in memory inverts printing: it succeeds, within the string, exactly on the
strings that have the parts, and returns them; a lookup pushes exactly the solvables of a side
that are printed as the string. -/
theorem nevraLookup_inverts_printing (hs : s ≠ []) (hnul : '\x00' ∉ s) :
    (∃ out, splitNevra (s ++ ['\x00']) = some out ∧
        (out.ret = 0 ↔ ∃ n v r a, IsNevra s n v r a) ∧
        ∀ n v r a, IsNevra s n v r a →
          out.string out.name = some n ∧ out.string out.evr = some (v ++ '-' :: r) ∧
            out.string out.arch = some a) ∧
      ∀ (pool : Pool) (installed : Bool) (queue : List ℕ),
        finalState ((findSolvablesByNevraStr pool s installed).run queue) =
            queue ++ pool.printedAs installed s ∧
          ((∃ t, (findSolvablesByNevraStr pool s installed).run queue = .ok () t) ↔
            ∃ n v r a, IsNevra s n v r a) := by
  obtain ⟨out, hout, hfails, hsplits⟩ := splitNevra_eq hs hnul
  constructor
  · refine ⟨out, hout, ?_, fun n v r a h => ?_⟩
    · rw [exists_isNevra_iff]
      constructor
      · exact fun hret hnone => hfails hnone hret
      · intro hsome
        obtain ⟨⟨name, evr, arch⟩, hsplit⟩ := Option.ne_none_iff_exists'.mp hsome
        exact (hsplits name evr arch hsplit).1
    · exact (hsplits _ _ _ (isNevra_iff.mp h).2.2).2
  · intro pool installed queue
    rw [run_findSolvablesByNevraStr hs hnul, exists_isNevra_iff]
    by_cases hsplit : Solv.splitNevra s = none
    · have hnone : pool.printedAs installed s = [] := by
        rw [Pool.printedAs, List.filter_eq_nil_iff]
        intro p hp hcond
        obtain ⟨name, evr, arch, hsome, -⟩ :=
          (nevra_eq_some_iff hp).mp (of_decide_eq_true hcond).2
        rw [hsplit] at hsome
        cases hsome
      rw [if_pos hsplit, hnone, List.append_nil]
      refine ⟨rfl, ?_, fun h => absurd hsplit h⟩
      rintro ⟨t, h⟩
      cases h
    · rw [if_neg hsplit]
      exact ⟨rfl, fun _ => hsplit, fun _ => ⟨_, rfl⟩⟩

/-- The sack has the solvables of the pool, with the strings of their ids. -/
structure Stands (pool : Pool) (sack : Sack) : Prop where
  ids : sack.ids = pool.ids
  side : ∀ p ∈ pool.ids, sack.isInstalled p = pool.isInstalled p
  name : ∀ p ∈ pool.ids,
    pool.strings.id2str (pool.solvable p).name = some (sack.solvable p).name
  evr : ∀ p ∈ pool.ids, pool.strings.id2str (pool.solvable p).evr = some (sack.solvable p).evr
  arch : ∀ p ∈ pool.ids,
    pool.strings.id2str (pool.solvable p).arch = some (sack.solvable p).arch

theorem spelled_eq_printedAs {sack : Sack} (h : Stands pool sack) :
    sack.spelled installed s = pool.printedAs installed s := by
  rw [Sack.spelled, Pool.printedAs, h.ids]
  refine List.filter_congr fun p hp => ?_
  rw [decide_eq_decide, h.side p hp, ← splitNevra_eq_some_iff, nevra_eq_some_iff hp]
  refine and_congr_right fun _ => ?_
  constructor
  · intro hsplit
    exact ⟨_, _, _, hsplit, (str2id_eq_iff (h.name p hp)).mpr rfl,
      (str2id_eq_iff (h.evr p hp)).mpr rfl, (str2id_eq_iff (h.arch p hp)).mpr rfl⟩
  · rintro ⟨name, evr, arch, hsplit, hname, hevr, harch⟩
    rw [hsplit, (str2id_eq_iff (h.name p hp)).mp hname, (str2id_eq_iff (h.evr p hp)).mp hevr,
      (str2id_eq_iff (h.arch p hp)).mp harch]

/-- The lookup in memory is that among the solvables of a sack. -/
theorem findSolvablesByNevraStr_refines {sack : Sack} (h : Stands pool sack) (hs : s ≠ [])
    (hnul : '\x00' ∉ s) (queue : List ℕ) :
    (findSolvablesByNevraStr pool s installed).run queue =
      (fromExcept ((Solv.findSolvablesByNevraStr sack s installed).mapError .code) >>= fun ids =>
        modify fun qresult => qresult ++ ids : QueryProc Unit).run queue := by
  rw [run_findSolvablesByNevraStr hs hnul, findSolvablesByNevraStr_eq, spelled_eq_printedAs h]
  cases hsplit : Solv.splitNevra s with
  | none => rfl
  | some parts => rfl

/-- A pool with one package, "a-b.c-1-2.x" -/
def onePackage : Pool where
  strings := ⟨[[], "a-b.c".toList, "1-2".toList, "x".toList], by decide, rfl⟩
  ids := [2]
  solvable := fun _ => ⟨2, 3, 4, 0⟩
  installed := some 0
  names := fun p _ => ⟨"a-b.c".toList, rfl, by decide⟩
  evrs := fun p _ => ⟨"1-2".toList, rfl, "1".toList, "2".toList, rfl, by decide, by decide⟩
  archs := fun p _ => ⟨"x".toList, rfl, by decide⟩

theorem nevraLookup_onePackage :
    finalState ((findSolvablesByNevraStr onePackage "a-b.c-1-2.x".toList true).run []) =
      onePackage.printedAs true "a-b.c-1-2.x".toList :=
  ((nevraLookup_inverts_printing (by decide) (by decide)).2 onePackage true []).1

example : onePackage.printedAs true "a-b.c-1-2.x".toList = [2] := by decide

end Lookup

end Tdnf.Solv.SimpleQuery
