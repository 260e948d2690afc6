import Tdnf.Cli.FormatString
import Mathlib.Data.List.Sort

/-!
# The tags of a query format

Before the query, `TDNFCliRepoQueryCommand` looks for the tags of its format that
name dependencies, so that these are fetched. The scan moves a pointer and a
counter that gains two on it with every tag, so the end of the format is not seen
behind many tags. Backslashes are not read as `format_string` reads them.
-/

namespace Tdnf.Cli

open Buffer Procedure
open Json (Bytes ascii)

/-! ## Dependency keys -/

/-- `depKey` -/
def depKey : List Bytes :=
  [ascii "provides", ascii "obsoletes", ascii "conflicts", ascii "requires",
    ascii "recommends", ascii "suggests", ascii "supplements", ascii "enhances",
    ascii "depends", ascii "requires-pre"]

/-- `tolower` -/
def toLower (c : UInt8) : UInt8 := if 'A'.toUInt8 ≤ c ∧ c ≤ 'Z'.toUInt8 then c + 32 else c

/-- The loop over the keys for a tag, which sets the bit of one that is equal up to case -/
def addDepKey (tag : Bytes) (depKeySet : ℕ) : List (Bytes × ℕ) → ℕ
  | [] => depKeySet
  | (key, depkey) :: rest =>
    if tag.map toLower = key.map toLower then
      if depKeySet.testBit depkey then addDepKey tag depKeySet rest
      else depKeySet ||| 1 <<< depkey
    else addDepKey tag depKeySet rest

/-- The scan rejects the format, or it reads outside of it. -/
inductive ScanFault where
  | outOfBounds
  | invalidArgument
deriving DecidableEq, Repr

/-- `*pszQueryFormat == '%' && pszQueryFormat[1] == '{'` -/
def startsTag : Bytes → Option Bool
  | [] => none
  | [c] => if c = '%'.toUInt8 then none else some false
  | c :: d :: _ => some (c = '%'.toUInt8 && d = '{'.toUInt8)

/-- The pre-scan of `TDNFCliRepoQueryCommand`, with its pointer and its counter -/
def preScan (len : ℕ) (p : Bytes) (length depKeySet : ℕ) : Except ScanFault ℕ :=
  if hlt : length < len then
    match p with
    | [] => .error .outOfBounds
    | c :: rest =>
      match startsTag (c :: rest) with
      | none => .error .outOfBounds
      | some false => preScan len rest (length + 1) depKeySet
      | some true =>
        match spanTag (rest.drop 1) with
        | none => .error .outOfBounds
        | some (tag, t) =>
          if t.head? = some 0 then .error .invalidArgument
          else
            preScan len (rest.drop (tag.length + 2)) (length + (tag.length + 5))
              (addDepKey tag depKeySet depKey.zipIdx)
  else .ok depKeySet
termination_by len - length
decreasing_by all_goals omega

/-- The pre-scan of a format -/
def scanFormat (format : Bytes) (depKeySet : ℕ) : Except ScanFault ℕ :=
  preScan format.length (format ++ [0]) 0 depKeySet

/-! ## Values of tags -/

/-- The parts of `TDNF_PKG_INFO` that `tag_handler` reads -/
structure PkgInfo where
  pszName : Option Bytes
  pszArch : Option Bytes
  pszVersion : Option Bytes
  pszRepoName : Option Bytes
  pszRelease : Option Bytes
  pszEVR : Option Bytes
  pszSourcePkg : Option Bytes
  pszFormattedDownloadSize : Option Bytes
  pszFormattedSize : Option Bytes
  pszDescription : Option Bytes
  pszSummary : Option Bytes
  pszLicense : Option Bytes
  pszURL : Option Bytes
  /-- an array with an entry for each key, which may be NULL -/
  pppszDependencies : Option (ℕ → Option (List Bytes))

/-- The attributes that `tag_handler` compares a tag with -/
def PkgInfo.attributes (pkg : PkgInfo) : List (Bytes × Option Bytes) :=
  [(ascii "name", pkg.pszName), (ascii "arch", pkg.pszArch),
    (ascii "version", pkg.pszVersion), (ascii "reponame", pkg.pszRepoName),
    (ascii "release", pkg.pszRelease), (ascii "evr", pkg.pszEVR),
    (ascii "sourcename", pkg.pszSourcePkg), (ascii "size", pkg.pszFormattedDownloadSize),
    (ascii "downloadsize", pkg.pszFormattedDownloadSize),
    (ascii "installsize", pkg.pszFormattedSize), (ascii "sourcerpm", pkg.pszSourcePkg),
    (ascii "description", pkg.pszDescription), (ascii "summary", pkg.pszSummary),
    (ascii "license", pkg.pszLicense), (ascii "url", pkg.pszURL)]

/-- `strcmp(a, b) <= 0` -/
def strcmpLe : Bytes → Bytes → Bool
  | [], _ => true
  | _ :: _, [] => false
  | a :: as, b :: bs => if a = b then strcmpLe as bs else a < b

/-- The sorted lines behind one that was written, each with the separator, and none that is like
the one before it -/
def joinBehind (sep last : Bytes) : List Bytes → Bytes
  | [] => []
  | line :: rest =>
    if line = last then joinBehind sep line rest
    else sep ++ line ++ joinBehind sep line rest

/-- `TDNFJoinArrayToStringSorted` -/
def joinArrayToStringSorted (lines : Option (List Bytes)) (sep : Bytes) : Bytes :=
  match (lines.getD []).mergeSort strcmpLe with
  | [] => []
  | line :: rest => line ++ joinBehind sep line rest

/-- `tag_handler` -/
def tagHandler (pkg : PkgInfo) (tag : Bytes) : Except Fault Bytes :=
  match pkg.attributes.lookup tag with
  | some value => .ok (value.getD [])
  | none =>
    match depKey.zipIdx.lookup tag with
    | none => .error (.code .invalidParameter)
    | some depkey =>
      match pkg.pppszDependencies with
      | none => .error .nullRead
      | some dependencies => .ok (joinArrayToStringSorted (dependencies depkey) (ascii "\n"))

/-- What `TDNFRepoQuery` fills in at the end: no dependencies with a file list, and otherwise
those of the keys in the set. -/
def fillDependencies (nList : Bool) (depKeySet : ℕ) (deps : ℕ → List Bytes) (pkg : PkgInfo) :
    PkgInfo :=
  if nList then { pkg with pppszDependencies := none }
  else { pkg with
    pppszDependencies := some fun depkey =>
      if depKeySet.testBit depkey then some (deps depkey) else none }

/-! ## What the scan is for -/

/-- The tags that `format_string` asks its handler for, up to where it breaks off -/
def requestedTags (format : Bytes) : List Bytes :=
  match format with
  | [] => []
  | c :: rest =>
    if c = '%'.toUInt8 ∧ rest.head? = some '{'.toUInt8 then
      if '}'.toUInt8 ∈ rest.drop 1 then
        let name := (rest.drop 1).takeWhile (· ≠ '}'.toUInt8)
        name :: requestedTags (rest.drop (name.length + 2))
      else []
    else if c = '\\'.toUInt8 then
      match rest with
      | [] => []
      | _ :: rest => requestedTags rest
    else requestedTags rest
termination_by format.length
decreasing_by all_goals simp <;> omega

/-- `format_string` asks for no other tags. -/
theorem formatLoop_congr {junk : ℕ → ℕ → UInt8} {handler other : Bytes → Except TdnfError Bytes}
    {format : Bytes} (hformat : 0 ∉ format)
    (h : ∀ tag ∈ requestedTags format, handler tag = other tag) :
    formatLoop junk handler (format ++ [0]) = formatLoop junk other (format ++ [0]) := by
  fun_induction requestedTags format with
  | case1 =>
      rw [List.nil_append, formatLoop.eq_def, formatLoop.eq_def junk other]
      rfl
  | case2 c rest hopens hbrace name =>
      rename_i ih
      have hrest : 0 ∉ rest := fun hzero => hformat (List.mem_cons_of_mem c hzero)
      have hmore := ih (fun hzero => hrest (List.mem_of_mem_drop hzero)) fun tag htag =>
        h tag (List.mem_cons_of_mem _ htag)
      have htag := h name List.mem_cons_self
      obtain ⟨more, rfl⟩ := List.head?_eq_some_iff.mp hopens.2
      rw [List.drop_one, List.tail_cons] at hbrace
      obtain ⟨t, hspan⟩ := spanTag_closed (fun hzero => hrest (List.mem_cons_of_mem _ hzero)) hbrace
      have hlength := length_name_lt hbrace
      have hclosed : ('}'.toUInt8 :: t).head? ≠ some 0 := by
        rw [List.head?_cons]
        decide
      rw [List.cons_append, formatLoop.eq_def, formatLoop.eq_def junk other]
      dsimp only
      rw [opensTag_eq, decide_eq_true hopens, pure_bind, pure_bind, if_pos rfl, if_pos rfl]
      simp only [List.cons_append, List.drop_succ_cons, List.drop_zero, hspan]
      rw [if_neg hclosed, if_neg hclosed, List.drop_append_of_le_length (by omega)]
      have hname : more.takeWhile (· ≠ '}'.toUInt8) = name := rfl
      have hdrop : more.drop (name.length + 1) =
          ('{'.toUInt8 :: more).drop (name.length + 2) := rfl
      rw [hname, htag, hdrop, hmore]
  | case3 c rest hopens hbrace =>
      obtain ⟨more, rfl⟩ := List.head?_eq_some_iff.mp hopens.2
      rw [List.drop_one, List.tail_cons] at hbrace
      have hrest : 0 ∉ more := fun hzero => hformat (by simp [hzero])
      have hnone : more.dropWhile (· ≠ '}'.toUInt8) = [] := by
        rw [List.dropWhile_eq_nil_iff]
        intro b hb
        exact decide_eq_true fun heq => hbrace (heq ▸ hb)
      rw [List.cons_append, formatLoop.eq_def, formatLoop.eq_def junk other]
      dsimp only
      rw [opensTag_eq, decide_eq_true hopens, pure_bind, pure_bind, if_pos rfl, if_pos rfl]
      simp only [List.cons_append, List.drop_succ_cons, List.drop_zero, spanTag_eq hrest, hnone]
      rfl
  | case4 hopens =>
      have hpast (tagHandler : Bytes → Except TdnfError Bytes) :
          formatLoop junk tagHandler ['\\'.toUInt8, 0] = (do
            putByte (unescape 0)
            formatLoop junk tagHandler []) := by
        rw [formatLoop.eq_def]
        rfl
      have hout (tagHandler : Bytes → Except TdnfError Bytes) :
          formatLoop junk tagHandler [] = throw .outOfBounds := by
        rw [formatLoop.eq_def]
      rw [List.singleton_append, hpast, hpast, hout, hout]
  | case5 d rest hopens ih =>
      have hmore := ih (fun hzero => hformat (by simp [hzero])) h
      rw [List.cons_append, formatLoop.eq_def, formatLoop.eq_def junk other]
      dsimp only
      rw [opensTag_eq, decide_eq_false hopens]
      have hne : '\\'.toUInt8 ≠ 0 := by decide
      rw [if_neg hne, if_neg hne, pure_bind, pure_bind, if_neg Bool.false_ne_true,
        if_neg Bool.false_ne_true, if_pos rfl, if_pos rfl]
      simp only [List.cons_append, hmore]
  | case6 c rest hopens hback ih =>
      have hmore := ih (fun hzero => hformat (List.mem_cons_of_mem c hzero)) h
      rw [List.cons_append, formatLoop.eq_def, formatLoop.eq_def junk other]
      dsimp only
      rw [opensTag_eq, decide_eq_false hopens, pure_bind, pure_bind, if_neg Bool.false_ne_true,
        if_neg Bool.false_ne_true, if_neg hback, if_neg hback, hmore]

/-- There is a tag that is not closed. -/
def Unterminated (format : Bytes) : Prop :=
  ∃ before after, format = before ++ '%'.toUInt8 :: '{'.toUInt8 :: after ∧ '}'.toUInt8 ∉ after

/-- The scan rejects exactly the formats with an open tag. Otherwise the set has the key of every
dependency tag that is asked for, and the handler prints something for it where a package has such
dependencies. -/
structure ScansRight (nList : Bool) (depKeySet : ℕ) (format : Bytes) : Prop where
  rejects : scanFormat format depKeySet = .error .invalidArgument ↔ Unterminated format
  serves : ∀ keys, scanFormat format depKeySet = .ok keys →
    ∀ tag ∈ requestedTags format, ∀ depkey, depKey[depkey]? = some tag →
      keys.testBit depkey = true ∧
        ∀ pkg deps, (∃ dep ∈ deps depkey, dep ≠ []) →
          ∃ value, tagHandler (fillDependencies nList keys deps pkg) tag = .ok value ∧ value ≠ []

/-- The pieces of a format as the scan reads them, and the tag that is not closed with all behind
it -/
def scanPieces (format : Bytes) : List Token × Bytes :=
  match format with
  | [] => ([], [])
  | c :: rest =>
    if c = '%'.toUInt8 ∧ rest.head? = some '{'.toUInt8 then
      if '}'.toUInt8 ∈ rest.drop 1 then
        let name := (rest.drop 1).takeWhile (· ≠ '}'.toUInt8)
        let more := scanPieces (rest.drop (name.length + 2))
        (.tag name :: more.1, more.2)
      else ([], c :: rest)
    else
      let more := scanPieces rest
      (.char c :: more.1, more.2)
termination_by format.length
decreasing_by all_goals simp <;> omega

/-- The length of a piece in the format -/
def Token.width : Token → ℕ
  | .char _ => 1
  | .tag name => name.length + 3

def Token.isTag : Token → Bool
  | .char _ => false
  | .tag _ => true

/-- There are more bytes from a tag on than twice the number of tags before it. -/
def Seen (format : Bytes) (name : Bytes) : Prop :=
  ∃ before after, (scanPieces format).1 = before ++ .tag name :: after ∧
    2 * before.countP Token.isTag <
      ((Token.tag name :: after).map Token.width).sum + (scanPieces format).2.length

/-- The condition under which the scan does what it is for -/
def Covered (nList : Bool) (depKeySet : ℕ) (format : Bytes) : Prop :=
  if (scanPieces format).2 = [] then
    ∀ tag ∈ requestedTags format, ∀ depkey, depKey[depkey]? = some tag →
      nList = false ∧ (depKeySet.testBit depkey = true ∨
        ∃ name, Seen format name ∧ name.map toLower = tag)
  else 2 * (scanPieces format).1.countP Token.isTag < (scanPieces format).2.length

/-! ## The keys in the set -/

section Keys

variable {tag key : Bytes} {depKeySet depkey : ℕ} {keys : List (Bytes × ℕ)}

theorem testBit_setBit (s j k : ℕ) :
    (s ||| 1 <<< k).testBit j = true ↔ s.testBit j = true ∨ j = k := by
  rw [Nat.one_shiftLeft, Nat.testBit_or, Bool.or_eq_true, Nat.testBit_two_pow,
    decide_eq_true_eq, eq_comm (a := k)]

/-- The loop sets the bit of the key that the tag is equal to, if there is one. -/
theorem testBit_addDepKey (hkeys : (keys.map fun entry => entry.1.map toLower).Nodup) :
    (addDepKey tag depKeySet keys).testBit depkey = true ↔ depKeySet.testBit depkey = true ∨
      ∃ key, (key, depkey) ∈ keys ∧ tag.map toLower = key.map toLower := by
  induction keys with
  | nil => simp [addDepKey]
  | cons entry keys ih =>
      obtain ⟨key, k⟩ := entry
      obtain ⟨hne, hrest⟩ := List.nodup_cons.mp hkeys
      rw [addDepKey]
      by_cases htag : tag.map toLower = key.map toLower
      · rw [if_pos htag]
        -- no other key is equal to the tag
        have hone : (∃ key', (key', depkey) ∈ (key, k) :: keys ∧
            tag.map toLower = key'.map toLower) ↔ depkey = k := by
          constructor
          · rintro ⟨key', hmem, heq⟩
            obtain hhead | htail := List.mem_cons.mp hmem
            · exact (Prod.mk.inj hhead).2
            · exact absurd (List.mem_map.mpr ⟨_, htail, heq.symm.trans htag⟩) hne
          · rintro rfl
            exact ⟨key, List.mem_cons_self, htag⟩
        rw [hone]
        by_cases hbit : depKeySet.testBit k = true
        · rw [if_pos hbit, ih hrest]
          constructor
          · rintro (hset | ⟨key', hmem, heq⟩)
            · exact .inl hset
            · exact absurd (List.mem_map.mpr ⟨_, hmem, heq.symm.trans htag⟩) hne
          · rintro (hset | rfl)
            · exact .inl hset
            · exact .inl hbit
        · rw [if_neg hbit, testBit_setBit]
      · rw [if_neg htag, ih hrest]
        refine or_congr_right ⟨?_, ?_⟩
        · rintro ⟨key', hmem, heq⟩
          exact ⟨key', List.mem_cons_of_mem _ hmem, heq⟩
        · rintro ⟨key', hmem, heq⟩
          obtain hhead | htail := List.mem_cons.mp hmem
          · obtain ⟨rfl, -⟩ := Prod.mk.inj hhead
            exact absurd heq htag
          · exact ⟨key', htail, heq⟩

theorem lower_of_depKey (h : depKey[depkey]? = some key) : key.map toLower = key := by
  have hall : ∀ key ∈ depKey, key.map toLower = key := by decide
  exact hall key (List.mem_of_getElem? h)

theorem nodup_depKey : (depKey.zipIdx.map fun entry => entry.1.map toLower).Nodup := by
  decide

/-- What a tag adds to the set -/
theorem testBit_addDepKey_depKey :
    (addDepKey tag depKeySet depKey.zipIdx).testBit depkey = true ↔
      depKeySet.testBit depkey = true ∨ depKey[depkey]? = some (tag.map toLower) := by
  rw [testBit_addDepKey nodup_depKey]
  refine or_congr_right ⟨?_, ?_⟩
  · rintro ⟨key, hmem, heq⟩
    have hkey : depKey[depkey]? = some key := List.mk_mem_zipIdx_iff_getElem?.mp hmem
    rw [heq, lower_of_depKey hkey]
    exact hkey
  · intro h
    refine ⟨tag.map toLower, List.mk_mem_zipIdx_iff_getElem?.mpr h, ?_⟩
    exact (lower_of_depKey h).symm

end Keys

/-! ## The run of the scan -/

section Scans

variable {format tag rest : Bytes} {c : UInt8} {len length depKeySet : ℕ}

theorem startsTag_eq : startsTag (c :: (rest ++ [0])) =
    some (decide (c = '%'.toUInt8 ∧ rest.head? = some '{'.toUInt8)) := by
  have hzero : (0 : UInt8) ≠ '{'.toUInt8 := by decide
  cases rest with
  | nil => simp [startsTag, hzero]
  | cons d rest => simp [startsTag]

/-- The pieces of a format make up its length. -/
theorem length_scanPieces (format : Bytes) :
    ((scanPieces format).1.map Token.width).sum + (scanPieces format).2.length =
      format.length := by
  fun_induction scanPieces format with
  | case1 => rfl
  | case2 c rest hopens hbrace name =>
      rename_i more ih
      have hlength := length_name_lt hbrace
      simp only [more, name, List.map_cons, List.sum_cons, Token.width, List.length_cons,
        List.length_drop] at ih hlength ⊢
      omega
  | case3 => simp
  | case4 c rest hopens more ih =>
      simp only [more, List.map_cons, List.sum_cons, Token.width, List.length_cons]
      omega

theorem scanPieces_char (hopens : ¬ (c = '%'.toUInt8 ∧ rest.head? = some '{'.toUInt8)) :
    scanPieces (c :: rest) = (.char c :: (scanPieces rest).1, (scanPieces rest).2) := by
  rw [scanPieces.eq_def]
  dsimp only
  rw [if_neg hopens]

/-- A tag with the braces around it -/
theorem split_name (hopens : c = '%'.toUInt8 ∧ rest.head? = some '{'.toUInt8)
    (hbrace : '}'.toUInt8 ∈ rest.drop 1)
    (htag : (rest.drop 1).takeWhile (· ≠ '}'.toUInt8) = tag) :
    c :: rest = '%'.toUInt8 :: '{'.toUInt8 :: tag ++
      '}'.toUInt8 :: rest.drop (tag.length + 2) := by
  obtain ⟨more, rfl⟩ := List.head?_eq_some_iff.mp hopens.2
  rw [List.drop_one, List.tail_cons] at hbrace htag
  obtain ⟨-, behind, hdrop⟩ := stringAt_eq_some_iff.mp (by
    rw [stringAt, List.drop_zero, if_pos hbrace] :
    stringAt '}'.toUInt8 more 0 = some (more.takeWhile (· ≠ '}'.toUInt8)))
  rw [htag, List.drop_zero] at hdrop
  have hbehind : more.drop (tag.length + 1) = behind := by
    rw [hdrop, ← List.drop_drop, List.drop_left, List.drop_one, List.tail_cons]
  rw [hopens.1, List.drop_succ_cons, hbehind, hdrop, List.cons_append, List.cons_append]

theorem scanPieces_open (hopens : c = '%'.toUInt8 ∧ rest.head? = some '{'.toUInt8)
    (hbrace : '}'.toUInt8 ∉ rest.drop 1) : scanPieces (c :: rest) = ([], c :: rest) := by
  rw [scanPieces.eq_def]
  dsimp only
  rw [if_pos hopens, if_neg hbrace]

theorem scanPieces_tag (hopens : c = '%'.toUInt8 ∧ rest.head? = some '{'.toUInt8)
    (hbrace : '}'.toUInt8 ∈ rest.drop 1)
    (htag : (rest.drop 1).takeWhile (· ≠ '}'.toUInt8) = tag) :
    scanPieces (c :: rest) = (.tag tag :: (scanPieces (rest.drop (tag.length + 2))).1,
      (scanPieces (rest.drop (tag.length + 2))).2) := by
  rw [scanPieces.eq_def]
  dsimp only
  rw [if_pos hopens, if_pos hbrace, htag]

/-- A tag is seen behind `t` others that were read before. -/
def SeenFrom (t : ℕ) (pieces : List Token) (open_ : Bytes) (name : Bytes) : Prop :=
  ∃ before after, pieces = before ++ .tag name :: after ∧
    2 * (t + before.countP Token.isTag) <
      ((Token.tag name :: after).map Token.width).sum + open_.length

section SeenTags

variable {t : ℕ} {pieces : List Token} {open_ name other : Bytes}

theorem countP_char : (Token.char c :: pieces).countP Token.isTag = pieces.countP Token.isTag :=
  List.countP_cons_of_neg Bool.false_ne_true

theorem countP_tag :
    (Token.tag other :: pieces).countP Token.isTag = pieces.countP Token.isTag + 1 :=
  List.countP_cons_of_pos rfl

theorem seenFrom_char :
    SeenFrom t (.char c :: pieces) open_ name ↔ SeenFrom t pieces open_ name := by
  constructor
  · rintro ⟨before, after, heq, hlt⟩
    obtain ⟨-, hcons⟩ | ⟨before', rfl, hrest⟩ := List.cons_eq_append_iff.mp heq
    · cases (List.cons.inj hcons).1
    · exact ⟨before', after, hrest, by simpa [Token.isTag] using hlt⟩
  · rintro ⟨before, after, rfl, hlt⟩
    exact ⟨.char c :: before, after, rfl, by simpa [Token.isTag] using hlt⟩

theorem seenFrom_tag :
    SeenFrom t (.tag other :: pieces) open_ name ↔
      name = other ∧ 2 * t < ((Token.tag other :: pieces).map Token.width).sum + open_.length ∨
        SeenFrom (t + 1) pieces open_ name := by
  have hcount (before : List Token) : t + (Token.tag other :: before).countP Token.isTag =
      t + 1 + before.countP Token.isTag := by
    rw [List.countP_cons_of_pos rfl]
    omega
  constructor
  · rintro ⟨before, after, heq, hlt⟩
    obtain ⟨rfl, hcons⟩ | ⟨before', rfl, hrest⟩ := List.cons_eq_append_iff.mp heq
    · cases hcons
      exact .inl ⟨rfl, by simpa using hlt⟩
    · rw [hcount] at hlt
      exact .inr ⟨before', after, hrest, hlt⟩
  · rintro (⟨rfl, hlt⟩ | ⟨before, after, rfl, hlt⟩)
    · exact ⟨[], pieces, rfl, by simpa using hlt⟩
    · refine ⟨.tag other :: before, after, rfl, ?_⟩
      rw [hcount]
      exact hlt

/-- Behind too many tags nothing is seen. -/
theorem not_seenFrom (h : (pieces.map Token.width).sum + open_.length ≤ 2 * t) :
    ¬ SeenFrom t pieces open_ name := by
  rintro ⟨before, after, rfl, hlt⟩
  rw [List.map_append, List.sum_append] at h
  omega

end SeenTags

theorem preScan_over (h : len ≤ length) : preScan len rest length depKeySet = .ok depKeySet := by
  rw [preScan.eq_def, dif_neg (by omega)]

theorem preScan_char (hlt : length < len)
    (hopens : ¬ (c = '%'.toUInt8 ∧ rest.head? = some '{'.toUInt8)) :
    preScan len (c :: rest ++ [0]) length depKeySet =
      preScan len (rest ++ [0]) (length + 1) depKeySet := by
  rw [preScan.eq_def, dif_pos hlt, List.cons_append]
  dsimp only
  rw [startsTag_eq, decide_eq_false hopens]

/-- The scan goes on three bytes behind a tag, with a counter that gains two more. -/
theorem preScan_tag (hlt : length < len) (hrest : 0 ∉ rest)
    (hopens : c = '%'.toUInt8 ∧ rest.head? = some '{'.toUInt8)
    (hbrace : '}'.toUInt8 ∈ rest.drop 1)
    (htag : (rest.drop 1).takeWhile (· ≠ '}'.toUInt8) = tag) :
    preScan len (c :: rest ++ [0]) length depKeySet =
      preScan len (rest.drop (tag.length + 2) ++ [0]) (length + (tag.length + 5))
        (addDepKey tag depKeySet depKey.zipIdx) := by
  obtain ⟨more, rfl⟩ := List.head?_eq_some_iff.mp hopens.2
  rw [List.drop_one, List.tail_cons] at hbrace htag
  have hzero : 0 ∉ more := fun hmem => hrest (List.mem_cons_of_mem _ hmem)
  obtain ⟨t, hspan⟩ := spanTag_closed hzero hbrace
  have hshort := length_name_lt hbrace
  rw [htag] at hspan hshort
  have hdrop : ('{'.toUInt8 :: more ++ [0]).drop (tag.length + 2) =
      ('{'.toUInt8 :: more).drop (tag.length + 2) ++ [0] :=
    List.drop_append_of_le_length (by rw [List.length_cons]; omega)
  have hclosed : ¬ ('}'.toUInt8 :: t).head? = some 0 := by
    rw [List.head?_cons, Option.some_inj]
    decide
  rw [preScan.eq_def, dif_pos hlt, List.cons_append]
  dsimp only
  rw [startsTag_eq, decide_eq_true hopens]
  dsimp only
  rw [List.cons_append, List.drop_one, List.tail_cons, hspan]
  dsimp only
  rw [if_neg hclosed, ← List.cons_append, hdrop]

theorem preScan_open (hlt : length < len) (hrest : 0 ∉ rest)
    (hopens : c = '%'.toUInt8 ∧ rest.head? = some '{'.toUInt8)
    (hbrace : '}'.toUInt8 ∉ rest.drop 1) :
    preScan len (c :: rest ++ [0]) length depKeySet = .error .invalidArgument := by
  obtain ⟨more, rfl⟩ := List.head?_eq_some_iff.mp hopens.2
  rw [List.drop_one, List.tail_cons] at hbrace
  have hzero : 0 ∉ more := fun hmem => hrest (List.mem_cons_of_mem _ hmem)
  have hnone : more.dropWhile (· ≠ '}'.toUInt8) = [] := by
    rw [List.dropWhile_eq_nil_iff]
    intro b hb
    exact decide_eq_true fun heq => hbrace (heq ▸ hb)
  rw [preScan.eq_def, dif_pos hlt, List.cons_append]
  dsimp only
  rw [startsTag_eq, decide_eq_true hopens]
  dsimp only
  rw [List.cons_append, List.drop_one, List.tail_cons, spanTag_eq hzero, hnone]
  dsimp only
  rw [List.nil_append, List.head?_cons, if_pos rfl]

/-- What the scan of the rest of a format comes to, behind `t` tags -/
def ScanMakes (len : ℕ) (format : Bytes) (length depKeySet t : ℕ) : Prop :=
  if 2 * (t + (scanPieces format).1.countP Token.isTag) < (scanPieces format).2.length then
    preScan len (format ++ [0]) length depKeySet = .error .invalidArgument
  else ∃ keys, preScan len (format ++ [0]) length depKeySet = .ok keys ∧
    ∀ depkey, keys.testBit depkey = true ↔ depKeySet.testBit depkey = true ∨
      ∃ name, SeenFrom t (scanPieces format).1 (scanPieces format).2 name ∧
        depKey[depkey]? = some (name.map toLower)

/-- Behind as many tags as the format has bytes left, the scan is over. -/
theorem scanMakes_over (t : ℕ) (hlen : length + format.length = len + 2 * t)
    (hle : format.length ≤ 2 * t) : ScanMakes len format length depKeySet t := by
  have hsum := length_scanPieces format
  rw [ScanMakes, if_neg (by omega)]
  refine ⟨depKeySet, preScan_over (by omega), fun depkey => ?_⟩
  constructor
  · exact .inl
  · rintro (hset | ⟨name, hseen, -⟩)
    · exact hset
    · exact absurd hseen (not_seenFrom (by omega))

theorem scanMakes (hformat : 0 ∉ format) (t : ℕ) (hlen : length + format.length = len + 2 * t) :
    ScanMakes len format length depKeySet t := by
  fun_induction scanPieces format generalizing t length depKeySet with
  | case1 => exact scanMakes_over t hlen (Nat.zero_le _)
  | case2 c rest hopens hbrace name =>
      rename_i more ih
      by_cases hle : (c :: rest).length ≤ 2 * t
      · exact scanMakes_over t hlen hle
      have hrest : 0 ∉ rest := fun hmem => hformat (List.mem_cons_of_mem _ hmem)
      have htag : (rest.drop 1).takeWhile (· ≠ '}'.toUInt8) = name := rfl
      clear_value more name
      have hpieces := scanPieces_tag hopens hbrace htag
      have hsum := length_scanPieces (c :: rest)
      have hshort := length_name_lt hbrace
      rw [htag, List.length_drop] at hshort
      rw [hpieces, List.length_cons] at hsum
      rw [List.length_cons] at hlen hle
      dsimp only at hsum
      have hmakes := @ih (length + (name.length + 5)) (addDepKey name depKeySet depKey.zipIdx)
        (fun hmem => hrest (List.mem_of_mem_drop hmem)) (t + 1) (by
          rw [List.length_drop]
          omega)
      have hlt : length < len := by omega
      rw [ScanMakes] at hmakes ⊢
      rw [hpieces, countP_tag, preScan_tag hlt hrest hopens hbrace htag]
      dsimp only
      by_cases hopen : 2 * (t + 1 + (scanPieces (rest.drop (name.length + 2))).1.countP
          Token.isTag) < (scanPieces (rest.drop (name.length + 2))).2.length
      · rw [if_pos hopen] at hmakes
        rw [if_pos (by omega)]
        exact hmakes
      · rw [if_neg hopen] at hmakes
        obtain ⟨keys, hrun, hkeys⟩ := hmakes
        rw [if_neg (by omega)]
        refine ⟨keys, hrun, fun depkey => ?_⟩
        rw [hkeys, testBit_addDepKey_depKey, or_assoc]
        refine or_congr_right ⟨?_, ?_⟩
        · rintro (hkey | ⟨other, hseen, hkey⟩)
          · exact ⟨name, seenFrom_tag.mpr (.inl ⟨rfl, by omega⟩), hkey⟩
          · exact ⟨other, seenFrom_tag.mpr (.inr hseen), hkey⟩
        · rintro ⟨other, hseen, hkey⟩
          obtain ⟨rfl, -⟩ | hseen := seenFrom_tag.mp hseen
          · exact .inl hkey
          · exact .inr ⟨other, hseen, hkey⟩
  | case3 c rest hopens hbrace =>
      have hrest : 0 ∉ rest := fun hmem => hformat (List.mem_cons_of_mem _ hmem)
      by_cases hle : (c :: rest).length ≤ 2 * t
      · exact scanMakes_over t hlen hle
      rw [List.length_cons] at hlen hle
      rw [ScanMakes, scanPieces_open hopens hbrace, if_pos (by simpa using hle)]
      exact preScan_open (by omega) hrest hopens hbrace
  | case4 c rest hopens =>
      rename_i ih
      have hrest : 0 ∉ rest := fun hmem => hformat (List.mem_cons_of_mem _ hmem)
      by_cases hle : (c :: rest).length ≤ 2 * t
      · exact scanMakes_over t hlen hle
      rw [List.length_cons] at hlen hle
      have hmakes := @ih (length + 1) depKeySet hrest t (by omega)
      have hlt : length < len := by omega
      simp only [ScanMakes, scanPieces_char hopens, preScan_char hlt hopens, seenFrom_char,
        countP_char] at hmakes ⊢
      exact hmakes

/-- A tag is open where the pieces break off. -/
theorem unterminated_iff (format : Bytes) : Unterminated format ↔ (scanPieces format).2 ≠ [] := by
  fun_induction scanPieces format with
  | case1 =>
      refine ⟨?_, fun h => absurd rfl h⟩
      rintro ⟨before, after, heq, -⟩
      simp at heq
  | case2 c rest hopens hbrace name =>
      rename_i more ih
      have hsplit := split_name hopens hbrace rfl
      refine Iff.trans ⟨?_, ?_⟩ ih
      · rintro ⟨before, after, heq, hafter⟩
        rw [hsplit] at heq
        -- an open tag begins behind the brace that closes this one
        obtain ⟨behind, rfl, hbehind⟩ | ⟨inside, hname, hinside⟩ :=
          List.append_eq_append_iff.mp heq
        · obtain ⟨rfl, hbehind⟩ | ⟨behind', rfl, hrest⟩ := List.cons_eq_append_iff.mp hbehind
          · cases (List.cons.inj hbehind).1
          · exact ⟨behind', after, hrest, hafter⟩
        · refine absurd ?_ hafter
          obtain ⟨rfl, hcons⟩ | ⟨inside', rfl, hrest⟩ := List.cons_eq_append_iff.mp hinside
          · cases (List.cons.inj hcons).1
          · obtain ⟨rfl, hcons⟩ | ⟨inside'', rfl, hmore⟩ := List.cons_eq_append_iff.mp hrest
            · cases (List.cons.inj hcons).1
            · rw [hmore]
              exact List.mem_append_right _ List.mem_cons_self
      · rintro ⟨before, after, heq, hafter⟩
        refine ⟨'%'.toUInt8 :: '{'.toUInt8 :: name ++ '}'.toUInt8 :: before, after, ?_, hafter⟩
        rw [hsplit, heq, List.append_assoc]
        rfl
  | case3 c rest hopens hbrace =>
      refine ⟨fun _ => List.cons_ne_nil _ _, fun _ => ⟨[], rest.drop 1, ?_, hbrace⟩⟩
      obtain ⟨more, rfl⟩ := List.head?_eq_some_iff.mp hopens.2
      rw [hopens.1, List.nil_append, List.drop_one, List.tail_cons]
  | case4 c rest hopens more ih =>
      rw [← ih]
      constructor
      · rintro ⟨before, after, heq, hafter⟩
        obtain ⟨-, hcons⟩ | ⟨before', -, hrest⟩ := List.cons_eq_append_iff.mp heq
        · obtain ⟨hc, hrest⟩ := List.cons.inj hcons
          exact absurd ⟨hc.symm, by rw [← hrest]; rfl⟩ hopens
        · exact ⟨before', after, hrest, hafter⟩
      · rintro ⟨before, after, heq, hafter⟩
        exact ⟨c :: before, after, by rw [heq, List.cons_append], hafter⟩

end Scans

/-! ## Values for the tags -/

section Values

variable {sep last tag : Bytes} {lines : List Bytes} {pkg : PkgInfo} {depkey : ℕ}

theorem eq_last_of_joinBehind (hsep : sep ≠ []) (h : joinBehind sep last lines = []) :
    ∀ line ∈ lines, line = last := by
  induction lines generalizing last with
  | nil => exact fun _ hmem => absurd hmem List.not_mem_nil
  | cons line lines ih =>
      rw [joinBehind] at h
      by_cases heq : line = last
      · rw [if_pos heq] at h
        subst heq
        exact List.forall_mem_cons.mpr ⟨rfl, ih h⟩
      · rw [if_neg heq, List.append_assoc] at h
        exact absurd (List.append_eq_nil_iff.mp h).1 hsep

/-- A line that is not empty stays in the joined text. -/
theorem joinArrayToStringSorted_ne_nil (hsep : sep ≠ []) (h : ∃ line ∈ lines, line ≠ []) :
    joinArrayToStringSorted (some lines) sep ≠ [] := by
  obtain ⟨line, hmem, hne⟩ := h
  have hsorted : line ∈ lines.mergeSort strcmpLe := List.mem_mergeSort.mpr hmem
  rw [joinArrayToStringSorted, Option.getD_some]
  cases hlines : lines.mergeSort strcmpLe with
  | nil =>
      rw [hlines] at hsorted
      exact absurd hsorted List.not_mem_nil
  | cons first rest =>
      rw [hlines] at hsorted
      dsimp only
      intro hnil
      obtain ⟨rfl, hbehind⟩ := List.append_eq_nil_iff.mp hnil
      obtain rfl | hrest := List.mem_cons.mp hsorted
      · exact hne rfl
      · exact hne (eq_last_of_joinBehind hsep hbehind line hrest)

theorem lookup_attributes (h : depKey[depkey]? = some tag) : pkg.attributes.lookup tag = none := by
  have hall : ∀ key ∈ depKey, key ∉ [ascii "name", ascii "arch", ascii "version",
      ascii "reponame", ascii "release", ascii "evr", ascii "sourcename", ascii "size",
      ascii "downloadsize", ascii "installsize", ascii "sourcerpm", ascii "description",
      ascii "summary", ascii "license", ascii "url"] := by
    decide
  refine List.lookup_eq_none_iff.mpr fun entry hentry => ?_
  have hne : tag ≠ entry.1 := by
    rintro rfl
    exact hall _ (List.mem_of_getElem? h) (List.mem_map_of_mem hentry)
  simpa using hne

theorem lookup_depKey (h : depKey[depkey]? = some tag) :
    depKey.zipIdx.lookup tag = some depkey := by
  have hall : ∀ entry ∈ depKey.zipIdx, depKey.zipIdx.lookup entry.1 = some entry.2 := by decide
  exact hall (tag, depkey) (List.mk_mem_zipIdx_iff_getElem?.mpr h)

theorem tagHandler_dependency (h : depKey[depkey]? = some tag) :
    tagHandler pkg tag = match pkg.pppszDependencies with
      | none => .error .nullRead
      | some dependencies => .ok (joinArrayToStringSorted (dependencies depkey) (ascii "\n")) := by
  rw [tagHandler, lookup_attributes h, lookup_depKey h]

/-- The handler prints the dependencies of every package exactly where they were fetched. -/
theorem served_iff {nList : Bool} {keys : ℕ} (h : depKey[depkey]? = some tag) :
    (keys.testBit depkey = true ∧
        ∀ (pkg : PkgInfo) (deps : ℕ → List Bytes), (∃ dep ∈ deps depkey, dep ≠ []) →
          ∃ value, tagHandler (fillDependencies nList keys deps pkg) tag = .ok value ∧
            value ≠ []) ↔
      nList = false ∧ keys.testBit depkey = true := by
  constructor
  · rintro ⟨hkey, hserves⟩
    refine ⟨?_, hkey⟩
    obtain ⟨value, hvalue, -⟩ := hserves ⟨none, none, none, none, none, none, none, none, none,
      none, none, none, none, none⟩ (fun _ => [ascii "dep"]) ⟨ascii "dep", by decide⟩
    rw [tagHandler_dependency h] at hvalue
    cases nList with
    | false => rfl
    | true => cases hvalue
  · rintro ⟨rfl, hkey⟩
    have hsep : ascii "\n" ≠ [] := by decide
    refine ⟨hkey, fun pkg deps hdeps => ⟨_, ?_, joinArrayToStringSorted_ne_nil hsep hdeps⟩⟩
    rw [tagHandler_dependency h]
    simp [fillDependencies, hkey]

end Values

/-- The scan does what it is for exactly on the formats that meet the condition. -/
theorem scansRight_iff (nList : Bool) (depKeySet : ℕ) (format : CString) :
    ScansRight nList depKeySet format.1 ↔ Covered nList depKeySet format.1 := by
  have hmakes : ScanMakes format.1.length format.1 0 depKeySet 0 := scanMakes format.2 0 (by omega)
  rw [ScanMakes, Nat.zero_add] at hmakes
  rw [Covered]
  by_cases hclosed : (scanPieces format.1).2 = []
  · rw [if_pos hclosed]
    rw [hclosed, List.length_nil, if_neg (Nat.not_lt_zero _)] at hmakes
    obtain ⟨keys, hscan, hkeys⟩ := hmakes
    have hseen (depkey : ℕ) (tag : Bytes) (hkey : depKey[depkey]? = some tag) :
        keys.testBit depkey = true ↔ depKeySet.testBit depkey = true ∨
          ∃ name, Seen format.1 name ∧ name.map toLower = tag := by
      rw [hkeys]
      refine or_congr_right (exists_congr fun name => and_congr ?_ ?_)
      · simp only [SeenFrom, Seen, hclosed, Nat.zero_add]
      · rw [hkey, Option.some_inj, eq_comm]
    have hserves : ScansRight nList depKeySet format.1 ↔ ∀ tag ∈ requestedTags format.1,
        ∀ depkey, depKey[depkey]? = some tag → nList = false ∧ keys.testBit depkey = true := by
      constructor
      · intro h tag htag depkey hkey
        exact (served_iff hkey).mp (h.serves keys hscan tag htag depkey hkey)
      · refine fun h => ⟨?_, fun keys' hscan' tag htag depkey hkey => ?_⟩
        · rw [scanFormat, hscan, unterminated_iff]
          simp [hclosed]
        · obtain rfl : keys = keys' := Except.ok.inj (hscan.symm.trans hscan')
          exact (served_iff hkey).mpr (h tag htag depkey hkey)
    rw [hserves]
    refine forall₄_congr fun tag htag depkey hkey => ?_
    rw [hseen depkey tag hkey]
  · rw [if_neg hclosed]
    have hopen : Unterminated format.1 := (unterminated_iff _).mpr hclosed
    split at hmakes
    · refine iff_of_true ⟨iff_of_true hmakes hopen, fun keys hscan => ?_⟩ ‹_›
      cases hmakes.symm.trans hscan
    · obtain ⟨keys, hscan, -⟩ := hmakes
      refine iff_of_false (fun h => ?_) ‹_›
      cases hscan.symm.trans (h.rejects.mpr hopen)

/-- Behind six other tags the one for the requirements is out of the scan's sight, and nothing is
fetched for it. -/
theorem requires_behind_names_missed :
    ¬ ScansRight false 0
      ((List.replicate 6 (ascii "%\x7bname\x7d")).flatten ++ ascii "%\x7brequires\x7d") := by
  intro h
  obtain ⟨hkey, -⟩ := h.serves 0 (by decide +kernel) (ascii "requires") (by decide +kernel) 3 rfl
  cases hkey

end Tdnf.Cli
