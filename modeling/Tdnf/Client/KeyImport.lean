import Tdnf.Common.FileText
import Tdnf.Library.PathText
import Tdnf.Library.Rounds

/-!
# Importing the keys of a file

The packets of a key file are parsed one after the other. The loop goes on in
the text by the length of the decoded packet, which is less than that of its
text, and by the length of the last one where none is found any more. It stays
where it is if no packet was ever found.
-/

namespace Tdnf.Client

open PathText Common Rounds
open Json (Bytes)

namespace KeyImport

/-- `pgpArmor`; other blocks, none and errors are not told apart -/
inductive PgpArmor where
  | pubkey
  | other
deriving DecidableEq, Repr

/-- A key file: whether it is a directory, and its text. -/
structure KeyFile where
  isDir : Except ℕ Bool
  text : FileText

/-- The variables of the loop. -/
structure LoopState where
  nOffset : ℤ
  /-- `pPkt`, with its length `nPktLen`; at first it is NULL, and the length 0 -/
  pPkt : Bytes
  nKeys : ℕ
  /-- the packets that `rpmtsImportPubkey` has got -/
  imported : List Bytes

/-- How the call ends. -/
structure Outcome where
  dwError : Except Stop Unit
  imported : List Bytes

section Code

variable (pgpParsePkts : Bytes → ℕ → PgpArmor × Option Bytes)
  (rpmtsImportPubkey : List Bytes → Bytes → ℕ)

/-- `ReadGPGKeyFile` -/
def readGPGKeyFile (pszFile : Text) (file : KeyFile) : Except TdnfError Bytes :=
  if pszFile = [] then .error .invalidParameter
  else
    match file.isDir with
    | .error errno => .error (.system errno)
    | .ok nPathIsDir =>
      if nPathIsDir then .error .keyUrlInvalid else fileReadAllText file.text

/-- A round of the loop, or what follows it; outputs that are not set keep their values. -/
def importRound (pszKeyData : Bytes) (s : LoopState) : LoopState ⊕ Outcome :=
  if s.nOffset < pszKeyData.length then
    if s.nOffset < 0 then .inr ⟨.error .outside, s.imported⟩
    else
      let nArmor := (pgpParsePkts pszKeyData s.nOffset.toNat).1
      let pPkt := (pgpParsePkts pszKeyData s.nOffset.toNat).2.getD s.pPkt
      let nOffset := wrapInt (s.nOffset + pPkt.length)
      if nArmor = .pubkey then
        let rpmRC := rpmtsImportPubkey s.imported pPkt
        if rpmRC ≠ 0 then .inr ⟨.error (.code (.bare rpmRC)), s.imported⟩
        else .inl ⟨nOffset, pPkt, s.nKeys + 1, s.imported ++ [pPkt]⟩
      else .inl ⟨nOffset, pPkt, s.nKeys, s.imported⟩
  else if s.nKeys = 0 then .inr ⟨.error (.code .invalidPubkeyFile), s.imported⟩
  else .inr ⟨.ok (), s.imported⟩

/-- `TDNFImportGPGKeyFile`, if its loop ends within a number of rounds -/
def importGPGKeyFile (pszFile : Text) (file : KeyFile) (rounds : ℕ) : Option Outcome :=
  if pszFile = [] then some ⟨.error (.code .invalidParameter), []⟩
  else
    match readGPGKeyFile pszFile file with
    | .error e => some ⟨.error (.code e), []⟩
    | .ok pszKeyData =>
      runFor (importRound pgpParsePkts rpmtsImportPubkey pszKeyData) rounds ⟨0, [], 0, []⟩

end Code

/-- An armored block: where its text is, and what is decoded from it. -/
structure Block where
  start : ℕ
  length : ℕ
  armor : PgpArmor
  pkt : Bytes
  decoded : 1 ≤ pkt.length
  shorter : pkt.length < length

/-- The first block at or behind a position. -/
def firstFrom (blocks : List Block) (offset : ℕ) : Option Block :=
  blocks.find? fun b => decide (offset ≤ b.start)

/-- Parsing decodes the first block at or behind the position; where there is none, it sets no
output. The blocks of a text are in it, one behind the other. -/
structure Parses (pgpParsePkts : Bytes → ℕ → PgpArmor × Option Bytes)
    (blocksOf : Bytes → List Block) : Prop where
  found : ∀ text offset b, firstFrom (blocksOf text) offset = some b →
    pgpParsePkts text offset = (b.armor, some b.pkt)
  none : ∀ text offset, firstFrom (blocksOf text) offset = none →
    pgpParsePkts text offset = (.other, none)
  apart : ∀ text, (blocksOf text).Pairwise fun b b' => b.start + b.length ≤ b'.start
  inside : ∀ text, ∀ b ∈ blocksOf text, b.start + b.length ≤ text.length

/-- The keys among the blocks -/
def keysOf (blocks : List Block) : List Bytes :=
  (blocks.filter fun b => b.armor = .pubkey).map Block.pkt

section Claims

variable (pgpParsePkts : Bytes → ℕ → PgpArmor × Option Bytes)
  (rpmtsImportPubkey : List Bytes → Bytes → ℕ)

/-- The call returns. -/
def Returns (pszFile : Text) (file : KeyFile) (outcome : Outcome) : Prop :=
  ∃ rounds, importGPGKeyFile pgpParsePkts rpmtsImportPubkey pszFile file rounds = some outcome

/-- An import has failed. -/
def Outcome.ImportFailed (outcome : Outcome) : Prop :=
  ∃ rpmRC, outcome.dwError = .error (.code (.bare rpmRC))

/-- A call as it should be, for a file with some keys in it. -/
structure ImportsRight (pszFile : Text) (file : KeyFile) (keys : List Bytes) : Prop where
  returns : ∃ outcome, Returns pgpParsePkts rpmtsImportPubkey pszFile file outcome
  inside : ∀ outcome, Returns pgpParsePkts rpmtsImportPubkey pszFile file outcome →
    outcome.dwError ≠ .error .outside
  /-- every key is imported if no import fails -/
  imports : ∀ outcome, Returns pgpParsePkts rpmtsImportPubkey pszFile file outcome →
    ¬ outcome.ImportFailed → ∀ key ∈ keys, key ∈ outcome.imported
  /-- it is an error if there is none -/
  invalid : ∀ outcome, Returns pgpParsePkts rpmtsImportPubkey pszFile file outcome →
    (outcome.dwError = .error (.code .invalidPubkeyFile) ↔ keys = [] ∧ ¬ outcome.ImportFailed)

end Claims

/-- The first of `offset`, `offset + d`, … that is not less than a bound. -/
def stride (d bound offset : ℕ) : ℕ :=
  if offset < bound ∧ 0 < d then stride d bound (offset + d) else offset
termination_by bound - offset

/-- Where the loop leaves a block behind that it gets to at a position. -/
def leave (offset : ℕ) (b : Block) : ℕ := stride b.pkt.length (b.start + 1) offset

/-- The text that is read of a file -/
def readText (content : Bytes) : Bytes := content.take (content.length % 4294967296)

/-- When the source does so, whatever the imports return. -/
structure Served (blocksOf : Bytes → List Block) (content : Bytes) : Prop where
  /-- the length fits into an `int` -/
  length : content.length % 4294967296 < 2147483647
  /-- there is a block, unless the text is empty -/
  block : readText content = [] ∨ blocksOf (readText content) ≠ []
  /-- the position that ends the loop fits into an `int` -/
  landing : ∀ b ∈ (blocksOf (readText content)).getLast?,
    stride b.pkt.length (readText content).length ((blocksOf (readText content)).foldl leave 0) <
      2147483648
  /-- the keys of the file are those of the text that is read -/
  keys : (∀ key ∈ keysOf (blocksOf content), key ∈ keysOf (blocksOf (readText content))) ∧
    (keysOf (blocksOf content) = [] → keysOf (blocksOf (readText content)) = [])

section Strides

variable {d bound offset : ℕ}

theorem stride_of_le (h : bound ≤ offset) : stride d bound offset = offset := by
  rw [stride, if_neg (by omega)]

theorem stride_of_lt (h : offset < bound) (hd : 0 < d) :
    stride d bound offset = stride d bound (offset + d) := by
  rw [stride, if_pos ⟨h, hd⟩]

theorem stride_lt (hd : 0 < d) (h : offset < bound + d) : stride d bound offset < bound + d := by
  induction offset using stride.induct d bound with
  | case1 offset hless ih =>
      rw [stride_of_lt hless.1 hd]
      exact ih (by omega)
  | case2 offset hnot =>
      rw [stride, if_neg hnot]
      exact h

end Strides

section Keys

variable {blocks blocks' : List Block} {b : Block} {key : Bytes}

theorem mem_keysOf_iff : key ∈ keysOf blocks ↔ ∃ b ∈ blocks, b.armor = .pubkey ∧ b.pkt = key := by
  simp [keysOf, and_assoc]

theorem keysOf_append : keysOf (blocks ++ blocks') = keysOf blocks ++ keysOf blocks' := by
  rw [keysOf, List.filter_append, List.map_append]
  rfl

theorem mem_keysOf_singleton_iff : key ∈ keysOf [b] ↔ b.armor = .pubkey ∧ b.pkt = key := by
  simp [mem_keysOf_iff]

end Keys

/-- The loop at a position, with the blocks behind it done. -/
structure Passing (blocks : List Block) (s : LoopState) (offset : ℕ)
    (done rest : List Block) : Prop where
  nOffset : s.nOffset = offset
  bounded : offset < 2147483648
  split : blocks = done ++ rest
  behind : ∀ b ∈ done, b.start < offset
  ahead : ∀ b ∈ rest, offset ≤ b.start
  walk : rest.foldl leave offset = blocks.foldl leave 0
  imported : ∀ key ∈ keysOf done, key ∈ s.imported
  only : ∀ key ∈ s.imported, key ∈ keysOf blocks
  nKeys : s.nKeys = 0 ↔ s.imported = []
  last : rest = [] → ∀ b ∈ blocks.getLast?, s.pPkt = b.pkt

section Passing

variable {blocks done rest : List Block} {s : LoopState} {offset : ℕ} {b : Block}

theorem Passing.start (blocks : List Block) : Passing blocks ⟨0, [], 0, []⟩ 0 [] blocks where
  nOffset := rfl
  bounded := by omega
  split := rfl
  behind := by simp
  ahead := by simp
  walk := rfl
  imported := by simp [keysOf]
  only := by simp
  nKeys := by simp
  last := by
    rintro rfl b hb
    simp at hb

theorem Passing.firstFrom_eq (h : Passing blocks s offset done rest) :
    firstFrom blocks offset = rest.head? := by
  have hdone : done.find? (fun b => decide (offset ≤ b.start)) = none := by
    refine List.find?_eq_none.mpr fun b hb => ?_
    have hlt := h.behind b hb
    simpa using hlt
  rw [firstFrom, h.split, List.find?_append, hdone, Option.none_or]
  cases hrest : rest with
  | nil => rfl
  | cons b bs =>
      have hle := h.ahead b (hrest ▸ List.mem_cons_self)
      rw [List.find?_cons_of_pos (by simpa using hle), List.head?_cons]

/-- A round that has decoded the next block gets on by the length of its packet, and stays with
the block or leaves it behind. -/
theorem Passing.next (s' : LoopState) (h : Passing blocks s offset done (b :: rest))
    (hbounded : offset + b.pkt.length < 2147483648)
    (hapart : blocks.Pairwise fun b b' => b.start + b.length ≤ b'.start)
    (hoffset : s'.nOffset = (offset + b.pkt.length : ℕ)) (hpkt : s'.pPkt = b.pkt)
    (hmore : ∀ key ∈ s.imported, key ∈ s'.imported)
    (hkey : b.armor = .pubkey → b.pkt ∈ s'.imported)
    (honly : ∀ key ∈ s'.imported, key ∈ keysOf blocks)
    (hnKeys : s'.nKeys = 0 ↔ s'.imported = []) :
    ∃ done' rest', Passing blocks s' (offset + b.pkt.length) done' rest' := by
  have hdecoded := b.decoded
  have hshorter := b.shorter
  have hstart := h.ahead b List.mem_cons_self
  have hafter : ∀ b' ∈ rest, b.start + b.length ≤ b'.start := by
    rw [h.split] at hapart
    exact (List.pairwise_cons.mp (List.pairwise_append.mp hapart).2.1).1
  have hwalk := h.walk
  rw [List.foldl_cons, leave, stride_of_lt (by omega) (by omega)] at hwalk
  by_cases hstays : offset + b.pkt.length ≤ b.start
  · refine ⟨done, b :: rest, hoffset, hbounded, h.split, fun b' hb' => ?_, ?_, hwalk,
      fun key hmem => hmore key (h.imported key hmem), honly, hnKeys, by simp⟩
    · have hlt := h.behind b' hb'
      omega
    · refine List.forall_mem_cons.mpr ⟨hstays, fun b' hb' => ?_⟩
      have hle := hafter b' hb'
      omega
  · rw [stride_of_le (by omega)] at hwalk
    refine ⟨done ++ [b], rest, hoffset, hbounded, by rw [h.split, List.append_assoc]; rfl, ?_,
      fun b' hb' => ?_, hwalk, ?_, honly, hnKeys, ?_⟩
    · intro b' hb'
      rcases List.mem_append.mp hb' with hmem | hmem
      · have hlt := h.behind b' hmem
        omega
      · rw [List.mem_singleton.mp hmem]
        omega
    · have hle := hafter b' hb'
      omega
    · intro key hmem
      rw [keysOf_append] at hmem
      rcases List.mem_append.mp hmem with hold | hnew
      · exact hmore key (h.imported key hold)
      · obtain ⟨harmor, rfl⟩ := mem_keysOf_singleton_iff.mp hnew
        exact hkey harmor
    · rintro rfl b' hb'
      rw [h.split] at hb'
      have hlast : b = b' := by simpa using hb'
      rw [hpkt, hlast]

end Passing

section Loop

variable {pgpParsePkts : Bytes → ℕ → PgpArmor × Option Bytes} {blocksOf : Bytes → List Block}
  (rpmtsImportPubkey : List Bytes → Bytes → ℕ) {text : Bytes} {done rest : List Block}
  {s : LoopState} {offset : ℕ} {b : Block}

theorem importRound_found (hparse : Parses pgpParsePkts blocksOf)
    (h : Passing (blocksOf text) s offset done (b :: rest)) (hsize : text.length < 2147483648) :
    importRound pgpParsePkts rpmtsImportPubkey text s =
      if b.armor = .pubkey then
        if rpmtsImportPubkey s.imported b.pkt ≠ 0 then
          .inr ⟨.error (.code (.bare (rpmtsImportPubkey s.imported b.pkt))), s.imported⟩
        else .inl ⟨(offset + b.pkt.length : ℕ), b.pkt, s.nKeys + 1, s.imported ++ [b.pkt]⟩
      else .inl ⟨(offset + b.pkt.length : ℕ), b.pkt, s.nKeys, s.imported⟩ := by
  have hdecoded := b.decoded
  have hshorter := b.shorter
  have hstart := h.ahead b List.mem_cons_self
  have hinside := hparse.inside text b (h.split ▸ List.mem_append_right _ List.mem_cons_self)
  have hparsed := hparse.found text offset b h.firstFrom_eq
  have hwrap : wrapInt (s.nOffset + b.pkt.length) = (offset + b.pkt.length : ℕ) := by
    rw [h.nOffset, ← Int.natCast_add, wrapInt_of_range (by omega) (by omega)]
  rw [importRound, if_pos (by rw [h.nOffset]; omega), if_neg (by rw [h.nOffset]; omega)]
  simp only [h.nOffset, Int.toNat_natCast, hparsed, Option.getD_some]
  rw [h.nOffset] at hwrap
  simp only [hwrap]

theorem importRound_none (hparse : Parses pgpParsePkts blocksOf) (hoffset : s.nOffset = offset)
    (hnone : firstFrom (blocksOf text) offset = none) (hless : offset < text.length) :
    importRound pgpParsePkts rpmtsImportPubkey text s =
      .inl ⟨wrapInt (offset + s.pPkt.length : ℕ), s.pPkt, s.nKeys, s.imported⟩ := by
  have hparsed := hparse.none text offset hnone
  rw [importRound, if_pos (by rw [hoffset]; omega), if_neg (by rw [hoffset]; omega)]
  simp only [hoffset, Int.toNat_natCast, hparsed, Option.getD_none]
  rw [if_neg (by decide), Int.natCast_add]

/-- From a block on the loop gets behind all blocks, unless an import fails. -/
theorem passing_leads (hparse : Parses pgpParsePkts blocksOf) (hsize : text.length < 2147483648)
    (h : Passing (blocksOf text) s offset done rest) :
    ∃ s', Leads (importRound pgpParsePkts rpmtsImportPubkey text) s s' ∧
      ((∃ offset' done', Passing (blocksOf text) s' offset' done' []) ∨
        ∃ rpmRC, rpmRC ≠ 0 ∧ (∃ key, rpmtsImportPubkey s'.imported key = rpmRC) ∧
          importRound pgpParsePkts rpmtsImportPubkey text s' =
            .inr ⟨.error (.code (.bare rpmRC)), s'.imported⟩) := by
  refine leads_of_variant
    (P := fun s => ∃ offset done rest, Passing (blocksOf text) s offset done rest)
    (fun s => text.length - s.nOffset.toNat) ?_ ⟨offset, done, rest, h⟩
  rintro s ⟨offset, done, rest, h⟩
  cases rest with
  | nil => exact .inl (.inl ⟨offset, done, h⟩)
  | cons b rest =>
      have hround := importRound_found rpmtsImportPubkey hparse h hsize
      have hmem : b ∈ blocksOf text := h.split ▸ List.mem_append_right _ List.mem_cons_self
      have hdecoded := b.decoded
      have hshorter := b.shorter
      have hstart := h.ahead b List.mem_cons_self
      have hinside := hparse.inside text b hmem
      have hless : text.length - ((offset + b.pkt.length : ℕ) : ℤ).toNat <
          text.length - s.nOffset.toNat := by
        rw [h.nOffset, Int.toNat_natCast, Int.toNat_natCast]
        omega
      split_ifs at hround with hkey hfail
      · exact .inl (.inr ⟨_, hfail, ⟨b.pkt, rfl⟩, hround⟩)
      · have hgot : b.pkt ∈ keysOf (blocksOf text) := mem_keysOf_iff.mpr ⟨b, hmem, hkey, rfl⟩
        obtain ⟨done', rest', hnext⟩ := h.next
          ⟨(offset + b.pkt.length : ℕ), b.pkt, s.nKeys + 1, s.imported ++ [b.pkt]⟩
          (by omega) (hparse.apart text) rfl rfl
          (fun key hold => List.mem_append_left _ hold) (fun _ => by simp)
          (fun key hnew => by
            rcases List.mem_append.mp hnew with hold | hlast
            · exact h.only key hold
            · exact List.mem_singleton.mp hlast ▸ hgot)
          (by simp)
        exact .inr ⟨_, hround, ⟨_, done', rest', hnext⟩, hless⟩
      · obtain ⟨done', rest', hnext⟩ := h.next
          ⟨(offset + b.pkt.length : ℕ), b.pkt, s.nKeys, s.imported⟩
          (by omega) (hparse.apart text) rfl rfl (fun key hold => hold)
          (fun hpubkey => absurd hpubkey hkey) h.only h.nKeys
        exact .inr ⟨_, hround, ⟨_, done', rest', hnext⟩, hless⟩

/-- What the loop ends with behind the text. -/
def finalOutcome (nKeys : ℕ) (imported : List Bytes) : Outcome :=
  if nKeys = 0 then ⟨.error (.code .invalidPubkeyFile), imported⟩ else ⟨.ok (), imported⟩

theorem importRound_end (hend : (text.length : ℤ) ≤ s.nOffset) :
    importRound pgpParsePkts rpmtsImportPubkey text s = .inr (finalOutcome s.nKeys s.imported) := by
  rw [importRound, if_neg (by omega), finalOutcome]
  split_ifs <;> rfl

theorem importRound_outside (hneg : s.nOffset < 0) :
    importRound pgpParsePkts rpmtsImportPubkey text s = .inr ⟨.error .outside, s.imported⟩ := by
  rw [importRound, if_pos (by omega), if_pos hneg]

theorem firstFrom_none_of_le {blocks : List Block} {offset' : ℕ}
    (h : firstFrom blocks offset = none) (hle : offset ≤ offset') :
    firstFrom blocks offset' = none := by
  refine List.find?_eq_none.mpr fun b hb => ?_
  have hnot := List.find?_eq_none.mp h b hb
  simp only [decide_eq_true_eq] at hnot ⊢
  omega

/-- Behind the last block the loop steps on by the same length, and ends where the text does if
that position fits into an `int`. -/
theorem trailing_ends (hparse : Parses pgpParsePkts blocksOf) (hsize : text.length < 2147483648)
    (hoffset : s.nOffset = offset) (hbounded : offset < 2147483648)
    (hnone : firstFrom (blocksOf text) offset = none) (hpkt : 0 < s.pPkt.length)
    (hless : s.pPkt.length < text.length) :
    Ends (importRound pgpParsePkts rpmtsImportPubkey text) s
      (if stride s.pPkt.length text.length offset < 2147483648
        then finalOutcome s.nKeys s.imported else ⟨.error .outside, s.imported⟩) := by
  induction hn : text.length - offset using Nat.strongRecOn generalizing s offset with
  | _ n ih =>
      by_cases hend : text.length ≤ offset
      · rw [stride_of_le hend, if_pos hbounded]
        exact (ends_iff_of_inr (importRound_end _ (by omega))).mpr rfl
      · rw [ends_iff_of_inl (importRound_none _ hparse hoffset hnone (by omega)),
          stride_of_lt (by omega) hpkt]
        have hlater := firstFrom_none_of_le hnone (Nat.le_add_right offset s.pPkt.length)
        by_cases hnext : offset + s.pPkt.length < 2147483648
        · rw [wrapInt_of_range (by omega) (by omega)]
          exact @ih (text.length - (offset + s.pPkt.length)) (by omega)
            ⟨(offset + s.pPkt.length : ℕ), s.pPkt, s.nKeys, s.imported⟩
            (offset + s.pPkt.length) rfl hnext hlater hpkt hless rfl
        · rw [stride_of_le (by omega), if_neg hnext]
          have hneg : wrapInt (offset + s.pPkt.length : ℕ) < 0 := by
            rw [wrapInt_natCast, if_neg (by omega)]
            omega
          generalize wrapInt (offset + s.pPkt.length : ℕ) = nOffset at hneg
          exact (ends_iff_of_inr (importRound_outside _ hneg)).mpr rfl

end Loop

section Calling

variable {pgpParsePkts : Bytes → ℕ → PgpArmor × Option Bytes} {blocksOf : Bytes → List Block}
  (rpmtsImportPubkey : List Bytes → Bytes → ℕ) {pszFile : Text} {file : KeyFile}
  {content : Bytes} {outcome : Outcome}

/-- The loop at its start. -/
def loopStart : LoopState := ⟨0, [], 0, []⟩

theorem returns_iff (hname : pszFile ≠ []) (hdir : file.isDir = .ok false)
    (hcontent : file.text.content = .ok content)
    (hlength : content.length % 4294967296 < 2147483647) :
    Returns pgpParsePkts rpmtsImportPubkey pszFile file outcome ↔
      Ends (importRound pgpParsePkts rpmtsImportPubkey (readText content)) loopStart outcome := by
  have hread : readGPGKeyFile pszFile file = .ok (readText content) := by
    rw [readGPGKeyFile, if_neg hname, hdir]
    exact fileReadAllText_eq_ok_iff.mpr ⟨content, hcontent, hlength, rfl⟩
  simp only [Returns, importGPGKeyFile, if_neg hname, hread]
  rfl

/-- A file that is too long is not read. -/
theorem returns_of_long (hname : pszFile ≠ []) (hdir : file.isDir = .ok false)
    (hcontent : file.text.content = .ok content)
    (hlong : ¬ content.length % 4294967296 < 2147483647) :
    ∃ e, e ≠ .invalidPubkeyFile ∧ (∀ n, e ≠ .bare n) ∧
      Returns pgpParsePkts rpmtsImportPubkey pszFile file ⟨.error (.code e), []⟩ := by
  cases htext : fileReadAllText file.text with
  | ok text =>
      obtain ⟨data, hdata, hlength, -⟩ := fileReadAllText_eq_ok_iff.mp htext
      rw [hcontent] at hdata
      cases hdata
      exact absurd hlength hlong
  | error e =>
      obtain ⟨hkey, hbare⟩ := fileReadAllText_error htext
      have hread : readGPGKeyFile pszFile file = .error e := by
        rw [readGPGKeyFile, if_neg hname, hdir]
        exact htext
      refine ⟨e, hkey, hbare, 0, ?_⟩
      rw [importGPGKeyFile, if_neg hname, hread]

theorem length_readText (hlength : content.length % 4294967296 < 2147483647) :
    (readText content).length < 2147483648 := by
  rw [readText, List.length_take]
  omega

/-- The loop ends with an import that fails or, behind the text, with what it has imported. -/
theorem ends_cases (hparse : Parses pgpParsePkts blocksOf) {text : Bytes}
    (hsize : text.length < 2147483648) (hblock : text = [] ∨ blocksOf text ≠ []) :
    (∃ rpmRC imported, rpmRC ≠ 0 ∧ (∃ key, rpmtsImportPubkey imported key = rpmRC) ∧
      Ends (importRound pgpParsePkts rpmtsImportPubkey text) loopStart
        ⟨.error (.code (.bare rpmRC)), imported⟩) ∨
    ∃ nKeys imported, (∀ key, key ∈ imported ↔ key ∈ keysOf (blocksOf text)) ∧
      (nKeys = 0 ↔ imported = []) ∧
      Ends (importRound pgpParsePkts rpmtsImportPubkey text) loopStart
        (if ∀ b ∈ (blocksOf text).getLast?,
            stride b.pkt.length text.length ((blocksOf text).foldl leave 0) < 2147483648
          then finalOutcome nKeys imported else ⟨.error .outside, imported⟩) := by
  obtain ⟨s, hleads, ⟨offset, done, h⟩ | ⟨rpmRC, hne, hkey, hround⟩⟩ :=
    passing_leads rpmtsImportPubkey hparse hsize (Passing.start (blocksOf text))
  · have hdone : blocksOf text = done := by rw [h.split, List.append_nil]
    refine .inr ⟨s.nKeys, s.imported, fun key => ⟨h.only key, ?_⟩, h.nKeys, ?_⟩
    · rw [hdone]
      exact h.imported key
    · have hwalk : offset = (blocksOf text).foldl leave 0 := h.walk
      refine hleads.ends_iff.mpr ?_
      cases hlast : (blocksOf text).getLast? with
      | none =>
          have hnil := List.getLast?_eq_none_iff.mp hlast
          obtain rfl := hblock.resolve_right (not_not_intro hnil)
          rw [if_pos (by simp)]
          refine (ends_iff_of_inr (importRound_end _ ?_)).mpr rfl
          rw [h.nOffset]
          exact Int.natCast_nonneg offset
      | some b =>
          have hmem : b ∈ blocksOf text := List.mem_of_getLast? hlast
          have hpkt := h.last rfl b hlast
          have hdecoded := b.decoded
          have hshorter := b.shorter
          have hinside := hparse.inside text b hmem
          have hend := trailing_ends rpmtsImportPubkey hparse hsize h.nOffset h.bounded
            h.firstFrom_eq (by rw [hpkt]; omega) (by rw [hpkt]; omega)
          rw [hpkt, hwalk] at hend
          simpa using hend
  · exact .inl ⟨rpmRC, s.imported, hne, hkey,
      hleads.ends_iff.mpr ((ends_iff_of_inr hround).mpr rfl)⟩

/-- Without any block the loop stays where it is. -/
theorem not_ends_of_no_block (hparse : Parses pgpParsePkts blocksOf) {text : Bytes}
    (htext : text ≠ []) (hnone : blocksOf text = []) :
    ¬ Ends (importRound pgpParsePkts rpmtsImportPubkey text) loopStart outcome := by
  have hround := importRound_none (s := loopStart) rpmtsImportPubkey hparse rfl
    (by rw [hnone]; rfl) (List.length_pos_iff.mpr htext)
  have hstays : wrapInt (0 + loopStart.pPkt.length : ℕ) = 0 := 
    wrapInt_of_range (by decide) (by decide)
  rw [hstays] at hround
  exact not_ends_of_fixed hround

end Calling

section Right

variable {pgpParsePkts : Bytes → ℕ → PgpArmor × Option Bytes} {blocksOf : Bytes → List Block}
  {pszFile : Text} {file : KeyFile} {content : Bytes}

theorem finalOutcome_not_failed (nKeys : ℕ) (imported : List Bytes) :
    ¬ (finalOutcome nKeys imported).ImportFailed := by
  rintro ⟨rpmRC, h⟩
  rw [finalOutcome] at h
  split_ifs at h
  simp at h

theorem finalOutcome_invalid_iff (nKeys : ℕ) (imported : List Bytes) :
    (finalOutcome nKeys imported).dwError = .error (.code .invalidPubkeyFile) ↔ nKeys = 0 := by
  rw [finalOutcome]
  split_ifs with h <;> simp [h]

theorem finalOutcome_inside (nKeys : ℕ) (imported : List Bytes) :
    (finalOutcome nKeys imported).dwError ≠ .error .outside := by
  rw [finalOutcome]
  split_ifs <;> simp

theorem finalOutcome_imported (nKeys : ℕ) (imported : List Bytes) :
    (finalOutcome nKeys imported).imported = imported := by
  rw [finalOutcome]
  split_ifs <;> rfl

variable {rpmtsImportPubkey : List Bytes → Bytes → ℕ} {keys : List Bytes}

theorem length_of_right (hname : pszFile ≠ []) (hdir : file.isDir = .ok false)
    (hcontent : file.text.content = .ok content)
    (h : ImportsRight pgpParsePkts rpmtsImportPubkey pszFile file keys) :
    content.length % 4294967296 < 2147483647 := by
  by_contra hlong
  obtain ⟨e, hkey, hbare, hreturns⟩ :=
    @returns_of_long pgpParsePkts rpmtsImportPubkey _ _ _ hname hdir hcontent hlong
  have hfine : ¬ Outcome.ImportFailed ⟨.error (.code e), []⟩ := by
    rintro ⟨rpmRC, hcode⟩
    cases hcode
    exact hbare rpmRC rfl
  have hsome : keys ≠ [] := by
    intro hnil
    have hinvalid := (h.invalid _ hreturns).mpr ⟨hnil, hfine⟩
    cases hinvalid
    exact hkey rfl
  obtain ⟨key, hmem⟩ := List.exists_mem_of_ne_nil keys hsome
  exact List.not_mem_nil (h.imports _ hreturns hfine key hmem)

theorem block_of_right (hparse : Parses pgpParsePkts blocksOf) (hname : pszFile ≠ [])
    (hdir : file.isDir = .ok false) (hcontent : file.text.content = .ok content)
    (h : ImportsRight pgpParsePkts rpmtsImportPubkey pszFile file keys) :
    readText content = [] ∨ blocksOf (readText content) ≠ [] := by
  have hlength := length_of_right hname hdir hcontent h
  obtain ⟨outcome, hreturns⟩ := h.returns
  by_contra hnot
  push Not at hnot
  exact not_ends_of_no_block rpmtsImportPubkey hparse hnot.1 hnot.2
    ((returns_iff _ hname hdir hcontent hlength).mp hreturns)

end Right

/-- A key file is imported right, whatever the imports return, exactly when its length and the
position that ends the loop fit into an `int`, it has a block or is empty, and the keys in what is
read of it are its own. -/
theorem importsRight_iff {pgpParsePkts : Bytes → ℕ → PgpArmor × Option Bytes}
    {blocksOf : Bytes → List Block} (hparse : Parses pgpParsePkts blocksOf) {pszFile : Text}
    (hname : pszFile ≠ []) {file : KeyFile} (hdir : file.isDir = .ok false) {content : Bytes}
    (hcontent : file.text.content = .ok content) :
    (∀ rpmtsImportPubkey, ImportsRight pgpParsePkts rpmtsImportPubkey pszFile file
      (keysOf (blocksOf content))) ↔ Served blocksOf content := by
  constructor
  · intro hright
    have h := hright fun _ _ => 0
    have hlength := length_of_right hname hdir hcontent h
    have hblock := block_of_right hparse hname hdir hcontent h
    obtain ⟨rpmRC, imported, hne, ⟨key, hzero⟩, -⟩ | ⟨nKeys, imported, hmem, hcount, hends⟩ :=
      ends_cases (fun _ _ => 0) hparse (length_readText hlength) hblock
    · exact absurd hzero.symm hne
    have hreturns : Returns pgpParsePkts (fun _ _ => 0) pszFile file _ :=
      (returns_iff _ hname hdir hcontent hlength).mpr hends
    split_ifs at hreturns with hland
    · have hfine := finalOutcome_not_failed nKeys imported
      refine ⟨hlength, hblock, hland, fun key hkey => ?_, fun hnone => ?_⟩
      · have himported := h.imports _ hreturns hfine key hkey
        rw [finalOutcome_imported] at himported
        exact (hmem key).mp himported
      · have hinvalid := (h.invalid _ hreturns).mpr ⟨hnone, hfine⟩
        have hnil := hcount.mp ((finalOutcome_invalid_iff nKeys imported).mp hinvalid)
        refine List.eq_nil_iff_forall_not_mem.mpr fun key hkey => ?_
        have hin := (hmem key).mpr hkey
        rw [hnil] at hin
        exact List.not_mem_nil hin
    · exact absurd rfl (h.inside _ hreturns)
  · intro h rpmtsImportPubkey
    have hreturns := fun outcome =>
      @returns_iff pgpParsePkts rpmtsImportPubkey _ _ _ outcome hname hdir hcontent h.length
    obtain ⟨rpmRC, imported, hne, -, hends⟩ | ⟨nKeys, imported, hmem, hcount, hends⟩ :=
      ends_cases rpmtsImportPubkey hparse (length_readText h.length) h.block
    · have hall : ∀ outcome, Returns pgpParsePkts rpmtsImportPubkey pszFile file outcome →
          outcome = ⟨.error (.code (.bare rpmRC)), imported⟩ := fun outcome hout =>
        ((hreturns outcome).mp hout).unique hends
      refine ⟨⟨_, (hreturns _).mpr hends⟩, fun outcome hout => ?_, fun outcome hout hfine => ?_,
        fun outcome hout => ?_⟩
      · simp [hall outcome hout]
      · rw [hall outcome hout] at hfine
        exact absurd ⟨rpmRC, rfl⟩ hfine
      · rw [hall outcome hout]
        constructor
        · intro hinvalid
          cases hinvalid
        · rintro ⟨-, hfine⟩
          exact absurd ⟨rpmRC, rfl⟩ hfine
    · rw [if_pos h.landing] at hends
      have hall : ∀ outcome, Returns pgpParsePkts rpmtsImportPubkey pszFile file outcome →
          outcome = finalOutcome nKeys imported := fun outcome hout =>
        ((hreturns outcome).mp hout).unique hends
      refine ⟨⟨_, (hreturns _).mpr hends⟩, fun outcome hout => ?_, fun outcome hout _ => ?_,
        fun outcome hout => ?_⟩
      · rw [hall outcome hout]
        exact finalOutcome_inside nKeys imported
      · rw [hall outcome hout, finalOutcome_imported]
        exact fun key hkey => (hmem key).mpr (h.keys.1 key hkey)
      · rw [hall outcome hout, finalOutcome_invalid_iff, hcount,
          and_iff_left (finalOutcome_not_failed nKeys imported)]
        constructor
        · rintro rfl
          refine List.eq_nil_iff_forall_not_mem.mpr fun key hkey => ?_
          exact List.not_mem_nil ((hmem key).mpr (h.keys.1 key hkey))
        · intro hnone
          refine List.eq_nil_iff_forall_not_mem.mpr fun key hkey => ?_
          have hin := (hmem key).mp hkey
          rw [h.keys.2 hnone] at hin
          exact List.not_mem_nil hin

section Short

variable {pgpParsePkts : Bytes → ℕ → PgpArmor × Option Bytes} {blocksOf : Bytes → List Block}
  {content : Bytes}

theorem readText_of_lt (h : content.length < 4294967296) : readText content = content := by
  rw [readText, Nat.mod_eq_of_lt h, List.take_length]

/-- The blocks of a text are left behind in it. -/
theorem foldl_leave_le {blocks : List Block} {size offset : ℕ}
    (hinside : ∀ b ∈ blocks, b.start + b.length ≤ size) (h : offset ≤ size) :
    blocks.foldl leave offset ≤ size := by
  induction blocks generalizing offset with
  | nil => exact h
  | cons b blocks ih =>
      refine ih (fun b' hb' => hinside b' (List.mem_cons_of_mem b hb')) ?_
      have hb := hinside b List.mem_cons_self
      have hdecoded := b.decoded
      have hshorter := b.shorter
      rw [leave]
      by_cases hless : offset < b.start + 1
      · have hlt : stride b.pkt.length (b.start + 1) offset < b.start + 1 + b.pkt.length :=
          stride_lt hdecoded (by omega)
        omega
      · rw [stride_of_le (by omega)]
        exact h

/-- A file of less than 1 GiB is served if it has a block or is empty. -/
theorem served_of_short (hparse : Parses pgpParsePkts blocksOf)
    (hshort : content.length < 1073741824) (hblock : content = [] ∨ blocksOf content ≠ []) :
    Served blocksOf content := by
  have hread : readText content = content := readText_of_lt (by omega)
  refine ⟨by omega, by rwa [hread], fun b hb => ?_, fun key hkey => by rwa [hread], fun hnone => by
    rwa [hread]⟩
  rw [hread] at hb ⊢
  have hinside := hparse.inside content
  have hdecoded := b.decoded
  have hshorter := b.shorter
  have hb' := hinside b (List.mem_of_getLast? hb)
  have hle := foldl_leave_le hinside (Nat.zero_le _)
  have hlt : stride b.pkt.length content.length ((blocksOf content).foldl leave 0) <
      content.length + b.pkt.length := stride_lt hdecoded (by omega)
  omega

end Short

section Samples

/-- Parsing that finds given blocks. -/
def parseBlocks (blocksOf : Bytes → List Block) (text : Bytes) (offset : ℕ) :
    PgpArmor × Option Bytes :=
  match firstFrom (blocksOf text) offset with
  | some b => (b.armor, some b.pkt)
  | none => (.other, none)

/-- A public key block with a packet of three bytes. -/
def keyText : Bytes :=
  Json.ascii ("-----BEGIN PGP PUBLIC KEY BLOCK-----\n\nAQID\n=Z2GT\n" ++
    "-----END PGP PUBLIC KEY BLOCK-----\n")

def keyBlock : Block := ⟨0, keyText.length, .pubkey, [1, 2, 3], by decide, by decide +kernel⟩

/-- The block of that text; other texts have none. -/
def sampleBlocks (text : Bytes) : List Block := if text = keyText then [keyBlock] else []

theorem parses_sampleBlocks : Parses (parseBlocks sampleBlocks) sampleBlocks where
  found text offset b h := by rw [parseBlocks, h]
  none text offset h := by rw [parseBlocks, h]
  apart text := by
    rw [sampleBlocks]
    split_ifs <;> simp
  inside text b hb := by
    rw [sampleBlocks] at hb
    split_ifs at hb with htext
    · obtain rfl := List.mem_singleton.mp hb
      rw [htext]
      exact (Nat.zero_add _).le
    · cases hb

def keyFile (content : Bytes) : KeyFile := ⟨.ok false, ⟨.ok content, 0⟩⟩

/-- The key of that text is imported right. -/
theorem importsRight_keyText : ImportsRight (parseBlocks sampleBlocks) (fun _ _ => 0)
    "key.asc".toList (keyFile keyText) (keysOf (sampleBlocks keyText)) :=
  (importsRight_iff parses_sampleBlocks (by decide) rfl rfl).mpr
    (served_of_short parses_sampleBlocks (by decide +kernel) (.inr (by simp [sampleBlocks])))
    fun _ _ => 0

theorem parses_nothing : Parses (parseBlocks fun _ => []) fun _ => [] where
  found text offset b h := by cases h
  none text offset h := rfl
  apart text := .nil
  inside text b hb := by cases hb

/-- In a text without a block the loop never ends. -/
theorem hello_never_returns : ¬ ImportsRight (parseBlocks fun _ => []) (fun _ _ => 0)
    "key.asc".toList (keyFile (Json.ascii "hello\n")) (keysOf []) := by
  intro h
  obtain ⟨outcome, hreturns⟩ := h.returns
  have hends := (returns_iff _ (by decide) rfl rfl (by decide +kernel)).mp hreturns
  exact not_ends_of_no_block _ parses_nothing (by decide +kernel) rfl hends

end Samples

end KeyImport

end Tdnf.Client
