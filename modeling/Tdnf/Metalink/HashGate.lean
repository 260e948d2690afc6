import Tdnf.Common.Checksum
import Tdnf.Library.LastWrite
import Mathlib.Order.Bounds.Basic

/-!
# The hash gate of the metalink plugin

Repository metadata is compared with the hashes listed in the metalink file. The
strongest listed type is looked for first, then every well-formed value of this
type is compared until one matches. An entry that is not compared sets the result
back to success, so the last entry decides whether a mismatch counts.
-/

namespace Tdnf.Metalink

open Common LastWrite

/-- `TDNF_ML_HASH_INFO` -/
structure HashInfo where
  type : Option String
  value : Option (List Char)
deriving DecidableEq, Repr

/-- `TDNFGetResourceType`. A type that is not supported is skipped, not an error. -/
def getResourceType (resourceType : Option String) : Except TdnfError (Option HashType) :=
  match resourceType with
  | none => .error .invalidParameter
  | some name =>
    if name = "" then .error .invalidParameter
    else .ok (hashTypes.lookup name)

/-- The number of a resource type, -1 if it is not supported. -/
def hashValue : Option HashType → ℤ
  | none => -1
  | some t => t.toNat

/-- The loop over the remaining entries that finds the best hash type. -/
def bestHashType (hashType : Option HashType) :
    List (Option HashInfo) → Except TdnfError (Option HashType)
  | [] => .ok hashType
  | none :: _ => .error .invalidRepoFile
  | some currHashInfo :: rest =>
    match getResourceType currHashInfo.type with
    | .error e => .error e
    | .ok currHashType =>
      bestHashType (if hashValue hashType < hashValue currHashType then currHashType
        else hashType) rest

/-- The loop over the remaining entries that compares the values of the best type. -/
def checkHashes (getDigest : GetDigest) (pszFile : Option String) (hashType : HashType)
    (dwError : Except TdnfError Unit) : List (Option HashInfo) → Except TdnfError Unit
  | [] => dwError
  -- the loop before this one rejects a list with such an entry
  | none :: _ => .error .invalidRepoFile
  | some currHashInfo :: rest =>
    match getResourceType currHashInfo.type with
    | .error e => .error e
    | .ok currHashType =>
      if currHashType = some hashType ∧ checkHexDigest currHashInfo.value hashType.length then
        match checkHash getDigest pszFile
          (checksumFromHexDigest (currHashInfo.value.getD [])) hashType with
        | .ok () => .ok ()
        | .error .checksumValidationFailed =>
          checkHashes getDigest pszFile hashType (.error .checksumValidationFailed) rest
        | .error e => .error e
      else checkHashes getDigest pszFile hashType (.ok ()) rest

/-- `TDNFCheckRepoMDFileHashFromMetalink`, with `ml_ctx->hashes` for `ml_ctx`. -/
def checkRepoMDFileHashFromMetalink (getDigest : GetDigest) (pszFile : Option String)
    (mlCtx : Option (List (Option HashInfo))) : Except TdnfError Unit :=
  if isNullOrEmptyString pszFile then .error .invalidParameter
  else
    match mlCtx with
    | none => .error .invalidParameter
    | some hashes =>
      match bestHashType none hashes with
      | .error e => .error e
      | .ok none => .error .invalidRepoFile
      | .ok (some hashType) => checkHashes getDigest pszFile hashType (.ok ()) hashes

/-- The supported types in the list. -/
def listedTypes (hashes : List (Option HashInfo)) : Set HashType :=
  {t | ∃ info, some info ∈ hashes ∧ getResourceType info.type = .ok (some t)}

/-- An entry with a well-formed value of type `t`. -/
def Candidate (t : HashType) (info : HashInfo) : Prop :=
  getResourceType info.type = .ok (some t) ∧ checkHexDigest info.value t.length = true

/-- The types with a well-formed value in the list. -/
def wellFormedTypes (hashes : List (Option HashInfo)) : Set HashType :=
  {t | ∃ info, some info ∈ hashes ∧ Candidate t info}

/-- The value spells the digest of the file. -/
def Matches (getDigest : GetDigest) (file : String) (t : HashType) (info : HashInfo) : Prop :=
  ∃ hex d, info.value = some hex ∧ getDigest file t = .ok d ∧ d.val = checksumFromHexDigest hex

/-- Only a match of the strongest well-formed type lets the file pass. -/
def HashGate (getDigest : GetDigest) (file : String) (hashes : List (Option HashInfo)) : Prop :=
  checkRepoMDFileHashFromMetalink getDigest (some file) (some hashes) = .ok () →
    ∃ t, IsGreatest (wellFormedTypes hashes) t ∧
      ∃ info, some info ∈ hashes ∧ Candidate t info ∧ Matches getDigest file t info

/-- The list passes the checks of its entries, the last one is not a well-formed value of the
strongest listed type, no comparison fails for another reason than a mismatch, and the file
has no digest that is listed for the strongest well-formed type. -/
structure SlipsThrough (getDigest : GetDigest) (file : String)
    (hashes : List (Option HashInfo)) : Prop where
  named : file ≠ ""
  typed : ∀ entry ∈ hashes, ∃ info, entry = some info ∧ isNullOrEmptyString info.type = false
  lastIgnored : ∃ t, IsGreatest (listedTypes hashes) t ∧
    (∀ info, hashes.getLast? = some (some info) → ¬ Candidate t info) ∧
    (t ∈ wellFormedTypes hashes →
      ∀ e, getDigest file t = .error e → e = .checksumValidationFailed)
  unmatched : ∀ t, IsGreatest (wellFormedTypes hashes) t → ∀ info, some info ∈ hashes →
    Candidate t info → ¬ Matches getDigest file t info

section BestType

theorem neg_one_le_hashValue (t : Option HashType) : -1 ≤ hashValue t := by
  cases t with
  | none => exact le_rfl
  | some t =>
      rw [hashValue]
      omega

theorem hashValue_some_le {t u : HashType} : hashValue (some t) ≤ hashValue (some u) ↔ t ≤ u :=
  Int.ofNat_le

theorem getResourceType_isOk {s : Option String} (h : isNullOrEmptyString s = false) :
    ∃ t, getResourceType s = .ok t := by
  cases s with
  | none => cases h
  | some name =>
      have hname : name ≠ "" := by simpa [isNullOrEmptyString] using h
      exact ⟨_, if_neg hname⟩

theorem not_isNullOrEmptyString_of_type {s : Option String} {t : Option HashType}
    (h : getResourceType s = .ok t) : isNullOrEmptyString s = false := by
  cases s with
  | none => cases h
  | some name =>
      rw [getResourceType] at h
      split_ifs at h with hname
      simpa [isNullOrEmptyString] using hname

/-- What the first loop finds: nothing stronger is listed, and it is listed itself. -/
theorem bestHashType_spec {hashes : List (Option HashInfo)} {start best : Option HashType}
    (h : bestHashType start hashes = .ok best) :
    (∀ entry ∈ hashes, ∃ info, entry = some info ∧ isNullOrEmptyString info.type = false) ∧
      hashValue start ≤ hashValue best ∧
      (∀ t ∈ listedTypes hashes, hashValue (some t) ≤ hashValue best) ∧
      (best = start ∨ ∃ t ∈ listedTypes hashes, best = some t) := by
  induction hashes generalizing start with
  | nil =>
      cases h
      exact ⟨by simp, le_rfl, fun t ⟨_, hmem, _⟩ => by simp at hmem, .inl rfl⟩
  | cons entry rest ih =>
      cases entry with
      | none => cases h
      | some info =>
          cases htype : getResourceType info.type with
          | error e => simp [bestHashType, htype] at h
          | ok curr =>
              simp only [bestHashType, htype] at h
              obtain ⟨htyped, hstart, hlisted, hbest⟩ := ih h
              have hmax : hashValue start ≤ hashValue best ∧ hashValue curr ≤ hashValue best := by
                split_ifs at hstart <;> omega
              refine ⟨?_, hmax.1, ?_, ?_⟩
              · rintro entry (_ | ⟨_, hmem⟩)
                · exact ⟨info, rfl, not_isNullOrEmptyString_of_type htype⟩
                · exact htyped entry hmem
              · rintro t ⟨info', hmem, ht⟩
                rcases List.mem_cons.mp hmem with heq | hmem
                · obtain rfl : info' = info := Option.some.inj heq
                  rw [htype] at ht
                  cases ht
                  exact hmax.2
                · exact hlisted t ⟨info', hmem, ht⟩
              · rcases hbest with hsame | ⟨t, ⟨info', hmem, ht⟩, hsome⟩
                · split_ifs at hsame with hlt
                  · cases curr with
                    | none => exact absurd hlt (not_lt.mpr (neg_one_le_hashValue start))
                    | some t =>
                        exact .inr ⟨t, ⟨info, List.mem_cons_self, htype⟩, hsame⟩
                  · exact .inl hsame
                · exact .inr ⟨t, ⟨info', List.mem_cons_of_mem _ hmem, ht⟩, hsome⟩

theorem bestHashType_isOk {hashes : List (Option HashInfo)}
    (h : ∀ entry ∈ hashes, ∃ info, entry = some info ∧ isNullOrEmptyString info.type = false)
    (start : Option HashType) : ∃ best, bestHashType start hashes = .ok best := by
  induction hashes generalizing start with
  | nil => exact ⟨start, rfl⟩
  | cons entry rest ih =>
      obtain ⟨info, rfl, htype⟩ := h entry List.mem_cons_self
      obtain ⟨curr, hcurr⟩ := getResourceType_isOk htype
      simp only [bestHashType, hcurr]
      exact ih (fun entry hmem => h entry (List.mem_cons_of_mem _ hmem)) _

/-- A type found by the first loop is the strongest one listed. -/
theorem isGreatest_of_bestHashType {hashes : List (Option HashInfo)} {t : HashType}
    (h : bestHashType none hashes = .ok (some t)) : IsGreatest (listedTypes hashes) t := by
  obtain ⟨-, -, hlisted, hbest⟩ := bestHashType_spec h
  obtain ⟨u, hu, hsome⟩ := hbest.resolve_left (by simp)
  obtain rfl : t = u := Option.some.inj hsome
  exact ⟨hu, fun u hu => hashValue_some_le.mp (hlisted u hu)⟩

/-- The strongest listed type is found. -/
theorem bestHashType_of_isGreatest {hashes : List (Option HashInfo)} {t : HashType}
    (htyped : ∀ entry ∈ hashes, ∃ info, entry = some info ∧
      isNullOrEmptyString info.type = false)
    (h : IsGreatest (listedTypes hashes) t) : bestHashType none hashes = .ok (some t) := by
  obtain ⟨best, hrun⟩ := bestHashType_isOk htyped none
  cases best with
  | none =>
      obtain ⟨-, -, hlisted, -⟩ := bestHashType_spec hrun
      have hle := hlisted t h.1
      simp only [hashValue] at hle
      omega
  | some u => rw [hrun, (isGreatest_of_bestHashType hrun).unique h]

end BestType

section Comparisons

variable (getDigest : GetDigest) (file : String) (t : HashType)

/-- What one iteration of the comparing loop does to its result. -/
def verdict : Option HashInfo → Write (Except TdnfError Unit)
  | none => .leave (.error .invalidRepoFile)
  | some info =>
    match getResourceType info.type with
    | .error e => .leave (.error e)
    | .ok type =>
      if type = some t ∧ checkHexDigest info.value t.length then
        match checkHash getDigest (some file)
          (checksumFromHexDigest (info.value.getD [])) t with
        | .ok () => .leave (.ok ())
        | .error .checksumValidationFailed => .goOn (.error .checksumValidationFailed)
        | .error e => .leave (.error e)
      else .goOn (.ok ())

theorem checkHashes_eq_result (dwError : Except TdnfError Unit)
    (hashes : List (Option HashInfo)) :
    checkHashes getDigest (some file) t dwError hashes =
      result dwError (hashes.map (verdict getDigest file t)) := by
  induction hashes generalizing dwError with
  | nil => rfl
  | cons entry rest ih =>
      rw [List.map_cons]
      cases entry with
      | none => rfl
      | some info =>
          rw [checkHashes, verdict]
          cases getResourceType info.type with
          | error e => rfl
          | ok type =>
              simp only
              split_ifs with hcandidate
              · cases checkHash getDigest (some file)
                  (checksumFromHexDigest (info.value.getD [])) t with
                | ok _ => rfl
                | error e => cases e <;> first | rfl | exact ih _
              · exact ih _

variable {getDigest file t} {info : HashInfo}

/-- An entry that is no candidate sets the result back to success. -/
theorem verdict_ignored {type : Option HashType}
    (htype : getResourceType info.type = .ok type) (h : ¬ Candidate t info) :
    verdict getDigest file t (some info) = .goOn (.ok ()) := by
  have hskip : ¬ (type = some t ∧ checkHexDigest info.value t.length = true) :=
    fun ⟨hsame, hhex⟩ => h ⟨hsame ▸ htype, hhex⟩
  simp only [verdict, htype, if_neg hskip]

variable (getDigest) in
/-- A candidate that does not match never leaves the loop with success. -/
theorem verdict_candidate (hfile : file ≠ "") (h : Candidate t info) :
    (∃ e, getDigest file t = .error e ∧ e ≠ .checksumValidationFailed ∧
        verdict getDigest file t (some info) = .leave (.error e)) ∨
      (verdict getDigest file t (some info) = .leave (.ok ()) ∧
        Matches getDigest file t info) ∨
      ((∀ e, getDigest file t = .error e → e = .checksumValidationFailed) ∧
        verdict getDigest file t (some info) = .goOn (.error .checksumValidationFailed)) := by
  obtain ⟨htype, hhex⟩ := h
  obtain ⟨hex, hvalue⟩ : ∃ hex, info.value = some hex := by
    cases hvalue : info.value with
    | none => simp [hvalue, checkHexDigest] at hhex
    | some hex => exact ⟨hex, rfl⟩
  rw [hvalue] at hhex
  simp only [verdict, htype, hvalue, Option.getD_some, hhex, true_and, if_pos,
    checkHash_checksum hfile hhex]
  cases hdigest : getDigest file t with
  | error e =>
      by_cases hfailed : e = .checksumValidationFailed
      · subst hfailed
        exact .inr (.inr ⟨fun e he => (Except.error.inj he).symm, rfl⟩)
      · refine .inl ⟨e, rfl, hfailed, ?_⟩
        cases e <;> first | rfl | exact absurd rfl hfailed
  | ok d =>
      by_cases hmatch : d.val = checksumFromHexDigest hex
      · refine .inr (.inl ⟨?_, hex, d, hvalue, hdigest, hmatch⟩)
        simp [Except.bind, hmatch]
      · refine .inr (.inr ⟨fun _ he => ?_, ?_⟩)
        · cases he
        · simp [Except.bind, hmatch]

/-- Only a match leaves the loop with success. -/
theorem matches_of_leave_ok (hfile : file ≠ "") {hashes : List (Option HashInfo)}
    (h : .leave (.ok ()) ∈ hashes.map (verdict getDigest file t)) :
    ∃ info, some info ∈ hashes ∧ Candidate t info ∧ Matches getDigest file t info := by
  obtain ⟨entry, hmem, hverdict⟩ := List.mem_map.mp h
  cases entry with
  | none => cases hverdict
  | some info =>
      by_cases hcandidate : Candidate t info
      · rcases verdict_candidate getDigest hfile hcandidate with
          ⟨e, -, -, hfails⟩ | ⟨-, hmatch⟩ | ⟨-, hgoes⟩
        · rw [hfails] at hverdict
          cases hverdict
        · exact ⟨info, hmem, hcandidate, hmatch⟩
        · rw [hgoes] at hverdict
          cases hverdict
      · cases htype : getResourceType info.type with
        | error e => simp [verdict, htype] at hverdict
        | ok type =>
            rw [verdict_ignored htype hcandidate] at hverdict
            cases hverdict

end Comparisons

section Gate

variable {getDigest : GetDigest} {file : String} {hashes : List (Option HashInfo)}

theorem mem_wellFormedTypes_listed {t : HashType} (h : t ∈ wellFormedTypes hashes) :
    t ∈ listedTypes hashes := by
  obtain ⟨info, hmem, htype, -⟩ := h
  exact ⟨info, hmem, htype⟩

/-- The whole check, once the strongest listed type is known. -/
theorem check_eq_result {t : HashType} (hfile : file ≠ "")
    (h : bestHashType none hashes = .ok (some t)) :
    checkRepoMDFileHashFromMetalink getDigest (some file) (some hashes) =
      result (.ok ()) (hashes.map (verdict getDigest file t)) := by
  have hnamed : isNullOrEmptyString (some file) = false := by
    simpa [isNullOrEmptyString] using hfile
  rw [checkRepoMDFileHashFromMetalink, hnamed]
  simp only [Bool.false_eq_true, if_false, h]
  exact checkHashes_eq_result ..

/-- Success means that the entries passed their checks and a supported type is listed. -/
theorem best_of_check_ok
    (h : checkRepoMDFileHashFromMetalink getDigest (some file) (some hashes) = .ok ()) :
    file ≠ "" ∧ ∃ t, bestHashType none hashes = .ok (some t) := by
  rw [checkRepoMDFileHashFromMetalink] at h
  split_ifs at h with hnamed
  refine ⟨by simpa [isNullOrEmptyString] using hnamed, ?_⟩
  cases hbest : bestHashType none hashes with
  | error e => simp [hbest] at h
  | ok best =>
      cases best with
      | none => simp [hbest] at h
      | some t => exact ⟨t, rfl⟩

/-- A list that slips through is accepted. -/
theorem SlipsThrough.accepted (h : SlipsThrough getDigest file hashes) :
    checkRepoMDFileHashFromMetalink getDigest (some file) (some hashes) = .ok () := by
  obtain ⟨t, hgreatest, hlast, hcomparable⟩ := h.lastIgnored
  rw [check_eq_result h.named (bestHashType_of_isGreatest h.typed hgreatest)]
  have hignored : ∀ info, some info ∈ hashes → ¬ Candidate t info →
      verdict getDigest file t (some info) = .goOn (.ok ()) := by
    intro info hmem hno
    obtain ⟨info', heq, hnamed⟩ := h.typed _ hmem
    obtain rfl : info = info' := Option.some.inj heq
    obtain ⟨type, htype⟩ := getResourceType_isOk hnamed
    exact verdict_ignored htype hno
  have hstays : ∀ w ∈ hashes.map (verdict getDigest file t), w.left? = none := by
    intro w hw
    obtain ⟨entry, hmem, rfl⟩ := List.mem_map.mp hw
    obtain ⟨info, rfl, -⟩ := h.typed entry hmem
    by_cases hcandidate : Candidate t info
    · have hwell : t ∈ wellFormedTypes hashes := ⟨info, hmem, hcandidate⟩
      have hstrongest : IsGreatest (wellFormedTypes hashes) t :=
        ⟨hwell, fun u hu => hgreatest.2 (mem_wellFormedTypes_listed hu)⟩
      rcases verdict_candidate getDigest h.named hcandidate with
        ⟨e, hdigest, hfatal, -⟩ | ⟨-, hmatch⟩ | ⟨-, hgoes⟩
      · exact absurd (hcomparable hwell e hdigest) hfatal
      · exact absurd hmatch (h.unmatched t hstrongest info hmem hcandidate)
      · rw [hgoes]
        rfl
    · rw [hignored info hmem hcandidate]
      rfl
  rw [result_of_not_left hstays, List.getLast?_map]
  cases hentry : hashes.getLast? with
  | none => rfl
  | some entry =>
      have hmem := List.mem_of_getLast? hentry
      obtain ⟨info, rfl, -⟩ := h.typed entry hmem
      rw [Option.map_some, hignored info hmem (hlast info hentry)]
      rfl

/-- The gate holds for exactly the lists that do not slip through. -/
theorem hashGate_iff (getDigest : GetDigest) (file : String)
    (hashes : List (Option HashInfo)) :
    HashGate getDigest file hashes ↔ ¬ SlipsThrough getDigest file hashes := by
  constructor
  · intro hgate hslips
    obtain ⟨t, hgreatest, info, hmem, hcandidate, hmatch⟩ := hgate hslips.accepted
    exact hslips.unmatched t hgreatest info hmem hcandidate hmatch
  · intro hno hok
    by_contra hnone
    obtain ⟨hfile, t, hbest⟩ := best_of_check_ok hok
    have hgreatest := isGreatest_of_bestHashType hbest
    obtain ⟨htyped, -⟩ := bestHashType_spec hbest
    rw [check_eq_result hfile hbest] at hok
    -- a match of the strongest listed type would be one of the strongest well-formed type
    have hleave : .leave (.ok ()) ∉ hashes.map (verdict getDigest file t) := by
      intro hmem
      obtain ⟨info, hinfo, hcandidate, hmatch⟩ := matches_of_leave_ok hfile hmem
      exact hnone ⟨t, ⟨⟨info, hinfo, hcandidate⟩,
        fun u hu => hgreatest.2 (mem_wellFormedTypes_listed hu)⟩, info, hinfo, hcandidate, hmatch⟩
    have hstays : ∀ w ∈ hashes.map (verdict getDigest file t), w.left? = none := by
      intro w hw
      by_contra hleft
      refine hleave (hok ▸ leave_result_mem ⟨w, hw, ?_⟩)
      exact Option.isSome_iff_ne_none.mpr hleft
    refine hno ⟨hfile, htyped, ⟨t, hgreatest, ?_, ?_⟩, ?_⟩
    · intro info hlast hcandidate
      rw [result_of_not_left hstays, List.getLast?_map, hlast] at hok
      have hmem : verdict getDigest file t (some info) ∈ hashes.map (verdict getDigest file t) :=
        List.mem_map_of_mem (List.mem_of_getLast? hlast)
      rcases verdict_candidate getDigest hfile hcandidate with
        ⟨e, -, -, hfails⟩ | ⟨hleaves, -⟩ | ⟨-, hgoes⟩
      · simp [hfails, Write.value] at hok
      · exact hleave (hleaves ▸ hmem)
      · simp [hgoes, Write.value] at hok
    · rintro ⟨info, hmem, hcandidate⟩ e hdigest
      by_contra hfatal
      rcases verdict_candidate getDigest hfile hcandidate with
        ⟨e', -, -, hfails⟩ | ⟨-, hex, d, -, hok', -⟩ | ⟨hfailed, -⟩
      · have hleft := hstays _ (List.mem_map_of_mem hmem)
        rw [hfails] at hleft
        cases hleft
      · rw [hdigest] at hok'
        cases hok'
      · exact hfatal (hfailed e hdigest)
    · intro u hu info hmem hcandidate hmatch
      exact hnone ⟨u, hu, info, hmem, hcandidate, hmatch⟩

end Gate

/-- A digest of zeros for every file. -/
def zeroDigest : GetDigest := fun _ t => .ok ⟨List.replicate t.length 0, by simp⟩

/-- A wrong sha1 value passes because an md5 entry follows it. -/
theorem not_hashGate_mismatchBeforeMd5 :
    ¬ HashGate zeroDigest "repomd.xml"
      [some ⟨some "sha1", some (List.replicate 40 '1')⟩,
        some ⟨some "md5", some (List.replicate 32 '1')⟩] := by
  intro hgate
  obtain ⟨t, -, info, hmem, -, hex, d, hvalue, hdigest, hmatch⟩ := hgate rfl
  obtain rfl : ⟨List.replicate t.length 0, by simp⟩ = d := Except.ok.inj hdigest
  have hmem' : info ∈ [⟨some "sha1", some (List.replicate 40 '1')⟩,
      ⟨some "md5", some (List.replicate 32 '1')⟩] := by simpa using hmem
  rcases List.mem_pair.mp hmem' with rfl | rfl
  · obtain rfl : List.replicate 40 '1' = hex := Option.some.inj hvalue
    cases t <;> exact absurd hmatch (by decide)
  · obtain rfl : List.replicate 32 '1' = hex := Option.some.inj hvalue
    cases t <;> exact absurd hmatch (by decide)

end Tdnf.Metalink
