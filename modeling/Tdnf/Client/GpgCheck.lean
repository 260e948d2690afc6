import Tdnf.Client.Download
import Tdnf.Client.Repo
import Tdnf.Common.Strings
import Tdnf.Library.Trace

/-!
# The signature check of a package

`TDNFGPGCheckPackage` reads a package file. If rpm does not know or not trust its
key, the keys of the repository are imported, each after a question to the user,
and the file is read again. The state keeps a trace of the questions, the imports
and the checks. What rpm and the system answer depends on the state at that time.
-/

namespace Tdnf.Client

open PathText Common Procedure Trace

/-- What happens in a check, in its order. -/
inductive GpgEvent where
  /-- `rpmReadPackageFile` returned -/
  | read (rc : ℕ)
  /-- the question for a key URL, and the lines that were read as answers -/
  | asked (url : Text) (input : List Text)
  /-- the key of the URL is in this file -/
  | located (url keyFile : Text)
  /-- `rpmtsImportPubkey` imported a key from the file -/
  | imported (keyFile : Text)
  /-- the keyring of the transaction has the keys of the file -/
  | added (keyFile : Text)
  /-- `TDNFGPGCheck` succeeded for a package file -/
  | checked (keyFile pkgFile : Text)
deriving DecidableEq, Repr

/-- The state of a check. -/
structure GpgState where
  trace : List GpgEvent
  /-- what further calls of `fgets` read, each up to its first NUL -/
  stdin : List Text
  disk : Disk

/-- How a check ends that does not return 0. -/
inductive GpgStop where
  | code (e : TdnfError)
  /-- the code that `rpmtsImportPubkey` returned -/
  | importCode (rc : ℕ)
  /-- the loop over the packets of a key file still runs -/
  | running
deriving DecidableEq, Repr

abbrev GpgProc := Proc GpgStop GpgState

/-- The parts of `TDNF_CMD_ARGS` that a check reads. -/
structure GpgArgs where
  nNoGPGCheck : Bool
  nAssumeYes : Bool
  nAssumeNo : Bool
  setOpt : List CmdOpt
deriving DecidableEq, Repr

/-- What rpm and the system answer. -/
structure GpgHost where
  /-- the `errno` of `Fopen`, if it fails -/
  fopen : Text → GpgState → Option ℕ
  rpmReadPackageFile : Text → GpgState → ℕ
  transfer : Text → GpgState → Transfer
  isDir : Text → GpgState → Except TdnfError Bool
  /-- the size of what `TDNFFileReadAllText` reads -/
  fileReadAllText : Text → GpgState → Except TdnfError ℕ
  /-- whether there is a public key behind the offset, and `nPktLen` -/
  pgpParsePkts : Text → ℕ → GpgState → Bool × ℕ
  rpmtsImportPubkey : Text → ℕ → GpgState → ℕ
  /-- `rpmtsGetKeyring` returns a keyring -/
  rpmtsGetKeyring : GpgState → Bool
  /-- `rpmPubkeyRead` returns a key -/
  rpmPubkeyRead : Text → GpgState → Bool
  rpmVerifySignatures : Text → Text → GpgState → ℕ
  /-- the `errno` of `unlink`, if it fails -/
  unlink : Text → GpgState → Option ℕ

section Code

variable (host : GpgHost) (args : GpgArgs) (cacheDir : Text) (pRepo : Repo) (data : RepoData)

/-- `BAIL_ON_TDNF_ERROR` -/
def bail {α : Type} (x : Except TdnfError α) : GpgProc α := fromExcept (x.mapError .code)

/-- A further event. -/
def emit (e : GpgEvent) : GpgProc Unit := modify fun s => { s with trace := s.trace ++ [e] }

/-- An `errno` of 0 does not bail. -/
def bailSystem : Option ℕ → GpgProc Unit
  | none => pure ()
  | some errno => if errno = 0 then pure () else throw (.code (.system errno))

/-- `TDNFGetSkipSignatureOption` -/
def getSkipSignatureOption : Bool :=
  args.setOpt.any fun o => equalsCase o.pszOptName.toList "skipsignature".toList

/-- `nGPGSigCheck` of `TDNFGetGPGSignatureCheck` -/
def gpgSigCheck : Bool := !(args.nNoGPGCheck || getSkipSignatureOption args) && pRepo.nGPGCheck

/-- The key URLs that are configured for the repository. -/
def gpgKeys : List Text := pRepo.ppszUrlGPGKeys.getD []

/-- `TDNFGetGPGSignatureCheck`, with the key URLs -/
def getGPGSignatureCheck : Except TdnfError (List Text) :=
  if gpgSigCheck args pRepo then
    match gpgKeys pRepo with
    | [] => .error .noGpgkeyConfEntry
    | url :: urls =>
      if url = [] then .error .noGpgkeyConfEntry else (url :: urls).mapM allocateString
  else .ok []

/-- Whether a line, without its last character, is one of the answers. -/
def isAnswer (buf : Text) : Bool :=
  equalsCase buf "yes".toList || equalsCase buf "y".toList || equalsCase buf "n".toList ||
    equalsCase buf "no".toList || buf == []

/-- The loop in `TDNFYesOrNo`: the lines read, the first character of the answer, and what is
left to read. -/
def readAnswer : List Text → Option (List Text × Option Char × List Text)
  | [] => none
  | line :: rest =>
    if line = [] then none
    else
      let buf := line.dropLast
      if isAnswer buf then some ([line], buf.head?.map Char.toLower, rest)
      else
        match readAnswer rest with
        | none => none
        | some (lines, opt, rest) => some (line :: lines, opt, rest)

/-- `TDNFYesOrNo`, asked for a key URL -/
def yesOrNo (url : Text) : GpgProc Bool := do
  if !args.nAssumeYes && !args.nAssumeNo then
    match readAnswer (← get).stdin with
    | none => throw (.code .invalidInput)
    | some (lines, opt, rest) =>
      modify fun s => { s with stdin := rest }
      emit (.asked url lines)
      return opt == some 'y'
  else
    emit (.asked url [])
    return args.nAssumeYes

/-- The loop in `TDNFImportGPGKeyFile`; `fuel` bounds its rounds -/
def importPackets (keyFile : Text) (nKeyDataSize : ℕ) : ℕ → ℕ → ℕ → GpgProc ℕ
  | 0, _, _ => throw .running
  | fuel + 1, nOffset, nKeys => do
    if nOffset < nKeyDataSize then
      let s ← get
      let (pubkey, nPktLen) := host.pgpParsePkts keyFile nOffset s
      if pubkey then
        let rc := host.rpmtsImportPubkey keyFile nOffset s
        if rc ≠ 0 then throw (.importCode rc)
        emit (.imported keyFile)
        importPackets keyFile nKeyDataSize fuel (nOffset + nPktLen) (nKeys + 1)
      else importPackets keyFile nKeyDataSize fuel (nOffset + nPktLen) nKeys
    else return nKeys

/-- `ReadGPGKeyFile`, for the size of the data -/
def readGPGKeyFile (keyFile : Text) : GpgProc ℕ := do
  if keyFile = [] then throw (.code .invalidParameter)
  let s ← get
  if ← bail (host.isDir keyFile s) then throw (.code .keyUrlInvalid)
  bail (host.fileReadAllText keyFile s)

/-- `TDNFImportGPGKeyFile` -/
def importGPGKeyFile (fuel : ℕ) (keyFile : Text) : GpgProc Unit := do
  if keyFile = [] then throw (.code .invalidParameter)
  let nKeyDataSize ← readGPGKeyFile host keyFile
  let nKeys ← importPackets host keyFile nKeyDataSize fuel 0 0
  if nKeys = 0 then throw (.code .invalidPubkeyFile)

/-- `AddKeyFileToKeyring` -/
def addKeyFileToKeyring (keyFile : Text) : GpgProc Unit := do
  if keyFile = [] then throw (.code .invalidParameter)
  if host.rpmPubkeyRead keyFile (← get) then emit (.added keyFile)
  else throw (.code .invalidPubkeyFile)

/-- `TDNFGPGCheck` -/
def gpgCheck (keyFile pkgFile : Text) : GpgProc Unit := do
  if keyFile = [] then throw (.code .invalidParameter)
  bailSystem (host.fopen pkgFile (← get))
  if !host.rpmtsGetKeyring (← get) then throw (.code .invalidParameter)
  addKeyFileToKeyring host keyFile
  if host.rpmVerifySignatures keyFile pkgFile (← get) ≠ 0 then throw (.code .rpmGpgNoMatch)
  emit (.checked keyFile pkgFile)

/-- An invalid URL of a key. -/
def keyUrl {α : Type} (x : Except TdnfError α) : Except TdnfError α :=
  x.mapError fun e => if e = .urlInvalid then .keyUrlInvalid else e

/-- The file with the key of a URL: a remote one is fetched. -/
def keyFileOf (nRemote : Bool) (url : Text) : GpgProc Text := do
  if nRemote then
    let t := host.transfer url (← get)
    mapFault .code (within GpgState.disk (fun disk s => { s with disk := disk })
      (fetchRemoteGPGKey cacheDir data t url))
  else bail (keyUrl (pathFromUri url))

/-- Open and read the package file; the return code is that of rpm. -/
def readPackage (pkgFile : Text) : GpgProc ℕ := do
  bailSystem (host.fopen pkgFile (← get))
  let rc := host.rpmReadPackageFile pkgFile (← get)
  emit (.read rc)
  return rc

/-- One round of the loop over the key URLs in `TDNFGPGCheckPackage` -/
def tryKey (fuel : ℕ) (pkgFile : Text) (nMatched : ℕ) (url : Text) : GpgProc ℕ := do
  let nAnswer ← yesOrNo args url
  if !nAnswer then throw (.code .operationAborted)
  let nRemote ← bail (keyUrl (uriIsRemote url))
  let keyFile ← keyFileOf host cacheDir data nRemote url
  emit (.located url keyFile)
  importGPGKeyFile host fuel keyFile
  let nMatched ← match ← attempt (gpgCheck host keyFile pkgFile) with
    | .ok _ => pure (nMatched + 1)
    | .error stop => if stop = .code .rpmGpgNoMatch then pure nMatched else throw stop
  if nRemote then bailSystem (host.unlink keyFile (← get))
  return nMatched

/-- `TDNFGPGCheckPackage` -/
def gpgCheckPackage (fuel : ℕ) (pkgFile : Text) : GpgProc Unit := do
  let rc ← readPackage host pkgFile
  -- RPMRC_NOTTRUSTED and RPMRC_NOKEY
  if rc ≠ 3 ∧ rc ≠ 4 then
    if rc ≠ 0 then throw (.code (.rpm rc))
  else if gpgSigCheck args pRepo then
    let urls ← bail (getGPGSignatureCheck args pRepo)
    let nMatched ← urls.foldlM (tryKey host args cacheDir data fuel pkgFile) 0
    if nMatched = 0 then throw (.code .rpmGpgNoMatch)
    let rc ← readPackage host pkgFile
    if rc ≠ 0 then throw (.code (.rpm rc))

end Code

/-! ## What a check promises -/

section Promise

variable (args : GpgArgs) (pRepo : Repo) (pkgFile : Text)

/-- The lines that were read end with yes, or yes is assumed. -/
def SaidYes (input : List Text) : Prop :=
  args.nAssumeYes = true ∨ ∃ line, input.getLast? = some line ∧
    (equalsCase line.dropLast "y".toList = true ∨ equalsCase line.dropLast "yes".toList = true)

/-- The file that an event takes keys from. -/
def keyUsed : GpgEvent → Option Text
  | .imported keyFile => some keyFile
  | .added keyFile => some keyFile
  | .checked keyFile _ => some keyFile
  | _ => none

/-- The last question was for the URL of the key file, and the answer was yes. -/
def InBlock (before : List GpgEvent) (keyFile : Text) : Prop :=
  ∃ url ∈ gpgKeys pRepo, ∃ earlier input within,
    before = earlier ++ .asked url input :: .located url keyFile :: within ∧
      SaidYes args input ∧ ∀ e ∈ within, keyUsed e = some keyFile

/-- Keys are used only of a URL that the user agreed to. -/
def Answered (before : List GpgEvent) (e : GpgEvent) : Prop :=
  ∀ keyFile, keyUsed e = some keyFile → InBlock args pRepo before keyFile

/-- The package file is signed: at once, or with the key of a configured URL. -/
def Verified (trace : List GpgEvent) : Prop :=
  trace.head? = some (.read 0) ∨
    (trace.head? = some (.read 3) ∨ trace.head? = some (.read 4)) ∧
      (∃ url ∈ gpgKeys pRepo, ∃ keyFile,
        .located url keyFile ∈ trace ∧ .checked keyFile pkgFile ∈ trace) ∧
      trace.getLast? = some (.read 0)

/-- What holds at the end of a check. -/
structure SignatureGate (result : EStateM.Result GpgStop GpgState Unit) : Prop where
  accepted : gpgSigCheck args pRepo = true → (∃ t, result = .ok () t) →
    Verified pRepo pkgFile (finalState result).trace
  licensed : Licensed (Answered args pRepo) (finalState result).trace
  unchecked : gpgSigCheck args pRepo = false →
    ∀ e ∈ (finalState result).trace, keyUsed e = none

/-- What holds between two key URLs: `nMatched` is above 0 only if a key matched. -/
structure Sound (rc nMatched : ℕ) (trace : List GpgEvent) : Prop where
  head : trace.head? = some (.read rc)
  licensed : Licensed (Answered args pRepo) trace
  matched : 0 < nMatched → ∃ keyFile, .checked keyFile pkgFile ∈ trace

end Promise

section Invariant

variable {args : GpgArgs} {pRepo : Repo} {pkgFile keyFile url : Text} {rc nMatched : ℕ}
  {trace : List GpgEvent} {e : GpgEvent}

theorem answered_of_keyUsed_none (h : keyUsed e = none) : Answered args pRepo trace e := by
  intro keyFile hused
  rw [h] at hused
  cases hused

theorem InBlock.answered (h : InBlock args pRepo trace keyFile) (he : keyUsed e = some keyFile) :
    Answered args pRepo trace e := by
  intro keyFile' hused
  cases he.symm.trans hused
  exact h

theorem InBlock.concat (h : InBlock args pRepo trace keyFile) (he : keyUsed e = some keyFile) :
    InBlock args pRepo (trace ++ [e]) keyFile := by
  obtain ⟨url, hurl, earlier, input, within, rfl, hyes, hwithin⟩ := h
  refine ⟨url, hurl, earlier, input, within ++ [e], by simp, hyes, ?_⟩
  intro e' he'
  obtain hmem | hlast := List.mem_append.mp he'
  · exact hwithin e' hmem
  · rw [List.mem_singleton.mp hlast, he]

theorem Sound.concat (h : Sound args pRepo pkgFile rc nMatched trace)
    (he : Answered args pRepo trace e) : Sound args pRepo pkgFile rc nMatched (trace ++ [e]) where
  head := by
    rw [List.head?_append, h.head]
    rfl
  licensed := h.licensed.concat he
  matched := by
    intro hpos
    obtain ⟨keyFile, hmem⟩ := h.matched hpos
    exact ⟨keyFile, List.mem_append_left _ hmem⟩

theorem Sound.zero (h : Sound args pRepo pkgFile rc nMatched trace) :
    Sound args pRepo pkgFile rc 0 trace :=
  ⟨h.head, h.licensed, fun hpos => absurd hpos (Nat.lt_irrefl 0)⟩

/-- One more match is counted where one is in the trace. -/
theorem Sound.succ (h : Sound args pRepo pkgFile rc nMatched trace)
    (hmem : .checked keyFile pkgFile ∈ trace) :
    Sound args pRepo pkgFile rc (nMatched + 1) trace :=
  ⟨h.head, h.licensed, fun _ => ⟨keyFile, hmem⟩⟩

end Invariant

/-! ## The steps of a check -/

section Steps

variable {host : GpgHost} {args : GpgArgs} {pRepo : Repo} {pkgFile keyFile url : Text}
  {rc nMatched : ℕ} {s : GpgState} {α : Type}

@[simp] theorem wp_emit (e : GpgEvent) {Q : Unit → GpgState → Prop}
    {E : GpgStop → GpgState → Prop} :
    wp (emit e) Q E s ↔ Q () { s with trace := s.trace ++ [e] } := Iff.rfl

/-- A step that leaves the state as it is. -/
theorem wp_bail {x : Except TdnfError α} {Q : α → GpgState → Prop}
    {E : GpgStop → GpgState → Prop} (hQ : ∀ a, Q a s) (hE : ∀ stop, E stop s) :
    wp (bail x) Q E s := by
  cases x with
  | ok a => exact hQ a
  | error e => exact hE _

theorem wp_bailSystem {errno : Option ℕ} {Q : Unit → GpgState → Prop}
    {E : GpgStop → GpgState → Prop} (hQ : Q () s) (hE : ∀ stop, E stop s) :
    wp (bailSystem errno) Q E s := by
  cases errno with
  | none => exact hQ
  | some errno =>
      rw [bailSystem, wp_ite]
      exact ⟨fun _ => hQ, fun _ => hE _⟩

/-- The letter by which an answer is recognised. -/
theorem answer_yes {buf : Text} (hanswer : isAnswer buf = true)
    (hopt : buf.head?.map Char.toLower = some 'y') :
    equalsCase buf "y".toList = true ∨ equalsCase buf "yes".toList = true := by
  have hother (lower : Text) (hlower : lower.head? ≠ some 'y') :
      equalsCase buf lower = false := by
    rw [equalsCase, beq_eq_false_iff_ne]
    rintro rfl
    rw [List.head?_map] at hlower
    exact hlower hopt
  have hempty : buf ≠ [] := by
    rintro rfl
    cases hopt
  rw [isAnswer, hother "n".toList (by decide), hother "no".toList (by decide)] at hanswer
  simpa [hempty, or_comm] using hanswer

/-- An answer of yes is in the last line that is read. -/
theorem readAnswer_yes {lines stdin rest : List Text} {opt : Option Char}
    (h : readAnswer stdin = some (lines, opt, rest)) (hopt : opt = some 'y') :
    ∃ line, lines.getLast? = some line ∧
      (equalsCase line.dropLast "y".toList = true ∨
        equalsCase line.dropLast "yes".toList = true) := by
  induction stdin generalizing lines opt rest with
  | nil => cases h
  | cons line stdin ih =>
      simp only [readAnswer] at h
      split_ifs at h with hline hanswer
      · simp only [Option.some.injEq, Prod.mk.injEq] at h
        obtain ⟨rfl, rfl, rfl⟩ := h
        exact ⟨line, rfl, answer_yes hanswer hopt⟩
      · cases hread : readAnswer stdin with
        | none => simp [hread] at h
        | some found =>
            obtain ⟨lines', opt', rest'⟩ := found
            simp only [hread, Option.some.injEq, Prod.mk.injEq] at h
            obtain ⟨rfl, rfl, rfl⟩ := h
            obtain ⟨last, hlast, hyes⟩ := ih hread hopt
            exact ⟨last, by rw [List.getLast?_cons, hlast]; rfl, hyes⟩

/-- The question for a URL is in the trace, with the lines that answer it. -/
theorem wp_yesOrNo : wp (yesOrNo args url)
    (fun nAnswer t => ∃ input, t.trace = s.trace ++ [.asked url input] ∧
      (nAnswer = true → SaidYes args input))
    (fun _ t => t.trace = s.trace) s := by
  rw [yesOrNo]
  by_cases hask : (!args.nAssumeYes && !args.nAssumeNo) = true
  · rw [if_pos hask, wp_bind, wp_get]
    cases hread : readAnswer s.stdin with
    | none => exact rfl
    | some found =>
        obtain ⟨lines, opt, rest⟩ := found
        refine ⟨lines, rfl, fun hyes => Or.inr ?_⟩
        exact readAnswer_yes hread (by simpa using hyes)
  · rw [if_neg hask]
    exact ⟨[], rfl, fun hyes => Or.inl hyes⟩

/-- Fetching a key leaves the trace as it is. -/
theorem wp_keyFileOf {cacheDir : Text} {data : RepoData} {nRemote : Bool} :
    wp (keyFileOf host cacheDir data nRemote url) (fun _ t => t.trace = s.trace)
      (fun _ t => t.trace = s.trace) s := by
  rw [keyFileOf, wp_ite]
  constructor
  · intro _
    rw [wp_bind, wp_get]
    dsimp only
    rw [wp_mapFault, wp_within]
    apply wp_mono (wp_true _ _)
    · exact fun _ _ _ => rfl
    · exact fun _ _ _ => rfl
  · exact fun _ => wp_bail (fun _ => rfl) fun _ => rfl

/-- What holds while the key file of a URL is used. -/
def Busy (args : GpgArgs) (pRepo : Repo) (pkgFile keyFile : Text) (rc nMatched : ℕ)
    (s : GpgState) : Prop :=
  Sound args pRepo pkgFile rc nMatched s.trace ∧ InBlock args pRepo s.trace keyFile

theorem Busy.emit (h : Busy args pRepo pkgFile keyFile rc nMatched s) {e : GpgEvent}
    (he : keyUsed e = some keyFile) :
    Busy args pRepo pkgFile keyFile rc nMatched { s with trace := s.trace ++ [e] } :=
  ⟨h.1.concat (h.2.answered he), h.2.concat he⟩

theorem wp_readGPGKeyFile {Q : ℕ → GpgState → Prop} {E : GpgStop → GpgState → Prop}
    (hQ : ∀ n, Q n s) (hE : ∀ stop, E stop s) : wp (readGPGKeyFile host keyFile) Q E s := by
  rw [readGPGKeyFile, wp_ite]
  constructor
  · exact fun _ => hE _
  · intro _
    rw [wp_bind, wp_get, wp_bind]
    apply wp_bail
    · intro nPathIsDir
      rw [wp_ite]
      exact ⟨fun _ => hE _, fun _ => wp_bail hQ hE⟩
    · exact hE

/-- Importing the packets of a key file, for any number of rounds. -/
theorem wp_importPackets {nKeyDataSize fuel nOffset nKeys : ℕ}
    (h : Busy args pRepo pkgFile keyFile rc nMatched s) :
    wp (importPackets host keyFile nKeyDataSize fuel nOffset nKeys)
      (fun _ => Busy args pRepo pkgFile keyFile rc nMatched)
      (fun _ => Busy args pRepo pkgFile keyFile rc nMatched) s := by
  induction fuel generalizing nOffset nKeys s with
  | zero => exact h
  | succ fuel ih =>
      rw [importPackets, wp_ite]
      constructor
      · intro _
        rw [wp_bind, wp_get]
        dsimp only
        rw [wp_ite]
        constructor
        · intro _
          rw [wp_ite]
          exact ⟨fun _ => h, fun _ => ih (h.emit rfl)⟩
        · exact fun _ => ih h
      · exact fun _ => h

theorem wp_importGPGKeyFile {fuel : ℕ} (h : Busy args pRepo pkgFile keyFile rc nMatched s) :
    wp (importGPGKeyFile host fuel keyFile)
      (fun _ => Busy args pRepo pkgFile keyFile rc nMatched)
      (fun _ => Busy args pRepo pkgFile keyFile rc nMatched) s := by
  rw [importGPGKeyFile, wp_ite]
  constructor
  · exact fun _ => h
  · intro _
    rw [wp_bind]
    apply wp_readGPGKeyFile
    · intro nKeyDataSize
      rw [wp_bind]
      apply wp_mono (wp_importPackets h)
      · intro nKeys t ht
        rw [wp_ite]
        exact ⟨fun _ => ht, fun _ => ht⟩
      · exact fun _ _ ht => ht
    · exact fun _ => h

/-- A check that succeeds is in the trace. -/
theorem wp_gpgCheck (h : Busy args pRepo pkgFile keyFile rc nMatched s) :
    wp (gpgCheck host keyFile pkgFile)
      (fun _ t => Busy args pRepo pkgFile keyFile rc nMatched t ∧
        .checked keyFile pkgFile ∈ t.trace)
      (fun _ => Busy args pRepo pkgFile keyFile rc nMatched) s := by
  rw [gpgCheck, wp_ite]
  constructor
  · exact fun _ => h
  · intro _
    rw [wp_bind, wp_get, wp_bind]
    apply wp_bailSystem
    · rw [wp_bind, wp_get, wp_ite]
      refine ⟨fun _ => h, fun _ => ?_⟩
      rw [wp_bind, addKeyFileToKeyring, wp_ite]
      refine ⟨fun _ => h, fun _ => ?_⟩
      rw [wp_bind, wp_get, wp_ite]
      refine ⟨fun _ => ?_, fun _ => h⟩
      rw [wp_emit, wp_bind, wp_get, wp_ite]
      have hadded := h.emit (e := .added keyFile) rfl
      refine ⟨fun _ => hadded, fun _ => ?_⟩
      rw [wp_emit]
      exact ⟨hadded.emit rfl, by simp⟩
    · exact fun _ => h

/-- One key URL keeps the invariant of the loop. -/
theorem wp_tryKey {cacheDir : Text} {data : RepoData} {fuel : ℕ} (hurl : url ∈ gpgKeys pRepo)
    (h : Sound args pRepo pkgFile rc nMatched s.trace) :
    wp (tryKey host args cacheDir data fuel pkgFile nMatched url)
      (fun n t => Sound args pRepo pkgFile rc n t.trace)
      (fun _ t => Sound args pRepo pkgFile rc 0 t.trace) s := by
  rw [tryKey, wp_bind]
  apply wp_mono wp_yesOrNo
  · rintro nAnswer t ⟨input, htrace, hyes⟩
    have hasked : Sound args pRepo pkgFile rc nMatched t.trace := by
      rw [htrace]
      exact h.concat (answered_of_keyUsed_none rfl)
    rw [wp_ite]
    refine ⟨fun _ => hasked.zero, fun hagreed => ?_⟩
    rw [wp_bind]
    refine wp_bail (fun nRemote => ?_) fun _ => hasked.zero
    rw [wp_bind]
    apply wp_mono wp_keyFileOf
    · intro keyFile u hu
      rw [wp_bind, wp_emit]
      have hbusy : Busy args pRepo pkgFile keyFile rc nMatched
          { u with trace := u.trace ++ [.located url keyFile] } := by
        constructor
        · apply Sound.concat _ (answered_of_keyUsed_none rfl)
          rw [hu]
          exact hasked
        · refine ⟨url, hurl, s.trace, input, [], ?_, hyes (by simpa using hagreed), by simp⟩
          rw [hu, htrace, List.append_assoc]
          rfl
      rw [wp_bind]
      apply wp_mono (wp_importGPGKeyFile hbusy)
      · intro _ v hv
        rw [wp_bind, wp_attempt]
        -- the match counts only if the check succeeded
        have hrest (n : ℕ) (w : GpgState) (hw : Sound args pRepo pkgFile rc n w.trace) :
            wp (do
              if nRemote then bailSystem (host.unlink keyFile (← get))
              return n) (fun n t => Sound args pRepo pkgFile rc n t.trace)
              (fun _ t => Sound args pRepo pkgFile rc 0 t.trace) w := by
          rw [wp_ite]
          refine ⟨fun _ => ?_, fun _ => hw⟩
          rw [wp_bind, wp_get, wp_bind]
          exact wp_bailSystem hw fun _ => hw.zero
        apply wp_mono (wp_gpgCheck hv)
        · rintro _ w ⟨hw, hmem⟩
          exact hrest _ w (hw.1.succ hmem)
        · intro stop w hw
          dsimp only
          rw [wp_ite]
          exact ⟨fun _ => hrest _ w hw.1, fun _ => hw.1.zero⟩
      · exact fun _ _ hv => hv.1.zero
    · intro _ u hu
      rw [hu]
      exact hasked.zero
  · intro _ t htrace
    rw [htrace]
    exact h.zero

theorem wp_readPackage {Q : ℕ → GpgState → Prop} {E : GpgStop → GpgState → Prop}
    (hQ : ∀ rc, Q rc { s with trace := s.trace ++ [.read rc] }) (hE : ∀ stop, E stop s) :
    wp (readPackage host pkgFile) Q E s := by
  rw [readPackage, wp_bind, wp_get, wp_bind]
  apply wp_bailSystem
  · exact hQ _
  · exact hE

/-- The key URLs of a check are those that are configured. -/
theorem getGPGSignatureCheck_ok {urls : List Text} (hcheck : gpgSigCheck args pRepo = true)
    (h : getGPGSignatureCheck args pRepo = .ok urls) : urls = gpgKeys pRepo := by
  have hcopy (urls urls' : List Text) (hmap : urls.mapM allocateString = .ok urls') :
      urls' = urls := by
    have hsame := map_of_mapM_ok (p := id) (q := id) (fun url url' hurl => by
      obtain hlong | hok := allocateString_eq url
      · cases hlong.symm.trans hurl
      · cases hok.symm.trans hurl
        rfl) hmap
    simpa using hsame
  rw [getGPGSignatureCheck, if_pos hcheck] at h
  cases hkeys : gpgKeys pRepo with
  | nil =>
      rw [hkeys] at h
      cases h
  | cons url rest =>
      rw [hkeys] at h
      dsimp only at h
      split_ifs at h
      exact hcopy _ _ h

end Steps

section Gate

variable {host : GpgHost} {args : GpgArgs} {pRepo : Repo} {pkgFile : Text} {rc : ℕ}

theorem sound_read (args : GpgArgs) (pRepo : Repo) (pkgFile : Text) (rc : ℕ) :
    Sound args pRepo pkgFile rc 0 [.read rc] where
  head := rfl
  licensed := licensed_nil.concat (answered_of_keyUsed_none rfl)
  matched := fun hpos => absurd hpos (Nat.lt_irrefl 0)

/-- The loop over the key URLs and the reading behind it. -/
theorem wp_importAndRead {cacheDir : Text} {data : RepoData} {fuel : ℕ} {s : GpgState}
    (hrc : rc = 3 ∨ rc = 4) (h : Sound args pRepo pkgFile rc 0 s.trace) :
    wp (do
      let nMatched ← (gpgKeys pRepo).foldlM (tryKey host args cacheDir data fuel pkgFile) 0
      if nMatched = 0 then throw (.code .rpmGpgNoMatch)
      let rc ← readPackage host pkgFile
      if rc ≠ 0 then throw (.code (.rpm rc)))
      (fun _ t => Verified pRepo pkgFile t.trace ∧ Licensed (Answered args pRepo) t.trace)
      (fun _ t => Licensed (Answered args pRepo) t.trace) s := by
  rw [wp_bind]
  have hloop : wp ((gpgKeys pRepo).foldlM (tryKey host args cacheDir data fuel pkgFile) 0)
      (fun n t => Sound args pRepo pkgFile rc n t.trace)
      (fun _ t => Sound args pRepo pkgFile rc 0 t.trace) s :=
    wp_foldlM (fun _ _ _ hurl hs => wp_tryKey hurl hs) h
  apply wp_mono hloop
  · intro nMatched t ht
    rw [wp_ite]
    refine ⟨fun _ => ht.licensed, fun hmatched => ?_⟩
    rw [wp_bind]
    apply wp_readPackage
    · intro last
      have hlast := ht.concat (e := .read last) (answered_of_keyUsed_none rfl)
      rw [wp_ite]
      refine ⟨fun _ => hlast.licensed, fun hok => ⟨.inr ⟨?_, ?_, ?_⟩, hlast.licensed⟩⟩
      · rw [hlast.head]
        obtain rfl | rfl := hrc
        · exact .inl rfl
        · exact .inr rfl
      · obtain ⟨keyFile, hchecked⟩ := hlast.matched (Nat.pos_of_ne_zero hmatched)
        obtain ⟨before, after, heq, hlicense⟩ := hlast.licensed.of_mem hchecked
        obtain ⟨url, hurl, earlier, input, within, rfl, -⟩ := hlicense keyFile rfl
        refine ⟨url, hurl, keyFile, ?_, hchecked⟩
        rw [heq]
        simp
      · rw [List.getLast?_concat, not_not.mp hok]
    · exact fun _ => ht.licensed
  · exact fun _ _ ht => ht.licensed

/-- What every run of a check leaves in the trace. -/
theorem wp_gpgCheckPackage (host : GpgHost) (args : GpgArgs) (cacheDir : Text) (pRepo : Repo)
    (data : RepoData) (fuel : ℕ) (pkgFile : Text) {s : GpgState} (hs : s.trace = []) :
    wp (gpgCheckPackage host args cacheDir pRepo data fuel pkgFile)
      (fun _ t => (gpgSigCheck args pRepo = true → Verified pRepo pkgFile t.trace) ∧
        Licensed (Answered args pRepo) t.trace ∧
        (gpgSigCheck args pRepo = false → ∀ e ∈ t.trace, keyUsed e = none))
      (fun _ t => Licensed (Answered args pRepo) t.trace ∧
        (gpgSigCheck args pRepo = false → ∀ e ∈ t.trace, keyUsed e = none)) s := by
  rw [gpgCheckPackage, wp_bind]
  apply wp_readPackage
  · intro rc
    rw [hs]
    have hsound := sound_read args pRepo pkgFile rc
    have hunused : ∀ e ∈ [GpgEvent.read rc], keyUsed e = none := by simp [keyUsed]
    rw [wp_ite]
    constructor
    · intro _
      rw [wp_ite]
      refine ⟨fun _ => ⟨hsound.licensed, fun _ => hunused⟩, fun hok => ?_⟩
      obtain rfl : rc = 0 := not_not.mp hok
      exact ⟨fun _ => .inl rfl, hsound.licensed, fun _ => hunused⟩
    · intro hrc
      rw [wp_ite]
      constructor
      · intro hcheck
        rw [wp_bind]
        cases hurls : getGPGSignatureCheck args pRepo with
        | error e => exact ⟨hsound.licensed, fun _ => hunused⟩
        | ok urls =>
            rw [getGPGSignatureCheck_ok hcheck hurls]
            apply wp_mono (wp_importAndRead (by omega) hsound)
            · rintro _ t ⟨hverified, hlicensed⟩
              exact ⟨fun _ => hverified, hlicensed, fun hoff => by simp [hcheck] at hoff⟩
            · exact fun _ t hlicensed => ⟨hlicensed, fun hoff => by simp [hcheck] at hoff⟩
      · intro hcheck
        exact ⟨fun hon => absurd hon hcheck, hsound.licensed, fun _ => hunused⟩
  · intro _
    rw [hs]
    exact ⟨licensed_nil, fun _ => by simp⟩

/-- A package passes the check only if it is signed, and keys are used only of URLs that the
user agreed to, and only if signatures are checked. -/
theorem gpgCheckPackage_gate (host : GpgHost) (args : GpgArgs) (cacheDir : Text) (pRepo : Repo)
    (data : RepoData) (fuel : ℕ) (pkgFile : Text) (stdin : List Text) (disk : Disk) :
    SignatureGate args pRepo pkgFile
      ((gpgCheckPackage host args cacheDir pRepo data fuel pkgFile).run ⟨[], stdin, disk⟩) := by
  have hstart : (GpgState.mk [] stdin disk).trace = [] := rfl
  have hrun := wp_gpgCheckPackage host args cacheDir pRepo data fuel pkgFile hstart
  rw [wp] at hrun
  cases h : (gpgCheckPackage host args cacheDir pRepo data fuel pkgFile).run ⟨[], stdin, disk⟩ with
  | ok _ t =>
      rw [h] at hrun
      exact ⟨fun hcheck _ => hrun.1 hcheck, hrun.2.1, hrun.2.2⟩
  | error stop t =>
      rw [h] at hrun
      refine ⟨fun _ hok => ?_, hrun.1, hrun.2⟩
      obtain ⟨_, hok⟩ := hok
      cases hok

end Gate

/-- Every key file has one packet, a key, and only the file `/b` has the key of a package. -/
def secondKeyMatches : GpgHost where
  fopen := fun _ _ => none
  rpmReadPackageFile := fun _ s => if s.trace = [] then 4 else 0
  transfer := fun _ _ => ⟨none, fun _ => ⟨0, 0⟩, .ok 200, none⟩
  isDir := fun _ _ => .ok false
  fileReadAllText := fun _ _ => .ok 1
  pgpParsePkts := fun _ _ _ => (true, 1)
  rpmtsImportPubkey := fun _ _ _ => 0
  rpmtsGetKeyring := fun _ => true
  rpmPubkeyRead := fun _ _ => true
  rpmVerifySignatures := fun keyFile _ _ => if keyFile = "/b".toList then 0 else 1
  unlink := fun _ _ => none

example : (finalState ((gpgCheckPackage secondKeyMatches ⟨false, false, false, []⟩ []
    { createRepo true "r".toList with
      ppszUrlGPGKeys := some ["file:///a".toList, "file:///b".toList] }
    ⟨[], none, [], 0⟩ 2 "p".toList).run
      ⟨[], ["?\n".toList, "y\n".toList, "YES\n".toList],
        .start ⟨fun l => if l = [] then some .dir else none, rfl, by simp⟩⟩)).trace =
    [.read 4, .asked "file:///a".toList ["?\n".toList, "y\n".toList],
      .located "file:///a".toList "/a".toList, .imported "/a".toList, .added "/a".toList,
      .asked "file:///b".toList ["YES\n".toList], .located "file:///b".toList "/b".toList,
      .imported "/b".toList, .added "/b".toList, .checked "/b".toList "p".toList, .read 0] := by
  decide +kernel

end Tdnf.Client
