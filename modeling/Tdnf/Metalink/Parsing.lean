import Tdnf.Library.Chunks
import Tdnf.Metalink.HashGate
import Tdnf.Common.Strings
import Tdnf.Library.Procedure

/-!
# The parser of metalink files

The XML parser calls back for start tags, end tags and texts, and may pass a text in
several pieces. The callback for texts knows what was opened last, and takes each
piece as all that the element contains.
-/

namespace Tdnf.Metalink.Parsing

open PathText Common Chunks

/-! ## The callbacks -/

/-- What the callbacks may leave in `dwError` -/
inductive ParseError where
  | tdnf (e : TdnfError)
  | missingFileAttr
  | invalidFileName
  | missingFileSize
  | missingHashAttr
  | missingUrlAttr

/-- The attributes of a start tag, in their order -/
abbrev Attributes := List (Text × Text)

/-- `TDNF_ML_URL_INFO` -/
structure UrlInfo where
  protocol : Option Text := none
  type : Option Text := none
  location : Option Text := none
  url : Option Text := none
  preference : ℤ := 0
deriving DecidableEq

/-- `TDNF_ML_CTX` -/
structure MlCtx where
  filename : Option Text := none
  size : ℤ := 0
  hashes : List HashInfo := []
  urls : List UrlInfo := []
deriving DecidableEq

/-- `MetalinkElementInfo` -/
structure ElementInfo where
  dwError : Option ParseError
  mlCtx : MlCtx
  filename : Text
  startElement : Option Text
  attributes : Attributes

inductive Markup where
  | start (name : Text) (attrs : Attributes)
  | stop (name : Text)

/-- What the parser calls back for -/
abbrev Event := Chunks.Event Markup Char

def fileTag : Text := "file".toList
def sizeTag : Text := "size".toList
def hashTag : Text := "hash".toList
def urlTag : Text := "url".toList

def nameAttr : Text := "name".toList
def protocolAttr : Text := "protocol".toList
def typeAttr : Text := "type".toList
def locationAttr : Text := "location".toList
def preferenceAttr : Text := "preference".toList

def allocate (s : Text) : Except ParseError Text := (allocateString s).mapError .tdnf

def searchTag (attrs : Attributes) (type : Text) : Option Text := attrs.lookup type

def parseFileTag (info : ElementInfo) : Except ParseError MlCtx :=
  if info.filename = [] then .error (.tdnf .invalidParameter)
  else
    match searchTag info.attributes nameAttr with
    | none => .error .missingFileAttr
    | some name =>
        if name ≠ info.filename then .error .invalidFileName
        else do
          let filename ← allocate name
          return { info.mlCtx with filename := some filename }

/-- The text is taken up to 11 digits. -/
def sizeDigits (val : Text) : Text := (val.takeWhile Char.isDigit).take 11

/-- The branch for the size of the file -/
def parseSizeTag (info : ElementInfo) (val : Text) : Except ParseError MlCtx :=
  if sizeDigits val = [] then .error .missingFileSize
  else .ok { info.mlCtx with size := strtoi (sizeDigits val) }

def parseHashTag (info : ElementInfo) (val : Text) : Except ParseError MlCtx :=
  match searchTag info.attributes typeAttr with
  | none => .error .missingHashAttr
  | some type => do
      let type ← allocate type
      let value ← allocate val
      return { info.mlCtx with
        hashes := info.mlCtx.hashes ++ [⟨some (String.ofList type), some value⟩] }

/-- `sscanf` with `"%d"`; the number is cut to an `int`. -/
def scanInt (s : Text) : Option ℤ :=
  if (strtol s).2 = s then none else some ((strtol s).1.bmod 4294967296)

/-- The body of the loop over the attributes -/
def parseUrlAttr (urlInfo : UrlInfo) (attr : Text × Text) : Except ParseError UrlInfo :=
  if attr.1 = protocolAttr then do
    let value ← allocate attr.2
    return { urlInfo with protocol := some value }
  else if attr.1 = typeAttr then do
    let value ← allocate attr.2
    return { urlInfo with type := some value }
  else if attr.1 = locationAttr then do
    let value ← allocate attr.2
    return { urlInfo with location := some value }
  else if attr.1 = preferenceAttr then
    match scanInt attr.2 with
    | none => .error (.tdnf .invalidParameter)
    | some prefValue =>
        if prefValue < 0 ∨ 100 < prefValue then .error .missingUrlAttr
        else .ok { urlInfo with preference := prefValue }
  else .ok urlInfo

def parseUrlTag (info : ElementInfo) (val : Text) : Except ParseError MlCtx := do
  let urlInfo ← info.attributes.foldlM parseUrlAttr {}
  let url ← allocate val
  return { info.mlCtx with urls := info.mlCtx.urls ++ [{ urlInfo with url := some url }] }

/-- What a piece of text directly behind a start tag is taken for -/
def parseElement (info : ElementInfo) (element val : Text) : Except ParseError MlCtx :=
  if element = fileTag then parseFileTag info
  else if element = sizeTag then parseSizeTag info val
  else if element = hashTag then parseHashTag info val
  else if element = urlTag ∧ 4 < strlen val then parseUrlTag info val
  else .ok info.mlCtx

/-- `TDNFXmlParseStartElement` -/
def xmlParseStartElement (info : ElementInfo) (name : Text) (attrs : Attributes) : ElementInfo :=
  if info.dwError.isSome then info
  else { info with startElement := some name, attributes := attrs }

/-- `TDNFXmlParseData` -/
def xmlParseData (info : ElementInfo) (val : Text) : ElementInfo :=
  if info.filename = [] ∨ info.dwError.isSome then
    { info with dwError := some (.tdnf .invalidParameter) }
  else
    match info.startElement with
    | none => info
    | some element =>
        match parseElement info element val with
        | .error e => { info with dwError := some e }
        | .ok mlCtx => { info with mlCtx }

/-- `TDNFXmlParseEndElement` -/
def xmlParseEndElement (info : ElementInfo) : ElementInfo := { info with startElement := none }

def step (info : ElementInfo) : Event → ElementInfo
  | .markup (.start name attrs) => xmlParseStartElement info name attrs
  | .markup (.stop _) => xmlParseEndElement info
  | .text c s => xmlParseData info (c :: s)

def initial (filename : Text) : ElementInfo := ⟨none, {}, filename, none, []⟩

/-- `TDNFMetalinkParseFile` for the events of a file -/
def metalinkParseFile (filename : Text) (es : List Event) : Except ParseError MlCtx :=
  if filename = [] then .error (.tdnf .invalidParameter)
  else
    let info := es.foldl step (initial filename)
    match info.dwError with
    | some e => .error e
    | none => .ok info.mlCtx

/-! ## What is recorded and compared -/

/-- The entries and the size that were recorded; nothing if the parser fails -/
def recorded (r : Except ParseError MlCtx) : Option (List UrlInfo × List HashInfo × ℤ) :=
  r.toOption.map fun ctx => (ctx.urls, ctx.hashes, ctx.size)

/-- The attributes that a callback calls `TDNFParseFileTag` with -/
def fileTagCall (info : ElementInfo) : Event → Option Attributes
  | .markup _ => none
  | .text _ _ =>
      if info.filename ≠ [] ∧ info.dwError.isNone ∧ info.startElement = some fileTag then
        some info.attributes
      else none

def comparedFrom : ElementInfo → List Event → List Attributes
  | _, [] => []
  | info, e :: es => (fileTagCall info e).toList ++ comparedFrom (step info e) es

/-- The attributes whose name was compared with the expected one -/
def compared (filename : Text) (es : List Event) : List Attributes :=
  comparedFrom (initial filename) es

/-- What opens an element: its name and its attributes -/
def opens : Markup → Option (Text × Attributes)
  | .start name attrs => some (name, attrs)
  | .stop _ => none

/-- The number that is read off a text -/
def sizeValue (val : Text) : ℤ := strtoi (sizeDigits val)

/-- The attributes of a file element are the right ones. -/
def Named (filename : Text) (attrs : Attributes) : Prop :=
  searchTag attrs nameAttr = some filename ∧ strlen filename ≤ 16384000

/-- The attributes of a hash element have a type. -/
def Typed (attrs : Attributes) : Prop :=
  ∃ type, searchTag attrs typeAttr = some type ∧ strlen type ≤ 16384000

/-! ## The run over the pieces -/

section Run

variable {filename : Text} {info : ElementInfo} {es : List Event}

/-- A piece of an element is recorded, or rejected. -/
def take (filename : Text) (ctx : MlCtx) (call : (Text × Attributes) × Text) : Option MlCtx :=
  (parseElement ⟨none, ctx, filename, some call.1.1, call.1.2⟩ call.1.1 call.2).toOption

def outcome (info : ElementInfo) : Option MlCtx :=
  match info.dwError with
  | some _ => none
  | none => some info.mlCtx

/-- What was opened last -/
def current (info : ElementInfo) : Option (Text × Attributes) :=
  info.startElement.map (·, info.attributes)

/-- An error is kept. -/
theorem outcome_of_error (h : info.dwError.isSome) (es : List Event) :
    outcome (es.foldl step info) = none := by
  induction es generalizing info with
  | nil =>
      obtain ⟨e, he⟩ := Option.isSome_iff_exists.mp h
      rw [List.foldl_nil, outcome, he]
  | cons e es ih =>
      rw [List.foldl_cons]
      apply ih
      cases e with
      | text c s => simp [step, xmlParseData, h]
      | markup m => cases m <;> simp [step, xmlParseStartElement, xmlParseEndElement, h]

theorem xmlParseData_of_none (hname : info.filename ≠ []) (herror : info.dwError = none)
    (hnone : info.startElement = none) (val : Text) : xmlParseData info val = info := by
  rw [xmlParseData, if_neg (by simp [hname, herror]), hnone]

theorem xmlParseData_of_some (hname : info.filename ≠ []) (herror : info.dwError = none)
    {element : Text} (hsome : info.startElement = some element) (val : Text) :
    (∃ ctx, take info.filename info.mlCtx ((element, info.attributes), val) = some ctx ∧
        xmlParseData info val = { info with mlCtx := ctx }) ∨
      (take info.filename info.mlCtx ((element, info.attributes), val) = none ∧
        (xmlParseData info val).dwError.isSome) := by
  obtain ⟨dwError, mlCtx, name, startElement, attributes⟩ := info
  dsimp only at hname herror hsome
  subst herror hsome
  rw [take, xmlParseData, if_neg (by simp [hname])]
  dsimp only
  cases parseElement ⟨none, mlCtx, name, some element, attributes⟩ element val with
  | error e => exact .inr ⟨rfl, rfl⟩
  | ok ctx => exact .inl ⟨ctx, rfl, rfl⟩

/-- The run takes the pieces one after the other. -/
theorem outcome_run (info : ElementInfo) (es : List Event) (hname : info.filename ≠ [])
    (herror : info.dwError = none) :
    outcome (es.foldl step info) =
      (calls opens (current info) es).foldlM (take info.filename) info.mlCtx := by
  induction es generalizing info with
  | nil =>
      rw [List.foldl_nil, outcome, herror]
      rfl
  | cons e es ih =>
      rw [List.foldl_cons]
      cases e with
      | markup m =>
          cases m with
          | start name attrs =>
              have hstep : step info (.markup (.start name attrs)) =
                  { info with startElement := some name, attributes := attrs } := by
                simp [step, xmlParseStartElement, herror]
              rw [hstep]
              exact ih { info with startElement := some name, attributes := attrs } hname herror
          | stop name => exact ih (xmlParseEndElement info) hname herror
      | text c s =>
          change outcome (es.foldl step (xmlParseData info (c :: s))) = _
          rw [calls, List.foldlM_append]
          cases hstart : info.startElement with
          | none =>
              rw [xmlParseData_of_none hname herror hstart, ih info hname herror, current, hstart]
              rfl
          | some element =>
              obtain ⟨ctx, htake, hdata⟩ | ⟨htake, hdata⟩ :=
                xmlParseData_of_some hname herror hstart (c :: s)
              · rw [hdata, ih { info with mlCtx := ctx } hname herror, current, current, hstart]
                simp [htake]
              · rw [outcome_of_error hdata, current, hstart]
                simp [htake]

end Run

/-! ## What is recorded of a piece -/

section Pieces

variable {filename : Text} {info : ElementInfo} {ctx ctx' : MlCtx}
  {call : (Text × Attributes) × Text} {l : List ((Text × Attributes) × Text)}

theorem allocate_eq_ok_iff {s s' : Text} :
    allocate s = .ok s' ↔ strlen s ≤ 16384000 ∧ s' = s := by
  rw [allocate, allocateString]
  by_cases h : 16384000 < strlen s
  · rw [if_pos h]
    simp [Except.mapError, Nat.not_le.mpr h]
  · rw [if_neg h]
    simp [Except.mapError, Nat.le_of_not_lt h, eq_comm]

theorem parseFileTag_eq_ok_iff :
    parseFileTag info = .ok ctx ↔ info.filename ≠ [] ∧ Named info.filename info.attributes ∧
      ctx = { info.mlCtx with filename := some info.filename } := by
  rw [parseFileTag, Named]
  by_cases hname : info.filename = []
  · simp [hname]
  · rw [if_neg hname, and_iff_right hname]
    cases searchTag info.attributes nameAttr with
    | none => simp
    | some name =>
        by_cases heq : name = info.filename
        · subst heq
          simp only [ne_eq, not_true_eq_false, if_false, true_and]
          constructor
          · intro h
            obtain ⟨s, hs, hctx⟩ := Procedure.exists_of_bind_ok h
            obtain ⟨hlen, rfl⟩ := allocate_eq_ok_iff.mp hs
            cases hctx
            exact ⟨hlen, rfl⟩
          · rintro ⟨hlen, rfl⟩
            rw [allocate_eq_ok_iff.mpr ⟨hlen, rfl⟩]
            rfl
        · simp [heq]

theorem parseSizeTag_eq_ok_iff {val : Text} :
    parseSizeTag info val = .ok ctx ↔
      sizeDigits val ≠ [] ∧ ctx = { info.mlCtx with size := sizeValue val } := by
  rw [parseSizeTag]
  by_cases h : sizeDigits val = []
  · simp [h]
  · simp [h, sizeValue, eq_comm]

theorem parseHashTag_eq_ok_iff {val : Text} :
    parseHashTag info val = .ok ctx ↔
      ∃ type, searchTag info.attributes typeAttr = some type ∧ strlen type ≤ 16384000 ∧
        strlen val ≤ 16384000 ∧ ctx = { info.mlCtx with
          hashes := info.mlCtx.hashes ++ [⟨some (String.ofList type), some val⟩] } := by
  rw [parseHashTag]
  cases searchTag info.attributes typeAttr with
  | none => simp
  | some type =>
      constructor
      · intro h
        obtain ⟨s, hs, hrest⟩ := Procedure.exists_of_bind_ok h
        obtain ⟨v, hv, hctx⟩ := Procedure.exists_of_bind_ok hrest
        obtain ⟨hlen, rfl⟩ := allocate_eq_ok_iff.mp hs
        obtain ⟨hval, rfl⟩ := allocate_eq_ok_iff.mp hv
        cases hctx
        exact ⟨s, rfl, hlen, hval, rfl⟩
      · rintro ⟨type', heq, hlen, hval, rfl⟩
        cases heq
        simp only [allocate_eq_ok_iff.mpr ⟨hlen, rfl⟩, allocate_eq_ok_iff.mpr ⟨hval, rfl⟩]
        rfl

theorem parseUrlTag_eq_ok_iff {val : Text} :
    parseUrlTag info val = .ok ctx ↔
      ∃ urlInfo, info.attributes.foldlM parseUrlAttr {} = .ok urlInfo ∧
        strlen val ≤ 16384000 ∧ ctx = { info.mlCtx with
          urls := info.mlCtx.urls ++ [{ urlInfo with url := some val }] } := by
  rw [parseUrlTag]
  constructor
  · intro h
    obtain ⟨urlInfo, hattrs, hrest⟩ := Procedure.exists_of_bind_ok h
    obtain ⟨v, hv, hctx⟩ := Procedure.exists_of_bind_ok hrest
    obtain ⟨hval, rfl⟩ := allocate_eq_ok_iff.mp hv
    cases hctx
    exact ⟨urlInfo, hattrs, hval, rfl⟩
  · rintro ⟨urlInfo, hattrs, hval, rfl⟩
    rw [hattrs]
    change (allocate val).bind _ = _
    rw [allocate_eq_ok_iff.mpr ⟨hval, rfl⟩]
    rfl

/-- The piece is no error, whatever was recorded before. -/
structure Accepts (filename : Text) (call : (Text × Attributes) × Text) : Prop where
  file : call.1.1 = fileTag → Named filename call.1.2
  size : call.1.1 = sizeTag → sizeDigits call.2 ≠ []
  hash : call.1.1 = hashTag → Typed call.1.2 ∧ strlen call.2 ≤ 16384000
  url : call.1.1 = urlTag → 4 < strlen call.2 →
    (∃ urlInfo, call.1.2.foldlM parseUrlAttr {} = .ok urlInfo) ∧ strlen call.2 ≤ 16384000

def hashesOf (call : (Text × Attributes) × Text) : List HashInfo :=
  if call.1.1 = hashTag then
    [⟨(searchTag call.1.2 typeAttr).map String.ofList, some call.2⟩]
  else []

def sizesOf (call : (Text × Attributes) × Text) : List ℤ :=
  if call.1.1 = sizeTag then [sizeValue call.2] else []

def urlsOf (call : (Text × Attributes) × Text) : List UrlInfo :=
  if call.1.1 = urlTag ∧ 4 < strlen call.2 then
    [{ (call.1.2.foldlM parseUrlAttr {}).toOption.getD {} with url := some call.2 }]
  else []

/-- What is added to the lists, and the new size -/
structure Adds (hashes : List HashInfo) (urls : List UrlInfo) (sizes : List ℤ)
    (ctx ctx' : MlCtx) : Prop where
  hashes : ctx'.hashes = ctx.hashes ++ hashes
  urls : ctx'.urls = ctx.urls ++ urls
  size : ctx'.size = sizes.getLast?.getD ctx.size

theorem take_eq_some_iff :
    take filename ctx call = some ctx' ↔
      parseElement ⟨none, ctx, filename, some call.1.1, call.1.2⟩ call.1.1 call.2 = .ok ctx' := by
  rw [take]
  cases parseElement ⟨none, ctx, filename, some call.1.1, call.1.2⟩ call.1.1 call.2 with
  | error e => simp [Except.toOption]
  | ok ctx => simp [Except.toOption]

theorem tags_ne : sizeTag ≠ fileTag ∧ hashTag ≠ fileTag ∧ hashTag ≠ sizeTag ∧
    urlTag ≠ fileTag ∧ urlTag ≠ sizeTag ∧ urlTag ≠ hashTag := by decide

/-- A piece that is no error adds what it stands for. -/
theorem take_spec (h : take filename ctx call = some ctx') :
    Accepts filename call ∧ Adds (hashesOf call) (urlsOf call) (sizesOf call) ctx ctx' := by
  obtain ⟨⟨element, attrs⟩, val⟩ := call
  obtain ⟨hsf, hhf, hhs, huf, hus, huh⟩ := tags_ne
  rw [take_eq_some_iff, parseElement] at h
  dsimp only at h
  split at h
  · next hfile =>
      subst hfile
      obtain ⟨-, hnamed, rfl⟩ := parseFileTag_eq_ok_iff.mp h
      refine ⟨⟨fun _ => hnamed, fun heq => absurd heq.symm hsf, fun heq => absurd heq.symm hhf,
        fun heq => absurd heq.symm huf⟩, ?_⟩
      constructor <;> simp [hashesOf, urlsOf, sizesOf, hsf.symm, hhf.symm, huf.symm]
  · next hfile =>
      split at h
      · next hsize =>
          subst hsize
          obtain ⟨hdigits, rfl⟩ := parseSizeTag_eq_ok_iff.mp h
          refine ⟨⟨fun heq => absurd heq hsf, fun _ => hdigits, fun heq => absurd heq.symm hhs,
            fun heq => absurd heq.symm hus⟩, ?_⟩
          constructor <;> simp [hashesOf, urlsOf, sizesOf, hhs.symm, hus.symm]
      · next hsize =>
          split at h
          · next hhash =>
              subst hhash
              obtain ⟨type, htype, hlen, hval, rfl⟩ := parseHashTag_eq_ok_iff.mp h
              refine ⟨⟨fun heq => absurd heq hhf, fun heq => absurd heq hhs,
                fun _ => ⟨⟨type, htype, hlen⟩, hval⟩, fun heq => absurd heq.symm huh⟩, ?_⟩
              dsimp only at htype
              constructor <;> simp [hashesOf, urlsOf, sizesOf, hhs, huh.symm, htype]
          · next hhash =>
              split at h
              · next hurl =>
                  obtain ⟨hurl, hlong⟩ := hurl
                  subst hurl
                  obtain ⟨urlInfo, hattrs, hval, rfl⟩ := parseUrlTag_eq_ok_iff.mp h
                  dsimp only at hattrs
                  refine ⟨⟨fun heq => absurd heq huf, fun heq => absurd heq hus,
                    fun heq => absurd heq huh, fun _ _ => ⟨⟨urlInfo, hattrs⟩, hval⟩⟩, ?_⟩
                  constructor <;>
                    simp [hashesOf, urlsOf, sizesOf, hus, huh, hlong, hattrs, Except.toOption]
              · next hurl =>
                  cases h
                  refine ⟨⟨fun heq => absurd heq hfile, fun heq => absurd heq hsize,
                    fun heq => absurd heq hhash, fun heq hlong => absurd ⟨heq, hlong⟩ hurl⟩, ?_⟩
                  constructor <;> simp [hashesOf, urlsOf, sizesOf, hsize, hhash, hurl]

theorem exists_take (hname : filename ≠ []) (h : Accepts filename call) (ctx : MlCtx) :
    ∃ ctx', take filename ctx call = some ctx' := by
  obtain ⟨⟨element, attrs⟩, val⟩ := call
  simp only [take_eq_some_iff, parseElement]
  split
  · next hfile => exact ⟨_, parseFileTag_eq_ok_iff.mpr ⟨hname, h.file hfile, rfl⟩⟩
  · next hfile =>
      split
      · next hsize => exact ⟨_, parseSizeTag_eq_ok_iff.mpr ⟨h.size hsize, rfl⟩⟩
      · next hsize =>
          split
          · next hhash =>
              obtain ⟨⟨type, htype, hlen⟩, hval⟩ := h.hash hhash
              exact ⟨_, parseHashTag_eq_ok_iff.mpr ⟨type, htype, hlen, hval, rfl⟩⟩
          · next hhash =>
              split
              · next hurl =>
                  obtain ⟨⟨urlInfo, hattrs⟩, hval⟩ := h.url hurl.1 hurl.2
                  exact ⟨_, parseUrlTag_eq_ok_iff.mpr ⟨urlInfo, hattrs, hval, rfl⟩⟩
              · exact ⟨_, rfl⟩

/-- What the pieces of a run add -/
theorem foldlM_take_spec (h : l.foldlM (take filename) ctx = some ctx') :
    (∀ call ∈ l, Accepts filename call) ∧
      Adds (l.flatMap hashesOf) (l.flatMap urlsOf) (l.flatMap sizesOf) ctx ctx' := by
  induction l generalizing ctx with
  | nil =>
      cases h
      exact ⟨by simp, ⟨by simp, by simp, rfl⟩⟩
  | cons call l ih =>
      rw [List.foldlM_cons] at h
      obtain ⟨mid, hmid, hrest⟩ := Option.bind_eq_some_iff.mp h
      obtain ⟨haccepts, hadds⟩ := take_spec hmid
      obtain ⟨hall, hmore⟩ := ih hrest
      refine ⟨List.forall_mem_cons.mpr ⟨haccepts, hall⟩, ?_, ?_, ?_⟩
      · rw [hmore.hashes, hadds.hashes, List.flatMap_cons, List.append_assoc]
      · rw [hmore.urls, hadds.urls, List.flatMap_cons, List.append_assoc]
      · rw [hmore.size, hadds.size, List.flatMap_cons, List.getLast?_append]
        cases (l.flatMap sizesOf).getLast? <;> rfl

theorem exists_foldlM_take (hname : filename ≠ []) (h : ∀ call ∈ l, Accepts filename call)
    (ctx : MlCtx) : ∃ ctx', l.foldlM (take filename) ctx = some ctx' := by
  induction l generalizing ctx with
  | nil => exact ⟨ctx, rfl⟩
  | cons call l ih =>
      obtain ⟨haccepts, hall⟩ := List.forall_mem_cons.mp h
      obtain ⟨mid, hmid⟩ := exists_take hname haccepts ctx
      obtain ⟨ctx', hrest⟩ := ih hall mid
      exact ⟨ctx', by rw [List.foldlM_cons, hmid]; exact hrest⟩

end Pieces

/-! ## What is recorded of a document -/

section Documents

variable {filename : Text} {es : List Event}

/-- The pieces that are taken -/
def taken (es : List Event) : List ((Text × Attributes) × Text) := calls opens none es

/-- What a document adds up to if no piece is an error -/
def sums (es : List Event) : List UrlInfo × List HashInfo × ℤ :=
  ((taken es).flatMap urlsOf, (taken es).flatMap hashesOf,
    ((taken es).flatMap sizesOf).getLast?.getD 0)

theorem toOption_eq_outcome (hname : filename ≠ []) (es : List Event) :
    (metalinkParseFile filename es).toOption = outcome (es.foldl step (initial filename)) := by
  rw [metalinkParseFile, if_neg hname, outcome]
  dsimp only
  cases (es.foldl step (initial filename)).dwError <;> rfl

theorem toOption_metalinkParseFile (hname : filename ≠ []) (es : List Event) :
    (metalinkParseFile filename es).toOption = (taken es).foldlM (take filename) {} :=
  (toOption_eq_outcome hname es).trans (outcome_run (initial filename) es hname rfl)

/-- Recorded is what the pieces add up to, if all are accepted. -/
theorem recorded_eq_some_iff (hname : filename ≠ [])
    {result : List UrlInfo × List HashInfo × ℤ} :
    recorded (metalinkParseFile filename es) = some result ↔
      (∀ call ∈ taken es, Accepts filename call) ∧ result = sums es := by
  rw [recorded, toOption_metalinkParseFile hname]
  constructor
  · intro h
    obtain ⟨ctx, hctx, rfl⟩ := Option.map_eq_some_iff.mp h
    obtain ⟨haccepts, hadds⟩ := foldlM_take_spec hctx
    refine ⟨haccepts, ?_⟩
    rw [hadds.urls, hadds.hashes, hadds.size]
    rfl
  · rintro ⟨haccepts, rfl⟩
    obtain ⟨ctx, hctx⟩ := exists_foldlM_take hname haccepts {}
    obtain ⟨-, hadds⟩ := foldlM_take_spec hctx
    rw [hctx, Option.map_some, hadds.urls, hadds.hashes, hadds.size]
    rfl

theorem mem_taken {es : List Event} {head : Text × Attributes} {val : Text} :
    (head, val) ∈ taken es ↔ ∃ ps, (head, ps) ∈ segments opens es ∧ val ∈ ps := by
  rw [taken, calls_eq]
  simp only [Option.toList_none, List.map_nil, List.nil_append, List.mem_flatMap, List.mem_map,
    Prod.mk.injEq]
  constructor
  · rintro ⟨⟨head', ps⟩, hseg, val', hval, rfl, rfl⟩
    exact ⟨ps, hseg, hval⟩
  · rintro ⟨ps, hseg, hval⟩
    exact ⟨(head, ps), hseg, val, hval, rfl, rfl⟩

theorem taken_rechop (choose : Option (Text × Attributes) → Text → List Text) (es : List Event) :
    taken (rechop opens choose none [] es) =
      (texts opens es).flatMap fun t =>
        ((choose (some t.1) t.2).filter (!·.isEmpty)).map (t.1, ·) := by
  rw [taken, calls_eq, segments_rechop]
  simp only [Option.toList_none, List.map_nil, List.nil_append, List.flatMap_map]

/-- In a run without errors the compared attributes are those of the file elements whose text
is taken. -/
theorem mem_comparedFrom {attrs : Attributes} (info : ElementInfo) (es : List Event)
    (hname : info.filename ≠ []) (herror : info.dwError = none)
    (h : (outcome (es.foldl step info)).isSome) :
    attrs ∈ comparedFrom info es ↔
      ∃ val, ((fileTag, attrs), val) ∈ calls opens (current info) es := by
  induction es generalizing info with
  | nil => simp [comparedFrom, calls]
  | cons e es ih =>
      rw [List.foldl_cons] at h
      cases e with
      | markup m =>
          cases m with
          | start name attrs' =>
              have hstep : step info (.markup (.start name attrs')) =
                  { info with startElement := some name, attributes := attrs' } := by
                simp [step, xmlParseStartElement, herror]
              rw [hstep] at h
              rw [comparedFrom, hstep]
              exact ih { info with startElement := some name, attributes := attrs' } hname herror h
          | stop name => exact ih (xmlParseEndElement info) hname herror h
      | text c s =>
          change (outcome (es.foldl step (xmlParseData info (c :: s)))).isSome at h
          rw [comparedFrom, calls]
          change attrs ∈ (fileTagCall info (.text c s)).toList ++
            comparedFrom (xmlParseData info (c :: s)) es ↔ _
          cases hstart : info.startElement with
          | none =>
              rw [xmlParseData_of_none hname herror hstart] at h ⊢
              have hcurrent : current info = none := by rw [current, hstart, Option.map_none]
              have hcall : fileTagCall info (.text c s) = none := by
                simp [fileTagCall, hstart]
              rw [hcall, hcurrent, ← hcurrent]
              simpa [hcurrent] using ih info hname herror h
          | some element =>
              have hcurrent : current info = some (element, info.attributes) := by
                rw [current, hstart, Option.map_some]
              have hcall : fileTagCall info (.text c s) =
                  if element = fileTag then some info.attributes else none := by
                simp [fileTagCall, hstart, hname, herror]
              obtain ⟨ctx, -, hdata⟩ | ⟨-, hdata⟩ :=
                xmlParseData_of_some hname herror hstart (c :: s)
              · rw [hdata] at h ⊢
                have hrest := ih { info with mlCtx := ctx } hname herror h
                have hcurrent' : current { info with mlCtx := ctx } = current info := rfl
                rw [List.mem_append, hrest, hcurrent', hcall, hcurrent]
                simp [exists_or, eq_comm]
              · rw [outcome_of_error hdata] at h
                cases h

/-- The attributes that are compared in a run without errors -/
theorem mem_compared (hname : filename ≠ []) {ctx : MlCtx}
    (h : metalinkParseFile filename es = .ok ctx) {attrs : Attributes} :
    attrs ∈ compared filename es ↔ ∃ val, ((fileTag, attrs), val) ∈ taken es := by
  refine mem_comparedFrom (initial filename) es hname rfl ?_
  rw [← toOption_eq_outcome hname, h]
  rfl

end Documents

end Tdnf.Metalink.Parsing
