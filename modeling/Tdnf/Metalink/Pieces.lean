import Tdnf.Metalink.Parsing

/-!
# Metalink files in other pieces

Each piece of a text is taken as all that an element contains, so what is recorded
depends on the pieces as soon as a hash has two characters or a URL can be recorded
at all. A file element is looked at only when text follows its start tag.
-/

namespace Tdnf.Metalink.Parsing

open PathText Common Chunks

/-! ## What is asked of the parser -/

/-- The pieces of texts make no difference, and no file element is passed over. -/
structure ParsesRight (filename : Text) (es : List Event) : Prop where
  pieces : ∀ es', Rechunked es es' →
    recorded (metalinkParseFile filename es') = recorded (metalinkParseFile filename es)
  files : ∀ ctx, metalinkParseFile filename es = .ok ctx →
    ∀ attrs, .markup (.start fileTag attrs) ∈ es → attrs ∈ compared filename es

/-- A text directly behind a start tag is an error in whatever pieces it comes. -/
def Rejected (filename : Text) (t : (Text × Attributes) × Text) : Prop :=
  t.2 ≠ [] ∧
    ((t.1.1 = fileTag ∧ ¬ Named filename t.1.2) ∨ (t.1.1 = sizeTag ∧ sizeDigits t.2 = []) ∨
      (t.1.1 = hashTag ∧ ¬ Typed t.1.2))

/-- The texts of size elements -/
def sizeTexts (es : List Event) : List Text :=
  (texts opens es).filterMap fun t => if t.1.1 = sizeTag ∧ t.2 ≠ [] then some t.2 else none

/-- No text is long enough to make a difference by its pieces, and each file element is
directly followed by text. -/
structure Robust (es : List Event) : Prop where
  hash : ∀ t ∈ texts opens es, t.1.1 = hashTag → t.2.length ≤ 1
  url : ∀ t ∈ texts opens es, t.1.1 = urlTag → strlen t.2 ≤ 4
  digits : ∀ t ∈ texts opens es, t.1.1 = sizeTag → ∀ c ∈ t.2, c.isDigit = true
  size : ∀ text, (sizeTexts es).getLast? = some text →
    ∀ rest, rest ≠ [] → rest <:+ text → sizeValue rest = sizeValue text
  file : ∀ attrs, .markup (.start fileTag attrs) ∈ es →
    ∃ text, text ≠ [] ∧ ((fileTag, attrs), text) ∈ texts opens es

section Texts

variable {filename : Text} {es : List Event}

/-- The last number is that of the last piece of the last size element with text. -/
theorem getLast?_sizes (segs : List ((Text × Attributes) × List Text)) :
    ((segs.flatMap fun seg => seg.2.map (seg.1, ·)).flatMap sizesOf).getLast? =
      ((segs.filter fun seg => seg.1.1 = sizeTag ∧ seg.2 ≠ []).getLast?.bind
        fun seg => seg.2.getLast?).map sizeValue := by
  induction segs using List.reverseRecOn with
  | nil => rfl
  | append_singleton segs seg ih =>
      rw [List.flatMap_append, List.flatMap_append, List.getLast?_append, ih,
        List.filter_append, List.getLast?_append]
      by_cases hseg : seg.1.1 = sizeTag ∧ seg.2 ≠ []
      · have hpieces : ([seg].flatMap fun seg => seg.2.map (seg.1, ·)).flatMap sizesOf =
            seg.2.map sizeValue := by
          rw [List.flatMap_singleton, List.flatMap_map, List.map_eq_flatMap]
          simp [sizesOf, hseg.1]
        obtain ⟨last, hlast⟩ := Option.ne_none_iff_exists'.mp
          (mt List.getLast?_eq_none_iff.mp hseg.2)
        rw [hpieces, List.getLast?_map, List.filter_cons_of_pos (by simpa using hseg), hlast]
        simp [hlast]
      · have hpieces : ([seg].flatMap fun seg => seg.2.map (seg.1, ·)).flatMap sizesOf = [] := by
          rw [List.flatMap_singleton, List.flatMap_map, List.flatMap_eq_nil_iff]
          intro val hval
          have hne : seg.1.1 ≠ sizeTag := fun heq => hseg ⟨heq, List.ne_nil_of_mem hval⟩
          simp [sizesOf, hne]
        rw [hpieces, List.filter_cons_of_neg (by simpa using hseg)]
        simp

theorem strlen_le_of_infix {s t : Text} (h : s <:+: t) : strlen s ≤ strlen t := by
  obtain ⟨pre, post, rfl⟩ := h
  rw [strlen_append, strlen_append]
  omega

/-- A text that is at most one character comes in at most one piece. -/
theorem pieces_of_length_le_one {ps : List Text} (hps : [] ∉ ps) (h : ps.flatten.length ≤ 1) :
    ps = [] ∨ ps = [ps.flatten] := by
  cases ps with
  | nil => exact .inl rfl
  | cons p ps =>
      refine .inr ?_
      have hp : 0 < p.length :=
        List.length_pos_of_ne_nil fun heq => hps (heq ▸ List.mem_cons_self)
      rw [List.flatten_cons, List.length_append] at h
      have hrest : ps = [] := by
        cases ps with
        | nil => rfl
        | cons q qs =>
            have hq : 0 < q.length := List.length_pos_of_ne_nil fun heq =>
              hps (heq ▸ List.mem_cons_of_mem _ List.mem_cons_self)
            rw [List.flatten_cons, List.length_append] at h
            omega
      rw [hrest, List.flatten_cons, List.flatten_nil, List.append_nil]

theorem mem_texts_of_mem_segments {head : Text × Attributes} {ps : List Text}
    (h : (head, ps) ∈ segments opens es) : (head, ps.flatten) ∈ texts opens es :=
  List.mem_map.mpr ⟨(head, ps), h, rfl⟩

/-- A piece that is taken is part of the text of an element. -/
theorem exists_text_of_mem_taken {head : Text × Attributes} {val : Text}
    (h : (head, val) ∈ taken es) :
    ∃ text, (head, text) ∈ texts opens es ∧ val ≠ [] ∧ val <:+: text := by
  obtain ⟨ps, hseg, hval⟩ := mem_taken.mp h
  have hnil := nil_notMem_of_mem_segments hseg
  exact ⟨ps.flatten, mem_texts_of_mem_segments hseg, fun heq => hnil (heq ▸ hval),
    List.infix_of_mem_flatten hval⟩

theorem sizeTexts_eq (es : List Event) :
    sizeTexts es =
      ((segments opens es).filter fun seg => seg.1.1 = sizeTag ∧ seg.2 ≠ []).map
        fun seg => seg.2.flatten := by
  have hall : ∀ seg ∈ segments opens es, [] ∉ seg.2 := fun seg => nil_notMem_of_mem_segments
  rw [sizeTexts, texts]
  generalize segments opens es = segs at hall ⊢
  induction segs with
  | nil => rfl
  | cons seg segs ih =>
      obtain ⟨hseg, hsegs⟩ := List.forall_mem_cons.mp hall
      have hiff : seg.2.flatten = [] ↔ seg.2 = [] := by
        rw [List.flatten_eq_nil_iff]
        constructor
        · intro h
          by_contra hne
          obtain ⟨p, hp⟩ := List.exists_mem_of_ne_nil _ hne
          exact hseg (h p hp ▸ hp)
        · intro h
          simp [h]
      rw [List.map_cons, List.filterMap_cons, ih hsegs, List.filter_cons]
      by_cases hsize : seg.1.1 = sizeTag <;> by_cases hps : seg.2 = [] <;>
        simp [hsize, hps, hiff]

/-- The last number is read off a rest of the last text of a size element. -/
theorem exists_rest_of_sizes (es : List Event) :
    ((taken es).flatMap sizesOf = [] ∧ (sizeTexts es).getLast? = none) ∨
      ∃ text rest, (sizeTexts es).getLast? = some text ∧ rest ≠ [] ∧ rest <:+ text ∧
        ((taken es).flatMap sizesOf).getLast? = some (sizeValue rest) := by
  have htaken : taken es = (segments opens es).flatMap fun seg => seg.2.map (seg.1, ·) := by
    rw [taken, calls_eq]
    rfl
  have hsizes := getLast?_sizes (segments opens es)
  rw [← htaken] at hsizes
  rw [sizeTexts_eq, List.getLast?_map, hsizes]
  cases hlast : ((segments opens es).filter
      fun seg => seg.1.1 = sizeTag ∧ seg.2 ≠ []).getLast? with
  | none =>
      rw [hlast] at hsizes
      exact .inl ⟨List.getLast?_eq_none_iff.mp hsizes, rfl⟩
  | some seg =>
      obtain ⟨hmem, hseg⟩ := List.mem_filter.mp (List.mem_of_getLast? hlast)
      have hne : seg.2 ≠ [] := (of_decide_eq_true hseg).2
      refine .inr ⟨seg.2.flatten, seg.2.getLast hne, rfl, ?_, ?_, ?_⟩
      · intro heq
        exact nil_notMem_of_mem_segments hmem (heq ▸ List.getLast_mem hne)
      · refine ⟨seg.2.dropLast.flatten, ?_⟩
        conv_rhs => rw [← List.dropLast_append_getLast hne]
        rw [List.flatten_append, List.flatten_singleton]
      · rw [Option.bind_some, List.getLast?_eq_some_getLast hne, Option.map_some]

end Texts

/-! ## Where the pieces make no difference -/

section Enough

variable {filename : Text} {es es' : List Event}

theorem Robust.rechunked (h : Robust es) (hsame : Rechunked es es') : Robust es' := by
  have htexts : texts opens es' = texts opens es := (texts_of_rechunked hsame).symm
  constructor
  · rw [htexts]
    exact h.hash
  · rw [htexts]
    exact h.url
  · rw [htexts]
    exact h.digits
  · rw [sizeTexts, htexts]
    exact h.size
  · intro attrs hmem
    rw [htexts]
    exact h.file attrs ((mem_markup_of_rechunked hsame _).mpr hmem)

theorem isDigit_of_infix {val text : Text} (hdigits : ∀ c ∈ text, c.isDigit = true)
    (hne : val ≠ []) (hval : val <:+: text) : sizeDigits val ≠ [] := by
  cases val with
  | nil => exact absurd rfl hne
  | cons c s =>
      have hc : c.isDigit = true := hdigits c (hval.subset List.mem_cons_self)
      rw [sizeDigits, List.takeWhile_cons_of_pos hc]
      exact List.cons_ne_nil _ _

theorem strlen_le_of_length_le_one {s : Text} (h : s.length ≤ 1) : strlen s ≤ 4 := by
  cases s with
  | nil => exact Nat.zero_le 4
  | cons c s =>
      have hs : s = [] := List.eq_nil_of_length_eq_zero (by rw [List.length_cons] at h; omega)
      rw [hs, strlen_cons]
      exact Char.utf8Size_le_four c

/-- No piece is an error. -/
theorem Robust.accepts (h : Robust es) (hno : ∀ t ∈ texts opens es, ¬ Rejected filename t)
    {call : (Text × Attributes) × Text} (hcall : call ∈ taken es) : Accepts filename call := by
  obtain ⟨text, htext, hne, hval⟩ := exists_text_of_mem_taken hcall
  have htextne : text ≠ [] := by
    rintro rfl
    exact hne (List.eq_nil_of_infix_nil hval)
  have hrejected := hno _ htext
  constructor
  · intro hfile
    by_contra hnamed
    exact hrejected ⟨htextne, .inl ⟨hfile, hnamed⟩⟩
  · exact fun hsize => isDigit_of_infix (h.digits _ htext hsize) hne hval
  · intro hhash
    refine ⟨?_, ?_⟩
    · by_contra htyped
      exact hrejected ⟨htextne, .inr (.inr ⟨hhash, htyped⟩)⟩
    · have hlen : strlen call.2 ≤ 4 :=
        strlen_le_of_length_le_one (hval.length_le.trans (h.hash _ htext hhash))
      omega
  · intro hurl hlong
    have hle := strlen_le_of_infix hval
    have hshort := h.url _ htext hurl
    dsimp only at hshort
    omega

/-- What a document adds up to, by its texts alone -/
def normal (es : List Event) : List UrlInfo × List HashInfo × ℤ :=
  ([], (texts opens es).flatMap fun t => if t.2 = [] then [] else hashesOf t,
    ((sizeTexts es).getLast?.map sizeValue).getD 0)

theorem Robust.sums_eq (h : Robust es) : sums es = normal es := by
  have hurls : (taken es).flatMap urlsOf = [] := by
    rw [List.flatMap_eq_nil_iff]
    rintro ⟨head, val⟩ hcall
    obtain ⟨text, htext, -, hval⟩ := exists_text_of_mem_taken hcall
    have hle := strlen_le_of_infix hval
    rw [urlsOf, if_neg]
    rintro ⟨hurl, hlong⟩
    have hshort := h.url _ htext hurl
    dsimp only at hlong hshort
    omega
  have hhashes : (taken es).flatMap hashesOf =
      (texts opens es).flatMap fun t => if t.2 = [] then [] else hashesOf t := by
    rw [taken, calls_eq, texts, List.flatMap_assoc, List.flatMap_map]
    refine List.flatMap_congr fun seg hseg => ?_
    have hnil := nil_notMem_of_mem_segments hseg
    by_cases hhash : seg.1.1 = hashTag
    · have hlen := h.hash _ (mem_texts_of_mem_segments hseg) hhash
      obtain hps | hps := pieces_of_length_le_one hnil hlen
      · simp [hps]
      · rw [hps]
        have hne : seg.2.flatten ≠ [] := fun heq => hnil (hps ▸ heq ▸ List.mem_singleton_self _)
        simp [hne]
    · simp [hashesOf, hhash]
  have hsizes : ((taken es).flatMap sizesOf).getLast? =
      (sizeTexts es).getLast?.map sizeValue := by
    obtain ⟨hnil, hnone⟩ | ⟨text, rest, htext, hne, hrest, hlast⟩ := exists_rest_of_sizes es
    · rw [hnil, hnone]
      rfl
    · rw [hlast, htext, Option.map_some, h.size text htext rest hne hrest]
  rw [sums, hurls, hhashes, hsizes, normal]

/-- A text that is rejected is an error in whatever pieces it comes. -/
theorem not_accepts_of_rejected {t : (Text × Attributes) × Text} (ht : t ∈ texts opens es)
    (h : Rejected filename t) : ∃ call ∈ taken es, ¬ Accepts filename call := by
  obtain ⟨seg, hseg, rfl⟩ := List.mem_map.mp ht
  obtain ⟨hne, hreasons⟩ := h
  have hnil := nil_notMem_of_mem_segments hseg
  cases hps : seg.2 with
  | nil =>
      rw [hps] at hne
      exact absurd rfl hne
  | cons p ps =>
      refine ⟨(seg.1, p), mem_taken.mpr ⟨seg.2, hseg, hps ▸ List.mem_cons_self⟩, fun haccepts => ?_⟩
      obtain ⟨hfile, hnamed⟩ | ⟨hsize, hdigits⟩ | ⟨hhash, htyped⟩ := hreasons
      · exact hnamed (haccepts.file hfile)
      · cases p with
        | nil => exact hnil (hps ▸ List.mem_cons_self)
        | cons c s =>
            -- the first character decides, in the piece as in the text
            refine haccepts.size hsize ?_
            rw [hps, List.flatten_cons, List.cons_append, sizeDigits] at hdigits
            by_cases hc : c.isDigit
            · rw [List.takeWhile_cons_of_pos hc] at hdigits
              cases hdigits
            · rw [sizeDigits, List.takeWhile_cons_of_neg hc]
              rfl
      · exact htyped (haccepts.hash hhash).1

/-- So the parser fails on the document. -/
theorem recorded_of_rejected (hname : filename ≠ []) {t : (Text × Attributes) × Text}
    (ht : t ∈ texts opens es) (h : Rejected filename t) :
    recorded (metalinkParseFile filename es) = none := by
  obtain ⟨call, hcall, hnot⟩ := not_accepts_of_rejected ht h
  rw [Option.eq_none_iff_forall_ne_some]
  intro result hresult
  exact hnot (((recorded_eq_some_iff hname).mp hresult).1 call hcall)

end Enough

/-! ## Where they do -/

section Needed

variable {filename : Text} {es : List Event}
  {choose : Option (Text × Attributes) → Text → List Text}

theorem mem_taken_rechop {head : Text × Attributes} {val : Text} :
    (head, val) ∈ taken (rechop opens choose none [] es) ↔
      ∃ text, (head, text) ∈ texts opens es ∧ val ∈ choose (some head) text ∧ val ≠ [] := by
  rw [taken_rechop]
  simp only [List.mem_flatMap, List.mem_map, List.mem_filter, Prod.mk.injEq,
    Bool.not_eq_true', List.isEmpty_eq_false_iff]
  constructor
  · rintro ⟨⟨head', text⟩, htext, val', hval, rfl, rfl⟩
    exact ⟨text, htext, hval⟩
  · rintro ⟨text, htext, hval⟩
    exact ⟨(head, text), htext, val, hval, rfl, rfl⟩

def whole (_ : Option (Text × Attributes)) (text : Text) : List Text := [text]

def singles (_ : Option (Text × Attributes)) (text : Text) : List Text := text.map ([·])

/-- The texts of size elements are kept whole. -/
def careful (head : Option (Text × Attributes)) (text : Text) : List Text :=
  if head.map Prod.fst = some sizeTag then [text] else text.map ([·])

/-- The last piece has `k` characters. -/
def ending (k : ℕ) (_ : Option (Text × Attributes)) (text : Text) : List Text :=
  [text.take (text.length - k), text.drop (text.length - k)]

theorem flatten_singles (text : Text) : (text.map ([·])).flatten = text := by
  induction text with
  | nil => rfl
  | cons c text ih => rw [List.map_cons, List.flatten_cons, ih, List.singleton_append]

theorem flatten_careful (head : Option (Text × Attributes)) (text : Text) :
    (careful head text).flatten = text := by
  rw [careful]
  split
  · exact List.flatten_singleton
  · exact flatten_singles text

theorem flatten_ending (k : ℕ) (head : Option (Text × Attributes)) (text : Text) :
    (ending k head text).flatten = text := by
  rw [ending, List.flatten_cons, List.flatten_singleton, List.take_append_drop]

/-- The document with other pieces -/
def chopped (choose : Option (Text × Attributes) → Text → List Text) (es : List Event) :
    List Event := rechop opens choose none [] es

theorem rechunked_chopped (h : ∀ head text, (choose head text).flatten = text)
    (es : List Event) : Rechunked es (chopped choose es) :=
  rechunked_rechop h none [] es

/-- Some pieces are accepted, unless a text is an error in whatever pieces it comes. -/
theorem accepts_careful (hno : ∀ t ∈ texts opens es, ¬ Rejected filename t)
    {call : (Text × Attributes) × Text} (hcall : call ∈ taken (chopped careful es)) :
    Accepts filename call := by
  obtain ⟨⟨element, attrs⟩, val⟩ := call
  obtain ⟨text, htext, hval, hne⟩ := mem_taken_rechop.mp hcall
  have hrejected := hno _ htext
  have htextne : text ≠ [] := by
    rintro rfl
    have hflat := flatten_careful (some (element, attrs)) []
    exact hne (List.flatten_eq_nil_iff.mp hflat val hval)
  rw [careful, Option.map_some] at hval
  have hshort : element ≠ sizeTag → strlen val ≤ 4 := by
    intro helement
    rw [if_neg fun heq => helement (Option.some.inj heq)] at hval
    obtain ⟨c, -, rfl⟩ := List.mem_map.mp hval
    exact strlen_le_of_length_le_one (Nat.le_refl 1)
  obtain ⟨-, -, hhs, -, hus, -⟩ := tags_ne
  constructor
  · intro hfile
    by_contra hnamed
    exact hrejected ⟨htextne, .inl ⟨hfile, hnamed⟩⟩
  · intro hsize hdigits
    rw [if_pos (congrArg some hsize)] at hval
    obtain rfl := List.mem_singleton.mp hval
    exact hrejected ⟨htextne, .inr (.inl ⟨hsize, hdigits⟩)⟩
  · intro hhash
    have hlen := hshort fun heq => hhs (hhash.symm.trans heq)
    refine ⟨?_, show strlen val ≤ 16384000 by omega⟩
    by_contra htyped
    exact hrejected ⟨htextne, .inr (.inr ⟨hhash, htyped⟩)⟩
  · intro hurl hlong
    have hlen := hshort fun heq => hus (hurl.symm.trans heq)
    dsimp only at hlong
    omega

/-- If the pieces make no difference, all documents with these texts are read, to one result. -/
theorem exists_result (hname : filename ≠ []) (hright : ParsesRight filename es)
    (hno : ∀ t ∈ texts opens es, ¬ Rejected filename t) :
    ∃ result, ∀ es', Rechunked es es' →
      (∀ call ∈ taken es', Accepts filename call) ∧ sums es' = result := by
  have hcareful : recorded (metalinkParseFile filename (chopped careful es)) =
      some (sums (chopped careful es)) :=
    (recorded_eq_some_iff hname).mpr ⟨fun call => accepts_careful hno, rfl⟩
  refine ⟨sums (chopped careful es), fun es' hsame => ?_⟩
  have hrecorded := hright.pieces es' hsame
  rw [← hright.pieces _ (rechunked_chopped flatten_careful es), hcareful] at hrecorded
  obtain ⟨haccepts, hsums⟩ := (recorded_eq_some_iff hname).mp hrecorded
  exact ⟨haccepts, hsums.symm⟩

theorem mem_taken_whole {t : (Text × Attributes) × Text} (ht : t ∈ texts opens es)
    (hne : t.2 ≠ []) : t ∈ taken (chopped whole es) :=
  mem_taken_rechop.mpr ⟨t.2, ht, List.mem_singleton_self _, hne⟩

theorem length_of_mem_taken_singles {call : (Text × Attributes) × Text}
    (h : call ∈ taken (chopped singles es)) : call.2.length ≤ 1 := by
  obtain ⟨text, -, hval, -⟩ := mem_taken_rechop.mp (show (call.1, call.2) ∈ _ from h)
  obtain ⟨c, -, hc⟩ := List.mem_map.mp hval
  rw [← hc]
  exact Nat.le_refl 1

/-- The last number, with other pieces -/
theorem getLast?_sizes_chopped (h : ∀ head text, (choose head text).flatten = text) {text : Text}
    (htext : (sizeTexts es).getLast? = some text) :
    ∃ head, ((taken (chopped choose es)).flatMap sizesOf).getLast? =
      ((choose (some head) text).filter (!·.isEmpty)).getLast?.map sizeValue := by
  have hempty : ∀ head text, (choose head text).filter (!·.isEmpty) = [] ↔ text = [] := by
    intro head text
    rw [List.filter_eq_nil_iff]
    constructor
    · intro hall
      rw [← h head text, List.flatten_eq_nil_iff]
      intro p hp
      simpa using hall p hp
    · rintro rfl p hp
      have hp' := List.flatten_eq_nil_iff.mp (h head []) p hp
      simp [hp']
  have htexts : sizeTexts es =
      ((texts opens es).filter fun t => t.1.1 = sizeTag ∧ t.2 ≠ []).map Prod.snd := by
    rw [sizeTexts, ← List.filterMap_eq_map, List.filterMap_filter]
    simp
  rw [htexts, List.getLast?_map] at htext
  obtain ⟨⟨head, text'⟩, hlast, rfl⟩ := Option.map_eq_some_iff.mp htext
  refine ⟨head, ?_⟩
  have htaken : taken (chopped choose es) =
      (segments opens (chopped choose es)).flatMap fun seg => seg.2.map (seg.1, ·) := by
    rw [taken, calls_eq]
    rfl
  have hfilter : ((fun seg : (Text × Attributes) × List Text =>
        decide (seg.1.1 = sizeTag ∧ seg.2 ≠ [])) ∘
      fun t : (Text × Attributes) × Text =>
        (t.1, (choose (some t.1) t.2).filter (!·.isEmpty))) =
      fun t => decide (t.1.1 = sizeTag ∧ t.2 ≠ []) := by
    funext t
    simp only [Function.comp_apply, ne_eq, hempty]
  rw [htaken, getLast?_sizes, chopped, segments_rechop, List.filter_map, hfilter,
    List.getLast?_map, hlast, Option.map_some, Option.bind_some]

/-- The entry of a whole text is among the entries of single characters. -/
theorem length_le_one_of_hashes {t : (Text × Attributes) × Text} (ht : t ∈ texts opens es)
    (hhash : t.1.1 = hashTag)
    (h : (taken (chopped whole es)).flatMap hashesOf =
      (taken (chopped singles es)).flatMap hashesOf) : t.2.length ≤ 1 := by
  by_cases hne : t.2 = []
  · rw [hne]
    exact Nat.zero_le 1
  · have hentry : ⟨(searchTag t.1.2 typeAttr).map String.ofList, some t.2⟩ ∈
        (taken (chopped whole es)).flatMap hashesOf :=
      List.mem_flatMap.mpr ⟨t, mem_taken_whole ht hne, by simp [hashesOf, hhash]⟩
    rw [h] at hentry
    obtain ⟨call, hcall, hof⟩ := List.mem_flatMap.mp hentry
    rw [hashesOf] at hof
    split at hof
    · have heq : t.2 = call.2 :=
        Option.some.inj (congrArg HashInfo.value (List.mem_singleton.mp hof))
      rw [heq]
      exact length_of_mem_taken_singles hcall
    · cases hof

/-- Single characters are too short for an entry. -/
theorem strlen_le_of_urls {t : (Text × Attributes) × Text} (ht : t ∈ texts opens es)
    (hurl : t.1.1 = urlTag)
    (h : (taken (chopped whole es)).flatMap urlsOf =
      (taken (chopped singles es)).flatMap urlsOf) : strlen t.2 ≤ 4 := by
  by_contra hlong
  have hlong' : 4 < strlen t.2 := Nat.lt_of_not_le hlong
  have hne : t.2 ≠ [] := fun heq => hlong (by rw [heq]; exact Nat.zero_le 4)
  have hsingles : (taken (chopped singles es)).flatMap urlsOf = [] := by
    rw [List.flatMap_eq_nil_iff]
    intro call hcall
    have hlen := strlen_le_of_length_le_one (length_of_mem_taken_singles hcall)
    rw [urlsOf, if_neg fun hand => absurd hand.2 (by omega)]
  rw [hsingles, List.flatMap_eq_nil_iff] at h
  have hnil := h t (mem_taken_whole ht hne)
  rw [urlsOf, if_pos ⟨hurl, hlong'⟩] at hnil
  cases hnil

/-- A document whose pieces make no difference is robust, or some text is rejected. -/
theorem ParsesRight.robust (hname : filename ≠ []) (hright : ParsesRight filename es)
    (hno : ∀ t ∈ texts opens es, ¬ Rejected filename t) : Robust es := by
  obtain ⟨result, hresult⟩ := exists_result hname hright hno
  have hwhole : Rechunked es (chopped whole es) :=
    rechunked_chopped (fun _ _ => List.flatten_singleton) es
  have hsingles : Rechunked es (chopped singles es) :=
    rechunked_chopped (fun _ text => flatten_singles text) es
  have hsums : sums (chopped whole es) = sums (chopped singles es) :=
    (hresult _ hwhole).2.trans (hresult _ hsingles).2.symm
  have hurls := congrArg Prod.fst hsums
  have hhashes := congrArg (fun r => r.2.1) hsums
  have hdigits : ∀ t ∈ texts opens es, t.1.1 = sizeTag → ∀ c ∈ t.2, c.isDigit = true := by
    intro t ht hsize c hc
    have hcall : (t.1, [c]) ∈ taken (chopped singles es) :=
      mem_taken_rechop.mpr ⟨t.2, ht, List.mem_map.mpr ⟨c, hc, rfl⟩, List.cons_ne_nil c []⟩
    have haccepts := ((hresult _ hsingles).1 _ hcall).size hsize
    by_contra hnot
    exact haccepts (by rw [sizeDigits, List.takeWhile_cons_of_neg hnot]; rfl)
  refine ⟨fun t ht hhash => length_le_one_of_hashes ht hhash hhashes,
    fun t ht hurl => strlen_le_of_urls ht hurl hurls, hdigits, ?_, ?_⟩
  · intro text htext rest hne hrest
    have hending : Rechunked es (chopped (ending rest.length) es) :=
      rechunked_chopped (flatten_ending rest.length) es
    have hsame := congrArg (fun r => r.2.2) ((hresult _ hwhole).2.trans (hresult _ hending).2.symm)
    obtain ⟨head, hlast⟩ := getLast?_sizes_chopped
      (show ∀ head text, (whole head text).flatten = text from fun _ _ => List.flatten_singleton)
      htext
    obtain ⟨head', hlast'⟩ := getLast?_sizes_chopped (flatten_ending rest.length) htext
    have htextne : text ≠ [] := by
      rintro rfl
      exact hne (List.suffix_nil.mp hrest)
    have hpieces : (whole (some head) text).filter (!·.isEmpty) = [text] := by
      simp [whole, htextne]
    have hpieces' : ((ending rest.length (some head') text).filter (!·.isEmpty)).getLast? =
        some rest := by
      rw [ending, ← List.suffix_iff_eq_drop.mp hrest, List.filter_cons, List.filter_cons]
      split <;> simp [hne]
    rw [hpieces] at hlast
    rw [hpieces'] at hlast'
    rw [sums, sums] at hsame
    dsimp only at hsame
    rw [hlast, hlast'] at hsame
    exact hsame.symm
  · intro attrs hmem
    have hrecorded : recorded (metalinkParseFile filename es) = some (sums es) :=
      (recorded_eq_some_iff hname).mpr ⟨(hresult es (.refl es)).1, rfl⟩
    obtain ⟨ctx, hctx, -⟩ := Option.map_eq_some_iff.mp hrecorded
    have hok : metalinkParseFile filename es = .ok ctx := by
      cases hresult : metalinkParseFile filename es with
      | error e =>
          rw [hresult] at hctx
          cases hctx
      | ok ctx' =>
          rw [hresult] at hctx
          cases hctx
          rfl
    obtain ⟨val, hval⟩ := (mem_compared hname hok).mp (hright.files ctx hok attrs hmem)
    obtain ⟨text, htext, hne, hinfix⟩ := exists_text_of_mem_taken hval
    refine ⟨text, ?_, htext⟩
    rintro rfl
    exact hne (List.eq_nil_of_infix_nil hinfix)

end Needed

/-- The pieces make no difference, and no file element is passed over, if and only if there is
no expected name, some text is rejected in whatever pieces it comes, or the document is robust. -/
theorem parsesRight_iff (filename : Text) (es : List Event) :
    ParsesRight filename es ↔
      filename = [] ∨ (∃ t ∈ texts opens es, Rejected filename t) ∨ Robust es := by
  by_cases hname : filename = []
  · have herror : ∀ es', metalinkParseFile filename es' = .error (.tdnf .invalidParameter) :=
      fun es' => by rw [metalinkParseFile, if_pos hname]
    refine ⟨fun _ => .inl hname, fun _ => ⟨fun es' _ => by rw [herror, herror], ?_⟩⟩
    intro ctx hctx
    rw [herror] at hctx
    cases hctx
  · rw [or_iff_right hname]
    by_cases hrejected : ∃ t ∈ texts opens es, Rejected filename t
    · refine ⟨fun _ => .inl hrejected, fun _ => ?_⟩
      obtain ⟨t, ht, hreject⟩ := hrejected
      refine ⟨fun es' hsame => ?_, ?_⟩
      · rw [recorded_of_rejected hname ht hreject,
          recorded_of_rejected hname (texts_of_rechunked hsame ▸ ht) hreject]
      · intro ctx hctx
        have hnone := recorded_of_rejected hname ht hreject
        rw [hctx] at hnone
        cases hnone
    · rw [or_iff_right hrejected]
      have hno : ∀ t ∈ texts opens es, ¬ Rejected filename t :=
        fun t ht hreject => hrejected ⟨t, ht, hreject⟩
      constructor
      · exact fun hright => hright.robust hname hno
      · intro hrobust
        have hrecorded : ∀ es', Rechunked es es' →
            recorded (metalinkParseFile filename es') = some (normal es) := by
          intro es' hsame
          have hrobust' := hrobust.rechunked hsame
          have htexts : texts opens es' = texts opens es := (texts_of_rechunked hsame).symm
          have hnormal : normal es' = normal es := by
            rw [normal, normal, sizeTexts, sizeTexts, htexts]
          refine (recorded_eq_some_iff hname).mpr ⟨fun call => hrobust'.accepts ?_, ?_⟩
          · rw [htexts]
            exact hno
          · rw [hrobust'.sums_eq, hnormal]
        refine ⟨fun es' hsame => ?_, ?_⟩
        · rw [hrecorded es' hsame, hrecorded es (.refl es)]
        · intro ctx hctx attrs hmem
          obtain ⟨text, hne, htext⟩ := hrobust.file attrs hmem
          obtain ⟨⟨head, ps⟩, hseg, heq⟩ := List.mem_map.mp htext
          obtain ⟨rfl, rfl⟩ := Prod.mk.inj heq
          obtain ⟨val, hval⟩ : ∃ val, val ∈ ps :=
            List.exists_mem_of_ne_nil _ fun hnil => hne (by rw [hnil]; rfl)
          exact (mem_compared hname hctx).mpr ⟨val, mem_taken.mpr ⟨ps, hseg, hval⟩⟩

/-- A hash in one piece -/
def shortHash : List Event :=
  [.markup (.start fileTag [(nameAttr, "repomd.xml".toList)]), .text '\n' [],
    .markup (.start hashTag [(typeAttr, "md5".toList)]), .text '0' ['a'],
    .markup (.stop hashTag), .markup (.stop fileTag)]

/-- The same hash in two pieces -/
def splitHash : List Event :=
  [.markup (.start fileTag [(nameAttr, "repomd.xml".toList)]), .text '\n' [],
    .markup (.start hashTag [(typeAttr, "md5".toList)]), .text '0' [], .text 'a' [],
    .markup (.stop hashTag), .markup (.stop fileTag)]

/-- A hash that comes in two pieces is recorded as two hashes. -/
theorem splitHash_not_right : ¬ ParsesRight "repomd.xml".toList shortHash := by
  intro h
  have hsame : Rechunked shortHash splitHash :=
    .rel _ _ (.there _ (.there _ (.there _ (.here '0' [] 'a' [] _))))
  have hpieces := h.pieces splitHash hsame
  revert hpieces
  decide +kernel

end Tdnf.Metalink.Parsing
