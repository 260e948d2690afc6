import Tdnf.Library.Json
import Tdnf.Library.Utf8

/-!
# Reading JSON texts

A reader for the grammar of RFC 8259 on bytes: the whole text has to be UTF-8, and
everything with a meaning of its own is ASCII. Strings are decoded to their UTF-8
bytes, and a surrogate without its partner is refused. The bound on the recursion
is the length of the text.
-/

namespace Json

/-- Insignificant white space. -/
def isSpace (b : UInt8) : Bool := b = 32 || b = 9 || b = 10 || b = 13

def skipSpace (text : Bytes) : Bytes := text.dropWhile isSpace

/-- Take a byte off the front. -/
def expect (b : UInt8) : Bytes → Option Bytes
  | [] => none
  | c :: rest => if c = b then some rest else none

/-- Take a word off the front. -/
def expectWord (word text : Bytes) : Option Bytes :=
  if word <+: text then some (text.drop word.length) else none

section Strings

def hexDigit (b : UInt8) : Option ℕ :=
  if 48 ≤ b ∧ b ≤ 57 then some (b.toNat - 48)
  else if 65 ≤ b ∧ b ≤ 70 then some (b.toNat - 55)
  else if 97 ≤ b ∧ b ≤ 102 then some (b.toNat - 87)
  else none

/-- Four hexadecimal digits. -/
def codeUnit : Bytes → Option (ℕ × Bytes)
  | a :: b :: c :: d :: rest => do
    let a ← hexDigit a
    let b ← hexDigit b
    let c ← hexDigit c
    let d ← hexDigit d
    some (((a * 16 + b) * 16 + c) * 16 + d, rest)
  | _ => none

/-- The UTF-8 bytes of a character that is given by its number. -/
def character (n : ℕ) : Option Bytes :=
  if h : n.isValidChar then some (String.utf8EncodeChar (Char.ofNatAux n h)) else none

/-- What follows `\u`. -/
def unicodeEscape (text : Bytes) : Option (Bytes × Bytes) := do
  let (unit, rest) ← codeUnit text
  if 0xD800 ≤ unit ∧ unit < 0xDC00 then
    let rest ← expectWord (ascii "\\u") rest
    let (low, rest) ← codeUnit rest
    if 0xDC00 ≤ low ∧ low < 0xE000 then
      let bytes ← character (0x10000 + (unit - 0xD800) * 1024 + (low - 0xDC00))
      some (bytes, rest)
    else none
  else
    let bytes ← character unit
    some (bytes, rest)

/-- What follows a backslash. -/
def escape : Bytes → Option (Bytes × Bytes)
  | [] => none
  | b :: rest =>
    if b = '"'.toUInt8 ∨ b = '\\'.toUInt8 ∨ b = '/'.toUInt8 then some ([b], rest)
    else if b = 'b'.toUInt8 then some ([8], rest)
    else if b = 'f'.toUInt8 then some ([12], rest)
    else if b = 'n'.toUInt8 then some ([10], rest)
    else if b = 'r'.toUInt8 then some ([13], rest)
    else if b = 't'.toUInt8 then some ([9], rest)
    else if b = 'u'.toUInt8 then unicodeEscape rest
    else none

/-- The string up to its closing quote, and what is behind it. -/
def stringBody : ℕ → Bytes → Option (Bytes × Bytes)
  | 0, _ => none
  | _ + 1, [] => none
  | n + 1, b :: rest =>
    if b = '"'.toUInt8 then some ([], rest)
    else if b = '\\'.toUInt8 then do
      let (bytes, rest) ← escape rest
      let (s, rest) ← stringBody n rest
      some (bytes ++ s, rest)
    else if b < 32 then none
    else do
      let (s, rest) ← stringBody n rest
      some (b :: s, rest)

end Strings

section Numbers

def isDigit (b : UInt8) : Bool := 48 ≤ b && b ≤ 57

/-- At least one digit. -/
def skipDigits : Bytes → Option Bytes
  | [] => none
  | b :: rest => if isDigit b then some (rest.dropWhile isDigit) else none

/-- Digits without leading zeros. -/
def skipInt (text : Bytes) : Option Bytes :=
  expect '0'.toUInt8 text <|> skipDigits text

def skipFraction (text : Bytes) : Option Bytes :=
  match expect '.'.toUInt8 text with
  | none => some text
  | some rest => skipDigits rest

def skipExponent (text : Bytes) : Option Bytes :=
  match expect 'e'.toUInt8 text <|> expect 'E'.toUInt8 text with
  | none => some text
  | some rest =>
    skipDigits ((expect '+'.toUInt8 rest <|> expect '-'.toUInt8 rest).getD rest)

/-- A number as it is written. -/
def number (text : Bytes) : Option (Bytes × Bytes) := do
  let rest ← skipInt ((expect '-'.toUInt8 text).getD text)
  let rest ← skipFraction rest
  let rest ← skipExponent rest
  some (text.take (text.length - rest.length), rest)

end Numbers

section Values

variable {α : Type} (element : Bytes → Option (α × Bytes)) (closing : UInt8)

/-- Elements with commas between them up to the closing bracket. -/
def separated : ℕ → Bytes → Option (List α × Bytes)
  | 0, _ => none
  | n + 1, text => do
    let (x, rest) ← element (skipSpace text)
    match skipSpace rest with
    | [] => none
    | b :: rest =>
      if b = closing then some ([x], rest)
      else if b = ','.toUInt8 then do
        let (xs, rest) ← separated n rest
        some (x :: xs, rest)
      else none

/-- What follows an opening bracket. -/
def bracketed (text : Bytes) : Option (List α × Bytes) :=
  match expect closing (skipSpace text) with
  | some rest => some ([], rest)
  | none => separated element closing text.length text

/-- A member of an object. -/
def keyed (text : Bytes) : Option ((Bytes × α) × Bytes) := do
  let rest ← expect '"'.toUInt8 text
  let (key, rest) ← stringBody rest.length rest
  let rest ← expect ':'.toUInt8 (skipSpace rest)
  let (x, rest) ← element (skipSpace rest)
  some ((key, x), rest)

/-- A value, and what is behind it. -/
def value : ℕ → Bytes → Option (Value × Bytes)
  | 0, _ => none
  | _ + 1, [] => none
  | n + 1, b :: rest =>
    if b = '"'.toUInt8 then do
      let (s, rest) ← stringBody rest.length rest
      some (.string s, rest)
    else if b = '['.toUInt8 then do
      let (items, rest) ← bracketed (value n) ']'.toUInt8 rest
      some (.array items, rest)
    else if b = '{'.toUInt8 then do
      let (members, rest) ← bracketed (keyed (value n)) '}'.toUInt8 rest
      some (.object members, rest)
    else
      ((expectWord (ascii "null") (b :: rest)).map fun rest => (.null, rest)) <|>
      ((expectWord (ascii "true") (b :: rest)).map fun rest => (.bool true, rest)) <|>
      ((expectWord (ascii "false") (b :: rest)).map fun rest => (.bool false, rest)) <|>
      ((number (b :: rest)).map fun (lexeme, rest) => (.number lexeme, rest))

/-- A whole JSON text. -/
def document (text : Bytes) : Option Value :=
  if Utf8.Valid text then do
    let (v, rest) ← value text.length (skipSpace text)
    if skipSpace rest = [] then some v else none
  else none

end Values

section Reading

variable {a tail text rest bytes s dec : Bytes} {b : UInt8} {n : ℕ}

@[simp] theorem expect_cons_self : expect b (b :: rest) = some rest := if_pos rfl

/-- A reader took bytes other than quotes off the front. -/
structure Took (text rest : Bytes) (k : ℕ) : Prop where
  took : ∃ used, text = used ++ rest ∧ '"'.toUInt8 ∉ used ∧ used.length = k

theorem Took.trans {text rest more : Bytes} {k l : ℕ} (h : Took text rest k)
    (h' : Took rest more l) : Took text more (k + l) := by
  obtain ⟨used, rfl, hquote, hlength⟩ := h.took
  obtain ⟨used', rfl, hquote', hlength'⟩ := h'.took
  refine ⟨used ++ used', (List.append_assoc ..).symm, fun hmem => ?_, ?_⟩
  · exact (List.mem_append.mp hmem).elim hquote hquote'
  · rw [List.length_append, hlength, hlength']

/-- What was taken lies before the first quote. -/
theorem Took.before_quote {k : ℕ} (h : Took (a ++ '"'.toUInt8 :: tail) rest k) :
    ∃ used more, a = used ++ more ∧ used.length = k ∧ rest = more ++ '"'.toUInt8 :: tail := by
  obtain ⟨used, hsplit, hquote, hlength⟩ := h.took
  rcases List.append_eq_append_iff.mp hsplit with ⟨more, rfl, hrest⟩ | ⟨more, rfl, hrest⟩
  · cases more with
    | nil => exact ⟨a, [], by simp, by simpa using hlength, by simpa using hrest.symm⟩
    | cons c more =>
        obtain ⟨rfl, -⟩ := List.cons.inj hrest
        exact absurd (by simp) hquote
  · exact ⟨used, more, rfl, hlength, hrest⟩

theorem hexDigit_quote : hexDigit '"'.toUInt8 = none := by decide

theorem codeUnit_took {unit : ℕ} (h : codeUnit text = some (unit, rest)) : Took text rest 4 := by
  cases text with
  | nil => cases h
  | cons a text =>
  cases text with
  | nil => cases h
  | cons b text =>
  cases text with
  | nil => cases h
  | cons c text =>
  cases text with
  | nil => cases h
  | cons d text =>
      simp only [codeUnit, Option.bind_eq_bind, Option.bind_eq_some_iff, Option.some.injEq,
        Prod.mk.injEq] at h
      obtain ⟨_, ha, _, hb, _, hc, _, hd, -, rfl⟩ := h
      refine ⟨[a, b, c, d], rfl, fun hmem => ?_, rfl⟩
      simp only [List.mem_cons, List.not_mem_nil, or_false] at hmem
      rcases hmem with rfl | rfl | rfl | rfl
      · simp [hexDigit_quote] at ha
      · simp [hexDigit_quote] at hb
      · simp [hexDigit_quote] at hc
      · simp [hexDigit_quote] at hd

theorem expectWord_took {word : Bytes} (hword : '"'.toUInt8 ∉ word)
    (h : expectWord word text = some rest) : Took text rest word.length := by
  obtain ⟨⟨more, rfl⟩, hrest⟩ := Option.ite_none_right_eq_some.mp h
  obtain rfl := Option.some.inj hrest
  exact ⟨word, by simp, hword, rfl⟩

theorem length_character (h : character n = some bytes) : bytes.length ≤ 4 := by
  rw [character] at h
  by_cases hvalid : n.isValidChar
  · rw [dif_pos hvalid] at h
    obtain rfl := Option.some.inj h
    rw [String.length_utf8EncodeChar]
    exact Char.utf8Size_le_four _
  · rw [dif_neg hvalid] at h
    cases h

/-- An escape takes at least as many bytes as it stands for. -/
theorem unicodeEscape_took (h : unicodeEscape text = some (bytes, rest)) :
    ∃ k, Took text rest k ∧ bytes.length ≤ k := by
  simp only [unicodeEscape, Option.bind_eq_bind, Option.bind_eq_some_iff] at h
  obtain ⟨⟨unit, more⟩, hunit, h⟩ := h
  have htook := codeUnit_took hunit
  split_ifs at h with hhigh
  · simp only [Option.bind_eq_some_iff] at h
    obtain ⟨more₁, hword, ⟨low, more₂⟩, hlow, h⟩ := h
    split_ifs at h with hlow'
    simp only [Option.bind_eq_some_iff, Option.some.injEq, Prod.mk.injEq] at h
    obtain ⟨_, hchar, rfl, rfl⟩ := h
    have hlength := length_character hchar
    exact ⟨_, (htook.trans (expectWord_took (by decide) hword)).trans (codeUnit_took hlow),
      by omega⟩
  · simp only [Option.bind_eq_some_iff, Option.some.injEq, Prod.mk.injEq] at h
    obtain ⟨_, hchar, rfl, rfl⟩ := h
    exact ⟨4, htook, length_character hchar⟩

theorem escape_took (hquote : b ≠ '"'.toUInt8) (h : escape (b :: text) = some (bytes, rest)) :
    ∃ k, Took (b :: text) rest (k + 1) ∧ bytes.length ≤ k + 1 := by
  have hfirst : Took (b :: text) text 1 :=
    ⟨[b], rfl, fun hmem => hquote (List.mem_singleton.mp hmem).symm, rfl⟩
  have hone : ∀ c : UInt8, some ([c], text) = some (bytes, rest) →
      ∃ k, Took (b :: text) rest (k + 1) ∧ bytes.length ≤ k + 1 := by
    rintro c ⟨⟩
    exact ⟨0, hfirst, Nat.le_refl _⟩
  rw [escape] at h
  split_ifs at h
  · exact hone _ h
  · exact hone _ h
  · exact hone _ h
  · exact hone _ h
  · exact hone _ h
  · exact hone _ h
  · obtain ⟨k, htook, hlength⟩ := unicodeEscape_took h
    exact ⟨k, Nat.add_comm 1 k ▸ hfirst.trans htook, by omega⟩

theorem stringBody_quote : stringBody (n + 1) ('"'.toUInt8 :: text) = some ([], text) :=
  if_pos rfl

theorem stringBody_slash : stringBody (n + 1) ('\\'.toUInt8 :: text) = some (s, rest) ↔
    ∃ bytes more dec, escape text = some (bytes, more) ∧ stringBody n more = some (dec, rest) ∧
      s = bytes ++ dec := by
  have hne : ¬ '\\'.toUInt8 = '"'.toUInt8 := by decide
  rw [stringBody, if_neg hne, if_pos rfl]
  simp only [Option.bind_eq_bind, Option.bind_eq_some_iff, Option.some.injEq, Prod.mk.injEq]
  constructor
  · rintro ⟨⟨bytes, more⟩, hescape, ⟨dec, rest'⟩, hbody, rfl, rfl⟩
    exact ⟨bytes, more, dec, hescape, hbody, rfl⟩
  · rintro ⟨bytes, more, dec, hescape, hbody, rfl⟩
    exact ⟨(bytes, more), hescape, (dec, rest), hbody, rfl, rfl⟩

theorem stringBody_char (hquote : b ≠ '"'.toUInt8) (hslash : b ≠ '\\'.toUInt8) :
    stringBody (n + 1) (b :: text) = some (s, rest) ↔
      32 ≤ b ∧ ∃ dec, stringBody n text = some (dec, rest) ∧ s = b :: dec := by
  rw [stringBody, if_neg hquote, if_neg hslash, Option.ite_none_left_eq_some, UInt8.not_lt]
  simp only [Option.bind_eq_bind, Option.bind_eq_some_iff, Option.some.injEq, Prod.mk.injEq]
  refine and_congr_right fun _ => ⟨?_, ?_⟩
  · rintro ⟨⟨dec, rest'⟩, hbody, rfl, rfl⟩
    exact ⟨dec, hbody, rfl⟩
  · rintro ⟨dec, hbody, rfl⟩
    exact ⟨(dec, rest), hbody, rfl, rfl⟩

/-- A string before the next quote is plain, or what is read instead is shorter or has a quote
in it. -/
theorem stringBody_before_quote (n : ℕ) :
    ∀ {a dec}, '"'.toUInt8 ∉ a → stringBody n (a ++ '"'.toUInt8 :: tail) = some (dec, rest) →
      (Plain a ∧ dec = a ∧ rest = tail) ∨ dec.length < a.length ∨
        '"'.toUInt8 ∈ dec.take a.length := by
  induction n with
  | zero =>
      rintro a dec - ⟨⟩
  | succ n ih =>
      rintro a dec hquote h
      cases a with
      | nil =>
          rw [List.nil_append, stringBody_quote] at h
          obtain ⟨rfl, rfl⟩ := Prod.mk.inj (Option.some.inj h)
          exact .inl ⟨List.forall_mem_nil _, rfl, rfl⟩
      | cons b a =>
          have hb : b ≠ '"'.toUInt8 := fun heq => hquote (heq ▸ List.mem_cons_self)
          have ha : '"'.toUInt8 ∉ a := fun hmem => hquote (List.mem_cons_of_mem b hmem)
          rw [List.cons_append] at h
          by_cases hslash : b = '\\'.toUInt8
          · subst hslash
            obtain ⟨bytes, more, dec', hescape, hbody, rfl⟩ := stringBody_slash.mp h
            right
            cases a with
            | nil =>
                right
                rw [List.nil_append, escape, if_pos (.inl rfl)] at hescape
                obtain ⟨rfl, rfl⟩ := Prod.mk.inj (Option.some.inj hescape)
                exact List.mem_cons_self
            | cons c a =>
                have hc : c ≠ '"'.toUInt8 := fun heq => ha (heq ▸ List.mem_cons_self)
                obtain ⟨k, htook, hlength⟩ := escape_took hc hescape
                obtain ⟨used, left, hsplit, hused, rfl⟩ := Took.before_quote (a := c :: a) htook
                have hleft : '"'.toUInt8 ∉ left := fun hmem =>
                  ha (hsplit ▸ List.mem_append_right used hmem)
                have htotal : (c :: a).length = (k + 1) + left.length := by
                  rw [hsplit, List.length_append, hused]
                rw [List.length_cons, htotal, List.length_append]
                rcases ih hleft hbody with ⟨-, rfl, -⟩ | hshort | hmem
                · left
                  omega
                · left
                  omega
                · right
                  rw [List.take_append]
                  exact List.mem_append_right _
                    (List.take_subset_take_left dec' (by omega) hmem)
          · obtain ⟨hlow, dec', hbody, rfl⟩ := (stringBody_char hb hslash).mp h
            rcases ih ha hbody with ⟨hplain, rfl, rfl⟩ | hshort | hmem
            · left
              exact ⟨List.forall_mem_cons.mpr ⟨⟨hlow, hb, hslash⟩, hplain⟩, rfl, rfl⟩
            · right
              left
              rw [List.length_cons, List.length_cons]
              omega
            · right
              right
              exact List.mem_cons_of_mem b hmem

theorem stringBody_plain (h : Plain a) : a.length < n →
    stringBody n (a ++ '"'.toUInt8 :: tail) = some (a, tail) := by
  induction a generalizing n with
  | nil =>
      intro hn
      cases n with
      | zero => exact absurd hn (Nat.not_lt_zero _)
      | succ n => exact stringBody_quote
  | cons b a ih =>
      intro hn
      cases n with
      | zero => exact absurd hn (Nat.not_lt_zero _)
      | succ n =>
          obtain ⟨⟨hlow, hquote, hslash⟩, hplain⟩ := List.forall_mem_cons.mp h
          exact (stringBody_char hquote hslash).mpr
            ⟨hlow, a, ih hplain (Nat.lt_of_succ_lt_succ hn), rfl⟩

/-- A string in quotes reads back as it stands exactly if it is plain. -/
theorem stringBody_eq_self_iff (hn : a.length < n) :
    stringBody n (a ++ '"'.toUInt8 :: tail) = some (a, rest) ↔ Plain a ∧ rest = tail := by
  constructor
  · intro h
    by_cases hquote : '"'.toUInt8 ∈ a
    · obtain ⟨front, back, rfl, hfront⟩ := List.eq_append_cons_of_mem hquote
      rw [List.append_assoc, List.cons_append] at h
      rcases stringBody_before_quote n hfront h with ⟨-, hall, -⟩ | hshort | hmem
      · simp at hall
      · rw [List.length_append] at hshort
        exact absurd hshort (by omega)
      · rw [List.take_left'] at hmem
        · exact absurd hmem hfront
        · rfl
    · rcases stringBody_before_quote n hquote h with ⟨hplain, -, hrest⟩ | hshort | hmem
      · exact ⟨hplain, hrest⟩
      · exact absurd hshort (Nat.lt_irrefl _)
      · exact absurd (List.mem_of_mem_take hmem) hquote
  · rintro ⟨hplain, rfl⟩
    exact stringBody_plain hplain hn

end Reading

section Elements

variable {α β : Type} {element : Bytes → Option (α × Bytes)} {closing : UInt8}
  {text : β → Bytes} {result : β → α} {good : β → Prop} {tail rest : Bytes} {n : ℕ}

/-- The texts of the elements are read back exactly if they are good, whatever follows. -/
def ReadsBack (element : Bytes → Option (α × Bytes)) (text : β → Bytes) (result : β → α)
    (good : β → Prop) : Prop :=
  ∀ x tail rest, element (skipSpace (text x ++ tail)) = some (result x, rest) ↔
    good x ∧ rest = tail

theorem skipSpace_cons {b : UInt8} (h : isSpace b = false) : skipSpace (b :: tail) = b :: tail := by
  rw [skipSpace, List.dropWhile_cons, h]
  rfl

theorem separated_succ {x : α} {xs : List α} {all : Bytes} :
    separated element closing (n + 1) all = some (x :: xs, rest) ↔
      ∃ more, element (skipSpace all) = some (x, more) ∧
        ((skipSpace more = closing :: rest ∧ xs = []) ∨
          (closing ≠ ','.toUInt8 ∧ ∃ next, skipSpace more = ','.toUInt8 :: next ∧
            separated element closing n next = some (xs, rest))) := by
  simp only [separated, Option.bind_eq_bind, Option.bind_eq_some_iff]
  constructor
  · rintro ⟨⟨y, more⟩, hfirst, h⟩
    cases hmore : skipSpace more with
    | nil =>
        rw [hmore] at h
        cases h
    | cons b next =>
        simp only [hmore] at h
        split_ifs at h with hclosing hcomma
        · obtain ⟨hxs, rfl⟩ := Prod.mk.inj (Option.some.inj h)
          obtain ⟨rfl, rfl⟩ := List.cons.inj hxs
          exact ⟨more, hfirst, .inl ⟨by rw [hmore, hclosing], rfl⟩⟩
        · obtain ⟨⟨ys, rest'⟩, hrest, h⟩ := Option.bind_eq_some_iff.mp h
          obtain ⟨hxs, rfl⟩ := Prod.mk.inj (Option.some.inj h)
          obtain ⟨rfl, rfl⟩ := List.cons.inj hxs
          refine ⟨more, hfirst, .inr ⟨fun heq => hclosing (hcomma.trans heq.symm), next, ?_, hrest⟩⟩
          rw [hmore, hcomma]
  · rintro ⟨more, hfirst, ⟨hmore, rfl⟩ | ⟨hne, next, hmore, hrest⟩⟩
    · refine ⟨(x, more), hfirst, ?_⟩
      simp only [hmore, if_true]
    · refine ⟨(x, more), hfirst, ?_⟩
      simp only [hmore, if_neg hne.symm, if_true, hrest, Option.bind_some]

theorem separated_commas (hread : ReadsBack element text result good)
    (hspace : isSpace closing = false) (hcomma : closing ≠ ','.toUInt8) (items : List β) :
    ∀ {n}, items.length ≤ n → items ≠ [] →
      (separated element closing n (commas (items.map text) ++ closing :: tail) =
        some (items.map result, rest) ↔ (∀ x ∈ items, good x) ∧ rest = tail) := by
  have hclosing : skipSpace (closing :: tail) = closing :: tail := skipSpace_cons hspace
  induction items with
  | nil =>
      rintro n - hne
      exact absurd rfl hne
  | cons x items ih =>
      rintro n hn -
      cases n with
      | zero => exact absurd hn (Nat.not_succ_le_zero _)
      | succ n =>
          cases items with
          | nil =>
              rw [List.map_cons, List.map_nil, List.map_cons, List.map_nil, commas, separated_succ,
                List.forall_mem_singleton]
              constructor
              · rintro ⟨more, hfirst, hmore⟩
                obtain ⟨hgood, rfl⟩ := (hread x _ _).mp hfirst
                rw [hclosing] at hmore
                rcases hmore with ⟨hmore, -⟩ | ⟨-, next, hmore, -⟩
                · exact ⟨hgood, (List.cons.inj hmore).2.symm⟩
                · exact absurd (List.cons.inj hmore).1 hcomma
              · rintro ⟨hgood, rfl⟩
                exact ⟨_, (hread x _ _).mpr ⟨hgood, rfl⟩, .inl ⟨hclosing, rfl⟩⟩
          | cons y items =>
              have hnext : ∀ more, skipSpace (ascii "," ++ more) = ','.toUInt8 :: more :=
                fun _ => skipSpace_cons (by decide)
              have hrest := ih (Nat.le_of_succ_le_succ hn) (List.cons_ne_nil y items)
              rw [List.map_cons] at hrest
              rw [List.map_cons, List.map_cons, commas, List.map_cons, separated_succ,
                List.append_assoc, List.append_assoc, List.forall_mem_cons, and_assoc]
              constructor
              · rintro ⟨more, hfirst, hmore⟩
                obtain ⟨hgood, rfl⟩ := (hread x _ _).mp hfirst
                rw [hnext] at hmore
                rcases hmore with ⟨hmore, -⟩ | ⟨-, next, hmore, htail⟩
                · exact absurd (List.cons.inj hmore).1.symm hcomma
                · obtain ⟨-, rfl⟩ := List.cons.inj hmore
                  exact ⟨hgood, hrest.mp htail⟩
              · rintro ⟨hgood, htail⟩
                exact ⟨_, (hread x _ _).mpr ⟨hgood, rfl⟩,
                  .inr ⟨hcomma, _, hnext _, hrest.mpr htail⟩⟩

theorem bracketed_commas (hread : ReadsBack element text result good)
    (hspace : isSpace closing = false) (hcomma : closing ≠ ','.toUInt8)
    (hfirst : ∀ x, ∃ b more, text x = b :: more ∧ isSpace b = false ∧ b ≠ closing)
    (items : List β) :
    bracketed element closing (commas (items.map text) ++ closing :: tail) =
      some (items.map result, rest) ↔ (∀ x ∈ items, good x) ∧ rest = tail := by
  have hnonempty : [] ∉ items.map text := by
    intro hmem
    obtain ⟨x, -, hx⟩ := List.mem_map.mp hmem
    obtain ⟨b, more, htext, -⟩ := hfirst x
    rw [htext] at hx
    cases hx
  cases items with
  | nil =>
      rw [List.map_nil, commas, List.nil_append, bracketed, skipSpace_cons hspace,
        expect_cons_self, List.map_nil, Option.some.injEq, Prod.mk.injEq]
      exact ⟨fun h => ⟨List.forall_mem_nil _, h.2.symm⟩, fun h => ⟨rfl, h.2.symm⟩⟩
  | cons x items =>
      obtain ⟨b, more, htext, hb, hne⟩ := hfirst x
      have hnone : expect closing
          (skipSpace (commas ((x :: items).map text) ++ closing :: tail)) = none := by
        obtain ⟨all, hall⟩ : ∃ all, commas ((x :: items).map text) = b :: all := by
          rw [List.map_cons, htext]
          cases items with
          | nil => exact ⟨more, rfl⟩
          | cons y items => exact ⟨_, rfl⟩
        rw [hall, List.cons_append, skipSpace_cons hb, expect, if_neg hne]
      have hlength := length_le_commas hnonempty
      rw [List.length_map] at hlength
      rw [bracketed, hnone]
      exact separated_commas hread hspace hcomma (x :: items)
        (by rw [List.length_append]; omega) (List.cons_ne_nil x items)

/-- Keys are read back exactly if they are plain. -/
theorem ReadsBack.keyed {key : β → Bytes} (hread : ReadsBack element text result good) :
    ReadsBack (keyed element) (fun x => member (key x) (text x)) (fun x => (key x, result x))
      (fun x => Plain (key x) ∧ good x) := by
  rintro x tail rest
  have htext : member (key x) (text x) ++ tail =
      '"'.toUInt8 :: (key x ++ '"'.toUInt8 :: (ascii ":" ++ (text x ++ tail))) := by
    have hquote : ascii "\"" = ['"'.toUInt8] := rfl
    simp [member, quoted, hquote]
  have hcolon : ∀ more, skipSpace (ascii ":" ++ more) = ':'.toUInt8 :: more :=
    fun _ => skipSpace_cons (by decide)
  have hkey : ∀ rest, stringBody (key x ++ '"'.toUInt8 :: (ascii ":" ++ (text x ++ tail))).length
      (key x ++ '"'.toUInt8 :: (ascii ":" ++ (text x ++ tail))) = some (key x, rest) ↔
        Plain (key x) ∧ rest = ascii ":" ++ (text x ++ tail) := fun rest =>
    stringBody_eq_self_iff (by rw [List.length_append, List.length_cons]; omega)
  rw [htext, skipSpace_cons (by decide), Json.keyed, expect_cons_self]
  simp only [Option.bind_eq_bind, Option.bind_some, Option.bind_eq_some_iff, Option.some.injEq,
    Prod.mk.injEq]
  constructor
  · rintro ⟨⟨k, more⟩, hbody, more', hmore, ⟨v, rest'⟩, hvalue, ⟨rfl, rfl⟩, rfl⟩
    obtain ⟨hplain, rfl⟩ := (hkey more).mp hbody
    rw [hcolon, expect_cons_self] at hmore
    obtain rfl := Option.some.inj hmore
    obtain ⟨hgood, hrest⟩ := (hread x tail rest').mp hvalue
    exact ⟨⟨hplain, hgood⟩, hrest⟩
  · rintro ⟨⟨hplain, hgood⟩, rfl⟩
    exact ⟨_, (hkey _).mpr ⟨hplain, rfl⟩, text x ++ rest, by rw [hcolon, expect_cons_self],
      _, (hread x rest rest).mpr ⟨hgood, rfl⟩, ⟨rfl, rfl⟩, rfl⟩

/-- A text that is read to its end exactly under a condition. -/
theorem document_iff {v : Value} {text : Bytes} {fits : Prop}
    (hread : ∀ rest, value text.length (skipSpace text) = some (v, rest) ↔ fits ∧ rest = []) :
    document text = some v ↔ Utf8.Valid text ∧ fits := by
  rw [document, Option.ite_none_right_eq_some]
  refine and_congr_right fun _ => ?_
  simp only [Option.bind_eq_bind, Option.bind_eq_some_iff]
  constructor
  · rintro ⟨⟨v', rest⟩, hvalue, hend⟩
    obtain ⟨-, hv⟩ := Option.ite_none_right_eq_some.mp hend
    obtain rfl := Option.some.inj hv
    exact ((hread rest).mp hvalue).1
  · intro hfits
    exact ⟨(v, []), (hread []).mpr ⟨hfits, rfl⟩, if_pos rfl⟩

/-- The compact text of an object reads back exactly if it is UTF-8, its keys are plain and its
values read back. -/
theorem document_object_iff {key : β → Bytes} {v : β → Value}
    (hread : ∀ n, ReadsBack (value (n + 1)) text v good) (items : List β) :
    document (ascii "\x7b" ++ commas (items.map fun x => member (key x) (text x)) ++ ascii "\x7d") =
        some (.object (items.map fun x => (key x, v x))) ↔
      Utf8.Valid (ascii "\x7b" ++ commas (items.map fun x => member (key x) (text x)) ++
        ascii "\x7d") ∧ ∀ x ∈ items, Plain (key x) ∧ good x := by
  set content := commas (items.map fun x => member (key x) (text x)) with hcontent
  have hall : ascii "\x7b" ++ content ++ ascii "\x7d" =
      '{'.toUInt8 :: (content ++ ['}'.toUInt8]) := rfl
  refine document_iff fun rest => ?_
  have hmember : ReadsBack (Json.keyed (value (content.length + 1)))
      (fun x => member (key x) (text x)) (fun x => (key x, v x))
      (fun x => Plain (key x) ∧ good x) := (hread content.length).keyed
  have hbracketed : bracketed (Json.keyed (value (content.length + 1))) '}'.toUInt8
      (content ++ ['}'.toUInt8]) = some (items.map fun x => (key x, v x), rest) ↔
        (∀ x ∈ items, Plain (key x) ∧ good x) ∧ rest = [] :=
    bracketed_commas hmember (by decide) (by decide)
      (fun x => ⟨'"'.toUInt8, _, rfl, by decide, by decide⟩) items
  rw [hall, skipSpace_cons (by decide), List.length_cons, List.length_append,
    List.length_singleton, value, if_neg (by decide), if_neg (by decide), if_pos rfl]
  simp only [Option.bind_eq_bind, Option.bind_eq_some_iff, Option.some.injEq, Prod.mk.injEq]
  constructor
  · rintro ⟨⟨members, rest'⟩, hmembers, hv, rfl⟩
    obtain rfl := Value.object.inj hv
    exact hbracketed.mp hmembers
  · intro hgood
    exact ⟨(_, rest), hbracketed.mpr hgood, rfl, rfl⟩

theorem ascii_text (s : String) (h : s.toList.all (fun c => c.toUInt8 < 128) = true) :
    ∀ b ∈ ascii s, Utf8.Ascii b := by
  intro b hb
  obtain ⟨c, hc, rfl⟩ := List.mem_map.mp hb
  exact UInt8.lt_iff_toNat_lt.mp (of_decide_eq_true (List.all_eq_true.mp h c hc))

theorem valid_commas (texts : List Bytes) :
    Utf8.Valid (commas texts) ↔ ∀ text ∈ texts, Utf8.Valid text := by
  induction texts with
  | nil => exact iff_of_true Utf8.valid_nil (List.forall_mem_nil _)
  | cons first rest ih =>
      cases rest with
      | nil => rw [commas, List.forall_mem_singleton]
      | cons second rest =>
          rw [commas, List.append_assoc,
            Utf8.valid_append_ascii_append (by decide) (ascii_text _ (by decide)), ih,
            ← List.forall_mem_cons]

theorem valid_quoted {s : Bytes} : Utf8.Valid (quoted s) ↔ Utf8.Valid s := by
  rw [quoted, List.append_assoc, Utf8.valid_ascii_append (ascii_text _ (by decide))]
  have hcut := Utf8.valid_append_ascii_append (s := s) (t := []) (a := ascii "\"") (by decide)
    (ascii_text _ (by decide))
  rw [List.append_nil] at hcut
  exact hcut.trans (and_iff_left Utf8.valid_nil)

theorem valid_member {key more : Bytes} :
    Utf8.Valid (member key more) ↔ Utf8.Valid key ∧ Utf8.Valid more := by
  rw [member, List.append_assoc,
    Utf8.valid_append_ascii_append (by decide) (ascii_text _ (by decide)), valid_quoted]

end Elements

end Json
