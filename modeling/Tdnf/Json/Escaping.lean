import Tdnf.Json.Documents
import Tdnf.Library.JsonReader

/-!
# Strings in JSON documents

What a reader of JSON makes of the strings that were added to a map. Values go
through `jsonify_string`, which knows five of the control characters; keys are
written between quotes as they are.
-/

namespace Tdnf.JsonDump

open Json Procedure

/-- The only control characters are those `jsonify_string` escapes. -/
def Printable (s : Bytes) : Prop :=
  ∀ b ∈ s, 32 ≤ b ∨ b = 8 ∨ b = 9 ∨ b = 10 ∨ b = 12 ∨ b = 13

instance (s : Bytes) : Decidable (Printable s) := List.decidableBAll _ s

section Strings

variable {s tail rest front : Bytes} {b : UInt8} {n : ℕ}

/-- A byte is written as an escape that stands for it, or as it is. -/
theorem jsonifyByte_cases (b : UInt8) :
    (∃ c, jsonifyByte b = ['\\'.toUInt8, c] ∧ (∀ more, escape (c :: more) = some ([b], more)) ∧
      Utf8.Ascii c ∧ Utf8.Ascii b ∧ (32 ≤ b ∨ b = 8 ∨ b = 9 ∨ b = 10 ∨ b = 12 ∨ b = 13)) ∨
    (jsonifyByte b = [b] ∧ b ≠ '"'.toUInt8 ∧ b ≠ '\\'.toUInt8 ∧
      ¬ (b = 8 ∨ b = 9 ∨ b = 10 ∨ b = 12 ∨ b = 13)) := by
  rw [jsonifyByte]
  split_ifs with hquote hslash hb hf hn hr ht
  · subst hquote
    exact .inl ⟨_, rfl, fun _ => rfl, by decide, by decide, by decide⟩
  · subst hslash
    exact .inl ⟨_, rfl, fun _ => rfl, by decide, by decide, by decide⟩
  · subst hb
    exact .inl ⟨_, rfl, fun _ => rfl, by decide, by decide, by decide⟩
  · subst hf
    exact .inl ⟨_, rfl, fun _ => rfl, by decide, by decide, by decide⟩
  · subst hn
    exact .inl ⟨_, rfl, fun _ => rfl, by decide, by decide, by decide⟩
  · subst hr
    exact .inl ⟨_, rfl, fun _ => rfl, by decide, by decide, by decide⟩
  · subst ht
    exact .inl ⟨_, rfl, fun _ => rfl, by decide, by decide, by decide⟩
  · refine .inr ⟨rfl, hquote, hslash, ?_⟩
    rintro (h | h | h | h | h)
    · exact hb h
    · exact ht h
    · exact hn h
    · exact hf h
    · exact hr h

/-- An escaped string reads back exactly if it is printable. -/
theorem stringBody_jsonify : ∀ {n}, (s.flatMap jsonifyByte).length < n →
    (stringBody n (s.flatMap jsonifyByte ++ '"'.toUInt8 :: tail) = some (s, rest) ↔
      Printable s ∧ rest = tail) := by
  induction s with
  | nil =>
      rintro n hn
      cases n with
      | zero => exact absurd hn (Nat.not_lt_zero _)
      | succ n =>
          rw [List.flatMap_nil, List.nil_append, stringBody_quote, Option.some.injEq,
            Prod.mk.injEq]
          exact ⟨fun h => ⟨List.forall_mem_nil _, h.2.symm⟩, fun h => ⟨rfl, h.2.symm⟩⟩
  | cons b s ih =>
      rintro n hn
      cases n with
      | zero => exact absurd hn (Nat.not_lt_zero _)
      | succ n =>
          rw [List.flatMap_cons] at hn ⊢
          rw [Printable, List.forall_mem_cons, and_assoc]
          rcases jsonifyByte_cases b with
            ⟨c, hbyte, hescape, -, -, hallowed⟩ | ⟨hbyte, hquote, hslash, hnone⟩
          · rw [hbyte] at hn ⊢
            simp only [List.cons_append, List.nil_append, List.length_cons] at hn ⊢
            rw [stringBody_slash]
            constructor
            · rintro ⟨bytes, more, dec, hesc, hbody, hs⟩
              obtain ⟨rfl, rfl⟩ := Prod.mk.inj (Option.some.inj ((hescape _).symm.trans hesc))
              obtain ⟨-, rfl⟩ := List.cons.inj hs
              exact ⟨hallowed, (ih (by omega)).mp hbody⟩
            · rintro ⟨-, hrest⟩
              exact ⟨[b], _, s, hescape _, (ih (by omega)).mpr hrest, rfl⟩
          · rw [hbyte] at hn ⊢
            simp only [List.cons_append, List.nil_append, List.length_cons] at hn ⊢
            rw [stringBody_char hquote hslash, or_iff_left hnone]
            refine and_congr_right fun _ => ?_
            constructor
            · rintro ⟨dec, hbody, hs⟩
              obtain ⟨-, rfl⟩ := List.cons.inj hs
              exact (ih (by omega)).mp hbody
            · rintro hrest
              exact ⟨s, (ih (by omega)).mpr hrest, rfl⟩

/-- Escaping keeps UTF-8, and it makes nothing else UTF-8. -/
theorem valid_flatMap_jsonifyByte : ∀ front,
    Utf8.Valid (front ++ s.flatMap jsonifyByte) ↔ Utf8.Valid (front ++ s) := by
  induction s with
  | nil => exact fun _ => Iff.rfl
  | cons b s ih =>
      intro front
      rw [List.flatMap_cons]
      rcases jsonifyByte_cases b with ⟨c, hbyte, -, hc, hb, -⟩ | ⟨hbyte, -⟩
      · have hascii : ∀ x ∈ ['\\'.toUInt8, c], Utf8.Ascii x := by
          rintro x hx
          rcases List.mem_cons.mp hx with rfl | hx
          · decide
          · exact List.mem_singleton.mp hx ▸ hc
        have hrest := ih []
        rw [List.nil_append, List.nil_append] at hrest
        rw [hbyte, Utf8.valid_append_ascii_append (List.cons_ne_nil _ _) hascii, hrest,
          Utf8.valid_append_cons_iff hb]
      · rw [hbyte, ← List.append_assoc, ih, List.append_assoc, List.singleton_append]

theorem jsonifyString_eq (s : Bytes) : jsonifyString s = quoted (s.flatMap jsonifyByte) := rfl

theorem valid_jsonifyString : Utf8.Valid (jsonifyString s) ↔ Utf8.Valid s := by
  rw [jsonifyString_eq, valid_quoted]
  exact valid_flatMap_jsonifyByte []

theorem jsonifyString_append (s tail : Bytes) : jsonifyString s ++ tail =
    '"'.toUInt8 :: (s.flatMap jsonifyByte ++ '"'.toUInt8 :: tail) := by
  have hquote : ascii "\"" = ['"'.toUInt8] := rfl
  simp [jsonifyString, hquote]

/-- The literal of a string is read back exactly if the string is printable, whatever follows. -/
theorem value_jsonifyString (s tail rest : Bytes) (n : ℕ) :
    value (n + 1) (skipSpace (jsonifyString s ++ tail)) = some (.string s, rest) ↔
      Printable s ∧ rest = tail := by
  have hbody : ∀ rest, stringBody (s.flatMap jsonifyByte ++ '"'.toUInt8 :: tail).length
      (s.flatMap jsonifyByte ++ '"'.toUInt8 :: tail) = some (s, rest) ↔
        Printable s ∧ rest = tail := fun rest =>
    stringBody_jsonify (by rw [List.length_append, List.length_cons]; omega)
  rw [jsonifyString_append, skipSpace_cons (by decide), value, if_pos rfl]
  simp only [Option.bind_eq_bind, Option.bind_eq_some_iff, Option.some.injEq, Prod.mk.injEq]
  constructor
  · rintro ⟨⟨dec, more⟩, hread, hdec, rfl⟩
    obtain rfl := Value.string.inj hdec
    exact (hbody _).mp hread
  · intro hgood
    exact ⟨(s, rest), (hbody _).mpr hgood, rfl, rfl⟩

/-- The literal of a string is a JSON text for it exactly if the string is printable UTF-8. -/
theorem document_jsonifyString_iff (s : Bytes) :
    document (jsonifyString s) = some (.string s) ↔ Utf8.Valid s ∧ Printable s := by
  rw [← valid_jsonifyString]
  refine document_iff fun rest => ?_
  have hread := value_jsonifyString s [] rest ((s.flatMap jsonifyByte).length + 1)
  rw [List.append_nil] at hread
  exact hread

end Strings

section Maps

/-- What `jd_map_add_string` writes for a value. -/
def valueText : Option CString → Bytes
  | none => ascii "null"
  | some s => jsonifyString s.val

/-- What it stands for. -/
def stringValue : Option CString → Value
  | none => .null
  | some s => .string s.val

/-- Members that are added with `jd_map_add_string`, and the map they make. -/
abbrev Members := List (CString × Option CString)

def Members.text (members : Members) : Bytes :=
  ascii "\x7b" ++ commas (members.map fun m => member m.1.val (valueText m.2)) ++ ascii "\x7d"

def Members.value (members : Members) : Value :=
  .object (members.map fun m => (m.1.val, stringValue m.2))

/-- Keys and values that survive. -/
structure Members.Clean (members : Members) : Prop where
  keys : ∀ m ∈ members, Utf8.Valid m.1.val ∧ Plain m.1.val
  values : ∀ m ∈ members, ∀ s ∈ m.2, Utf8.Valid s.val ∧ Printable s.val

theorem valueText_readsBack (n : ℕ) :
    ReadsBack (Json.value (n + 1)) valueText stringValue (fun v => ∀ s ∈ v, Printable s.val) := by
  rintro v tail rest
  cases v with
  | none =>
      have hnull : Json.value (n + 1) (skipSpace (ascii "null" ++ tail)) = some (.null, tail) := rfl
      rw [valueText, hnull, stringValue, Option.some.injEq, Prod.mk.injEq]
      exact ⟨fun h => ⟨fun _ hs => (by cases hs), h.2.symm⟩, fun h => ⟨rfl, h.2.symm⟩⟩
  | some s =>
      rw [valueText, stringValue, value_jsonifyString]
      exact and_congr_left fun _ => by simp

theorem valid_valueText (v : Option CString) :
    Utf8.Valid (valueText v) ↔ ∀ s ∈ v, Utf8.Valid s.val := by
  cases v with
  | none =>
      exact iff_of_true (Utf8.valid_ascii (ascii_text _ (by decide))) fun _ hs => (by cases hs)
  | some s =>
      rw [valueText, valid_jsonifyString]
      simp

theorem Members.valid_text (members : Members) : Utf8.Valid members.text ↔
    ∀ m ∈ members, Utf8.Valid m.1.val ∧ ∀ s ∈ m.2, Utf8.Valid s.val := by
  have hcut := Utf8.valid_append_ascii_append (t := [])
    (s := commas (members.map fun m => member m.1.val (valueText m.2))) (a := ascii "\x7d")
    (by decide) (ascii_text _ (by decide))
  rw [List.append_nil, and_iff_left Utf8.valid_nil] at hcut
  rw [Members.text, List.append_assoc, Utf8.valid_ascii_append (ascii_text _ (by decide)), hcut,
    valid_commas, List.forall_mem_map]
  refine forall₂_congr fun m _ => ?_
  rw [valid_member, valid_valueText]

/-- A map of strings reads back exactly if its keys and values are clean. -/
theorem Members.document_iff (members : Members) :
    document members.text = some members.value ↔ members.Clean := by
  have hread : document members.text = some members.value ↔ Utf8.Valid members.text ∧
      ∀ m ∈ members, Plain m.1.val ∧ ∀ s ∈ m.2, Printable s.val :=
    document_object_iff (fun n m => valueText_readsBack n m.2) members
  rw [hread, members.valid_text]
  constructor
  · rintro ⟨hvalid, hgood⟩
    exact ⟨fun m hm => ⟨(hvalid m hm).1, (hgood m hm).1⟩,
      fun m hm s hs => ⟨(hvalid m hm).2 s hs, (hgood m hm).2 s hs⟩⟩
  · rintro ⟨hkeys, hvalues⟩
    exact ⟨fun m hm => ⟨(hkeys m hm).1, fun s hs => (hvalues m hm s hs).1⟩,
      fun m hm => ⟨(hkeys m hm).2, fun s hs => (hvalues m hm s hs).2⟩⟩

end Maps

section Dumps

variable (junk : ℕ → UInt8)

/-- `jd_map_add_string` for each member. -/
def jdMapAddStrings : Members → DumpProc Unit
  | [] => pure ()
  | (key, v) :: rest => do
    jdMapAddString junk key.val (v.map Subtype.val)
    jdMapAddStrings rest

/-- A map of strings in a dump. -/
def mapOfStrings (members : Members) : DumpProc Unit := do
  jdMapStart junk
  jdMapAddStrings junk members

/-- Every member fits the arithmetic of the dump it is added to. -/
def MembersFit : JsonDump → Members → Prop
  | _, [] => True
  | jd, (key, v) :: rest => jd.Fits ((member key.val (valueText v)).length + 2) ∧
      match (jdMapAddString junk key.val (v.map Subtype.val)).run jd with
      | .ok _ jd' => MembersFit jd' rest
      | .error _ _ => True

/-- The same for a new dump of a given size. -/
def MapFits (size : UInt32) (members : Members) : Prop :=
  match (jdMapStart junk).run (jdCreate size) with
  | .ok _ jd => MembersFit junk jd members
  | .error _ _ => True

instance MembersFit.decide : (jd : JsonDump) → (members : Members) →
    Decidable (MembersFit junk jd members)
  | _, [] => isTrue trivial
  | jd, (key, v) :: rest =>
    have : Decidable (match (jdMapAddString junk key.val (v.map Subtype.val)).run jd with
        | .ok _ jd' => MembersFit junk jd' rest
        | .error _ _ => True) :=
      match (jdMapAddString junk key.val (v.map Subtype.val)).run jd with
      | .ok _ jd' => MembersFit.decide jd' rest
      | .error _ _ => isTrue trivial
    inferInstanceAs (Decidable (_ ∧ _))

instance (size : UInt32) (members : Members) : Decidable (MapFits junk size members) :=
  show Decidable (match (jdMapStart junk).run (jdCreate size) with
      | .ok _ jd => MembersFit junk jd members
      | .error _ _ => True) from
    match (jdMapStart junk).run (jdCreate size) with
    | .ok _ jd => MembersFit.decide junk jd members
    | .error _ _ => isTrue trivial

variable {junk}

theorem jdMapAddString_eq (key : Bytes) (v : Option CString) :
    jdMapAddString junk key (v.map Subtype.val) = jdMapAddRaw junk key (valueText v) := by
  cases v with
  | none => rfl
  | some s => rfl

theorem endsWell_valueText (v : Option CString) : EndsWell (valueText v) := by
  cases v with
  | none => exact ⟨by decide, _, rfl, by decide⟩
  | some s =>
      refine endsWell_quoted fun hmem => ?_
      obtain ⟨b, hb, hzero⟩ := List.mem_flatMap.mp hmem
      rcases jsonifyByte_cases b with ⟨c, hbyte, hescape, -, -, -⟩ | ⟨hbyte, -⟩
      · have hnone : escape [0] = none := by decide
        rw [hbyte] at hzero
        rcases List.mem_cons.mp hzero with hzero | hzero
        · exact absurd hzero (by decide)
        · obtain rfl := List.mem_singleton.mp hzero
          exact absurd (hnone.symm.trans (hescape [])) (by simp)
      · rw [hbyte, List.mem_singleton] at hzero
        exact s.property (hzero ▸ hb)

/-- Adding members that fit writes them behind those that are there. -/
theorem jdMapAddStrings_run (members : Members) : ∀ {jd : JsonDump} {texts : List Bytes},
    jd.Spells (enclosed mapBrackets (commas texts)) → GoodTexts mapBrackets texts →
    MembersFit junk jd members → ∃ jd', (jdMapAddStrings junk members).run jd = .ok () jd' ∧
      cString jd'.buf = some (enclosed mapBrackets
        (commas (texts ++ members.map fun m => member m.1.val (valueText m.2)))) := by
  induction members with
  | nil =>
      rintro jd texts hspells hgood -
      refine ⟨jd, rfl, ?_⟩
      rw [List.map_nil, List.append_nil]
      exact cString_spells hspells (GoodTexts.endsWell hgood (.inl rfl)).zero
  | cons m rest ih =>
      obtain ⟨key, v⟩ := m
      rintro jd texts hspells hgood ⟨hfits, hrest⟩
      obtain ⟨jd', hrun, hspells'⟩ := addRaw_run junk hspells hgood.ready hfits
      have hadd : (jdMapAddString junk key.val (v.map Subtype.val)).run jd = .ok () jd' := by
        rw [jdMapAddString_eq, jdMapAddRaw_eq]
        exact hrun
      rw [hadd] at hrest
      rw [← hgood.commas_concat] at hspells'
      have hgood' := hgood.concat (endsWell_member key.property (endsWell_valueText v)) (.inl rfl)
      obtain ⟨jd'', hrun', hbuf⟩ := ih hspells' hgood' hrest
      refine ⟨jd'', ?_, ?_⟩
      · rw [jdMapAddStrings, run_bind_ok hadd]
        exact hrun'
      · rw [hbuf, List.append_assoc]
        rfl

/-- A map whose members fit is written as its text. -/
theorem mapOfStrings_run {size : UInt32} {members : Members} (h : MapFits junk size members) :
    ∃ jd, (mapOfStrings junk members).run (jdCreate size) = .ok () jd ∧
      cString jd.buf = some members.text := by
  obtain ⟨jd₁, hstart, hspells⟩ := start_run mapBrackets junk (jdCreate_blank size)
  have hstart' : (jdMapStart junk).run (jdCreate size) = .ok () jd₁ := hstart
  rw [MapFits, hstart'] at h
  obtain ⟨jd, hrun, hbuf⟩ := jdMapAddStrings_run members hspells (goodTexts_nil mapBrackets) h
  exact ⟨jd, by rw [mapOfStrings, run_bind_ok hstart', hrun], hbuf⟩

/-- A string that goes through `jsonify_string` reads back exactly if it is UTF-8 without other
control characters than those with an escape of their own; a map of strings reads back exactly
if this holds of its values and its keys are UTF-8 without any character that JSON escapes. -/
theorem strings_roundTrip_iff (s : CString) (size : UInt32) (members : Members) :
    (document (jsonifyString s.val) = some (.string s.val) ↔
      Utf8.Valid s.val ∧ Printable s.val) ∧
    (document members.text = some members.value ↔ members.Clean) ∧
    (MapFits junk size members → ∃ jd,
      (mapOfStrings junk members).run (jdCreate size) = .ok () jd ∧
        cString jd.buf = some members.text) :=
  ⟨document_jsonifyString_iff s.val, members.document_iff, mapOfStrings_run⟩

/-- Strings with an escaped character and with a character outside ASCII, and no string. -/
def exampleMembers : Members :=
  [(literal "name", some (literal "a\tb")), (literal "summary", some ⟨[195, 164], by decide⟩),
    (literal "url", none)]

theorem exampleMembers_text : ∃ jd,
    (mapOfStrings (fun _ => 255) exampleMembers).run (jdCreate 1) = .ok () jd ∧
      cString jd.buf = some exampleMembers.text :=
  (strings_roundTrip_iff (literal "") 1 exampleMembers).2.2 (by decide +kernel)

/-- A control character is left in the literal, and a quote is left in a key. -/
theorem control_and_quote_unreadable :
    document (jsonifyString [1]) ≠ some (.string [1]) ∧
      document (Members.text [(literal "\"", none)]) ≠
        some (Members.value [(literal "\"", none)]) := by
  constructor
  · intro h
    have hprintable := ((document_jsonifyString_iff [1]).mp h).2
    exact absurd hprintable (by decide)
  · intro h
    have hclean := (Members.document_iff _).mp h
    have hplain := (hclean.keys _ List.mem_cons_self).2
    exact absurd hplain (by decide)

end Dumps

end Tdnf.JsonDump
