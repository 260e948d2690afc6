import Mathlib.Data.List.Basic

/-!
# UTF-8 byte strings

A byte string is UTF-8 if it encodes a list of characters. An ASCII byte stands
for itself and occurs in no other encoding, so a byte string can be cut at it.
-/

namespace Utf8

/-- The UTF-8 bytes of characters. -/
def encode (cs : List Char) : List UInt8 := cs.flatMap String.utf8EncodeChar

/-- The byte string is UTF-8. -/
def Valid (s : List UInt8) : Prop := s.toByteArray.IsValidUTF8

instance (s : List UInt8) : Decidable (Valid s) :=
  inferInstanceAs (Decidable (ByteArray.IsValidUTF8 _))

/-- An ASCII byte. -/
def Ascii (b : UInt8) : Prop := b.toNat < 128

instance (b : UInt8) : Decidable (Ascii b) := inferInstanceAs (Decidable (_ < _))

variable {s t a : List UInt8} {b : UInt8}

theorem valid_iff : Valid s ↔ ∃ cs, s = encode cs := by
  constructor
  · rintro ⟨cs, hcs⟩
    have hdata := congrArg (fun bytes => bytes.data.toList) hcs
    rw [List.utf8Encode, List.toList_data_toByteArray, List.toList_data_toByteArray] at hdata
    exact ⟨cs, hdata⟩
  · rintro ⟨cs, rfl⟩
    exact ⟨cs, rfl⟩

/-- A character is one ASCII byte, or none of its bytes is ASCII. -/
theorem encodeChar_cases (c : Char) :
    (∃ b, Ascii b ∧ String.utf8EncodeChar c = [b]) ∨
      ∀ b ∈ String.utf8EncodeChar c, ¬ Ascii b := by
  have hhigh : ∀ n : ℕ, 128 ≤ n → n < 256 → ¬ Ascii (UInt8.ofNat n) := by
    rintro n hlow hbound hascii
    rw [Ascii, UInt8.toNat_ofNat'] at hascii
    omega
  rw [String.utf8EncodeChar]
  split_ifs with hone htwo hthree
  · left
    refine ⟨_, ?_, rfl⟩
    rw [Ascii, UInt8.toNat_ofNat']
    omega
  all_goals
    right
    intro b hb
    simp only [List.mem_cons, List.not_mem_nil, or_false] at hb
  · rcases hb with rfl | rfl
    · exact hhigh _ (by omega) (by omega)
    · exact hhigh _ (by omega) (by omega)
  · rcases hb with rfl | rfl | rfl
    · exact hhigh _ (by omega) (by omega)
    · exact hhigh _ (by omega) (by omega)
    · exact hhigh _ (by omega) (by omega)
  · rcases hb with rfl | rfl | rfl | rfl
    · exact hhigh _ (by omega) (by omega)
    · exact hhigh _ (by omega) (by omega)
    · exact hhigh _ (by omega) (by omega)
    · exact hhigh _ (by omega) (by omega)

theorem valid_nil : Valid [] := valid_iff.mpr ⟨[], rfl⟩

theorem Valid.append (hs : Valid s) (ht : Valid t) : Valid (s ++ t) := by
  obtain ⟨cs, rfl⟩ := valid_iff.mp hs
  obtain ⟨ds, rfl⟩ := valid_iff.mp ht
  exact valid_iff.mpr ⟨cs ++ ds, List.flatMap_append.symm⟩

theorem encodeChar_of_low {c : Char} (h : c.val.toNat ≤ 0x7f) :
    String.utf8EncodeChar c = [UInt8.ofNat c.val.toNat] := if_pos h

theorem valid_singleton (hb : Ascii b) : Valid [b] := by
  have hlow : b.toNat < 128 := hb
  have hvalid : b.toNat.isValidChar := .inl (by omega)
  obtain ⟨c, hc⟩ : ∃ c : Char, c.val.toNat = b.toNat := ⟨Char.ofNatAux b.toNat hvalid, rfl⟩
  refine valid_iff.mpr ⟨[c], ?_⟩
  rw [encode, List.flatMap_cons, List.flatMap_nil, List.append_nil,
    encodeChar_of_low (by omega), hc, UInt8.ofNat_toNat]

/-- Cutting an encoding at an ASCII byte. -/
theorem encode_eq_append_cons (hb : Ascii b) (cs : List Char) :
    ∀ s, encode cs = s ++ b :: t → Valid s ∧ Valid t := by
  induction cs with
  | nil =>
      rintro s h
      cases s with
      | nil => cases h
      | cons _ _ => cases h
  | cons c rest ih =>
      rintro s h
      rw [encode, List.flatMap_cons] at h
      rcases List.append_eq_append_iff.mp h with ⟨more, rfl, hrest⟩ | ⟨more, hchar, hrest⟩
      · obtain ⟨hmore, ht⟩ := ih more hrest
        exact ⟨Valid.append (valid_iff.mpr ⟨[c], by simp [encode]⟩) hmore, ht⟩
      · cases more with
        | nil =>
            rw [List.append_nil] at hchar
            obtain ⟨-, ht⟩ := ih [] hrest.symm
            exact ⟨valid_iff.mpr ⟨[c], by simp [encode, hchar]⟩, ht⟩
        | cons first more =>
            obtain ⟨rfl, rfl⟩ := List.cons.inj hrest
            rcases encodeChar_cases c with ⟨b', -, hsingle⟩ | hhigh
            · rw [hsingle] at hchar
              cases s with
              | nil =>
                  obtain ⟨-, rfl⟩ := List.cons.inj hchar
                  exact ⟨valid_nil, valid_iff.mpr ⟨rest, rfl⟩⟩
              | cons _ s => simp at hchar
            · exact absurd hb (hhigh b (by simp [hchar]))

theorem valid_append_cons_iff (hb : Ascii b) : Valid (s ++ b :: t) ↔ Valid s ∧ Valid t := by
  constructor
  · intro h
    obtain ⟨cs, hcs⟩ := valid_iff.mp h
    exact encode_eq_append_cons hb cs s hcs.symm
  · rintro ⟨hs, ht⟩
    exact Valid.append hs (Valid.append (valid_singleton hb) ht)

/-- ASCII text in front does not matter. -/
theorem valid_ascii_append (ha : ∀ b ∈ a, Ascii b) : Valid (a ++ t) ↔ Valid t := by
  induction a with
  | nil => exact Iff.rfl
  | cons b rest ih =>
      have hcut := valid_append_cons_iff (s := []) (t := rest ++ t) (ha b List.mem_cons_self)
      rw [List.cons_append, ← ih fun c hc => ha c (List.mem_cons_of_mem b hc)]
      exact hcut.trans (and_iff_right valid_nil)

theorem valid_ascii (ha : ∀ b ∈ a, Ascii b) : Valid a := by
  have h := (valid_ascii_append (t := []) ha).mpr valid_nil
  rwa [List.append_nil] at h

/-- ASCII text in the middle separates. -/
theorem valid_append_ascii_append (hne : a ≠ []) (ha : ∀ b ∈ a, Ascii b) :
    Valid (s ++ (a ++ t)) ↔ Valid s ∧ Valid t := by
  cases a with
  | nil => exact absurd rfl hne
  | cons b rest =>
      rw [List.cons_append, valid_append_cons_iff (ha b List.mem_cons_self),
        valid_ascii_append fun c hc => ha c (List.mem_cons_of_mem b hc)]

end Utf8
