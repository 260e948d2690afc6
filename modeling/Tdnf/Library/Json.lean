import Mathlib.Algebra.Ring.Nat
import Mathlib.Data.Int.Notation
import Mathlib.Data.List.Basic
import Mathlib.Tactic.SplitIfs

/-!
# JSON values and their compact text

Values are trees whose strings are byte strings and whose numbers are kept as
they are written. The compact text has no white space, and it writes strings as
they are, so it is meant for strings without quotes, backslashes and control
characters.
-/

namespace Json

abbrev Bytes := List UInt8

/-- The bytes of a text with ASCII characters only. -/
def ascii (s : String) : Bytes := s.toList.map Char.toUInt8

inductive Value where
  | null
  | bool (b : Bool)
  | number (lexeme : Bytes)
  | string (s : Bytes)
  | array (items : List Value)
  | object (members : List (Bytes × Value))

/-- A number without fraction and exponent. -/
def decimal (n : ℤ) : Bytes :=
  (if n < 0 then ascii "-" else []) ++ (Nat.toDigits 10 n.natAbs).map Char.toUInt8

/-- A string without characters that JSON escapes. -/
def Plain (s : Bytes) : Prop := ∀ b ∈ s, 32 ≤ b ∧ b ≠ '"'.toUInt8 ∧ b ≠ '\\'.toUInt8

instance (s : Bytes) : Decidable (Plain s) := List.decidableBAll _ s

/-- A string in quotes. -/
def quoted (s : Bytes) : Bytes := ascii "\"" ++ s ++ ascii "\""

/-- Texts with commas between them. -/
def commas : List Bytes → Bytes
  | [] => []
  | [text] => text
  | text :: next :: rest => text ++ ascii "," ++ commas (next :: rest)

/-- A member of an object. -/
def member (key text : Bytes) : Bytes := quoted key ++ ascii ":" ++ text

mutual

/-- The compact text of a value. -/
def Value.text : Value → Bytes
  | .null => ascii "null"
  | .bool b => ascii (if b then "true" else "false")
  | .number lexeme => lexeme
  | .string s => quoted s
  | .array items => ascii "[" ++ commas (itemTexts items) ++ ascii "]"
  | .object members => ascii "\x7b" ++ commas (memberTexts members) ++ ascii "\x7d"

def itemTexts : List Value → List Bytes
  | [] => []
  | v :: rest => v.text :: itemTexts rest

def memberTexts : List (Bytes × Value) → List Bytes
  | [] => []
  | (key, v) :: rest => member key v.text :: memberTexts rest

end

example : (Value.object [(ascii "a", .array [.null, .number (decimal (-10))])]).text =
    ascii "\x7b\"a\":[null,-10]\x7d" := by decide

theorem itemTexts_concat (items : List Value) (v : Value) :
    itemTexts (items ++ [v]) = itemTexts items ++ [v.text] := by
  induction items with
  | nil => rfl
  | cons first rest ih => rw [List.cons_append, itemTexts, ih, itemTexts, List.cons_append]

theorem memberTexts_concat (members : List (Bytes × Value)) (key : Bytes) (v : Value) :
    memberTexts (members ++ [(key, v)]) = memberTexts members ++ [member key v.text] := by
  induction members with
  | nil => rfl
  | cons first rest ih =>
      obtain ⟨k, u⟩ := first
      rw [List.cons_append, memberTexts, ih, memberTexts, List.cons_append]

/-- One more text goes behind a comma, unless it is the first. -/
theorem commas_concat (texts : List Bytes) (text : Bytes) :
    commas (texts ++ [text]) =
      if texts = [] then text else commas texts ++ ascii "," ++ text := by
  induction texts with
  | nil => rfl
  | cons first rest ih =>
      cases rest with
      | nil => rfl
      | cons second rest =>
          rw [if_neg (List.cons_ne_nil _ _)] at ih ⊢
          rw [List.cons_append, List.cons_append, commas, ← List.cons_append, ih, commas]
          simp only [List.append_assoc]

/-- Only no text at all is joined to nothing. -/
theorem commas_eq_nil_iff {texts : List Bytes} (h : [] ∉ texts) :
    commas texts = [] ↔ texts = [] := by
  constructor
  · intro hnil
    cases texts with
    | nil => rfl
    | cons first rest =>
        have hfirst : first ≠ [] := fun heq => h (heq ▸ List.mem_cons_self)
        cases rest with
        | nil => exact absurd hnil hfirst
        | cons second rest =>
            obtain ⟨hhead, -⟩ := List.append_eq_nil_iff.mp hnil
            exact absurd (List.append_eq_nil_iff.mp hhead).1 hfirst
  · rintro rfl
    rfl

theorem length_le_commas {texts : List Bytes} (h : [] ∉ texts) :
    texts.length ≤ (commas texts).length := by
  induction texts with
  | nil => exact Nat.le_refl 0
  | cons first rest ih =>
      have hfirst : first ≠ [] := fun heq => h (heq ▸ List.mem_cons_self)
      have hpos := List.length_pos_of_ne_nil hfirst
      have hrest := ih fun hmem => h (List.mem_cons_of_mem first hmem)
      cases rest with
      | nil => exact hpos
      | cons second rest =>
          rw [List.length_cons, commas, List.length_append, List.length_append]
          omega

/-- The characters of a number are digits and the minus sign. -/
theorem mem_decimal {n : ℤ} {b : UInt8} (h : b ∈ decimal n) :
    b = 45 ∨ (48 ≤ b.toNat ∧ b.toNat ≤ 57) := by
  rcases List.mem_append.mp h with h | h
  · split_ifs at h with hneg
    · exact .inl (List.mem_singleton.mp h)
    · cases h
  · obtain ⟨c, hc, rfl⟩ := List.mem_map.mp h
    have hdigit := Nat.isDigit_of_mem_toDigits (by decide) (by decide) hc
    simp only [Char.isDigit, Bool.and_eq_true, decide_eq_true_eq, UInt32.le_iff_toNat_le] at hdigit
    right
    simp only [Char.toUInt8, UInt32.toNat_toUInt8]
    have hlow : '0'.val.toNat = 48 := rfl
    have hhigh : '9'.val.toNat = 57 := rfl
    omega

theorem decimal_ne_nil (n : ℤ) : decimal n ≠ [] := by
  simp [decimal, Nat.toDigits_ne_nil]

/-- A number of at most `k` digits has at most `k + 1` characters. -/
theorem length_decimal_le {n : ℤ} {k : ℕ} (hk : 0 < k) (h : n.natAbs < 10 ^ k) :
    (decimal n).length ≤ k + 1 := by
  have hdigits := (Nat.length_toDigits_le_iff (by decide) hk).mpr h
  rw [decimal, List.length_append, List.length_map]
  split_ifs with hneg
  · have hsign : (ascii "-").length = 1 := rfl
    omega
  · rw [List.length_nil]
    omega

end Json
