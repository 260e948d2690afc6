import Tdnf.Json.Dump
import Mathlib.Logic.Function.Basic

/-!
# Building JSON documents

A caller creates dumps, starts each as a map or a list, and adds values and other
dumps in any order. The dumps refine a forest of JSON values: as long as every
addition fits the 32 bit arithmetic of the buffer, each call succeeds and each
buffer holds the compact text of its value.
-/

namespace Tdnf.JsonDump

open Json Procedure

/-- What the calls of the `jd_map_add_` and `jd_list_add_` families add; a child is another
dump. -/
inductive Item where
  | string (value : Option CString)
  | int (value : Int32)
  | int64 (value : Int64)
  | bool (value : Int32)
  | null
  | fmt (text : CString)
  | child (i : ℕ)

/-- The dumps in use. -/
abbrev Heap := ℕ → Option JsonDump

section Model

variable (heap : Heap) (junk : ℕ → UInt8)

/-- The function of the `jd_map_add_` family for an item. -/
def mapAdd (key : Bytes) : Item → DumpProc Unit
  | .string value => jdMapAddString junk key (value.map Subtype.val)
  | .int value => jdMapAddInt junk key value
  | .int64 value => jdMapAddInt64 junk key value
  | .bool value => jdMapAddBool junk key value
  | .null => jdMapAddNull junk key
  | .fmt text => jdMapAddFmt junk key text.val
  | .child i =>
    match heap i with
    | none => throw .outOfBounds
    | some jdChild => jdMapAddChild junk key jdChild

/-- The function of the `jd_list_add_` family for an item. -/
def listAdd : Item → DumpProc Unit
  | .string value => jdListAddString junk (value.map Subtype.val)
  | .int value => jdListAddInt junk value
  | .int64 value => jdListAddInt64 junk value
  | .bool value => jdListAddBool junk value
  | .null => jdListAddNull junk
  | .fmt text => jdListAddFmt junk text.val
  | .child i =>
    match heap i with
    | none => throw .outOfBounds
    | some jdChild => jdListAddChild junk jdChild

/-- The calls a program makes, with the dumps they are made on. -/
inductive Call where
  | create (i : ℕ) (size : UInt32)
  | mapStart (i : ℕ)
  | listStart (i : ℕ)
  | mapAdd (i : ℕ) (key : CString) (item : Item)
  | listAdd (i : ℕ) (item : Item)
  | destroy (i : ℕ)

/-- A call on a dump; without one it returns `-1`. -/
def Heap.onDump (i : ℕ) (x : DumpProc Unit) : Except DumpError Heap :=
  match heap i with
  | none => .error .failed
  | some jd =>
    match x.run jd with
    | .ok _ jd' => .ok (Function.update heap i (some jd'))
    | .error e _ => .error e

/-- One call. -/
def Heap.call : Call → Except DumpError Heap
  | .create i size => .ok (Function.update heap i (some (jdCreate size)))
  | .mapStart i => heap.onDump i (jdMapStart junk)
  | .listStart i => heap.onDump i (jdListStart junk)
  | .mapAdd i key item => heap.onDump i (JsonDump.mapAdd heap junk key.val item)
  | .listAdd i item => heap.onDump i (JsonDump.listAdd heap junk item)
  | .destroy i => .ok (Function.update heap i none)

end Model

/-- The values that are built: a dump is not in use, created, or started. -/
abbrev Forest := ℕ → Option (Option Value)

/-- The value an item stands for; a dump is no child of its own. -/
def Item.value (forest : Forest) (i : ℕ) : Item → Option Value
  | .string none => some .null
  | .string (some s) => if Plain s.val then some (.string s.val) else none
  | .int n => some (.number (decimal n.toInt))
  | .int64 n => some (.number (decimal n.toInt))
  | .bool n => some (.bool (n ≠ 0))
  | .null => some .null
  | .fmt s => if Plain s.val then some (.string s.val) else none
  | .child j => if j = i then none else (forest j).join

/-- What a call builds; there is no result where a tree is not built that way. -/
def Forest.call (forest : Forest) : Call → Option Forest
  | .create i _ =>
    match forest i with
    | none => some (Function.update forest i (some none))
    | some _ => none
  | .mapStart i =>
    match forest i with
    | some none => some (Function.update forest i (some (some (.object []))))
    | _ => none
  | .listStart i =>
    match forest i with
    | some none => some (Function.update forest i (some (some (.array []))))
    | _ => none
  | .mapAdd i key item =>
    match forest i with
    | some (some (.object members)) =>
      if Plain key.val then
        (item.value forest i).map fun v =>
          Function.update forest i (some (some (.object (members ++ [(key.val, v)]))))
      else none
    | _ => none
  | .listAdd i item =>
    match forest i with
    | some (some (.array items)) =>
      (item.value forest i).map fun v =>
        Function.update forest i (some (some (.array (items ++ [v]))))
    | _ => none
  | .destroy i =>
    match forest i with
    | none => none
    | some _ => some (Function.update forest i none)

/-- The text an item is written as. -/
def Item.rawText (heap : Heap) : Item → Option Bytes
  | .string none => some (ascii "null")
  | .string (some s) => some (jsonifyString s.val)
  | .int n => some (printNumber n.toInt)
  | .int64 n => some (printNumber n.toInt)
  | .bool n => some (ascii (if n ≠ 0 then "true" else "false"))
  | .null => some (ascii "null")
  | .fmt s => some (jsonifyString s.val)
  | .child i => (heap i).bind fun jd => cString jd.buf

/-- The condition for adding a text with `more` further bytes to a dump. -/
def roomFor (jd : Option JsonDump) (text : Option Bytes) (more : ℕ) : Prop :=
  match jd, text with
  | some jd, some text => jd.Fits (text.length + more)
  | _, _ => True

/-- The condition on a call. -/
def Call.Fits (heap : Heap) : Call → Prop
  | .mapAdd i key item => roomFor (heap i) (item.rawText heap) (key.val.length + 5)
  | .listAdd i item => roomFor (heap i) (item.rawText heap) 2
  | _ => True

instance (jd : Option JsonDump) (text : Option Bytes) (more : ℕ) :
    Decidable (roomFor jd text more) :=
  match jd, text with
  | some jd, some text => inferInstanceAs (Decidable (jd.Fits (text.length + more)))
  | none, _ => isTrue (by cases text <;> trivial)
  | some _, none => isTrue trivial

instance (heap : Heap) (c : Call) : Decidable (c.Fits heap) :=
  match c with
  | .mapAdd i key item =>
    inferInstanceAs (Decidable (roomFor (heap i) (item.rawText heap) (key.val.length + 5)))
  | .listAdd i item => inferInstanceAs (Decidable (roomFor (heap i) (item.rawText heap) 2))
  | .create _ _ => isTrue trivial
  | .mapStart _ => isTrue trivial
  | .listStart _ => isTrue trivial
  | .destroy _ => isTrue trivial

/-- A dump in the state of building its value. -/
def Builds : Option JsonDump → Option (Option Value) → Prop
  | none, none => True
  | some jd, some none => jd.Blank
  | some jd, some (some v) => jd.Spells v.text
  | _, _ => False

/-- Every buffer holds exactly the text of its value. -/
def Spelled (heap : Heap) (forest : Forest) : Prop := ∀ i, Builds (heap i) (forest i)

/-- All calls succeed, and every buffer is right after each of them. -/
def Faithful : Heap → Forest → List (Call × (ℕ → UInt8)) → Prop
  | heap, forest, [] => Spelled heap forest
  | heap, forest, c :: rest => Spelled heap forest ∧ ∃ heap' forest',
      heap.call c.2 c.1 = .ok heap' ∧ forest.call c.1 = some forest' ∧
        Faithful heap' forest' rest

/-- Every call meets its condition in the state it is made in. -/
def AllFit : Heap → List (Call × (ℕ → UInt8)) → Prop
  | _, [] => True
  | heap, c :: rest => c.1.Fits heap ∧
      match heap.call c.2 c.1 with
      | .ok heap' => AllFit heap' rest
      | .error _ => True

instance AllFit.decide : (heap : Heap) → (calls : List (Call × (ℕ → UInt8))) →
    Decidable (AllFit heap calls)
  | _, [] => isTrue trivial
  | heap, c :: rest =>
    have : Decidable (match heap.call c.2 c.1 with
        | .ok heap' => AllFit heap' rest
        | .error _ => True) :=
      match heap.call c.2 c.1 with
      | .ok heap' => AllFit.decide heap' rest
      | .error _ => isTrue trivial
    inferInstanceAs (Decidable (_ ∧ _))

/-- The calls build a tree in each dump. -/
def Legal (forest : Forest) (calls : List (Call × (ℕ → UInt8))) : Prop :=
  (calls.foldlM (fun forest c => Forest.call forest c.1) forest).isSome

instance (forest : Forest) (calls : List (Call × (ℕ → UInt8))) : Decidable (Legal forest calls) :=
  inferInstanceAs (Decidable (_ = true))

section Texts

/-- A text without NUL whose last byte is no opening bracket. -/
structure EndsWell (text : Bytes) : Prop where
  zero : 0 ∉ text
  last : ∃ b, text.getLast? = some b ∧ b ≠ mapBrackets.opening ∧ b ≠ listBrackets.opening

theorem EndsWell.append {text : Bytes} (h : EndsWell text) {pre : Bytes} (hpre : 0 ∉ pre) :
    EndsWell (pre ++ text) := by
  obtain ⟨hzero, b, hlast, hne⟩ := h
  refine ⟨fun hmem => (List.mem_append.mp hmem).elim hpre hzero, b, ?_, hne⟩
  rw [List.getLast?_append, hlast, Option.some_or]

theorem endsWell_quoted {s : Bytes} (h : 0 ∉ s) : EndsWell (quoted s) := by
  have hquote : EndsWell (ascii "\"") := ⟨by decide, _, rfl, by decide⟩
  refine EndsWell.append hquote fun hmem => ?_
  rcases List.mem_append.mp hmem with hmem | hmem
  · exact absurd hmem (by decide)
  · exact h hmem

theorem endsWell_decimal (n : ℤ) : EndsWell (decimal n) := by
  constructor
  · intro h
    rcases mem_decimal h with h | h
    · exact absurd h (by decide)
    · exact absurd h.1 (by decide)
  · obtain ⟨b, hb⟩ := Option.isSome_iff_exists.mp
      (List.getLast?_isSome.mpr (decimal_ne_nil n))
    refine ⟨b, hb, ?_⟩
    rcases mem_decimal (List.mem_of_getLast? hb) with rfl | h
    · exact ⟨by decide, by decide⟩
    · have hmap : mapBrackets.opening.toNat = 123 := rfl
      have hlist : listBrackets.opening.toNat = 91 := rfl
      constructor
      · rintro rfl
        omega
      · rintro rfl
        omega

theorem endsWell_member {key text : Bytes} (hkey : 0 ∉ key) (h : EndsWell text) :
    EndsWell (member key text) := by
  refine EndsWell.append h fun hmem => ?_
  rcases List.mem_append.mp hmem with hmem | hmem
  · exact (endsWell_quoted hkey).zero hmem
  · exact absurd hmem (by decide)

/-- The elements of a map or list that was built so far. -/
structure GoodTexts (brackets : Brackets) (texts : List Bytes) : Prop where
  nonempty : [] ∉ texts
  zero : 0 ∉ commas texts
  ready : Ready brackets (commas texts)

theorem EndsWell.ne_nil {text : Bytes} (h : EndsWell text) : text ≠ [] := by
  obtain ⟨b, hlast, -⟩ := h.last
  exact List.ne_nil_of_mem (List.mem_of_getLast? hlast)

/-- Between elements that are not empty the code sees what is there by the text alone. -/
theorem GoodTexts.commas_concat {brackets : Brackets} {texts : List Bytes}
    (h : GoodTexts brackets texts) (piece : Bytes) :
    commas (texts ++ [piece]) =
      if commas texts = [] then piece else commas texts ++ ascii "," ++ piece := by
  rw [Json.commas_concat]
  exact if_congr (commas_eq_nil_iff h.nonempty).symm rfl rfl

theorem goodTexts_nil (brackets : Brackets) : GoodTexts brackets [] :=
  ⟨List.not_mem_nil, List.not_mem_nil, fun _ h => by cases h⟩

theorem GoodTexts.concat {brackets : Brackets} {texts : List Bytes} {piece : Bytes}
    (h : GoodTexts brackets texts) (hpiece : EndsWell piece)
    (hbrackets : brackets = mapBrackets ∨ brackets = listBrackets) :
    GoodTexts brackets (texts ++ [piece]) := by
  have hnew : EndsWell (commas (texts ++ [piece])) := by
    rw [h.commas_concat]
    split_ifs with hnil
    · exact hpiece
    · refine EndsWell.append hpiece fun hmem => ?_
      rcases List.mem_append.mp hmem with hmem | hmem
      · exact h.zero hmem
      · exact absurd hmem (by decide)
  obtain ⟨hzero, b, hlast, hne⟩ := hnew
  refine ⟨fun hmem => ?_, hzero, fun b' hb' => ?_⟩
  · rcases List.mem_append.mp hmem with hmem | hmem
    · exact h.nonempty hmem
    · exact hpiece.ne_nil (List.mem_singleton.mp hmem).symm
  · obtain rfl := Option.some.inj (hlast.symm.trans hb')
    rcases hbrackets with rfl | rfl
    · exact hne.1
    · exact hne.2

theorem GoodTexts.endsWell {brackets : Brackets} {texts : List Bytes}
    (h : GoodTexts brackets texts)
    (hbrackets : brackets = mapBrackets ∨ brackets = listBrackets) :
    EndsWell (enclosed brackets (commas texts)) := by
  have hclosing : EndsWell [brackets.closing] := by
    rcases hbrackets with rfl | rfl
    · exact ⟨by decide, _, rfl, by decide⟩
    · exact ⟨by decide, _, rfl, by decide⟩
  refine EndsWell.append hclosing fun hmem => ?_
  rcases List.mem_append.mp hmem with hmem | hmem
  · exact brackets.ne_zero.1 (List.mem_singleton.mp hmem).symm
  · exact h.zero hmem

/-- What holds of the value of a started dump. -/
def Sound : Value → Prop
  | .array items => GoodTexts listBrackets (itemTexts items)
  | .object members => GoodTexts mapBrackets (memberTexts members)
  | _ => False

theorem Sound.endsWell {v : Value} (h : Sound v) : EndsWell v.text := by
  cases v with
  | array items => exact GoodTexts.endsWell h (.inr rfl)
  | object members => exact GoodTexts.endsWell h (.inl rfl)
  | _ => exact h.elim

theorem jsonifyByte_ne_nil (b : UInt8) : jsonifyByte b ≠ [] := by
  rw [jsonifyByte]
  split_ifs
  all_goals exact List.cons_ne_nil _ _

/-- A plain string is written as it is. -/
theorem jsonifyString_plain {s : Bytes} (h : Plain s) : jsonifyString s = quoted s := by
  have hbody : s.flatMap jsonifyByte = s := by
    induction s with
    | nil => rfl
    | cons b rest ih =>
        obtain ⟨hlow, hquote, hslash⟩ := h b List.mem_cons_self
        have hlow' : 32 ≤ b.toNat := UInt8.le_iff_toNat_le.mp hlow
        have hne : ∀ c : UInt8, c.toNat < 32 → b ≠ c := by
          rintro c hc rfl
          omega
        have hbyte : jsonifyByte b = [b] := by
          rw [jsonifyByte, if_neg hquote, if_neg hslash, if_neg (hne 8 (by decide)),
            if_neg (hne 12 (by decide)), if_neg (hne _ (by decide)), if_neg (hne _ (by decide)),
            if_neg (hne _ (by decide))]
        rw [List.flatMap_cons, hbyte, ih fun c hc => h c (List.mem_cons_of_mem b hc)]
        rfl
  rw [jsonifyString, hbody, quoted]

/-- Escaping does not shorten a string, and the quotes come on top. -/
theorem length_jsonifyString (s : Bytes) : s.length + 2 ≤ (jsonifyString s).length := by
  have hbody : s.length ≤ (s.flatMap jsonifyByte).length := by
    induction s with
    | nil => exact le_refl 0
    | cons b rest ih =>
        have hpos := List.length_pos_of_ne_nil (jsonifyByte_ne_nil b)
        rw [List.flatMap_cons, List.length_append, List.length_cons]
        omega
  have hquote : (ascii "\"").length = 1 := rfl
  simp only [jsonifyString, List.length_append, hquote]
  omega

theorem printNumber_eq {n : ℤ} (h : n.natAbs < 10 ^ 20) : printNumber n = decimal n :=
  List.take_of_length_le (length_decimal_le (by decide) h)

theorem printNumber_int32 (n : Int32) : printNumber n.toInt = decimal n.toInt := by
  have hlow := n.le_toInt
  have hhigh := n.toInt_lt
  exact printNumber_eq (by omega)

theorem printNumber_int64 (n : Int64) : printNumber n.toInt = decimal n.toInt := by
  have hlow := n.le_toInt
  have hhigh := n.toInt_lt
  exact printNumber_eq (by omega)

/-- The C string in a buffer that spells a text without NUL. -/
theorem cString_spells {jd : JsonDump} {text : Bytes} (h : jd.Spells text) (hzero : 0 ∉ text) :
    cString jd.buf = some text := by
  obtain ⟨rest, hbuf⟩ := h.content
  have hall : ∀ b ∈ text, decide (b ≠ 0) = true := by
    rintro b hb
    exact decide_eq_true fun hb0 => hzero (hb0 ▸ hb)
  rw [cString, ← hbuf, if_pos (by simp), List.append_assoc, List.takeWhile_append_of_pos hall]
  simp

end Texts

section Refinement

variable {heap : Heap} {forest forest' : Forest} {junk : ℕ → UInt8} {i : ℕ} {item : Item}
  {v : Value} {text key : Bytes} {jd : JsonDump}

/-- The values of all started dumps can be extended. -/
def AllSound (forest : Forest) : Prop := ∀ i v, forest i = some (some v) → Sound v

theorem Spelled.update (h : Spelled heap forest) {cell : Option JsonDump}
    {built : Option (Option Value)} (hcell : Builds cell built) :
    Spelled (Function.update heap i cell) (Function.update forest i built) := by
  intro j
  by_cases hj : j = i
  · subst hj
    rw [Function.update_self, Function.update_self]
    exact hcell
  · rw [Function.update_of_ne hj, Function.update_of_ne hj]
    exact h j

theorem AllSound.update (h : AllSound forest) {built : Option (Option Value)}
    (hbuilt : ∀ v, built = some (some v) → Sound v) :
    AllSound (Function.update forest i built) := by
  intro j v hv
  by_cases hj : j = i
  · subst hj
    rw [Function.update_self] at hv
    exact hbuilt v hv
  · rw [Function.update_of_ne hj] at hv
    exact h j v hv

/-- An item is written as the text of its value. -/
theorem Item.rawText_eq (hspelled : Spelled heap forest) (hsound : AllSound forest)
    (h : item.value forest i = some v) :
    item.rawText heap = some v.text ∧ EndsWell v.text := by
  have hnull : EndsWell (ascii "null") := ⟨by decide, _, rfl, by decide⟩
  cases item with
  | string value =>
      cases value with
      | none =>
          obtain rfl := Option.some.inj h
          exact ⟨rfl, hnull⟩
      | some s =>
          obtain ⟨hplain, hv⟩ := Option.ite_none_right_eq_some.mp h
          obtain rfl := Option.some.inj hv
          exact ⟨congrArg some (jsonifyString_plain hplain), endsWell_quoted s.property⟩
  | int n =>
      obtain rfl := Option.some.inj h
      exact ⟨congrArg some (printNumber_int32 n), endsWell_decimal _⟩
  | int64 n =>
      obtain rfl := Option.some.inj h
      exact ⟨congrArg some (printNumber_int64 n), endsWell_decimal _⟩
  | bool n =>
      obtain rfl := Option.some.inj h
      by_cases hn : n = 0
      · subst hn
        exact ⟨rfl, by decide, _, rfl, by decide⟩
      · simp only [Item.rawText, Value.text, hn, ne_eq, not_false_eq_true, decide_true, if_true,
          true_and]
        exact ⟨by decide, _, rfl, by decide⟩
  | null =>
      obtain rfl := Option.some.inj h
      exact ⟨rfl, hnull⟩
  | fmt s =>
      obtain ⟨hplain, hv⟩ := Option.ite_none_right_eq_some.mp h
      obtain rfl := Option.some.inj hv
      exact ⟨congrArg some (jsonifyString_plain hplain), endsWell_quoted s.property⟩
  | child j =>
      obtain ⟨-, hchild⟩ := Option.ite_none_left_eq_some.mp h
      have hbuilt : forest j = some (some v) := Option.join_eq_some_iff.mp hchild
      have hwell := (hsound j v hbuilt).endsWell
      have hcell := hspelled j
      rw [hbuilt] at hcell
      cases hheap : heap j with
      | none =>
          rw [hheap] at hcell
          exact hcell.elim
      | some jd =>
          rw [hheap] at hcell
          refine ⟨?_, hwell⟩
          rw [Item.rawText, hheap, Option.bind_some]
          exact cString_spells hcell hwell.zero

/-- Printing through a format fails where the text is too long, and then it is too long for the
buffer as well. -/
theorem allocVsprintf_cases {α : Type} (s : Bytes) (f : Bytes → DumpProc α) :
    (allocVsprintf s >>= f) = f s ∨
      ((allocVsprintf s >>= f) = throw .failed ∧ 2 ^ 31 < (jsonifyString s).length) := by
  have hlength := length_jsonifyString s
  rw [allocVsprintf]
  split_ifs with hlong
  · rw [intMax] at hlong
    exact .inr ⟨rfl, by omega⟩
  · exact .inl rfl

theorem mapAdd_eq (h : item.rawText heap = some text) :
    mapAdd heap junk key item = jdMapAddRaw junk key text ∨
      (mapAdd heap junk key item = throw .failed ∧ 2 ^ 31 < text.length) := by
  cases item with
  | string value =>
      left
      cases value with
      | none =>
          obtain rfl := Option.some.inj h
          rfl
      | some s =>
          obtain rfl := Option.some.inj h
          rfl
  | fmt s =>
      obtain rfl := Option.some.inj h
      exact allocVsprintf_cases s.val _
  | child j =>
      left
      obtain ⟨jd, hheap, htext⟩ := Option.bind_eq_some_iff.mp h
      simp only [mapAdd, hheap, jdMapAddChild, htext]
  | _ =>
      left
      obtain rfl := Option.some.inj h
      rfl

theorem listAdd_eq (h : item.rawText heap = some text) :
    listAdd heap junk item = jdListAddRaw junk text ∨
      (listAdd heap junk item = throw .failed ∧ 2 ^ 31 < text.length) := by
  cases item with
  | string value =>
      left
      cases value with
      | none =>
          obtain rfl := Option.some.inj h
          rfl
      | some s =>
          obtain rfl := Option.some.inj h
          rfl
  | fmt s =>
      obtain rfl := Option.some.inj h
      exact allocVsprintf_cases s.val _
  | child j =>
      left
      obtain ⟨jd, hheap, htext⟩ := Option.bind_eq_some_iff.mp h
      simp only [listAdd, hheap, jdListAddChild, htext]
  | _ =>
      left
      obtain rfl := Option.some.inj h
      rfl

/-- The dump behind a value that is being built. -/
theorem Spelled.dump (h : Spelled heap forest) (hv : forest i = some (some v)) :
    ∃ jd, heap i = some jd ∧ jd.Spells v.text := by
  have hcell := h i
  rw [hv] at hcell
  cases hheap : heap i with
  | none =>
      rw [hheap] at hcell
      exact hcell.elim
  | some jd =>
      rw [hheap] at hcell
      exact ⟨jd, rfl, hcell⟩

/-- What a call that is meant to build `forest'` does under its condition, and only then. -/
structure StepsTo (heap : Heap) (forest' : Forest) (result : Except DumpError Heap)
    (fits : Prop) : Prop where
  succeeds : fits → ∃ heap', result = .ok heap' ∧ Spelled heap' forest'
  fits : ∀ heap', result = .ok heap' → Spelled heap' forest' → fits

/-- A call that always succeeds. -/
theorem stepsTo_ok {heap' : Heap} (h : Spelled heap' forest') :
    StepsTo heap forest' (.ok heap') True :=
  ⟨fun _ => ⟨heap', rfl, h⟩, fun _ _ _ => trivial⟩

theorem stepsTo_start {brackets : Brackets} (h : Spelled heap forest) (hi : forest i = some none)
    {v : Value} (hv : v.text = enclosed brackets []) :
    StepsTo heap (Function.update forest i (some (some v)))
      (heap.onDump i (start brackets junk)) True := by
  have hcell := h i
  rw [hi] at hcell
  cases hheap : heap i with
  | none =>
      rw [hheap] at hcell
      exact hcell.elim
  | some jd =>
      rw [hheap] at hcell
      obtain ⟨jd', hrun, hspells⟩ := start_run brackets junk hcell
      rw [Heap.onDump, hheap]
      simp only [hrun]
      refine stepsTo_ok (h.update ?_)
      rw [Builds, hv]
      exact hspells

theorem stepsTo_add {brackets : Brackets} {content piece : Bytes} {old new : Value}
    {x : DumpProc Unit} {n : ℕ} (h : Spelled heap forest) (hi : forest i = some (some old))
    (hold : old.text = enclosed brackets content) (hready : Ready brackets content)
    (hnew : new.text = enclosed brackets
      (if content = [] then piece else content ++ ascii "," ++ piece))
    (hx : x = addRaw brackets junk (piece.length + 2) (piece ++ [brackets.closing]) ∨
      (x = throw .failed ∧ 2 ^ 31 < n)) (hn : n ≤ piece.length + 2) :
    StepsTo heap (Function.update forest i (some (some new))) (heap.onDump i x)
      (∀ jd, heap i = some jd → jd.Fits (piece.length + 2)) := by
  obtain ⟨jd, hjd, hspells⟩ := h.dump hi
  rw [hold] at hspells
  rw [Heap.onDump, hjd]
  constructor
  · intro hfits
    have hfit := hfits jd rfl
    rcases hx with rfl | ⟨-, hlong⟩
    · obtain ⟨jd', hrun, hspells'⟩ := addRaw_run junk hspells hready hfit
      simp only [hrun]
      refine ⟨_, rfl, h.update ?_⟩
      rw [Builds, hnew]
      exact hspells'
    · exact absurd hfit.1 (by omega)
  · rintro heap' hrun hspelled jd₀ hjd₀
    obtain rfl := Option.some.inj hjd₀
    by_contra hnot
    rcases hx with rfl | ⟨rfl, -⟩
    · cases hadd : (addRaw brackets junk (piece.length + 2)
          (piece ++ [brackets.closing])).run jd with
      | error e jd' => simp [hadd] at hrun
      | ok a jd' =>
          simp only [hadd] at hrun
          obtain rfl := Except.ok.inj hrun
          have hcell := hspelled i
          rw [Function.update_self, Function.update_self, Builds, hnew] at hcell
          exact not_spells_addRaw hspells hnot hadd hcell
    · cases hrun

theorem StepsTo.congr {result : Except DumpError Heap} {fits fits' : Prop}
    (h : StepsTo heap forest' result fits) (hiff : fits ↔ fits') :
    StepsTo heap forest' result fits' :=
  ⟨fun hfits => h.succeeds (hiff.mpr hfits),
    fun heap' hrun hspelled => hiff.mp (h.fits heap' hrun hspelled)⟩

/-- The condition of a call on a dump in use. -/
theorem roomFor_iff (hspelled : Spelled heap forest) (hv : forest i = some (some v))
    (htext : item.rawText heap = some text) (more : ℕ) :
    (∀ jd, heap i = some jd → jd.Fits (text.length + more)) ↔
      roomFor (heap i) (item.rawText heap) more := by
  obtain ⟨jd, hjd, -⟩ := hspelled.dump hv
  rw [hjd, htext, roomFor]
  constructor
  · exact fun h => h jd rfl
  · rintro h jd₀ hjd₀
    obtain rfl := Option.some.inj hjd₀
    exact h

theorem jdMapAddRaw_eq (key text : Bytes) :
    jdMapAddRaw junk key text = addRaw mapBrackets junk ((member key text).length + 2)
      (member key text ++ [mapBrackets.closing]) := by
  have hquote : (ascii "\"").length = 1 := rfl
  have hcolon : (ascii ":").length = 1 := rfl
  have hsplit : ascii "\":" = ascii "\"" ++ ascii ":" := by decide
  have hclosing : ascii "\x7d" = [mapBrackets.closing] := by decide
  rw [jdMapAddRaw, hsplit, hclosing, member, quoted]
  congr 1
  · simp only [List.length_append, hquote, hcolon]
    omega
  · simp only [List.append_assoc]

/-- A legal call steps to what it is meant to build exactly under its condition. -/
theorem call_stepsTo (hspelled : Spelled heap forest) (hsound : AllSound forest) {c : Call}
    (h : Forest.call forest c = some forest') :
    StepsTo heap forest' (heap.call junk c) (c.Fits heap) := by
  cases c with
  | create i size =>
      rw [Forest.call] at h
      split at h
      · obtain rfl := Option.some.inj h
        exact stepsTo_ok (hspelled.update (jdCreate_blank size))
      · cases h
  | mapStart i =>
      rw [Forest.call] at h
      split at h
      · obtain rfl := Option.some.inj h
        exact stepsTo_start hspelled ‹_› (by decide)
      · cases h
  | listStart i =>
      rw [Forest.call] at h
      split at h
      · obtain rfl := Option.some.inj h
        exact stepsTo_start hspelled ‹_› (by decide)
      · cases h
  | mapAdd i key item =>
      rw [Forest.call] at h
      split at h
      · rename_i members hi
        obtain ⟨hplain, hvalue⟩ := Option.ite_none_right_eq_some.mp h
        obtain ⟨v, hv, rfl⟩ := Option.map_eq_some_iff.mp hvalue
        obtain ⟨htext, -⟩ := Item.rawText_eq hspelled hsound hv
        have hquote : (ascii "\"").length = 1 := rfl
        have hcolon : (ascii ":").length = 1 := rfl
        have hlength : (member key.val v.text).length + 2 =
            v.text.length + (key.val.length + 5) := by
          simp only [member, quoted, List.length_append, hquote, hcolon]
          omega
        refine StepsTo.congr (stepsTo_add hspelled hi rfl (hsound i _ hi).ready ?_
          ((mapAdd_eq htext).imp_left fun hx => hx.trans (jdMapAddRaw_eq _ _)) (by omega))
          (hlength ▸ roomFor_iff hspelled hi htext _)
        rw [Value.text, memberTexts_concat, GoodTexts.commas_concat (hsound i _ hi)]
        rfl
      · cases h
  | listAdd i item =>
      rw [Forest.call] at h
      split at h
      · rename_i items hi
        obtain ⟨v, hv, rfl⟩ := Option.map_eq_some_iff.mp h
        obtain ⟨htext, -⟩ := Item.rawText_eq hspelled hsound hv
        refine StepsTo.congr (stepsTo_add hspelled hi rfl (hsound i _ hi).ready ?_
          (listAdd_eq htext) (by omega)) (roomFor_iff hspelled hi htext _)
        rw [Value.text, itemTexts_concat, GoodTexts.commas_concat (hsound i _ hi)]
        rfl
      · cases h
  | destroy i =>
      rw [Forest.call] at h
      split at h
      · cases h
      · obtain rfl := Option.some.inj h
        exact stepsTo_ok (hspelled.update trivial)

/-- A legal call leaves values that can be extended. -/
theorem AllSound.call (hsound : AllSound forest) (hspelled : Spelled heap forest) {c : Call}
    (h : Forest.call forest c = some forest') : AllSound forest' := by
  cases c with
  | create i size =>
      rw [Forest.call] at h
      split at h
      · obtain rfl := Option.some.inj h
        exact hsound.update fun v hv => by cases hv
      · cases h
  | mapStart i =>
      rw [Forest.call] at h
      split at h
      · obtain rfl := Option.some.inj h
        refine hsound.update fun v hv => ?_
        obtain rfl := Option.some.inj (Option.some.inj hv)
        exact goodTexts_nil mapBrackets
      · cases h
  | listStart i =>
      rw [Forest.call] at h
      split at h
      · obtain rfl := Option.some.inj h
        refine hsound.update fun v hv => ?_
        obtain rfl := Option.some.inj (Option.some.inj hv)
        exact goodTexts_nil listBrackets
      · cases h
  | mapAdd i key item =>
      rw [Forest.call] at h
      split at h
      · rename_i members hi
        obtain ⟨-, hvalue⟩ := Option.ite_none_right_eq_some.mp h
        obtain ⟨v, hv, rfl⟩ := Option.map_eq_some_iff.mp hvalue
        obtain ⟨-, hwell⟩ := Item.rawText_eq hspelled hsound hv
        refine hsound.update fun v' hv' => ?_
        obtain rfl := Option.some.inj (Option.some.inj hv')
        rw [Sound, memberTexts_concat]
        exact GoodTexts.concat (hsound i _ hi) (endsWell_member key.property hwell) (.inl rfl)
      · cases h
  | listAdd i item =>
      rw [Forest.call] at h
      split at h
      · rename_i items hi
        obtain ⟨v, hv, rfl⟩ := Option.map_eq_some_iff.mp h
        obtain ⟨-, hwell⟩ := Item.rawText_eq hspelled hsound hv
        refine hsound.update fun v' hv' => ?_
        obtain rfl := Option.some.inj (Option.some.inj hv')
        rw [Sound, itemTexts_concat]
        exact GoodTexts.concat (hsound i _ hi) hwell (.inr rfl)
      · cases h
  | destroy i =>
      rw [Forest.call] at h
      split at h
      · cases h
      · obtain rfl := Option.some.inj h
        exact hsound.update fun v hv => by cases hv

end Refinement

section Runs

/-- From any state that spells its forest, the calls build what they are meant to build exactly
if each of them fits. -/
theorem faithful_iff_from (calls : List (Call × (ℕ → UInt8))) :
    ∀ heap forest, Spelled heap forest → AllSound forest → Legal forest calls →
      (Faithful heap forest calls ↔ AllFit heap calls) := by
  induction calls with
  | nil =>
      rintro heap forest hspelled - -
      exact ⟨fun _ => trivial, fun _ => hspelled⟩
  | cons c rest ih =>
      rintro heap forest hspelled hsound hlegal
      rw [Legal, List.foldlM_cons] at hlegal
      cases hforest : Forest.call forest c.1 with
      | none =>
          rw [hforest] at hlegal
          cases hlegal
      | some forest' =>
          rw [hforest] at hlegal
          have hsteps : StepsTo heap forest' (heap.call c.2 c.1) (c.1.Fits heap) :=
            call_stepsTo hspelled hsound hforest
          have hsound' := hsound.call hspelled hforest
          constructor
          · rintro ⟨-, heap', forest'', hrun, hcall, hrest⟩
            obtain rfl := Option.some.inj (hforest.symm.trans hcall)
            have hspelled' : Spelled heap' forest' := by
              cases rest with
              | nil => exact hrest
              | cons next rest => exact hrest.1
            refine ⟨hsteps.fits heap' hrun hspelled', ?_⟩
            rw [hrun]
            exact (ih heap' forest' hspelled' hsound' hlegal).mp hrest
          · rintro ⟨hfits, hrest⟩
            obtain ⟨heap', hrun, hspelled'⟩ := hsteps.succeeds hfits
            rw [hrun] at hrest
            exact ⟨hspelled, heap', forest', hrun, hforest,
              (ih heap' forest' hspelled' hsound' hlegal).mpr hrest⟩

/-- Calls that build trees, starting without dumps, all succeed and leave the compact text of
each value in its buffer exactly if every addition fits the 32 bit arithmetic of its dump. -/
theorem faithful_iff_allFit (calls : List (Call × (ℕ → UInt8)))
    (hlegal : Legal (fun _ => none) calls) :
    Faithful (fun _ => none) (fun _ => none) calls ↔ AllFit (fun _ => none) calls :=
  faithful_iff_from calls _ _ (fun _ => trivial) (fun _ _ h => by cases h) hlegal

section Examples

/-- The characters of a literal as a string without NUL. -/
def literal (s : String) (h : 0 ∉ ascii s := by decide) : CString := ⟨ascii s, h⟩

/-- A map in a map in a list, with memory that is not cleared. -/
def nestedCalls : List (Call × (ℕ → UInt8)) :=
  List.map (fun c => (c, fun _ => 255))
    [.create 0 3, .mapStart 0, .mapAdd 0 (literal "foo") (.string (some (literal "bar]"))),
      .create 1 0, .mapStart 1, .mapAdd 1 (literal "nested") (.child 0), .destroy 0,
      .create 2 0, .listStart 2, .listAdd 2 (.child 1), .listAdd 2 .null, .listAdd 2 (.int (-7))]

theorem nestedCalls_faithful : Faithful (fun _ => none) (fun _ => none) nestedCalls :=
  (faithful_iff_allFit nestedCalls (by decide +kernel)).mpr (by decide +kernel)

/-- A string of `n` letters. -/
def longString (n : ℕ) : CString :=
  ⟨List.replicate n 97, fun h => absurd (List.eq_of_mem_replicate h) (by decide)⟩

/-- A list with one string in it. -/
def longCalls (n : ℕ) : List (Call × (ℕ → UInt8)) :=
  List.map (fun c => (c, fun _ => 0))
    [.create 0 0, .listStart 0, .listAdd 0 (.string (some (longString n)))]

theorem longCalls_legal (n : ℕ) : Legal (fun _ => none) (longCalls n) := by
  have hplain : Plain (longString n).val := by
    intro b hb
    obtain rfl := List.eq_of_mem_replicate hb
    decide
  have hvalue : ∀ forest : Forest, Item.value forest 0 (.string (some (longString n))) =
      some (.string (longString n).val) := fun _ => if_pos hplain
  simp only [Legal, longCalls, List.map_cons, List.map_nil, List.foldlM_cons, List.foldlM_nil,
    Forest.call, Option.bind_eq_bind, Option.bind_some, Function.update_self, hvalue,
    Option.map_some]
  rfl

theorem longCalls_not_allFit {n : ℕ} (h : 2 ^ 31 ≤ n) :
    ¬ AllFit (fun _ => none) (longCalls n) := by
  obtain ⟨jd, hrun, -⟩ := start_run listBrackets (fun _ => 0) (jdCreate_blank 0)
  intro hfit
  simp only [longCalls, List.map_cons, List.map_nil, AllFit, Heap.call, Heap.onDump,
    Function.update_self, jdListStart, hrun] at hfit
  obtain ⟨-, -, hfits, -⟩ := hfit
  have hlength := length_jsonifyString (longString n).val
  have hlong : (longString n).val.length = n := List.length_replicate ..
  simp only [Call.Fits, roomFor, Item.rawText, Function.update_self] at hfits
  have hbound := hfits.1
  omega

theorem exists_longCalls {n : ℕ} (h : 2 ^ 31 ≤ n) : ∃ calls : List (Call × (ℕ → UInt8)),
    Legal (fun _ => none) calls ∧ ¬ Faithful (fun _ => none) (fun _ => none) calls := by
  have hiff := faithful_iff_from (longCalls n) (fun _ => none) (fun _ => none)
    (fun _ => trivial) (fun _ _ hv => by cases hv) (longCalls_legal n)
  exact ⟨longCalls n, longCalls_legal n, fun hfaithful =>
    longCalls_not_allFit h (hiff.mp hfaithful)⟩

/-- A string of `2 ^ 31` bytes cannot be added. -/
theorem longCalls_not_faithful : ¬ ∀ calls : List (Call × (ℕ → UInt8)),
    Legal (fun _ => none) calls → Faithful (fun _ => none) (fun _ => none) calls := by
  intro h
  obtain ⟨calls, hlegal, hnot⟩ := exists_longCalls (le_refl _)
  exact hnot (h calls hlegal)

end Examples

end Runs

end Tdnf.JsonDump
