import Tdnf.Cli.FormatString

/-!
# What formats expand to

As long as the text stays shorter than the buffer, both positions agree and the
buffer holds the text with its NUL. Once a byte had no room, the buffer never holds
the expansion again: it stays without NUL, an old NUL hides what follows, or the
buffer is shorter than the text.
-/

namespace Tdnf.Cli

open Buffer Procedure
open Json (Bytes ascii)

/-- The size of the memory is known, and the counter is that of the text. -/
structure Tracks (s : FormatState) (text : Bytes) : Prop where
  len : s.len = s.out.length
  counter : s.l = Int32.ofNat text.length

/-- The buffer holds the text, and both positions agree. -/
structure Holds (s : FormatState) (text : Bytes) : Prop extends Tracks s text where
  pointer : s.q = text.length
  content : ∃ more, s.out = text ++ 0 :: more
  noNul : 0 ∉ text

/-- How a buffer fails to hold the text for good. -/
inductive Lost (s : FormatState) (text : Bytes) : Prop where
  /-- The sizes of buffers are below `2 ^ 31` once they were computed. -/
  | overflow (small : s.out.length < 2147483648) (large : 2147483648 ≤ text.length)
  /-- The last cell was written to. -/
  | unterminated (noNul : 0 ∉ s.out) (last : s.len ≤ s.q + 1) (short : s.out.length ≤ text.length)
  /-- There is a NUL in front of the write pointer, or in the last cell. -/
  | cut (shown more : Bytes) (content : s.out = shown ++ 0 :: more) (noNul : 0 ∉ shown)
      (short : shown.length < text.length)
      (behind : shown.length < s.q ∨ more = [] ∧ s.q = shown.length)

/-- The buffer has lost the text. -/
structure Spoiled (s : FormatState) (text : Bytes) : Prop extends Tracks s text where
  lost : Lost s text

/-! ## The counter and the sizes -/

theorem counter_succ {text : Bytes} {c : UInt8} :
    Int32.ofNat (text ++ [c]).length = Int32.ofNat text.length + 1 := by
  rw [List.length_append, List.length_singleton, Int32.ofNat_add]
  rfl

theorem toInt_double (n : ℕ) :
    (2 * Int32.ofNat n).toInt = Int.bmod (2 * n) 4294967296 := by
  rw [Int32.toInt_mul, Int32.toInt_ofNat']
  have htwo : (2 : Int32).toInt = 2 := by decide
  rw [htwo]
  exact Int.mul_bmod_bmod

/-- Below `2 ^ 30` the doubled length is the size that is asked for. -/
theorem sizeT_double {n : ℕ} (h : n < 1073741824) : sizeT (2 * Int32.ofNat n) = 2 * n := by
  rw [sizeT, toInt_double, Int.bmod_eq_of_le (by omega) (by omega)]
  omega

/-- From `2 ^ 30` on, the size is refused or much too small. -/
theorem sizeT_double_of_le {n : ℕ} (h : 1073741824 ≤ n) :
    9223372036854775807 < sizeT (2 * Int32.ofNat n) ∨
      sizeT (2 * Int32.ofNat n) < 2147483648 ∧ 2147483648 ≤ n := by
  rw [sizeT, toInt_double, Int.bmod_def]
  split <;> omega

theorem sizeT_lt {n : ℕ} (h : sizeT (2 * Int32.ofNat n) ≤ 9223372036854775807) :
    sizeT (2 * Int32.ofNat n) < 2147483648 := by
  by_cases hn : n < 1073741824
  · rw [sizeT_double hn]
    omega
  · have hlarge := sizeT_double_of_le (Nat.not_lt.mp hn)
    omega

/-! ## One byte -/

section Bytes

variable {s : FormatState} {text : Bytes} {c : UInt8}

theorem run_store (s : FormatState) (c : UInt8) :
    (store c).run s = if s.q < s.out.length then .ok () { s with out := s.out.set s.q c }
      else .error .outOfBounds s := by
  by_cases hq : s.q < s.out.length
  · have hwrite : write s.out s.q c = some (s.out.set s.q c) := if_pos hq
    rw [store, run_get_bind, hwrite, if_pos hq]
    rfl
  · have hwrite : write s.out s.q c = none := if_neg hq
    rw [store, run_get_bind, hwrite, if_neg hq]
    rfl

/-- A byte that has room -/
theorem run_putByte_room (hlen : s.len = s.out.length) (hroom : s.q + 1 < s.len) (c : UInt8) :
    (putByte c).run s = .ok () { s with
      out := (s.out.set s.q c).set (s.q + 1) 0
      q := s.q + 1
      l := s.l + 1 } := by
  have hstore : (store c).run s = .ok () { s with out := s.out.set s.q c } := by
    rw [run_store, if_pos (by omega)]
  rw [putByte, run_bind_ok hstore]
  change (if s.q + 1 < s.len then _ else _ : FormatProc Unit).run _ = _
  rw [if_pos hroom]
  change (store 0).run _ = _
  rw [run_store, if_pos]
  change s.q + 1 < (s.out.set s.q c).length
  rw [List.length_set]
  omega

/-- A byte at the end of the buffer stays in its last cell. -/
theorem run_putByte_last (hlast : s.len ≤ s.q + 1) (c : UInt8) :
    (putByte c).run s = if s.q < s.out.length then
        .ok () { s with out := s.out.set s.q c, l := s.l + 1 }
      else .error .outOfBounds s := by
  split
  · next hq =>
      have hstore : (store c).run s = .ok () { s with out := s.out.set s.q c } := by
        rw [run_store, if_pos hq]
      rw [putByte, run_bind_ok hstore]
      change (if s.q + 1 < s.len then _ else _ : FormatProc Unit).run _ = _
      rw [if_neg (Nat.not_lt.mpr hlast)]
      rfl
  · next hq =>
      have hstore : (store c).run s = .error .outOfBounds s := by rw [run_store, if_neg hq]
      rw [putByte, run_bind_error hstore]

/-- With room for a byte and the NUL behind it, the buffer holds the longer text. -/
theorem holds_putByte (h : Holds s text) (hc : c ≠ 0) (hroom : text.length + 1 < s.len) :
    ∃ t, (putByte c).run s = .ok () t ∧ Holds t (text ++ [c]) ∧ t.len = s.len := by
  obtain ⟨more, hmore⟩ := h.content
  have hlength := congrArg List.length hmore
  rw [List.length_append, List.length_cons, ← h.len] at hlength
  obtain ⟨m, more, rfl⟩ := List.exists_cons_of_length_pos (by omega : 0 < more.length)
  refine ⟨_, run_putByte_room h.len (by rw [h.pointer]; exact hroom) c, ?_, rfl⟩
  refine ⟨⟨?_, ?_⟩, ?_, ⟨more, ?_⟩, ?_⟩
  · simp [h.len]
  · rw [counter_succ, ← h.counter]
  · simp [h.pointer]
  · have hcells : text ++ c :: m :: more = text ++ [c] ++ m :: more := by simp
    have hend : s.q + 1 = (text ++ [c]).length := by simp [h.pointer]
    rw [hmore, hend, h.pointer, set_middle, hcells, set_middle]
  · simpa [hc.symm] using h.noNul

/-- Without it, the text has no NUL behind it. -/
theorem spoiled_putByte_full (h : Holds s text) (hc : c ≠ 0) (hfull : s.len ≤ text.length + 1) :
    wp (putByte c) (fun _ t => Spoiled t (text ++ [c]) ∧ t.len = s.len) (fun _ _ => True) s := by
  obtain ⟨more, hmore⟩ := h.content
  have hlength := congrArg List.length hmore
  rw [List.length_append, List.length_cons, ← h.len] at hlength
  obtain rfl : more = [] := List.length_eq_zero_iff.mp (by omega)
  rw [wp, run_putByte_last (by rw [h.pointer]; exact hfull), if_pos (by
    rw [← h.len, h.pointer]
    omega)]
  have hout : s.out.set s.q c = text ++ [c] := by rw [hmore, h.pointer, set_middle]
  refine ⟨⟨⟨?_, ?_⟩, .unterminated ?_ ?_ ?_⟩, rfl⟩
  · simp [h.len]
  · rw [counter_succ, ← h.counter]
  · simpa [hout, hc.symm] using h.noNul
  · simpa [h.pointer] using hfull
  · simp [hout]

/-- The cases of a buffer that has lost the text, after a write and a longer text. -/
theorem lost_set (h : Lost s text) (hc : c ≠ 0) (hlast : s.len ≤ s.q + 1) :
    Lost { s with out := s.out.set s.q c, l := s.l + 1 } (text ++ [c]) := by
  have hgrows : (text ++ [c]).length = text.length + 1 := by simp
  cases h with
  | overflow small large =>
      exact .overflow (by simpa using small) (by omega)
  | unterminated noNul last short =>
      refine .unterminated ?_ last (by simp only [List.length_set]; omega)
      intro hmem
      obtain hmem | heq := List.mem_or_eq_of_mem_set hmem
      · exact noNul hmem
      · exact hc heq.symm
  | cut shown more content noNul short behind =>
      obtain hbehind | ⟨rfl, hq⟩ := behind
      · obtain ⟨more', hmore⟩ := set_behind hbehind 0 c more
        refine .cut shown more' ?_ noNul (by omega) (.inl hbehind)
        rw [← hmore, ← content]
      · have hout : s.out.set s.q c = shown ++ [c] := by rw [content, hq, set_middle]
        refine .unterminated ?_ hlast ?_
        · simpa [hout, hc.symm] using noNul
        · simp only [hout, List.length_append, List.length_singleton]
          omega

/-- A byte more does not bring the text back. -/
theorem spoiled_putByte (h : Spoiled s text) (hc : c ≠ 0) :
    wp (putByte c) (fun _ t => Spoiled t (text ++ [c]) ∧ t.len = s.len) (fun _ _ => True) s := by
  by_cases hroom : s.q + 1 < s.len
  · rw [wp, run_putByte_room h.len hroom]
    refine ⟨⟨⟨?_, ?_⟩, ?_⟩, rfl⟩
    · simp [h.len]
    · rw [counter_succ, ← h.counter]
    · have hgrows : (text ++ [c]).length = text.length + 1 := by simp
      cases h.lost with
      | overflow small large => exact .overflow (by simpa using small) (by omega)
      | unterminated noNul last short => omega
      | cut shown more content noNul short behind =>
          obtain hbehind | ⟨rfl, hq⟩ := behind
          · obtain ⟨more₁, hmore₁⟩ := set_behind hbehind 0 c more
            obtain ⟨more₂, hmore₂⟩ := set_behind (Nat.lt_succ_of_lt hbehind) 0 0 more₁
            refine .cut shown more₂ ?_ noNul (by omega) (.inl (Nat.lt_succ_of_lt hbehind))
            rw [← hmore₂, ← hmore₁, ← content]
          · have hlength := congrArg List.length content
            rw [List.length_append, List.length_singleton, ← h.len] at hlength
            omega
  · have hlast : s.len ≤ s.q + 1 := Nat.not_lt.mp hroom
    rw [wp, run_putByte_last hlast]
    split
    · next t heq =>
        split at heq
        · cases heq
          refine ⟨⟨⟨?_, ?_⟩, lost_set h.lost hc hlast⟩, rfl⟩
          · simp [h.len]
          · rw [counter_succ, ← h.counter]
        · cases heq
    · trivial

/-- The NUL that is written behind a value -/
theorem holds_store (h : Holds s text) :
    ∃ t, (store 0).run s = .ok () t ∧ Holds t text ∧ t.len = s.len := by
  obtain ⟨more, hmore⟩ := h.content
  have hlength := congrArg List.length hmore
  rw [List.length_append, List.length_cons] at hlength
  have hout : s.out.set s.q 0 = s.out := by rw [hmore, h.pointer, set_middle]
  refine ⟨s, ?_, h, rfl⟩
  rw [run_store, if_pos (by rw [h.pointer]; omega), hout]

theorem spoiled_store (h : Spoiled s text) :
    wp (store 0) (fun _ t => Spoiled t text ∧ t.len = s.len) (fun _ _ => True) s := by
  rw [wp, run_store]
  by_cases hq : s.q < s.out.length
  · rw [if_pos hq]
    refine ⟨⟨⟨?_, h.counter⟩, ?_⟩, rfl⟩
    · simp [h.len]
    · cases h.lost with
      | overflow small large => exact .overflow (by simpa using small) large
      | unterminated noNul last short =>
          have hlast : s.q = (s.out.take s.q).length := by
            rw [List.length_take]
            omega
          have hout : s.out.set s.q 0 = s.out.take s.q ++ [0] := by
            rw [List.set_eq_take_append_cons_drop, if_pos hq, List.drop_of_length_le]
            rw [← h.len]
            omega
          refine .cut (s.out.take s.q) [] hout (fun hmem => noNul (List.mem_of_mem_take hmem)) ?_
            (.inr ⟨rfl, hlast⟩)
          omega
      | cut shown more content noNul short behind =>
          obtain hbehind | ⟨rfl, hq⟩ := behind
          · obtain ⟨more', hmore⟩ := set_behind hbehind 0 0 more
            refine .cut shown more' ?_ noNul short (.inl hbehind)
            rw [← hmore, ← content]
          · refine .cut shown [] ?_ noNul short (.inr ⟨rfl, hq⟩)
            rw [content, hq, set_middle]
  · rw [if_neg hq]
    trivial

/-- What was lost is not read at the end. -/
theorem Spoiled.not_string (h : Spoiled s text) : stringAt 0 s.out 0 ≠ some text := by
  intro hstring
  obtain ⟨htext, more', hmore'⟩ := stringAt_eq_some_iff.mp hstring
  rw [List.drop_zero] at hmore'
  have hlength := congrArg List.length hmore'
  rw [List.length_append, List.length_cons] at hlength
  cases h.lost with
  | overflow small large => omega
  | unterminated noNul last short => omega
  | cut shown more content noNul short behind =>
      have hshown : stringAt 0 s.out 0 = some shown :=
        stringAt_eq_some_iff.mpr ⟨noNul, more, content⟩
      rw [hshown] at hstring
      cases hstring
      omega

end Bytes

/-! ## A value -/

section Values

variable {junk : ℕ → ℕ → UInt8} {s : FormatState} {text : Bytes} {bytes v : Bytes}

theorem Holds.string (h : Holds s text) : stringAt 0 s.out 0 = some text := by
  obtain ⟨more, hmore⟩ := h.content
  exact stringAt_eq_some_iff.mpr ⟨h.noNul, more, hmore⟩

theorem Holds.length_lt (h : Holds s text) : text.length < s.len := by
  obtain ⟨more, hmore⟩ := h.content
  have hlength := congrArg List.length hmore
  rw [List.length_append, List.length_cons, ← h.len] at hlength
  omega

/-- The bytes of a value that have room -/
theorem holds_bytes (h : Holds s text) (hv : 0 ∉ v) (hroom : text.length + v.length < s.len) :
    ∃ t, (v.forM putByte).run s = .ok () t ∧ Holds t (text ++ v) ∧ t.len = s.len := by
  induction v generalizing s text with
  | nil => exact ⟨s, rfl, by simpa using h, rfl⟩
  | cons c v ih =>
      rw [List.length_cons] at hroom
      have hc : c ≠ 0 := fun hzero => hv (by simp [hzero])
      obtain ⟨t, hrun, ht, hlen⟩ := holds_putByte h hc (by omega)
      obtain ⟨t', hrun', ht', hlen'⟩ := ih ht (fun hzero => hv (List.mem_cons_of_mem c hzero)) (by
        rw [List.length_append, List.length_singleton, hlen]
        omega)
      refine ⟨t', ?_, by simpa using ht', hlen'.trans hlen⟩
      change (putByte c >>= fun _ => v.forM putByte).run s = _
      rw [run_bind_ok hrun, hrun']

theorem spoiled_bytes (h : Spoiled s text) (hv : 0 ∉ v) :
    wp (v.forM putByte) (fun _ t => Spoiled t (text ++ v) ∧ t.len = s.len) (fun _ _ => True) s := by
  induction v generalizing s text with
  | nil => exact ⟨by simpa using h, rfl⟩
  | cons c v ih =>
      have hc : c ≠ 0 := fun hzero => hv (by simp [hzero])
      change wp (putByte c >>= fun _ => v.forM putByte) _ _ s
      rw [wp_bind]
      refine wp_mono (spoiled_putByte h hc) (fun _ t ht => ?_) fun _ _ _ => trivial
      refine wp_mono (ih ht.1 fun hzero => hv (List.mem_cons_of_mem c hzero))
        (fun _ t' ht' => ?_) fun _ _ _ => trivial
      rw [List.append_assoc, List.singleton_append] at ht'
      exact ⟨ht'.1, ht'.2.trans ht.2⟩

/-- Bytes that fill the buffer -/
theorem spoiled_bytes_full (h : Holds s text) (hv : 0 ∉ v)
    (hfull : s.len ≤ text.length + v.length) :
    wp (v.forM putByte) (fun _ t => Spoiled t (text ++ v) ∧ t.len = s.len) (fun _ _ => True) s := by
  induction v generalizing s text with
  | nil =>
      obtain ⟨more, hmore⟩ := h.content
      have hlength := congrArg List.length hmore
      rw [List.length_append, List.length_cons, ← h.len] at hlength
      rw [List.length_nil] at hfull
      omega
  | cons c v ih =>
      have hc : c ≠ 0 := fun hzero => hv (by simp [hzero])
      have hrest : 0 ∉ v := fun hzero => hv (List.mem_cons_of_mem c hzero)
      rw [List.length_cons] at hfull
      change wp (putByte c >>= fun _ => v.forM putByte) _ _ s
      rw [wp_bind]
      by_cases hroom : text.length + 1 < s.len
      · obtain ⟨t, hrun, ht, hlen⟩ := holds_putByte h hc hroom
        refine wp_of_ok hrun ?_
        refine wp_mono (ih ht hrest ?_) (fun _ t' ht' => ?_) fun _ _ _ => trivial
        · rw [List.length_append, List.length_singleton, hlen]
          omega
        · rw [List.append_assoc, List.singleton_append] at ht'
          exact ⟨ht'.1, ht'.2.trans hlen⟩
      · refine wp_mono (spoiled_putByte_full h hc (by omega)) (fun _ t ht => ?_)
          fun _ _ _ => trivial
        refine wp_mono (spoiled_bytes ht.1 hrest) (fun _ t' ht' => ?_) fun _ _ _ => trivial
        rw [List.append_assoc, List.singleton_append] at ht'
        exact ⟨ht'.1, ht'.2.trans ht.2⟩

theorem run_strlenOut_some (h : stringAt 0 s.out 0 = some bytes) :
    strlenOut.run s = .ok bytes.length s := by
  rw [strlenOut, run_get_bind, h]
  rfl

theorem run_strlenOut_none (h : stringAt 0 s.out 0 = none) :
    strlenOut.run s = .error .outOfBounds s := by
  rw [strlenOut, run_get_bind, h]
  rfl

/-- The test for room, where the buffer holds a string -/
theorem run_needsRoom (h : stringAt 0 s.out 0 = some bytes) (v : Bytes) :
    (needsRoom v).run s = .ok
      (decide (s.len ≤ v.length ∨ bytes.length ≤ s.len ∧ s.len - bytes.length < v.length)) s := by
  rw [needsRoom, run_get_bind]
  by_cases hlen : s.len ≤ v.length
  · rw [if_pos hlen]
    simp only [hlen, true_or, decide_true]
    rfl
  · rw [if_neg hlen, run_bind_ok (run_strlenOut_some h)]
    simp only [hlen, false_or, Bool.decide_and]
    rfl

theorem wp_needsRoom (v : Bytes) (s : FormatState) :
    wp (needsRoom v) (fun _ t => t = s) (fun _ _ => True) s := by
  rw [needsRoom, wp, run_get_bind]
  by_cases hlen : s.len ≤ v.length
  · rw [if_pos hlen]
    rfl
  · rw [if_neg hlen]
    cases hstring : stringAt 0 s.out 0 with
    | none =>
        rw [run_bind_error (run_strlenOut_none hstring)]
        trivial
    | some bytes =>
        rw [run_bind_ok (run_strlenOut_some hstring)]
        rfl

/-- The buffer after it was made larger, up to the counter -/
theorem wp_growBuffer (h : stringAt 0 s.out 0 = some bytes) {Q : Unit → FormatState → Prop}
    (hgrown : sizeT (2 * Int32.ofNat (bytes.length + v.length)) ≠ 0 →
      sizeT (2 * Int32.ofNat (bytes.length + v.length)) ≤ 9223372036854775807 →
        Q () { s with
          out := resize (junk (sizeT (2 * Int32.ofNat (bytes.length + v.length))))
            (sizeT (2 * Int32.ofNat (bytes.length + v.length))) s.out
          len := sizeT (2 * Int32.ofNat (bytes.length + v.length))
          q := s.l.toNatClampNeg }) :
    wp (growBuffer junk v) Q (fun _ _ => True) s := by
  rw [growBuffer, wp_bind]
  refine wp_of_ok (run_strlenOut_some h) ?_
  rw [wp_bind, reallocateMemory]
  by_cases hzero : sizeT (2 * Int32.ofNat (bytes.length + v.length)) = 0
  · rw [if_pos hzero]
    trivial
  · rw [if_neg hzero]
    by_cases hmax : 9223372036854775807 < sizeT (2 * Int32.ofNat (bytes.length + v.length))
    · rw [if_pos hmax]
      trivial
    · rw [if_neg hmax]
      simp only [wp_modify, wp_bind, wp_get, wp_ite, wp_throw, wp_set]
      exact ⟨fun _ => trivial, fun _ => hgrown hzero (Nat.not_lt.mp hmax)⟩

/-- A buffer that holds the text holds it when it has grown. -/
theorem holds_growBuffer (junk : ℕ → ℕ → UInt8) (h : Holds s text) (hpos : 0 < v.length)
    (hlen : s.len ≤ text.length + v.length) (hfits : text.length + v.length < 1073741824) :
    ∃ t, (growBuffer junk v).run s = .ok () t ∧ Holds t text ∧
      t.len = 2 * (text.length + v.length) := by
  obtain ⟨more, hmore⟩ := h.content
  have hstring := h.string
  have hsize := sizeT_double hfits
  have hcounter : s.l.toNatClampNeg = text.length := by
    rw [h.counter, Int32.toNatClampNeg_ofNat_of_lt (by omega)]
  have hsign : ¬ s.l < 0 := by
    rw [h.counter, Int32.lt_iff_toInt_lt, Int32.toInt_ofNat_of_lt (by omega)]
    exact Int.not_lt.mpr (Int.natCast_nonneg _)
  obtain ⟨new, hnew⟩ := resize_of_le
    (by rw [← h.len]; omega : s.out.length ≤ 2 * (text.length + v.length))
    (junk (2 * (text.length + v.length)))
  refine ⟨{ s with
    out := resize (junk (2 * (text.length + v.length))) (2 * (text.length + v.length)) s.out
    len := 2 * (text.length + v.length)
    q := text.length }, ?_, ⟨⟨?_, h.counter⟩, rfl, ⟨more ++ new, ?_⟩, h.noNul⟩, rfl⟩
  · rw [growBuffer, run_bind_ok (run_strlenOut_some hstring)]
    dsimp only
    rw [hsize, reallocateMemory, if_neg (by omega), if_neg (by omega)]
    change (if s.l < 0 then _ else _ : FormatProc Unit).run _ = _
    rw [if_neg hsign, hcounter]
    rfl
  · exact (length_resize _ _ _).symm
  · rw [hnew, hmore, List.append_assoc, List.cons_append]

/-- The value cannot be put any more: the text is lost, or it will be too long. -/
def Doomed (s : FormatState) (text v : Bytes) : Prop :=
  Spoiled s text ∨
    Tracks s text ∧ s.out.length < 2147483648 ∧ 2147483648 ≤ text.length + v.length

theorem tracks_bytes (h : Tracks s text) :
    wp (v.forM putByte) (fun _ t => Tracks t (text ++ v) ∧ t.len = s.len) (fun _ _ => True) s := by
  induction v generalizing s text with
  | nil => exact ⟨by simpa using h, rfl⟩
  | cons c v ih =>
      have hbyte : wp (putByte c) (fun _ t => Tracks t (text ++ [c]) ∧ t.len = s.len)
          (fun _ _ => True) s := by
        by_cases hroom : s.q + 1 < s.len
        · rw [wp, run_putByte_room h.len hroom]
          exact ⟨⟨by simp [h.len], by rw [counter_succ, ← h.counter]⟩, rfl⟩
        · rw [wp, run_putByte_last (Nat.not_lt.mp hroom)]
          by_cases hq : s.q < s.out.length
          · rw [if_pos hq]
            exact ⟨⟨by simp [h.len], by rw [counter_succ, ← h.counter]⟩, rfl⟩
          · rw [if_neg hq]
            trivial
      change wp (putByte c >>= fun _ => v.forM putByte) _ _ s
      rw [wp_bind]
      refine wp_mono hbyte (fun _ t ht => ?_) fun _ _ _ => trivial
      refine wp_mono (ih ht.1) (fun _ t' ht' => ?_) fun _ _ _ => trivial
      rw [List.append_assoc, List.singleton_append] at ht'
      exact ⟨ht'.1, ht'.2.trans ht.2⟩

theorem doomed_bytes (h : Doomed s text v) (hv : 0 ∉ v) :
    wp (v.forM putByte) (fun _ t => Spoiled t (text ++ v)) (fun _ _ => True) s := by
  obtain h | ⟨h, hsmall, hlarge⟩ := h
  · exact wp_mono (spoiled_bytes h hv) (fun _ _ ht => ht.1) fun _ _ _ => trivial
  · refine wp_mono (tracks_bytes h) (fun _ t ht => ?_) fun _ _ _ => trivial
    refine ⟨ht.1, .overflow ?_ ?_⟩
    · rw [← ht.1.len, ht.2, h.len]
      exact hsmall
    · rw [List.length_append]
      exact hlarge

/-- Sizes that are granted are small or come from short strings. -/
theorem tracks_grown (h : Tracks s text) {size : ℕ} :
    Tracks { s with
      out := resize (junk size) size s.out
      len := size
      q := s.l.toNatClampNeg } text :=
  ⟨(length_resize _ _ _).symm, h.counter⟩

/-- A buffer that is to hold `2 ^ 30` bytes or more -/
theorem doomed_growBuffer_large (h : Tracks s text) (hstring : stringAt 0 s.out 0 = some bytes)
    (hle : bytes.length ≤ text.length) (hlarge : 1073741824 ≤ bytes.length + v.length) :
    wp (growBuffer junk v) (fun _ t => Doomed t text v) (fun _ _ => True) s := by
  refine wp_growBuffer hstring fun _ hmax => .inr ⟨tracks_grown h, ?_, ?_⟩
  · simp only [length_resize]
    exact sizeT_lt hmax
  · have hsize := sizeT_double_of_le hlarge
    omega

/-- A text that is lost stays lost when the buffer grows. -/
theorem doomed_growBuffer (h : Spoiled s text) (hroom : s.len ≤ v.length ∨
      ∀ bytes, stringAt 0 s.out 0 = some bytes → s.len < bytes.length + v.length) :
    wp (growBuffer junk v) (fun _ t => Doomed t text v) (fun _ _ => True) s := by
  cases hstring : stringAt 0 s.out 0 with
  | none =>
      rw [growBuffer, wp, run_bind_error (run_strlenOut_none hstring)]
      trivial
  | some bytes =>
      cases h.lost with
      | overflow small large =>
          refine wp_growBuffer hstring fun _ hmax => .inr ⟨tracks_grown h.toTracks, ?_, ?_⟩
          · simp only [length_resize]
            exact sizeT_lt hmax
          · omega
      | unterminated noNul last short =>
          obtain ⟨-, more, hmore⟩ := stringAt_eq_some_iff.mp hstring
          rw [List.drop_zero] at hmore
          exact absurd (by rw [hmore]; simp) noNul
      | cut shown more content noNul short behind =>
          have hshown : stringAt 0 s.out 0 = some shown :=
            stringAt_eq_some_iff.mpr ⟨noNul, more, content⟩
          obtain rfl : shown = bytes := Option.some.inj (hshown.symm.trans hstring)
          by_cases hlarge : 1073741824 ≤ shown.length + v.length
          · exact doomed_growBuffer_large h.toTracks hstring (Nat.le_of_lt short) hlarge
          refine wp_growBuffer hstring fun _ hmax => ?_
          have hsize := sizeT_double (Nat.not_le.mp hlarge)
          by_cases hlong : 2147483648 ≤ text.length
          · refine .inr ⟨tracks_grown h.toTracks, ?_, by omega⟩
            simp only [length_resize]
            exact sizeT_lt hmax
          · -- the old NUL stays in front of the write pointer
            have hcounter : s.l.toNatClampNeg = text.length := by
              rw [h.counter, Int32.toNatClampNeg_ofNat_of_lt (by omega)]
            have hlen : s.len ≤ shown.length + v.length := by
              obtain hlen | hlen := hroom
              · omega
              · exact Nat.le_of_lt (hlen shown hstring)
            have hle : s.out.length ≤ sizeT (2 * Int32.ofNat (shown.length + v.length)) := by
              rw [hsize, ← h.len]
              omega
            obtain ⟨new, hnew⟩ := resize_of_le hle
              (junk (sizeT (2 * Int32.ofNat (shown.length + v.length))))
            refine .inl ⟨tracks_grown h.toTracks, .cut shown (more ++ new) ?_ noNul short (.inl ?_)⟩
            · simp only [hnew]
              rw [content, List.append_assoc, List.cons_append]
            · simp only [hcounter]
              exact short

/-- The steps of a value: the test, the growth, the bytes and the NUL -/
theorem putValue_eq (junk : ℕ → ℕ → UInt8) (v : Bytes) :
    putValue junk v = (needsRoom v >>= fun room =>
      (if room = true then growBuffer junk v else pure ()) >>= fun _ =>
        v.forM putByte >>= fun _ => store 0) := by
  rw [putValue]
  congr 1
  funext room
  cases room with
  | false => rfl
  | true => rfl

theorem spoiled_putBytes (h : Doomed s text v) (hv : 0 ∉ v) :
    wp (v.forM putByte >>= fun _ => store 0) (fun _ t => Spoiled t (text ++ v))
      (fun _ _ => True) s := by
  rw [wp_bind]
  refine wp_mono (doomed_bytes h hv) (fun _ t ht => ?_) fun _ _ _ => trivial
  exact wp_mono (spoiled_store ht) (fun _ _ ht' => ht'.1) fun _ _ _ => trivial

/-- A value does not bring the text back. -/
theorem spoiled_putValue (h : Spoiled s text) (hv : 0 ∉ v) :
    wp (putValue junk v) (fun _ t => Spoiled t (text ++ v)) (fun _ _ => True) s := by
  rw [putValue_eq, wp_bind]
  cases hstring : stringAt 0 s.out 0 with
  | none =>
      refine wp_mono (wp_needsRoom v s) (fun room t ht => ?_) fun _ _ _ => trivial
      subst ht
      rw [wp_bind]
      cases room with
      | false => exact spoiled_putBytes (.inl h) hv
      | true =>
          rw [if_pos rfl]
          refine wp_mono (doomed_growBuffer h (.inr fun bytes hbytes => ?_))
            (fun _ t ht => spoiled_putBytes ht hv) fun _ _ _ => trivial
          rw [hstring] at hbytes
          cases hbytes
  | some bytes =>
      refine wp_of_ok (run_needsRoom hstring v) ?_
      rw [wp_bind]
      by_cases hroom : s.len ≤ v.length ∨ bytes.length ≤ s.len ∧ s.len - bytes.length < v.length
      · rw [decide_eq_true hroom, if_pos rfl]
        refine wp_mono (doomed_growBuffer h ?_) (fun _ t ht => spoiled_putBytes ht hv)
          fun _ _ _ => trivial
        refine hroom.imp_right fun hmore bytes' hbytes' => ?_
        rw [hstring] at hbytes'
        cases hbytes'
        omega
      · rw [decide_eq_false hroom, if_neg Bool.false_ne_true]
        exact spoiled_putBytes (.inl h) hv

/-- The test for room agrees with the lengths while the buffer holds the text. -/
theorem holds_needsRoom (h : Holds s text) (v : Bytes) :
    (needsRoom v).run s =
      .ok (decide (s.len ≤ v.length ∨ s.len < text.length + v.length)) s := by
  have hlt := h.length_lt
  rw [run_needsRoom h.string, decide_eq_decide.mpr]
  constructor
  · exact Or.imp_right fun hmore => by omega
  · exact Or.imp_right fun hmore => by omega

/-- The bytes of a value with room for all of them, and the NUL -/
theorem holds_putBytes (h : Holds s text) (hv : 0 ∉ v) (hroom : text.length + v.length < s.len) :
    ∃ t, (v.forM putByte >>= fun _ => store 0).run s = .ok () t ∧ Holds t (text ++ v) ∧
      t.len = s.len := by
  obtain ⟨t, hrun, ht, hlen⟩ := holds_bytes h hv hroom
  obtain ⟨t', hrun', ht', hlen'⟩ := holds_store ht
  exact ⟨t', (run_bind_ok hrun).trans hrun', ht', hlen'.trans hlen⟩

/-- A value for which the buffer is made larger -/
theorem holds_putValue_grown (junk : ℕ → ℕ → UInt8) (h : Holds s text) (hv : 0 ∉ v)
    (hgrows : s.len ≤ v.length ∨ s.len < text.length + v.length)
    (hfits : text.length + v.length < 1073741824) :
    ∃ t, (putValue junk v).run s = .ok () t ∧ Holds t (text ++ v) ∧
      t.len = 2 * (text.length + v.length) := by
  have hlt := h.length_lt
  obtain ⟨t, hrun, ht, hlen⟩ := holds_growBuffer junk h (by omega : 0 < v.length)
    (by omega) hfits
  obtain ⟨t', hrun', ht', hlen'⟩ := holds_putBytes ht hv (by omega)
  refine ⟨t', ?_, ht', hlen'.trans hlen⟩
  rw [putValue_eq, run_bind_ok (holds_needsRoom h v), decide_eq_true hgrows, if_pos rfl,
    run_bind_ok hrun, hrun']

/-- A value for which there is room -/
theorem holds_putValue_room (junk : ℕ → ℕ → UInt8) (h : Holds s text) (hv : 0 ∉ v)
    (hroom : ¬ (s.len ≤ v.length ∨ s.len < text.length + v.length))
    (hfits : text.length + v.length < s.len) :
    ∃ t, (putValue junk v).run s = .ok () t ∧ Holds t (text ++ v) ∧ t.len = s.len := by
  obtain ⟨t, hrun, ht, hlen⟩ := holds_putBytes h hv hfits
  refine ⟨t, ?_, ht, hlen⟩
  rw [putValue_eq, run_bind_ok (holds_needsRoom h v), decide_eq_false hroom,
    if_neg Bool.false_ne_true]
  exact hrun

/-- A value that is too long for any buffer -/
theorem spoiled_putValue_large (h : Holds s text) (hv : 0 ∉ v)
    (hgrows : s.len ≤ v.length ∨ s.len < text.length + v.length)
    (hlarge : 1073741824 ≤ text.length + v.length) :
    wp (putValue junk v) (fun _ t => Spoiled t (text ++ v)) (fun _ _ => True) s := by
  rw [putValue_eq, wp_bind]
  refine wp_of_ok (holds_needsRoom h v) ?_
  rw [decide_eq_true hgrows, if_pos rfl, wp_bind]
  exact wp_mono (doomed_growBuffer_large h.toTracks h.string (Nat.le_refl _) hlarge)
    (fun _ t ht => spoiled_putBytes ht hv) fun _ _ _ => trivial

/-- A value that fills the buffer loses its last byte to the NUL. -/
theorem spoiled_putValue_full (h : Holds s text) (hv : 0 ∉ v)
    (hroom : ¬ (s.len ≤ v.length ∨ s.len < text.length + v.length))
    (hfull : s.len ≤ text.length + v.length) :
    wp (putValue junk v) (fun _ t => Spoiled t (text ++ v)) (fun _ _ => True) s := by
  rw [putValue_eq, wp_bind]
  refine wp_of_ok (holds_needsRoom h v) ?_
  rw [decide_eq_false hroom, if_neg Bool.false_ne_true]
  change wp (v.forM putByte >>= fun _ => store 0) _ _ s
  rw [wp_bind]
  refine wp_mono (spoiled_bytes_full h hv hfull) (fun _ t ht => ?_) fun _ _ _ => trivial
  exact wp_mono (spoiled_store ht.1) (fun _ _ ht' => ht'.1) fun _ _ _ => trivial

end Values

/-! ## The whole format -/

section Formats

variable {junk : ℕ → ℕ → UInt8} {value : Bytes → CString} {format : Bytes} {s : FormatState}
  {text : Bytes} {toks : List Token}

/-- The text of a piece has no NUL. -/
def Clean (value : Bytes → CString) (tok : Token) : Prop := 0 ∉ tok.text value

theorem unescape_ne_zero {c : UInt8} (hc : c ≠ 0) : unescape c ≠ 0 := by
  rw [unescape]
  split_ifs
  all_goals first | decide | exact hc

theorem clean_tokens (hformat : 0 ∉ format) (h : tokens format = some toks) :
    ∀ tok ∈ toks, Clean value tok := by
  have hbyte {c : UInt8} (hc : c ≠ 0) : Clean value (.char c) := by
    intro hmem
    exact hc (List.mem_singleton.mp hmem).symm
  fun_induction tokens format generalizing toks with
  | case1 =>
      cases h
      exact fun _ hmem => absurd hmem List.not_mem_nil
  | case2 c rest hopens hbrace name =>
      rename_i ih
      obtain ⟨more, hmore, rfl⟩ := Option.map_eq_some_iff.mp h
      have hrest : 0 ∉ rest := fun hzero => hformat (List.mem_cons_of_mem c hzero)
      refine List.forall_mem_cons.mpr ⟨(value name).2, ?_⟩
      exact ih (fun hzero => hrest (List.mem_of_mem_drop hzero)) hmore
  | case3 => cases h
  | case4 => cases h
  | case5 d rest hopens ih =>
      obtain ⟨more, hmore, rfl⟩ := Option.map_eq_some_iff.mp h
      have hd : d ≠ 0 := fun hzero => hformat (by simp [hzero])
      refine List.forall_mem_cons.mpr ⟨hbyte (unescape_ne_zero hd), ?_⟩
      exact ih (fun hzero => hformat (by simp [hzero])) hmore
  | case6 c rest hopens hback ih =>
      obtain ⟨more, hmore, rfl⟩ := Option.map_eq_some_iff.mp h
      have hc : c ≠ 0 := fun hzero => hformat (by simp [hzero])
      refine List.forall_mem_cons.mpr ⟨hbyte hc, ?_⟩
      exact ih (fun hzero => hformat (List.mem_cons_of_mem c hzero)) hmore

/-- A piece does not bring the text back. -/
theorem spoiled_putToken {tok : Token} (h : Spoiled s text) (htok : Clean value tok) :
    wp (putToken junk value tok) (fun _ t => Spoiled t (text ++ tok.text value))
      (fun _ _ => True) s := by
  cases tok with
  | char c =>
      have hc : c ≠ 0 := fun hzero => htok (by simp [Token.text, hzero])
      exact wp_mono (spoiled_putByte h hc) (fun _ _ ht => ht.1) fun _ _ _ => trivial
  | tag name => exact spoiled_putValue h (value name).2

theorem spoiled_tokens (h : Spoiled s text) (htoks : ∀ tok ∈ toks, Clean value tok) :
    wp (toks.forM (putToken junk value))
      (fun _ t => Spoiled t (text ++ toks.flatMap (Token.text value))) (fun _ _ => True) s := by
  induction toks generalizing s text with
  | nil => exact (by simpa using h : Spoiled s (text ++ [].flatMap (Token.text value)))
  | cons tok toks ih =>
      obtain ⟨htok, hrest⟩ := List.forall_mem_cons.mp htoks
      change wp (putToken junk value tok >>= fun _ => toks.forM (putToken junk value)) _ _ s
      rw [wp_bind]
      refine wp_mono (spoiled_putToken h htok) (fun _ t ht => ?_) fun _ _ _ => trivial
      refine wp_mono (ih ht hrest) (fun _ t' ht' => ?_) fun _ _ _ => trivial
      rwa [List.append_assoc] at ht'

/-- A format whose pieces fit is expanded. -/
theorem holds_tokens (junk : ℕ → ℕ → UInt8) (h : Holds s text)
    (htoks : ∀ tok ∈ toks, Clean value tok) (hfits : Fits value s.len text.length toks) :
    ∃ t, (toks.forM (putToken junk value)).run s = .ok () t ∧
      Holds t (text ++ toks.flatMap (Token.text value)) := by
  induction toks generalizing s text with
  | nil => exact ⟨s, rfl, by simpa using h⟩
  | cons tok toks ih =>
      obtain ⟨htok, hrest⟩ := List.forall_mem_cons.mp htoks
      have hstep : ∃ t, (putToken junk value tok).run s = .ok () t ∧
          Holds t (text ++ tok.text value) ∧
            Fits value t.len (text ++ tok.text value).length toks := by
        cases tok with
        | char c =>
            rw [Fits] at hfits
            have hc : c ≠ 0 := fun hzero => htok (by simp [Token.text, hzero])
            obtain ⟨t, hrun, ht, hlen⟩ := holds_putByte h hc hfits.1
            refine ⟨t, hrun, ht, ?_⟩
            rw [hlen, Token.text, List.length_append, List.length_singleton]
            exact hfits.2
        | tag name =>
            rw [Fits] at hfits
            by_cases hgrows : s.len ≤ (value name).1.length ∨
              s.len < text.length + (value name).1.length
            · rw [if_pos hgrows] at hfits
              obtain ⟨t, hrun, ht, hlen⟩ :=
                holds_putValue_grown junk h (value name).2 hgrows hfits.1
              refine ⟨t, hrun, ht, ?_⟩
              rw [hlen, Token.text, List.length_append]
              exact hfits.2
            · rw [if_neg hgrows] at hfits
              obtain ⟨t, hrun, ht, hlen⟩ :=
                holds_putValue_room junk h (value name).2 hgrows hfits.1
              refine ⟨t, hrun, ht, ?_⟩
              rw [hlen, Token.text, List.length_append]
              exact hfits.2
      obtain ⟨t, hrun, ht, hfits'⟩ := hstep
      obtain ⟨t', hrun', ht'⟩ := ih ht hrest hfits'
      refine ⟨t', ?_, ?_⟩
      · change (putToken junk value tok >>= fun _ => toks.forM (putToken junk value)).run s = _
        rw [run_bind_ok hrun, hrun']
      · rwa [List.append_assoc] at ht'

/-- A format with a piece that does not fit is not. -/
theorem spoiled_tokens_of_not_fits (h : Holds s text) (htoks : ∀ tok ∈ toks, Clean value tok)
    (hfits : ¬ Fits value s.len text.length toks) :
    wp (toks.forM (putToken junk value))
      (fun _ t => Spoiled t (text ++ toks.flatMap (Token.text value))) (fun _ _ => True) s := by
  induction toks generalizing s text with
  | nil => exact absurd trivial hfits
  | cons tok toks ih =>
      obtain ⟨htok, hrest⟩ := List.forall_mem_cons.mp htoks
      have hstep : wp (putToken junk value tok) (fun _ t => Spoiled t (text ++ tok.text value) ∨
          Holds t (text ++ tok.text value) ∧
            ¬ Fits value t.len (text ++ tok.text value).length toks) (fun _ _ => True) s := by
        cases tok with
        | char c =>
            rw [Fits] at hfits
            have hc : c ≠ 0 := fun hzero => htok (by simp [Token.text, hzero])
            by_cases hroom : text.length + 1 < s.len
            · obtain ⟨t, hrun, ht, hlen⟩ := holds_putByte h hc hroom
              refine wp_of_ok hrun (.inr ⟨ht, fun hmore => hfits ⟨hroom, ?_⟩⟩)
              rwa [hlen, Token.text, List.length_append, List.length_singleton] at hmore
            · exact wp_mono (spoiled_putByte_full h hc (Nat.not_lt.mp hroom))
                (fun _ _ ht => .inl ht.1) fun _ _ _ => trivial
        | tag name =>
            rw [Fits] at hfits
            by_cases hgrows : s.len ≤ (value name).1.length ∨
              s.len < text.length + (value name).1.length
            · rw [if_pos hgrows] at hfits
              by_cases hsmall : text.length + (value name).1.length < 1073741824
              · obtain ⟨t, hrun, ht, hlen⟩ :=
                  holds_putValue_grown junk h (value name).2 hgrows hsmall
                refine wp_of_ok hrun (.inr ⟨ht, fun hmore => hfits ⟨hsmall, ?_⟩⟩)
                rwa [hlen, Token.text, List.length_append] at hmore
              · exact wp_mono (spoiled_putValue_large h (value name).2 hgrows
                  (Nat.not_lt.mp hsmall)) (fun _ _ ht => .inl ht) fun _ _ _ => trivial
            · rw [if_neg hgrows] at hfits
              by_cases hroom : text.length + (value name).1.length < s.len
              · obtain ⟨t, hrun, ht, hlen⟩ :=
                  holds_putValue_room junk h (value name).2 hgrows hroom
                refine wp_of_ok hrun (.inr ⟨ht, fun hmore => hfits ⟨hroom, ?_⟩⟩)
                rwa [hlen, Token.text, List.length_append] at hmore
              · exact wp_mono (spoiled_putValue_full h (value name).2 hgrows
                  (Nat.not_lt.mp hroom)) (fun _ _ ht => .inl ht) fun _ _ _ => trivial
      change wp (putToken junk value tok >>= fun _ => toks.forM (putToken junk value)) _ _ s
      rw [wp_bind]
      refine wp_mono hstep (fun _ t ht => ?_) fun _ _ _ => trivial
      have hrun : wp (toks.forM (putToken junk value)) (fun _ t =>
          Spoiled t (text ++ tok.text value ++ toks.flatMap (Token.text value)))
          (fun _ _ => True) t := by
        obtain ht | ⟨ht, hmore⟩ := ht
        · exact spoiled_tokens ht hrest
        · exact ih ht hrest hmore
      refine wp_mono hrun (fun _ t' ht' => ?_) fun _ _ _ => trivial
      rwa [List.append_assoc] at ht'

/-- The cleared buffer holds the empty text. -/
theorem holds_cleared {size : ℕ} (h : size ≠ 0) :
    Holds ⟨List.replicate size 0, size, 0, 0⟩ [] := by
  obtain ⟨n, rfl⟩ := Nat.exists_eq_succ_of_ne_zero h
  exact ⟨⟨by simp, rfl⟩, rfl, ⟨List.replicate n 0, rfl⟩, List.not_mem_nil⟩

/-- What a format needs that is expanded -/
theorem fits_of_expands (hformat : 0 ∉ format) (h : Expands junk value format) :
    format ≠ [] ∧ ∃ toks, tokens format = some toks ∧ Fits value (4 * format.length) 0 toks := by
  obtain ⟨s, text, hrun, htext, hstring⟩ := h
  rw [formatString] at hrun
  by_cases hempty : format = []
  · subst hempty
    cases hrun
  have hsize : 4 * format.length ≠ 0 := by
    have hpos := List.length_pos_of_ne_nil hempty
    omega
  rw [if_neg hsize] at hrun
  refine ⟨hempty, ?_⟩
  cases htokens : tokens format with
  | none => exact (wp_ok (formatLoop_fails hformat htokens _) hrun).elim
  | some toks =>
      refine ⟨toks, rfl, ?_⟩
      rw [formatLoop_eq hformat htokens] at hrun
      rw [expand, htokens, Option.map_some] at htext
      obtain rfl := Option.some.inj htext
      by_contra hfits
      have hspoiled := wp_ok (spoiled_tokens_of_not_fits (holds_cleared hsize)
        (clean_tokens hformat htokens) hfits) hrun
      exact hspoiled.not_string hstring

/-- A format is expanded within the memory if and only if it is not empty, consists of whole
pieces, and its text stays shorter than the buffer. -/
theorem expands_iff (junk : ℕ → ℕ → UInt8) (value : Bytes → CString) (format : CString) :
    Expands junk value format.1 ↔ format.1 ≠ [] ∧
      ∃ toks, tokens format.1 = some toks ∧ Fits value (4 * format.1.length) 0 toks := by
  constructor
  · exact fits_of_expands format.2
  · rintro ⟨hempty, toks, htokens, hfits⟩
    have hsize : 4 * format.1.length ≠ 0 := by
      have hpos := List.length_pos_of_ne_nil hempty
      omega
    obtain ⟨t, hrun, ht⟩ := holds_tokens junk (holds_cleared hsize)
      (clean_tokens format.2 htokens) hfits
    refine ⟨t, toks.flatMap (Token.text value), ?_, ?_, ht.string⟩
    · rw [formatString, if_neg hsize, formatLoop_eq format.2 htokens]
      exact hrun
    · rw [expand, htokens, Option.map_some]

end Formats

/-- A value of 31 bytes -/
def longName : CString := ⟨List.replicate 31 'a'.toUInt8, by decide⟩

/-- Behind a value of 31 bytes, the last byte of `%{name}x` takes the place of the NUL. -/
theorem full_buffer_not_expanded :
    ¬ Expands (fun _ _ => 0) (fun _ => longName) (ascii "%\x7bname\x7dx") := by
  intro h
  obtain ⟨-, toks, htokens, hfits⟩ := fits_of_expands (by decide) h
  have hpieces : tokens (ascii "%\x7bname\x7dx") =
      some [.tag (ascii "name"), .char 'x'.toUInt8] := by decide +kernel
  rw [hpieces] at htokens
  cases htokens
  rw [Fits, if_neg (by decide), Fits] at hfits
  exact absurd hfits.2.1 (by decide)

end Tdnf.Cli
