import Mathlib.Data.List.Basic
import Mathlib.Logic.Relation

/-!
# Texts that come in pieces

A stream of markup and texts, where each text may come in any number of pieces. What
a stream says does not depend on the pieces: two streams say the same if one comes
from the other by splitting and joining pieces.
-/

namespace Chunks

variable {μ η α : Type}

/-- An event of a stream; a piece of text is not empty. -/
inductive Event (μ α : Type) where
  | markup (m : μ)
  | text (c : α) (s : List α)

/-- One piece of the first stream is split in two. -/
inductive Split : List (Event μ α) → List (Event μ α) → Prop
  | here (c : α) (s : List α) (d : α) (t : List α) (es : List (Event μ α)) :
      Split (.text c (s ++ d :: t) :: es) (.text c s :: .text d t :: es)
  | there (e : Event μ α) {es es' : List (Event μ α)} (h : Split es es') :
      Split (e :: es) (e :: es')

/-- The streams differ only in how texts are split. -/
def Rechunked : List (Event μ α) → List (Event μ α) → Prop := Relation.EqvGen Split

theorem Rechunked.cons (e : Event μ α) {es es' : List (Event μ α)} (h : Rechunked es es') :
    Rechunked (e :: es) (e :: es') := by
  induction h with
  | rel _ _ h => exact .rel _ _ (.there e h)
  | refl _ => exact .refl _
  | symm _ _ _ ih => exact .symm _ _ ih
  | trans _ _ _ _ _ ih₁ ih₂ => exact .trans _ _ _ ih₁ ih₂

theorem Rechunked.append_left (pre : List (Event μ α)) {es es' : List (Event μ α)}
    (h : Rechunked es es') : Rechunked (pre ++ es) (pre ++ es') := by
  induction pre with
  | nil => exact h
  | cons e pre ih => exact ih.cons e

/-- The pieces at the beginning of a stream -/
def leading : List (Event μ α) → List (List α)
  | [] => []
  | .text c s :: es => (c :: s) :: leading es
  | .markup _ :: _ => []

section Segments

variable (opens : μ → Option η)

/-- What opens an element, with the pieces directly behind it -/
def segments : List (Event μ α) → List (η × List (List α))
  | [] => []
  | .text _ _ :: es => segments es
  | .markup m :: es =>
      match opens m with
      | some h => (h, leading es) :: segments es
      | none => segments es

/-- What opens an element, with the text directly behind it -/
def texts (es : List (Event μ α)) : List (η × List α) :=
  (segments opens es).map fun seg => (seg.1, seg.2.flatten)

/-- A reader that takes each piece as long as nothing but text follows what was opened -/
def calls : Option η → List (Event μ α) → List (η × List α)
  | _, [] => []
  | current, .text c s :: es => current.toList.map (·, c :: s) ++ calls current es
  | _, .markup m :: es => calls (opens m) es

variable {opens}

theorem calls_eq (current : Option η) (es : List (Event μ α)) :
    calls opens current es =
      (current.toList.map (·, leading es) ++ segments opens es).flatMap fun seg =>
        seg.2.map (seg.1, ·) := by
  induction es generalizing current with
  | nil => cases current <;> rfl
  | cons e es ih =>
      cases e with
      | text c s =>
          rw [calls, ih]
          cases current <;> rfl
      | markup m =>
          rw [calls, ih, segments]
          cases opens m <;> cases current <;> rfl

theorem nil_notMem_leading (es : List (Event μ α)) : [] ∉ leading es := by
  induction es with
  | nil => exact List.not_mem_nil
  | cons e es ih =>
      cases e with
      | text c s => exact fun h => ih (List.mem_of_ne_of_mem (List.cons_ne_nil c s).symm h)
      | markup m => exact List.not_mem_nil

theorem nil_notMem_of_mem_segments {es : List (Event μ α)} {seg : η × List (List α)}
    (h : seg ∈ segments opens es) : [] ∉ seg.2 := by
  induction es with
  | nil => cases h
  | cons e es ih =>
      cases e with
      | text c s => exact ih h
      | markup m =>
          rw [segments] at h
          cases hopens : opens m with
          | none =>
              rw [hopens] at h
              exact ih h
          | some head =>
              rw [hopens] at h
              obtain rfl | h := List.mem_cons.mp h
              · exact nil_notMem_leading es
              · exact ih h

/-! ## What does not depend on the pieces -/

theorem leading_flatten_of_split {es es' : List (Event μ α)} (h : Split es es') :
    (leading es).flatten = (leading es').flatten := by
  induction h with
  | here c s d t es => simp [leading]
  | there e h ih =>
      cases e with
      | text c s => rw [leading, leading, List.flatten_cons, List.flatten_cons, ih]
      | markup m => rfl

theorem texts_of_split {es es' : List (Event μ α)} (h : Split es es') :
    texts opens es = texts opens es' := by
  induction h with
  | here c s d t es => rfl
  | there e h ih =>
      cases e with
      | text c s => exact ih
      | markup m =>
          rw [texts, texts] at ih ⊢
          rw [segments, segments]
          cases opens m with
          | none => exact ih
          | some head =>
              rw [List.map_cons, List.map_cons, ih, leading_flatten_of_split h]

theorem texts_of_rechunked {es es' : List (Event μ α)} (h : Rechunked es es') :
    texts opens es = texts opens es' := by
  induction h with
  | rel _ _ h => exact texts_of_split h
  | refl _ => rfl
  | symm _ _ _ ih => exact ih.symm
  | trans _ _ _ _ _ ih₁ ih₂ => exact ih₁.trans ih₂

/-- Splitting leaves the markup as it is. -/
theorem mem_markup_of_rechunked {es es' : List (Event μ α)} (h : Rechunked es es') (m : μ) :
    Event.markup m ∈ es ↔ Event.markup m ∈ es' := by
  induction h with
  | rel _ _ h =>
      induction h with
      | here c s d t es => simp
      | there e h ih => rw [List.mem_cons, List.mem_cons, ih]
  | refl _ => rfl
  | symm _ _ _ ih => exact ih.symm
  | trans _ _ _ _ _ ih₁ ih₂ => exact ih₁.trans ih₂

end Segments

/-! ## Choosing the pieces -/

/-- The events of pieces; empty ones are left out. -/
def ofPieces : List (List α) → List (Event μ α)
  | [] => []
  | [] :: ps => ofPieces ps
  | (c :: s) :: ps => .text c s :: ofPieces ps

theorem rechunked_ofPieces (ps : List (List α)) (es : List (Event μ α)) :
    Rechunked (ofPieces [ps.flatten] ++ es) (ofPieces ps ++ es) := by
  induction ps with
  | nil => exact .refl _
  | cons p ps ih =>
      cases p with
      | nil => exact ih
      | cons c s =>
          refine .trans _ _ _ ?_ (ih.cons (.text c s))
          rw [List.flatten_cons]
          cases hrest : ps.flatten with
          | nil =>
              rw [List.append_nil]
              exact .refl _
          | cons d t => exact .rel _ _ (.here c s d t es)

section Rechop

variable {opens : μ → Option η} {choose : Option η → List α → List (List α)}

/-- The stream with each text in the pieces chosen for it and what it stands behind -/
def rechop (opens : μ → Option η) (choose : Option η → List α → List (List α)) :
    Option η → List α → List (Event μ α) → List (Event μ α)
  | current, text, [] => ofPieces (choose current text)
  | current, text, .text c s :: es => rechop opens choose current (text ++ c :: s) es
  | current, text, .markup m :: es =>
      ofPieces (choose current text) ++ .markup m :: rechop opens choose (opens m) [] es

theorem rechunked_rechop (h : ∀ current text, (choose current text).flatten = text)
    (current : Option η) (text : List α) (es : List (Event μ α)) :
    Rechunked (ofPieces [text] ++ es) (rechop opens choose current text es) := by
  induction es generalizing current text with
  | nil =>
      have hpieces := rechunked_ofPieces (choose current text) ([] : List (Event μ α))
      rw [h, List.append_nil (ofPieces (choose current text))] at hpieces
      exact hpieces
  | cons e es ih =>
      cases e with
      | text c s =>
          have hjoin := rechunked_ofPieces [text, c :: s] es
          rw [List.flatten_cons, List.flatten_singleton] at hjoin
          refine .trans _ _ _ (.symm _ _ ?_) (ih current (text ++ c :: s))
          cases text with
          | nil => exact hjoin
          | cons b r => exact hjoin
      | markup m =>
          have hpieces := rechunked_ofPieces (choose current text) (.markup m :: es)
          rw [h] at hpieces
          have hrest := ((ih (opens m) []).cons (.markup m)).append_left
            (ofPieces (choose current text))
          exact .trans _ _ _ hpieces hrest

theorem leading_ofPieces (ps : List (List α)) (es : List (Event μ α)) :
    leading (ofPieces ps ++ es) = ps.filter (!·.isEmpty) ++ leading es := by
  induction ps with
  | nil => rfl
  | cons p ps ih =>
      cases p with
      | nil => exact ih
      | cons c s => exact congrArg (List.cons (c :: s)) ih

theorem segments_ofPieces (ps : List (List α)) (es : List (Event μ α)) :
    segments opens (ofPieces ps ++ es) = segments opens es := by
  induction ps with
  | nil => rfl
  | cons p ps ih =>
      cases p with
      | nil => exact ih
      | cons c s => exact ih

theorem leading_rechop (current : Option η) (text : List α) (es : List (Event μ α)) :
    leading (rechop opens choose current text es) =
      (choose current (text ++ (leading es).flatten)).filter (!·.isEmpty) := by
  induction es generalizing text with
  | nil =>
      have hnil := leading_ofPieces (choose current text) ([] : List (Event μ α))
      rw [List.append_nil] at hnil
      rw [rechop, hnil, leading, List.flatten_nil, List.append_nil, List.append_nil]
  | cons e es ih =>
      cases e with
      | text c s => rw [rechop, ih, leading, List.flatten_cons, List.append_assoc]
      | markup m =>
          rw [rechop, leading_ofPieces, leading, leading, List.append_nil, List.flatten_nil,
            List.append_nil]

/-- The pieces behind what opens an element are the chosen ones. -/
theorem segments_rechop (current : Option η) (text : List α) (es : List (Event μ α)) :
    segments opens (rechop opens choose current text es) =
      (texts opens es).map fun t => (t.1, (choose (some t.1) t.2).filter (!·.isEmpty)) := by
  induction es generalizing current text with
  | nil =>
      have hnil : segments opens (ofPieces (choose current text) ++ []) = segments opens [] :=
        segments_ofPieces (choose current text) []
      rw [List.append_nil] at hnil
      rw [rechop, hnil]
      rfl
  | cons e es ih =>
      cases e with
      | text c s => exact ih current (text ++ c :: s)
      | markup m =>
          rw [rechop, segments_ofPieces, segments, texts, segments]
          cases h : opens m with
          | none => exact ih none []
          | some head =>
              rw [List.map_cons, List.map_cons, leading_rechop, ih, List.nil_append]
              rfl

end Rechop

end Chunks
