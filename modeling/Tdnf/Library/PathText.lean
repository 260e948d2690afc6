import Mathlib.Data.List.DropRight
import Mathlib.Data.Nat.Notation

/-!
# Paths as texts and as locations

A path is a text in which slashes separate pieces. A location is the list of
names that leads to a place in a file tree, the innermost name first. The text
of a path says how to move from one location to the next: an empty piece or a
dot stays, two dots go up, a name goes down.
-/

namespace PathText

abbrev Text := List Char

/-- The parts of a text between its slashes. -/
def pieces : Text → List Text
  | [] => [[]]
  | c :: s =>
    if c = '/' then [] :: pieces s
    else match pieces s with
      | [] => [[c]]
      | x :: xs => (c :: x) :: xs

theorem pieces_ne_nil (s : Text) : pieces s ≠ [] := by
  cases s with
  | nil => simp [pieces]
  | cons c s =>
      simp only [pieces]
      split
      · simp
      · split <;> simp

theorem pieces_append_slash (a b : Text) : pieces (a ++ '/' :: b) = pieces a ++ pieces b := by
  induction a with
  | nil => simp [pieces]
  | cons c a ih =>
      by_cases hc : c = '/'
      · simp [pieces, hc, ih]
      · obtain ⟨x, xs, hx⟩ := List.exists_cons_of_ne_nil (pieces_ne_nil a)
        simp [pieces, hc, ih, hx]

theorem pieces_of_not_mem {x : Text} (hx : '/' ∉ x) : pieces x = [x] := by
  induction x with
  | nil => rfl
  | cons c x ih =>
      simp only [List.mem_cons, not_or] at hx
      simp [pieces, Ne.symm hx.1, ih hx.2]

theorem not_mem_pieces {s x : Text} (hx : x ∈ pieces s) : '/' ∉ x := by
  induction s generalizing x with
  | nil => simp_all [pieces]
  | cons c s ih =>
      obtain ⟨y, ys, hy⟩ := List.exists_cons_of_ne_nil (pieces_ne_nil s)
      by_cases hc : c = '/'
      · simp only [pieces, hc, if_true, List.mem_cons] at hx
        obtain rfl | hx := hx
        · simp
        · exact ih hx
      · simp only [pieces, hc, if_false, hy, List.mem_cons] at hx
        obtain rfl | hx := hx
        · have hyslash := ih (x := y) (by simp [hy])
          simpa [Ne.symm hc] using hyslash
        · exact ih (by simp [hy, hx])

/-- Pieces put together again, each after a slash. -/
def slashed (ps : List Text) : Text := ps.flatMap ('/' :: ·)

theorem slashed_pieces (s : Text) : slashed (pieces s) = '/' :: s := by
  induction s with
  | nil => rfl
  | cons c s ih =>
      obtain ⟨x, xs, hx⟩ := List.exists_cons_of_ne_nil (pieces_ne_nil s)
      rw [hx] at ih
      simp only [slashed, List.flatMap_cons, List.cons_append, List.cons.injEq, true_and] at ih
      by_cases hc : c = '/'
      · simp [pieces, hc, hx, slashed, ih]
      · simp [pieces, hc, hx, slashed, ih]

/-- What may stand between slashes as the name of a file or a directory. -/
def IsName (x : Text) : Prop := x ≠ [] ∧ '/' ∉ x ∧ x ≠ ['.'] ∧ x ≠ ['.', '.']

instance (x : Text) : Decidable (IsName x) := inferInstanceAs (Decidable (_ ∧ _))

abbrev Name := { x : Text // IsName x }

theorem piece_cases {x : Text} (hx : '/' ∉ x) :
    x = [] ∨ x = ['.'] ∨ x = ['.', '.'] ∨ IsName x := by
  by_cases hempty : x = []
  · exact .inl hempty
  · by_cases hdot : x = ['.']
    · exact .inr (.inl hdot)
    · by_cases hdots : x = ['.', '.']
      · exact .inr (.inr (.inl hdots))
      · exact .inr (.inr (.inr ⟨hempty, hx, hdot, hdots⟩))

/-- A long enough ending makes a name of any piece. -/
theorem isName_append {x t : Text} (hx : '/' ∉ x) (ht : '/' ∉ t) (hlong : 2 < t.length) :
    IsName (x ++ t) := by
  refine ⟨?_, by simp [hx, ht], ?_, ?_⟩ <;>
    · intro h
      have hlength := congrArg List.length h
      simp only [List.length_append, List.length_cons, List.length_nil] at hlength
      omega

/-- A place in a file tree, the innermost name first. -/
abbrev Loc := List Name

/-- `l` lies strictly below `d`. -/
def Below (d l : Loc) : Prop := d <:+ l ∧ d ≠ l

theorem below_cons {d l : Loc} {name : Name} : Below d (name :: l) ↔ d <:+ l := by
  constructor
  · rintro ⟨hsuffix, hne⟩
    exact (List.suffix_cons_iff.mp hsuffix).resolve_left hne
  · intro hsuffix
    refine ⟨hsuffix.trans (List.suffix_cons name l), ?_⟩
    rintro rfl
    have hlength := hsuffix.length_le
    rw [List.length_cons] at hlength
    omega

theorem Below.ne_nil {d l : Loc} (h : Below d l) : l ≠ [] := by
  rintro rfl
  exact h.2 (List.suffix_nil.mp h.1)

instance (d l : Loc) : Decidable (Below d l) := inferInstanceAs (Decidable (_ ∧ _))

/-- What a piece of a path does to the location reached before it. -/
inductive Comp where
  | here
  | up
  | down (name : Name)
deriving DecidableEq

def classify (x : Text) : Comp :=
  if x = ['.', '.'] then .up
  else if h : IsName x then .down ⟨x, h⟩
  else .here

@[simp] theorem classify_nil : classify [] = .here := by decide

@[simp] theorem classify_dot : classify ['.'] = .here := by decide

@[simp] theorem classify_dots : classify ['.', '.'] = .up := by decide

theorem classify_isName {x : Text} (hx : IsName x) : classify x = .down ⟨x, hx⟩ := by
  have hdots : x ≠ ['.', '.'] := hx.2.2.2
  simp [classify, hdots, hx]

@[simp] theorem classify_name (name : Name) : classify name.val = .down name :=
  classify_isName name.property

/-- The steps of a path. -/
def comps (s : Text) : List Comp := (pieces s).map classify

theorem comps_append_slash (a b : Text) : comps (a ++ '/' :: b) = comps a ++ comps b := by
  simp [comps, pieces_append_slash]

theorem comps_of_not_mem {x : Text} (hx : '/' ∉ x) : comps x = [classify x] := by
  simp [comps, pieces_of_not_mem hx]

@[simp] theorem comps_name (name : Name) : comps name.val = [.down name] := by
  rw [comps_of_not_mem name.property.2.1, classify_name]

/-- The steps of a path that do not stay. -/
def moves (s : Text) : List Comp := (comps s).filter (· ≠ .here)

theorem moves_append_slash (a b : Text) : moves (a ++ '/' :: b) = moves a ++ moves b := by
  simp [moves, comps_append_slash]

@[simp] theorem moves_nil : moves [] = [] := by decide

@[simp] theorem moves_slash (s : Text) : moves ('/' :: s) = moves s := by
  simpa using moves_append_slash [] s

theorem moves_name (name : Name) : moves name.val = [.down name] := by
  simp [moves]

def Comp.next (cur : Loc) : Comp → Loc
  | .here => cur
  | .up => cur.tail
  | .down name => name :: cur

/-- The location that steps lead to; the parent of the root is the root. -/
def lexical (cur : Loc) (steps : List Comp) : Loc := steps.foldl Comp.next cur

theorem lexical_append (cur : Loc) (a b : List Comp) :
    lexical cur (a ++ b) = lexical (lexical cur a) b := by
  simp [lexical]

theorem lexical_filter (cur : Loc) (steps : List Comp) :
    lexical cur (steps.filter (· ≠ .here)) = lexical cur steps := by
  induction steps generalizing cur with
  | nil => rfl
  | cons step steps ih =>
      by_cases hstep : step = .here
      · simpa [hstep, lexical, Comp.next] using ih cur
      · simpa [hstep, lexical] using ih (Comp.next cur step)

theorem lexical_moves (cur : Loc) (s : Text) : lexical cur (moves s) = lexical cur (comps s) :=
  lexical_filter cur (comps s)

/-- The names of a location, each after a slash; empty for the root. -/
def body : Loc → Text
  | [] => []
  | name :: d => body d ++ '/' :: name.val

/-- The text of a location. -/
def render (d : Loc) : Text := if d = [] then ['/'] else body d

@[simp] theorem render_nil : render [] = ['/'] := rfl

@[simp] theorem render_cons (name : Name) (d : Loc) :
    render (name :: d) = body d ++ '/' :: name.val := by
  simp [render, body]

theorem render_of_ne_nil {d : Loc} (hd : d ≠ []) : render d = body d := by
  simp [render, hd]

theorem comps_body (d : Loc) : comps (body d) = .here :: (d.reverse.map .down) := by
  induction d with
  | nil => decide
  | cons name d ih => simp [body, comps_append_slash, ih]

theorem moves_body (d : Loc) : moves (body d) = d.reverse.map .down := by
  simp [moves, comps_body, List.filter_map, Function.comp_def]

theorem moves_render (d : Loc) : moves (render d) = d.reverse.map .down := by
  cases d with
  | nil => decide
  | cons name d => rw [render_of_ne_nil (List.cons_ne_nil name d), moves_body]

theorem lexical_down (cur d : Loc) : lexical cur (d.reverse.map .down) = d ++ cur := by
  induction d with
  | nil => rfl
  | cons name d ih =>
      calc lexical cur ((name :: d).reverse.map .down)
          = lexical cur (d.reverse.map .down ++ [.down name]) := by simp
        _ = lexical (lexical cur (d.reverse.map .down)) [.down name] :=
            lexical_append cur _ _
        _ = lexical (d ++ cur) [.down name] := by rw [ih]
        _ = name :: d ++ cur := rfl

/-- The location that an absolute path leads to. -/
def locOf (s : Text) : Loc := lexical [] (comps s)

@[simp] theorem locOf_render (d : Loc) : locOf (render d) = d := by
  calc locOf (render d) = lexical [] (moves (render d)) := (lexical_moves [] (render d)).symm
    _ = lexical [] (d.reverse.map .down) := by rw [moves_render]
    _ = d ++ [] := lexical_down [] d
    _ = d := List.append_nil d

/-- A path goes on below the place that its first part leads to. -/
theorem locOf_append_body (p : Text) (d : Loc) : locOf (p ++ body d) = d ++ locOf p := by
  induction d with
  | nil => rw [body, List.append_nil, List.nil_append]
  | cons name d ih =>
      calc locOf (p ++ body (name :: d)) = lexical [] (comps (p ++ body d ++ '/' :: name.val)) := by
            rw [body, List.append_assoc, locOf]
        _ = lexical (locOf (p ++ body d)) (comps name.val) := by
            rw [comps_append_slash, lexical_append, locOf]
        _ = name :: d ++ locOf p := by
            rw [comps_name, ih]
            rfl

theorem render_injective {d d' : Loc} (h : render d = render d') : d = d' := by
  rw [← locOf_render d, h, locOf_render]

@[simp] theorem head_body (name : Name) (d : Loc) : (body (name :: d)).head? = some '/' := by
  induction d generalizing name with
  | nil => simp [body]
  | cons name' d ih => rw [body, List.head?_append, ih name']; rfl

@[simp] theorem head_render (d : Loc) : (render d).head? = some '/' := by
  cases d with
  | nil => rfl
  | cons name d => rw [render_of_ne_nil (List.cons_ne_nil name d), head_body]

theorem render_ne_nil (d : Loc) : render d ≠ [] := by
  intro h
  simpa [h] using head_render d

/-- A text without the slashes at its start. -/
def lstrip (s : Text) : Text := s.dropWhile (· == '/')

/-- A text without the slashes at its end. -/
def rstrip (s : Text) : Text := s.rdropWhile (· == '/')

@[simp] theorem moves_lstrip (s : Text) : moves (lstrip s) = moves s := by
  induction s with
  | nil => rfl
  | cons c s ih =>
      by_cases hc : c = '/'
      · subst hc
        simpa [lstrip] using ih
      · simp [lstrip, hc]

@[simp] theorem moves_rstrip (s : Text) : moves (rstrip s) = moves s := by
  induction s using List.reverseRecOn with
  | nil => rfl
  | append_singleton s c ih =>
      by_cases hc : c = '/'
      · subst hc
        simpa [rstrip, moves_append_slash] using ih
      · simp [rstrip, hc]

theorem rdropWhile_append {α : Type} {p : α → Bool} (a : List α) {b : List α}
    (hb : ∀ x ∈ b, p x) : (a ++ b).rdropWhile p = a.rdropWhile p := by
  induction b using List.reverseRecOn with
  | nil => simp
  | append_singleton b x ih =>
      rw [← List.append_assoc, List.rdropWhile_concat_pos _ _ _ (hb x (by simp))]
      exact ih fun y hy => hb y (by simp [hy])

theorem rtakeWhile_append {α : Type} {p : α → Bool} (a : List α) {b : List α}
    (hb : ∀ x ∈ b, p x) : (a ++ b).rtakeWhile p = a.rtakeWhile p ++ b := by
  induction b using List.reverseRecOn with
  | nil => simp
  | append_singleton b x ih =>
      rw [← List.append_assoc, List.rtakeWhile_concat_pos _ _ _ (hb x (by simp)),
        ih fun y hy => hb y (by simp [hy]), List.append_assoc]

/-- The text after the last slash. -/
def lastPiece (s : Text) : Text := s.rtakeWhile (· != '/')

/-- The steps before the last piece. -/
def parents (s : Text) : List Comp :=
  match s.rdropWhile (· != '/') with
  | [] => []
  | c :: s => comps (c :: s).dropLast

theorem not_mem_lastPiece (s : Text) : '/' ∉ lastPiece s := by
  intro h
  simpa using List.mem_rtakeWhile_imp h

theorem lastPiece_append (s : Text) {x : Text} (hx : '/' ∉ x) :
    lastPiece (s ++ x) = lastPiece s ++ x :=
  rtakeWhile_append s fun c hc => by simpa using ne_of_mem_of_not_mem hc hx

theorem parents_append (s : Text) {x : Text} (hx : '/' ∉ x) : parents (s ++ x) = parents s := by
  rw [parents, rdropWhile_append s fun c hc => by simpa using ne_of_mem_of_not_mem hc hx, parents]

/-- A text ends with a slash before its last piece, or is the last piece. -/
theorem eq_append_lastPiece (s : Text) :
    (s = lastPiece s ∧ parents s = []) ∨
      ∃ a, s = a ++ '/' :: lastPiece s ∧ parents s = comps a := by
  have hs : s = s.rdropWhile (· != '/') ++ lastPiece s :=
    List.rdropWhile_append_rtakeWhile.symm
  cases ha : s.rdropWhile (· != '/') with
  | nil =>
      left
      rw [ha, List.nil_append] at hs
      exact ⟨hs, by simp [parents, ha]⟩
  | cons c a =>
      right
      have hlast := List.rdropWhile_last_not (fun c : Char => c != '/') s (by simp [ha])
      simp only [ha, bne_iff_ne, ne_eq, not_not] at hlast
      refine ⟨(c :: a).dropLast, ?_, by simp [parents, ha]⟩
      rw [ha] at hs
      calc s = (c :: a) ++ lastPiece s := hs
        _ = ((c :: a).dropLast ++ ['/']) ++ lastPiece s := by
              rw [← hlast, List.dropLast_append_getLast]
        _ = (c :: a).dropLast ++ '/' :: lastPiece s := by simp

theorem comps_eq_parents (s : Text) : comps s = parents s ++ [classify (lastPiece s)] := by
  obtain ⟨hs, hparents⟩ | ⟨a, hs, hparents⟩ := eq_append_lastPiece s
  · rw [hparents, List.nil_append, ← comps_of_not_mem (not_mem_lastPiece s), ← hs]
  · conv_lhs => rw [hs]
    rw [comps_append_slash, comps_of_not_mem (not_mem_lastPiece s), hparents]

/-- POSIX `basename` -/
def basename (s : Text) : Text :=
  if s = [] then ['.'] else if rstrip s = [] then ['/'] else lastPiece (rstrip s)

/-- What POSIX `basename` leaves of the text it is given. -/
def basenameRest (s : Text) : Text := if rstrip s = [] then s else rstrip s

theorem lastPiece_basenameRest {s : Text} (hs : rstrip s ≠ []) :
    lastPiece (basenameRest s) = basename s := by
  have hne : s ≠ [] := by
    intro h
    exact hs (by simp [h, rstrip])
  simp [basenameRest, basename, hs, hne]

theorem not_mem_basename {s : Text} (hs : rstrip s ≠ []) : '/' ∉ basename s := by
  rw [← lastPiece_basenameRest hs]
  exact not_mem_lastPiece (basenameRest s)

/-- The base name makes the last move of a path. -/
theorem moves_basename {s : Text} (hs : rstrip s ≠ []) :
    ∃ a, moves s = moves a ++ moves (basename s) := by
  have hbase : basename s = lastPiece (rstrip s) := by
    simpa [basenameRest, hs] using (lastPiece_basenameRest hs).symm
  rw [← moves_rstrip s, hbase]
  obtain ⟨h, -⟩ | ⟨a, h, -⟩ := eq_append_lastPiece (rstrip s)
  · exact ⟨[], by rw [moves_nil, List.nil_append, ← h]⟩
  · refine ⟨a, ?_⟩
    conv_lhs => rw [h]
    rw [moves_append_slash]

theorem basename_basenameRest {s : Text} (hs : rstrip s ≠ []) :
    basename (basenameRest s) = lastPiece (basenameRest s) := by
  have hagain : rstrip (rstrip s) = rstrip s := List.rdropWhile_idempotent _ s
  simp [basenameRest, basename, hs, hagain]

theorem head_basenameRest {s : Text} (hs : s.head? = some '/') :
    (basenameRest s).head? = some '/' := by
  rw [basenameRest]
  split
  · exact hs
  · rename_i hstrip
    obtain ⟨t, ht⟩ := List.rdropWhile_prefix (fun c : Char => c == '/') (l := s)
    have hhead : (rstrip s ++ t).head? = some '/' := by
      rw [rstrip, ht]
      exact hs
    rwa [List.head?_append_of_ne_nil _ hstrip] at hhead

theorem moves_basenameRest (s : Text) : moves (basenameRest s) = moves s := by
  rw [basenameRest]
  split
  · rfl
  · exact moves_rstrip s

theorem locOf_basenameRest (s : Text) : locOf (basenameRest s) = locOf s := by
  calc locOf (basenameRest s) = lexical [] (moves (basenameRest s)) :=
        (lexical_moves [] (basenameRest s)).symm
    _ = lexical [] (moves s) := by rw [moves_basenameRest]
    _ = locOf s := lexical_moves [] s

/-- A base name that is no name makes no move down. -/
theorem moves_not_isName {s : Text} (hs : ¬ IsName (basename s)) :
    moves (basename s) = [] ∨ moves (basename s) = [.up] := by
  by_cases hstrip : rstrip s = []
  · left
    simp only [basename, hstrip, if_true]
    split <;> decide
  · obtain h | h | h | h := piece_cases (not_mem_basename hstrip)
    · exact .inl (by rw [h]; rfl)
    · exact .inl (by rw [h]; decide)
    · exact .inr (by rw [h]; decide)
    · exact absurd h hs

theorem rstrip_ne_nil_of_isName {s : Text} (hs : IsName (basename s)) : rstrip s ≠ [] := by
  intro hstrip
  simp only [basename, hstrip, if_true] at hs
  split at hs
  · exact absurd hs (by decide)
  · exact absurd hs (by decide)

/-- What `basename` leaves ends with the base name. -/
theorem lastPiece_of_isName {s : Text} (hs : IsName (basename (basenameRest s))) :
    lastPiece (basenameRest s) = basename (basenameRest s) := by
  refine (basename_basenameRest fun hstrip => ?_).symm
  have hrest := rstrip_ne_nil_of_isName hs
  simp [basenameRest, hstrip] at hrest

theorem moves_of_isName {s : Text} (hs : IsName (lastPiece s)) :
    ∃ a, moves s = a ++ [.down ⟨lastPiece s, hs⟩] := by
  refine ⟨(parents s).filter (· ≠ .here), ?_⟩
  rw [moves, comps_eq_parents, classify_isName hs, List.filter_append]
  rfl

theorem locOf_of_isName {s : Text} (hs : IsName (lastPiece s)) :
    locOf s = ⟨lastPiece s, hs⟩ :: lexical [] (parents s) := by
  rw [locOf, comps_eq_parents, lexical_append, classify_isName hs]
  rfl

/-- A long enough ending goes to the last name of a path. -/
theorem locOf_append (s : Text) {x : Text} (hx : '/' ∉ x) (hlong : 2 < x.length) :
    locOf (s ++ x) =
      ⟨lastPiece s ++ x, isName_append (not_mem_lastPiece s) hx hlong⟩ ::
        lexical [] (parents s) := by
  have hname : IsName (lastPiece (s ++ x)) := by
    rw [lastPiece_append s hx]
    exact isName_append (not_mem_lastPiece s) hx hlong
  rw [locOf_of_isName hname, parents_append s hx]
  simp only [lastPiece_append s hx]

/-- POSIX `dirname` -/
def dirname (s : Text) : Text :=
  match rstrip ((rstrip s).rdropWhile (· != '/')) with
  | [] => if s.head? = some '/' then ['/'] else ['.']
  | c :: d => c :: d

theorem rstrip_append_name (a : Text) (name : Name) : rstrip (a ++ name.val) = a ++ name.val := by
  obtain ⟨x, hne, hslash, hdot⟩ := name
  rw [rstrip, List.rdropWhile_eq_self_iff]
  intro hl hlast
  rw [List.getLast_append_of_ne_nil hl hne] at hlast
  exact hslash (by simpa using beq_iff_eq.mp hlast ▸ List.getLast_mem hne)

theorem rstrip_body (d : Loc) : rstrip (body d) = body d := by
  cases d with
  | nil => rfl
  | cons name d =>
      simpa [body] using rstrip_append_name (body d ++ ['/']) name

theorem getLast_render {d : Loc} (hd : d ≠ []) : (render d).getLast? ≠ some '/' := by
  intro h
  have hstrip := rstrip_body d
  rw [rstrip, List.rdropWhile_eq_self_iff, ← render_of_ne_nil hd] at hstrip
  rw [List.getLast?_eq_some_getLast (render_ne_nil d), Option.some.injEq] at h
  exact hstrip (render_ne_nil d) (by simp [h])

theorem dirname_render (d : Loc) : dirname (render d) = render d.tail := by
  cases d with
  | nil => decide
  | cons name d =>
      have hstrip : rstrip (render (name :: d)) = body d ++ '/' :: name.val := by
        rw [render_of_ne_nil (List.cons_ne_nil name d), rstrip_body, body]
      have hname : ∀ c ∈ name.val, (c != '/') = true := fun c hc => by
        simpa using ne_of_mem_of_not_mem hc name.property.2.1
      have hdrop : (body d ++ '/' :: name.val).rdropWhile (· != '/') = body d ++ ['/'] := by
        rw [List.append_cons, rdropWhile_append _ hname,
          List.rdropWhile_concat_neg _ _ _ (by simp)]
      have hparent : rstrip (body d ++ ['/']) = body d := by
        rw [rstrip, List.rdropWhile_concat_pos _ _ _ (by simp)]
        exact rstrip_body d
      simp only [dirname, hstrip, hdrop, hparent, head_render, List.tail_cons]
      cases d with
      | nil => rfl
      | cons name' d =>
          obtain ⟨c, s, hs⟩ := List.exists_cons_of_ne_nil (render_ne_nil (name' :: d))
          rw [render_of_ne_nil (List.cons_ne_nil name' d)] at hs ⊢
          rw [hs]

end PathText
