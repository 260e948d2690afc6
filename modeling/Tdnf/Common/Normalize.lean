import Tdnf.Common.Path

/-!
# The lexical meaning of normalised paths

Lexical normalisation drops empty components and single dots and lets every two
dots remove the component before them. `TDNFNormalizePath` loses two dots that
follow two dots: the location it makes is the lexical one exactly if there is
nothing left for such dots to remove.
-/

namespace Tdnf.Common

open PathText FileTree FileTree.Tree

/-- One component of a path. Two dots at the root have nothing to remove. -/
def strictNext (cur : Loc) : Comp → Option Loc
  | .here => some cur
  | .up => if cur = [] then none else some cur.tail
  | .down name => some (name :: cur)

/-- The location that lexical normalisation makes of components below `cur`. -/
def strictFrom (cur : Loc) (steps : List Comp) : Option Loc := steps.foldlM strictNext cur

/-- `TDNFNormalizePath` is lexical normalisation. -/
def NormalizesLexically (fs : Tree) (path : Text) : Prop :=
  ∀ normal, normalizePath fs path = .ok normal ↔
    ∃ n, strictFrom [] (comps path) = some n ∧ normal = render n

/-- Where two dots follow two dots, nothing is left for them to remove. -/
def DotsApart (path : Text) : Prop :=
  ∀ before after n, moves path = before ++ .up :: .up :: after →
    strictFrom [] (before ++ [.up]) = some n → n = []

/-! ## Lost dots -/

section Lost

variable {s s' : Progress} {cur n : Loc} {steps : List Comp}

theorem strictFrom_cons (cur : Loc) (c : Comp) (steps : List Comp) :
    strictFrom cur (c :: steps) = (strictNext cur c).bind fun cur' => strictFrom cur' steps := rfl

theorem strictFrom_filter (cur : Loc) (steps : List Comp) :
    strictFrom cur (steps.filter (· ≠ .here)) = strictFrom cur steps := by
  induction steps generalizing cur with
  | nil => rfl
  | cons c steps ih =>
      by_cases hc : c = .here
      · simpa [hc, strictFrom_cons, strictNext] using ih cur
      · simp only [ne_eq, hc, not_false_eq_true, decide_true, List.filter_cons_of_pos,
          strictFrom_cons]
        exact congrArg (strictNext cur c).bind (funext fun cur' => ih cur')

/-- No two dots find `q` on a slash while a component is left. -/
def Lossless (s : Progress) : List Comp → Prop
  | [] => True
  | c :: steps => (c = .up → s.onSlash = true → s.loc = []) ∧
      ∀ s', s.next c = some s' → Lossless s' steps

/-- Once two dots are lost there is always a component left to stop at. -/
def Progress.Stuck (s : Progress) : Prop :=
  s.loc ≠ [] ∧ (s.onSlash = true ∨ s.loc.tail ≠ [])

theorem Progress.Stuck.next (hs : s.Stuck) (c : Comp) : ∃ s', s.next c = some s' ∧ s'.Stuck := by
  obtain ⟨hloc, hleft⟩ := hs
  cases c with
  | here => exact ⟨s, rfl, hloc, hleft⟩
  | down name => exact ⟨⟨name :: s.loc, false⟩, rfl, by simp, .inr hloc⟩
  | up =>
      by_cases hslash : s.onSlash = true
      · exact ⟨s, by simp [Progress.next, hloc, hslash], hloc, hleft⟩
      · refine ⟨⟨s.loc.tail, true⟩, by simp [Progress.next, hloc, hslash], ?_, .inl rfl⟩
        exact hleft.resolve_left hslash

theorem Progress.Stuck.progress (hs : s.Stuck) (steps : List Comp) :
    ∃ s', progress s steps = some s' := by
  induction steps generalizing s with
  | nil => exact ⟨s, rfl⟩
  | cons c steps ih =>
      obtain ⟨s₁, hnext, hs₁⟩ := hs.next c
      obtain ⟨s', hs'⟩ := ih hs₁
      exact ⟨s', by rw [progress_cons, hnext, Option.bind_some, hs']⟩

/-- A component that two dots left behind is never made up for. -/
theorem length_lt_of_lost (hlt : cur.length < s.loc.length) (hs : progress s steps = some s')
    (hcur : strictFrom cur steps = some n) : n.length < s'.loc.length := by
  induction steps generalizing s cur with
  | nil =>
      cases hs
      cases hcur
      exact hlt
  | cons c steps ih =>
      rw [progress_cons, Option.bind_eq_some_iff] at hs
      rw [strictFrom_cons, Option.bind_eq_some_iff] at hcur
      obtain ⟨s₁, hnext, hs⟩ := hs
      obtain ⟨cur₁, hstrict, hcur⟩ := hcur
      refine ih ?_ hs hcur
      cases c with
      | here =>
          cases hnext
          cases hstrict
          exact hlt
      | down name =>
          cases hnext
          cases hstrict
          simpa using hlt
      | up =>
          simp only [Progress.next, strictNext] at hnext hstrict
          split at hstrict
          · cases hstrict
          · rename_i hne
            cases hstrict
            have hpos : 0 < cur.length := List.length_pos_iff.mpr hne
            split at hnext
            · cases hnext
            · split at hnext <;> cases hnext
              · rw [List.length_tail]
                omega
              · rw [List.length_tail, List.length_tail]
                omega

/-- The loop makes the lexical location exactly if it loses no dots. -/
theorem progress_eq_strict_iff (s : Progress) (steps : List Comp) :
    (progress s steps).map Progress.loc = strictFrom s.loc steps ↔ Lossless s steps := by
  induction steps generalizing s with
  | nil => exact iff_of_true rfl trivial
  | cons c steps ih =>
      rw [progress_cons, strictFrom_cons, Lossless]
      cases c with
      | here => simpa [Progress.next, strictNext] using ih s
      | down name => simpa [Progress.next, strictNext] using ih ⟨name :: s.loc, false⟩
      | up =>
          by_cases hloc : s.loc = []
          · simp [Progress.next, strictNext, hloc]
          · by_cases hslash : s.onSlash = true
            · refine iff_of_false ?_ fun h => hloc (h.1 rfl hslash)
              have hstuck : s.Stuck := ⟨hloc, .inl hslash⟩
              obtain ⟨s', hs'⟩ := hstuck.progress steps
              simp only [Progress.next, strictNext, hloc, hslash, if_true, if_false,
                Option.bind_some, hs', Option.map_some]
              intro heq
              have hlt : s.loc.tail.length < s.loc.length := by
                have hpos := List.length_pos_iff.mpr hloc
                rw [List.length_tail]
                omega
              exact (length_lt_of_lost hlt hs' heq.symm).ne rfl
            · simpa [Progress.next, strictNext, hloc, hslash] using ih ⟨s.loc.tail, true⟩

/-- Dots are lost where two dots follow two dots and a component is left. -/
theorem lossless_iff (hhere : .here ∉ steps) :
    Lossless s steps ↔
      (∀ after, steps = .up :: after → s.onSlash = true → s.loc = []) ∧
      ∀ before after n, steps = before ++ .up :: .up :: after →
        strictFrom s.loc (before ++ [.up]) = some n → n = [] := by
  induction steps generalizing s with
  | nil => simp [Lossless]
  | cons c steps ih =>
      simp only [List.mem_cons, not_or] at hhere
      rw [Lossless]
      cases c with
      | here => exact absurd rfl hhere.1
      | down name =>
          have hnext : ∀ s', s.next (.down name) = some s' ↔ s' = ⟨name :: s.loc, false⟩ := by
            intro s'
            simp [Progress.next, eq_comm]
          simp only [hnext, forall_eq, ih hhere.2, reduceCtorEq, false_imp_iff, true_and,
            implies_true, List.cons.injEq, false_and]
          constructor
          · rintro h before after n heq hstrict
            cases before with
            | nil => cases heq
            | cons c' before =>
                obtain ⟨rfl, hsteps⟩ := List.cons.inj heq
                exact h before after n hsteps hstrict
          · intro h before after n heq hstrict
            exact h (.down name :: before) after n (by rw [heq, List.cons_append]) hstrict
      | up =>
          by_cases hloc : s.loc = []
          · refine iff_of_true ⟨fun _ _ => hloc, ?_⟩ ⟨fun _ _ _ => hloc, ?_⟩
            · intro s' hs'
              simp [Progress.next, hloc] at hs'
            · intro before after n heq hstrict
              obtain ⟨rest, hrest⟩ : ∃ rest, before ++ [Comp.up] = .up :: rest := by
                cases before with
                | nil => exact ⟨[], rfl⟩
                | cons c' before =>
                    obtain ⟨rfl, -⟩ := List.cons.inj heq
                    exact ⟨before ++ [.up], rfl⟩
              rw [hrest, hloc, strictFrom_cons] at hstrict
              simp [strictNext] at hstrict
          · have hstrict : strictNext s.loc .up = some s.loc.tail := by simp [strictNext, hloc]
            by_cases hslash : s.onSlash = true
            · refine iff_of_false (fun h => hloc (h.1 rfl hslash)) ?_
              exact fun h => hloc (h.1 steps rfl hslash)
            · have hnext : ∀ s', s.next .up = some s' ↔ s' = ⟨s.loc.tail, true⟩ := by
                intro s'
                simp [Progress.next, hloc, hslash, eq_comm]
              simp only [hnext, forall_eq, ih hhere.2]
              constructor
              · rintro ⟨-, hfirst, h⟩
                refine ⟨fun _ _ honSlash => absurd honSlash hslash, ?_⟩
                intro before after n heq hbefore
                cases before with
                | nil =>
                    obtain ⟨-, hsteps⟩ := List.cons.inj heq
                    rw [List.nil_append, strictFrom_cons, hstrict] at hbefore
                    cases hbefore
                    exact hfirst after hsteps trivial
                | cons c' before =>
                    obtain ⟨rfl, hsteps⟩ := List.cons.inj heq
                    rw [List.cons_append, strictFrom_cons, hstrict] at hbefore
                    exact h before after n hsteps hbefore
              · rintro ⟨-, h⟩
                refine ⟨fun _ honSlash => absurd honSlash hslash, ?_, ?_⟩
                · intro after heq _
                  refine h [] after s.loc.tail (by rw [heq, List.nil_append]) ?_
                  rw [List.nil_append, strictFrom_cons, hstrict]
                  rfl
                · intro before after n heq hbefore
                  refine h (.up :: before) after n (by rw [heq, List.cons_append]) ?_
                  rw [List.cons_append, strictFrom_cons, hstrict]
                  exact hbefore

end Lost

/-! ## Normalising -/

section Normalizing

variable {fs : Tree} {path : Text}

/-- A file system whose `realpath` fails with ENOENT only has no file that could be in the way. -/
theorem noFiles_of_realpath (hfs : ∀ p e, realpath fs p = .error e → e = .noent) : fs.NoFiles := by
  intro l size hfile
  have hname : IsName ['a'] := by decide
  have herror := realpath_below_file (d := ⟨['a'], hname⟩ :: l) hfile
  cases hfs _ _ herror

/-- Without links `TDNFNormalizePath` is lexical normalisation exactly if no two dots follow
two dots while a component is left. -/
theorem normalizePath_lexical_iff (fs : Tree) (path : Text)
    (hfs : ∀ p e, realpath fs p = .error e → e = .noent) (hpath : path.head? = some '/') :
    NormalizesLexically fs path ↔ DotsApart path := by
  have hnoFiles := noFiles_of_realpath hfs
  have hcode (normal : Text) : normalizePath fs path = .ok normal ↔
      ∃ n, normalFrom [] (moves path) = some n ∧ normal = render n := by
    constructor
    · intro h
      obtain ⟨n, hn, hnormal, -⟩ := normalizePath_ok h
      exact ⟨n, hn, hnormal⟩
    · rintro ⟨n, hn, rfl⟩
      exact normalizePath_of_noFiles hnoFiles hpath hn
  have hstrict : strictFrom [] (comps path) = strictFrom [] (moves path) :=
    (strictFrom_filter [] (comps path)).symm
  have hsame : NormalizesLexically fs path ↔
      normalFrom [] (moves path) = strictFrom [] (moves path) := by
    simp only [NormalizesLexically, hcode, hstrict]
    constructor
    · intro h
      apply Option.ext
      intro n
      constructor
      · intro hn
        obtain ⟨n', hn', heq⟩ := (h (render n)).mp ⟨n, hn, rfl⟩
        rwa [render_injective heq]
      · intro hn
        obtain ⟨n', hn', heq⟩ := (h (render n)).mpr ⟨n, hn, rfl⟩
        rwa [render_injective heq]
    · intro h normal
      rw [h]
  have hhere : Comp.here ∉ moves path := by simp [moves]
  rw [hsame, normalFrom, progress_eq_strict_iff ⟨[], false⟩, lossless_iff hhere]
  simp [DotsApart]

theorem normalizePath_single_dots : NormalizesLexically (skeleton []) "/a//./b/../c/".toList := by
  refine (normalizePath_lexical_iff (skeleton []) _ ?_ (by decide)).mpr ?_
  · exact fun _ _ => (skeleton_noFiles []).realpath_error
  · intro before after n heq
    have hapart : ¬ [Comp.up, Comp.up] <:+: moves "/a//./b/../c/".toList := by decide +kernel
    exact absurd ⟨before, after, by rw [heq, List.append_assoc]; rfl⟩ hapart

/-- The second of two pairs of dots is lost. -/
theorem normalizePath_loses_dots : ¬ NormalizesLexically (skeleton []) "/a/b/../..".toList := by
  intro h
  have hnormal : normalFrom [] (moves "/a/b/../..".toList) =
      some [⟨"a".toList, by decide⟩] := by decide +kernel
  have hcode := normalizePath_of_noFiles (skeleton_noFiles []) (by decide) hnormal
  obtain ⟨n, hn, heq⟩ := (h _).mp hcode
  have hstrict : strictFrom [] (comps "/a/b/../..".toList) = some [] := by decide +kernel
  rw [hstrict] at hn
  cases hn
  cases render_injective heq

end Normalizing

end Tdnf.Common
