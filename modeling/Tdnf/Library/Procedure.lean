import Mathlib.Logic.Basic

/-!
# Procedures that fail and keep their state

A procedure runs on a state and ends with a result or an error. The state it
reached is kept in both cases, as in a language where errors are return codes.
`wp` is the weakest precondition of a procedure for a postcondition on results
and one on errors.
-/

namespace Procedure

variable {ε σ τ α β : Type}

/-- A procedure over states `σ` with results `α` and errors `ε`. -/
abbrev Proc (ε σ α : Type) := EStateM ε σ α

/-- The state in which a run ended. -/
def finalState : EStateM.Result ε σ α → σ
  | .ok _ s => s
  | .error _ s => s

/-- What holds before `x` when `Q` holds of its results and `E` of its errors. -/
def wp (x : Proc ε σ α) (Q : α → σ → Prop) (E : ε → σ → Prop) (s : σ) : Prop :=
  match x.run s with
  | .ok a t => Q a t
  | .error e t => E e t

section Rules

variable {Q : α → σ → Prop} {E : ε → σ → Prop} {s : σ}

@[simp] theorem wp_pure (a : α) : wp (pure a : Proc ε σ α) Q E s ↔ Q a s := Iff.rfl

@[simp] theorem wp_throw (e : ε) : wp (throw e : Proc ε σ α) Q E s ↔ E e s := Iff.rfl

@[simp] theorem wp_get {Q : σ → σ → Prop} : wp (get : Proc ε σ σ) Q E s ↔ Q s s := Iff.rfl

@[simp] theorem wp_set (t : σ) {Q : PUnit → σ → Prop} :
    wp (set t : Proc ε σ PUnit) Q E s ↔ Q ⟨⟩ t := Iff.rfl

@[simp] theorem wp_modify (f : σ → σ) {Q : PUnit → σ → Prop} :
    wp (modify f : Proc ε σ PUnit) Q E s ↔ Q ⟨⟩ (f s) := Iff.rfl

@[simp] theorem wp_bind (x : Proc ε σ α) (f : α → Proc ε σ β) {Q : β → σ → Prop} :
    wp (x >>= f) Q E s ↔ wp x (fun a t => wp (f a) Q E t) E s := by
  simp only [wp, EStateM.run, bind, EStateM.bind]
  cases x s with
  | ok a t => rfl
  | error e t => rfl

@[simp] theorem wp_ite (c : Prop) [Decidable c] (x y : Proc ε σ α) :
    wp (if c then x else y) Q E s ↔ (c → wp x Q E s) ∧ (¬ c → wp y Q E s) := by
  by_cases h : c <;> simp [h]

theorem wp_mono {Q' : α → σ → Prop} {E' : ε → σ → Prop} {x : Proc ε σ α}
    (h : wp x Q E s) (hQ : ∀ a t, Q a t → Q' a t) (hE : ∀ e t, E e t → E' e t) :
    wp x Q' E' s := by
  simp only [wp] at h ⊢
  cases hr : x.run s with
  | ok a t => exact hQ a t (by simpa only [hr] using h)
  | error e t => exact hE e t (by simpa only [hr] using h)

theorem wp_and {Q' : α → σ → Prop} {E' : ε → σ → Prop} {x : Proc ε σ α}
    (h : wp x Q E s) (h' : wp x Q' E' s) :
    wp x (fun a t => Q a t ∧ Q' a t) (fun e t => E e t ∧ E' e t) s := by
  simp only [wp] at h h' ⊢
  cases hr : x.run s with
  | ok a t => exact ⟨by simpa only [hr] using h, by simpa only [hr] using h'⟩
  | error e t => exact ⟨by simpa only [hr] using h, by simpa only [hr] using h'⟩

/-- The postconditions may speak of the run itself. -/
theorem wp_run {x : Proc ε σ α} (h : wp x Q E s) :
    wp x (fun a t => Q a t ∧ x.run s = .ok a t) (fun e t => E e t ∧ x.run s = .error e t) s := by
  simp only [wp] at h ⊢
  cases hr : x.run s with
  | ok a t => exact ⟨by simpa only [hr] using h, rfl⟩
  | error e t => exact ⟨by simpa only [hr] using h, rfl⟩

/-- A run that ended with a result satisfies the postcondition on results. -/
theorem wp_ok {x : Proc ε σ α} (h : wp x Q E s) {a : α} {t : σ} (hr : x.run s = .ok a t) :
    Q a t := by
  simpa only [wp, hr] using h

theorem wp_error {x : Proc ε σ α} (h : wp x Q E s) {e : ε} {t : σ}
    (hr : x.run s = .error e t) : E e t := by
  simpa only [wp, hr] using h

theorem wp_of_ok {x : Proc ε σ α} {a : α} {t : σ} (hr : x.run s = .ok a t) (h : Q a t) :
    wp x Q E s := by
  simpa only [wp, hr] using h

/-- Without a postcondition on errors the run must end with a result. -/
theorem exists_ok {x : Proc ε σ α} (h : wp x Q (fun _ _ => False) s) :
    ∃ a t, x.run s = .ok a t ∧ Q a t := by
  simp only [wp] at h
  cases hr : x.run s with
  | ok a t => exact ⟨a, t, rfl, by simpa only [hr] using h⟩
  | error e t => simp only [hr] at h

/-- No run satisfies what cannot be satisfied. -/
theorem not_wp_false {x : Proc ε σ α} : ¬ wp x (fun _ _ => False) (fun _ _ => False) s := by
  intro h
  obtain ⟨a, t, -, hfalse⟩ := exists_ok h
  exact hfalse

/-- What holds however a run ends holds of its final state. -/
theorem finalState_of_wp {P : σ → Prop} {x : Proc ε σ α}
    (h : wp x (fun _ t => P t) (fun _ t => P t) s) : P (finalState (x.run s)) := by
  simp only [wp] at h
  cases hr : x.run s with
  | ok a t => simpa only [hr, finalState] using h
  | error e t => simpa only [hr, finalState] using h

end Rules

/-- Execution of the first part of a sequence that succeeds. -/
theorem run_bind_ok {x : Proc ε σ α} {f : α → Proc ε σ β} {s t : σ} {a : α}
    (h : x.run s = .ok a t) : (x >>= f).run s = (f a).run t := by
  simp only [EStateM.run, bind, EStateM.bind] at h ⊢
  rw [h]

/-- Execution of the first part of a sequence that fails. -/
theorem run_bind_error {x : Proc ε σ α} {f : α → Proc ε σ β} {s t : σ} {e : ε}
    (h : x.run s = .error e t) : (x >>= f).run s = .error e t := by
  simp only [EStateM.run, bind, EStateM.bind] at h ⊢
  rw [h]

/-- A sequence that succeeds does so through a result of its first part. -/
theorem run_bind_eq_ok {x : Proc ε σ α} {f : α → Proc ε σ β} {s t : σ} {b : β} :
    (x >>= f).run s = .ok b t ↔ ∃ a u, x.run s = .ok a u ∧ (f a).run u = .ok b t := by
  cases h : x.run s with
  | ok a u =>
      rw [run_bind_ok h]
      constructor
      · exact fun hrest => ⟨a, u, rfl, hrest⟩
      · rintro ⟨_, _, heq, hrest⟩
        cases heq
        exact hrest
  | error e u => simp [run_bind_error h]

theorem run_get_bind (f : σ → Proc ε σ β) (s : σ) :
    ((get : Proc ε σ σ) >>= f).run s = (f s).run s := rfl

/-- What follows and keeps the state does not show in it. -/
theorem finalState_bind_keeping {x : Proc ε σ α} {f : α → Proc ε σ β}
    (hf : ∀ a t, finalState ((f a).run t) = t) (s : σ) :
    finalState ((x >>= f).run s) = finalState (x.run s) := by
  cases h : x.run s with
  | ok a t => rw [run_bind_ok h, hf, finalState]
  | error e t => rw [run_bind_error h, finalState, finalState]

/-- Run a procedure on one component of a larger state. -/
def within (read : τ → σ) (write : σ → τ → τ) (x : Proc ε σ α) : Proc ε τ α := fun s =>
  match x.run (read s) with
  | .ok a t => .ok a (write t s)
  | .error e t => .error e (write t s)

@[simp] theorem wp_within (read : τ → σ) (write : σ → τ → τ) (x : Proc ε σ α)
    {Q : α → τ → Prop} {E : ε → τ → Prop} {s : τ} :
    wp (within read write x) Q E s ↔
      wp x (fun a t => Q a (write t s)) (fun e t => E e (write t s)) (read s) := by
  simp only [wp, within, EStateM.run]
  cases x (read s) with
  | ok a t => rfl
  | error e t => rfl

theorem run_within_ok {read : τ → σ} {write : σ → τ → τ} {x : Proc ε σ α} {s : τ} {t : σ} {a : α}
    (h : x.run (read s) = .ok a t) : (within read write x).run s = .ok a (write t s) := by
  simp only [within, EStateM.run] at h ⊢
  rw [h]

theorem run_within_error {read : τ → σ} {write : σ → τ → τ} {x : Proc ε σ α} {s : τ} {t : σ}
    {e : ε} (h : x.run (read s) = .error e t) :
    (within read write x).run s = .error e (write t s) := by
  simp only [within, EStateM.run] at h ⊢
  rw [h]

/-- Run `x`, then `onOk` on the state of a result or `onError` on that of an error. -/
def finishing (onOk onError : σ → σ) (x : Proc ε σ α) : Proc ε σ α := fun s =>
  match x.run s with
  | .ok a t => .ok a (onOk t)
  | .error e t => .error e (onError t)

@[simp] theorem wp_finishing (onOk onError : σ → σ) (x : Proc ε σ α)
    {Q : α → σ → Prop} {E : ε → σ → Prop} {s : σ} :
    wp (finishing onOk onError x) Q E s ↔
      wp x (fun a t => Q a (onOk t)) (fun e t => E e (onError t)) s := by
  simp only [wp, finishing, EStateM.run]
  cases x s with
  | ok a t => rfl
  | error e t => rfl

theorem run_finishing_eq_ok {onOk onError : σ → σ} {x : Proc ε σ α} {a : α} {s t : σ} :
    (finishing onOk onError x).run s = .ok a t ↔ ∃ u, x.run s = .ok a u ∧ t = onOk u := by
  simp only [finishing, EStateM.run]
  cases x s with
  | ok b u =>
      constructor
      · intro h
        cases h
        exact ⟨u, rfl, rfl⟩
      · rintro ⟨_, heq, rfl⟩
        cases heq
        rfl
  | error e u => simp

theorem run_finishing_eq_error {onOk onError : σ → σ} {x : Proc ε σ α} {e : ε} {s t : σ}
    (h : (finishing onOk onError x).run s = .error e t) : ∃ u, t = onError u := by
  simp only [finishing, EStateM.run] at h
  cases hx : x s with
  | ok a u => simp [hx] at h
  | error e' u =>
      rw [hx] at h
      cases h
      exact ⟨u, rfl⟩

/-- The result of a step that neither reads nor writes the state. -/
def fromExcept : Except ε α → Proc ε σ α
  | .ok a => pure a
  | .error e => throw e

@[simp] theorem wp_fromExcept (x : Except ε α) {Q : α → σ → Prop} {E : ε → σ → Prop} {s : σ} :
    wp (fromExcept x) Q E s ↔ (∀ a, x = .ok a → Q a s) ∧ ∀ e, x = .error e → E e s := by
  cases x with
  | ok a => simp [fromExcept]
  | error e => simp [fromExcept]

theorem run_fromExcept_eq_ok {x : Except ε α} {a : α} {s t : σ} :
    (fromExcept x : Proc ε σ α).run s = .ok a t ↔ x = .ok a ∧ t = s := by
  cases x with
  | ok b =>
      constructor
      · intro h
        cases h
        exact ⟨rfl, rfl⟩
      · rintro ⟨h, rfl⟩
        cases h
        rfl
  | error e =>
      constructor
      · intro h
        cases h
      · intro h
        cases h.1

theorem fromExcept_ok_bind (a : α) (f : α → Proc ε σ β) :
    (fromExcept (.ok a) >>= f : Proc ε σ β) = f a := rfl

/-- Run `x` and, if it fails, `y` on the state it left. -/
def orElse (x y : Proc ε σ α) : Proc ε σ α := fun s =>
  match x.run s with
  | .ok a t => .ok a t
  | .error _ t => y.run t

@[simp] theorem wp_orElse (x y : Proc ε σ α) {Q : α → σ → Prop} {E : ε → σ → Prop} {s : σ} :
    wp (orElse x y) Q E s ↔ wp x Q (fun _ t => wp y Q E t) s := by
  simp only [wp, orElse, EStateM.run]
  cases x s with
  | ok a t => rfl
  | error e t => rfl

/-- Run `x` under other names of its errors. -/
def mapFault {ε' : Type} (f : ε → ε') (x : Proc ε σ α) : Proc ε' σ α := fun s =>
  match x.run s with
  | .ok a t => .ok a t
  | .error e t => .error (f e) t

@[simp] theorem wp_mapFault {ε' : Type} (f : ε → ε') (x : Proc ε σ α) {Q : α → σ → Prop}
    {E : ε' → σ → Prop} {s : σ} : wp (mapFault f x) Q E s ↔ wp x Q (fun e t => E (f e) t) s := by
  simp only [wp, mapFault, EStateM.run]
  cases x s with
  | ok a t => rfl
  | error e t => rfl

theorem run_mapFault_eq_ok {ε' : Type} {f : ε → ε'} {x : Proc ε σ α} {a : α} {s t : σ} :
    (mapFault f x).run s = .ok a t ↔ x.run s = .ok a t := by
  simp only [mapFault, EStateM.run]
  cases x s with
  | ok b u => simp
  | error e u => simp

/-- Run `x` and look at how it ended. -/
def attempt (x : Proc ε σ α) : Proc ε σ (Except ε α) := fun s =>
  match x.run s with
  | .ok a t => .ok (.ok a) t
  | .error e t => .ok (.error e) t

theorem run_attempt_ok {x : Proc ε σ α} {a : α} {s t : σ} (h : x.run s = .ok a t) :
    (attempt x).run s = .ok (.ok a) t := by
  simp only [attempt, EStateM.run] at h ⊢
  rw [h]

theorem run_attempt_error {x : Proc ε σ α} {e : ε} {s t : σ} (h : x.run s = .error e t) :
    (attempt x).run s = .ok (.error e) t := by
  simp only [attempt, EStateM.run] at h ⊢
  rw [h]

theorem run_attempt_eq_ok {x : Proc ε σ α} {a : α} {s t : σ}
    (h : (attempt x).run s = .ok (.ok a) t) : x.run s = .ok a t := by
  simp only [attempt, EStateM.run] at h ⊢
  cases hx : x s with
  | ok b u =>
      rw [hx] at h
      cases h
      rfl
  | error e u => simp [hx] at h

@[simp] theorem wp_attempt (x : Proc ε σ α) {Q : Except ε α → σ → Prop} {E : ε → σ → Prop}
    {s : σ} :
    wp (attempt x) Q E s ↔ wp x (fun a t => Q (.ok a) t) (fun e t => Q (.error e) t) s := by
  simp only [wp, attempt, EStateM.run]
  cases x s with
  | ok a t => rfl
  | error e t => rfl

/-- Every run ends somehow. -/
theorem wp_true (x : Proc ε σ α) (s : σ) : wp x (fun _ _ => True) (fun _ _ => True) s := by
  simp only [wp]
  cases x.run s with
  | ok a t => trivial
  | error e t => trivial

/-- A loop keeps what its rounds keep. -/
theorem wp_foldlM {f : β → α → Proc ε σ β} {I : β → σ → Prop} {E : ε → σ → Prop} {l : List α}
    (hf : ∀ b s, ∀ a ∈ l, I b s → wp (f b a) I E s) {b : β} {s : σ} (h : I b s) :
    wp (l.foldlM f b) I E s := by
  induction l generalizing b s with
  | nil => exact h
  | cons a l ih =>
      rw [List.foldlM_cons, wp_bind]
      apply wp_mono (hf b s a List.mem_cons_self h)
      · intro c t hc
        exact ih (fun b s a' ha' => hf b s a' (List.mem_cons_of_mem _ ha')) hc
      · exact fun _ _ he => he

/-- A sequence of stateless steps succeeds through a result of its first step. -/
theorem exists_of_bind_ok {x : Except ε α} {f : α → Except ε β} {b : β}
    (h : x >>= f = .ok b) : ∃ a, x = .ok a ∧ f a = .ok b := by
  cases x with
  | ok a => exact ⟨a, rfl, h⟩
  | error e => cases h

/-- What the steps of a stateless loop keep of their elements, the loop keeps of its list. -/
theorem map_of_mapM_ok {γ : Type} {f : α → Except ε β} {p : α → γ} {q : β → γ}
    (hf : ∀ a b, f a = .ok b → q b = p a) {l : List α} {l' : List β} (h : l.mapM f = .ok l') :
    l'.map q = l.map p := by
  induction l generalizing l' with
  | nil =>
      cases h
      rfl
  | cons a l ih =>
      rw [List.mapM_cons] at h
      obtain ⟨b, hb, h⟩ := exists_of_bind_ok h
      obtain ⟨bs, hbs, h⟩ := exists_of_bind_ok h
      cases h
      rw [List.map_cons, List.map_cons, hf a b hb, ih hbs]

/-- A stateless loop succeeds exactly if all its steps do. -/
theorem mapM_eq_ok_iff {f : α → Except ε β} {P : α → Prop} {g : α → β}
    (hf : ∀ a b, f a = .ok b ↔ P a ∧ b = g a) {l : List α} {l' : List β} :
    l.mapM f = .ok l' ↔ (∀ a ∈ l, P a) ∧ l' = l.map g := by
  induction l generalizing l' with
  | nil =>
      constructor
      · intro h
        cases h
        exact ⟨by simp, rfl⟩
      · rintro ⟨-, rfl⟩
        rfl
  | cons a l ih =>
      rw [List.mapM_cons, List.forall_mem_cons, List.map_cons]
      constructor
      · intro h
        obtain ⟨b, hb, h⟩ := exists_of_bind_ok h
        obtain ⟨bs, hbs, h⟩ := exists_of_bind_ok h
        obtain ⟨ha, rfl⟩ := (hf a b).mp hb
        obtain ⟨hl, rfl⟩ := ih.mp hbs
        cases h
        exact ⟨⟨ha, hl⟩, rfl⟩
      · rintro ⟨⟨ha, hl⟩, rfl⟩
        rw [(hf a (g a)).mpr ⟨ha, rfl⟩, ih.mpr ⟨hl, rfl⟩]
        rfl

/-- The same for a loop that carries a value along. -/
theorem foldlM_eq_ok_iff {f : β → α → Except ε β} {P : α → Prop} {g : β → α → β}
    (hf : ∀ b a b', f b a = .ok b' ↔ P a ∧ b' = g b a) {l : List α} {b b' : β} :
    l.foldlM f b = .ok b' ↔ (∀ a ∈ l, P a) ∧ b' = l.foldl g b := by
  induction l generalizing b with
  | nil =>
      constructor
      · intro h
        cases h
        exact ⟨by simp, rfl⟩
      · rintro ⟨-, rfl⟩
        rfl
  | cons a l ih =>
      rw [List.foldlM_cons, List.forall_mem_cons, List.foldl_cons]
      constructor
      · intro h
        obtain ⟨c, hc, h⟩ := exists_of_bind_ok h
        obtain ⟨ha, rfl⟩ := (hf b a c).mp hc
        obtain ⟨hl, rfl⟩ := ih.mp h
        exact ⟨⟨ha, hl⟩, rfl⟩
      · rintro ⟨⟨ha, hl⟩, rfl⟩
        rw [(hf b a (g b a)).mpr ⟨ha, rfl⟩]
        exact ih.mpr ⟨hl, rfl⟩

/-- A stateless loop that succeeds keeps what its steps keep. -/
theorem keeps_of_foldlM_ok {f : β → α → Except ε β} {I : β → Prop} {l : List α}
    (hf : ∀ b b', ∀ a ∈ l, I b → f b a = .ok b' → I b') {b b' : β} (hb : I b)
    (h : l.foldlM f b = .ok b') : I b' := by
  induction l generalizing b with
  | nil =>
      cases h
      exact hb
  | cons a l ih =>
      rw [List.foldlM_cons] at h
      obtain ⟨c, hc, hrest⟩ := exists_of_bind_ok h
      exact ih (fun b b' a' ha' => hf b b' a' (List.mem_cons_of_mem a ha'))
        (hf b c a List.mem_cons_self hb hc) hrest

/-- A stateless loop that is seen through `g` at every step is seen through it as a whole. -/
theorem foldlM_map {γ : Type} {f : β → α → Except ε β} {f' : γ → α → Except ε γ} {g : β → γ}
    {I : β → Prop} {l : List α} (hf : ∀ b, ∀ a ∈ l, I b → (f b a).map g = f' (g b) a)
    (hkeep : ∀ b b', ∀ a ∈ l, I b → f b a = .ok b' → I b') {b : β} (hb : I b) :
    (l.foldlM f b).map g = l.foldlM f' (g b) := by
  induction l generalizing b with
  | nil => rfl
  | cons a l ih =>
      have hstep := hf b a List.mem_cons_self hb
      rw [List.foldlM_cons, List.foldlM_cons, ← hstep]
      cases hc : f b a with
      | error e => rfl
      | ok c =>
          exact ih (fun b a' ha' => hf b a' (List.mem_cons_of_mem a ha'))
            (fun b b' a' ha' => hkeep b b' a' (List.mem_cons_of_mem a ha'))
            (hkeep b c a List.mem_cons_self hb hc)

/-- A stateless loop whose steps all succeed maps its list. -/
theorem mapM_eq_ok {f : α → Except ε β} {g : α → β} {l : List α}
    (h : ∀ a ∈ l, f a = .ok (g a)) : l.mapM f = .ok (l.map g) := by
  induction l with
  | nil => rfl
  | cons a l ih =>
      rw [List.mapM_cons, h a List.mem_cons_self, ih fun b hb => h b (List.mem_cons_of_mem a hb)]
      rfl

end Procedure
