import Mathlib.Data.List.Basic
import Mathlib.Data.Nat.Notation

/-!
# Maps of bits

A map has a bit for every number. Loops that set bits only ever add to a map,
so that what they have set does not depend on the order of their rounds.
-/

namespace Tdnf.BitMap

/-- A bit for every number. -/
abbrev Map := ℕ → Bool

/-- No bit is set. -/
def Map.none : Map := fun _ => false

/-- All bits are set. -/
def Map.all : Map := fun _ => true

def Map.set (m : Map) (p : ℕ) : Map := fun q => q == p || m q

def Map.subtract (t s : Map) : Map := fun p => t p && !s p

/-- Subtracting one map after the other takes away the bits of both. -/
theorem subtract_subtract (t s s' : Map) :
    (t.subtract s).subtract s' = t.subtract fun p => s p || s' p := by
  funext p
  rw [Map.subtract, Map.subtract, Map.subtract, Bool.not_or, Bool.and_assoc]

/-- If every round adds bits that depend on its element alone, the loop adds those of all
its elements. -/
theorem foldl_adds {α : Type*} {f : Map → α → Map} {added : α → Map}
    (hf : ∀ m a, f m a = fun p => m p || added a p) (l : List α) (m : Map) :
    l.foldl f m = fun p => m p || l.any fun a => added a p := by
  induction l generalizing m with
  | nil => simp
  | cons a l ih =>
      rw [List.foldl_cons, ih, hf]
      funext p
      rw [List.any_cons, Bool.or_assoc]

/-- A loop over numbers sets the bits of those it selects. -/
theorem foldl_set (sel : ℕ → Bool) (l : List ℕ) (m : Map) :
    l.foldl (fun m p => if sel p then m.set p else m) m =
      fun p => m p || (l.contains p && sel p) := by
  have hround (m : Map) (q : ℕ) :
      (if sel q then m.set q else m) = fun p => m p || (p == q && sel q) := by
    funext p
    cases hsel : sel q with
    | false => simp
    | true => simp [Map.set, Bool.or_comm]
  rw [foldl_adds hround]
  funext p
  congr 1
  rw [Bool.eq_iff_iff]
  simp

end Tdnf.BitMap
