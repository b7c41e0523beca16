import Mathlib.Data.List.Basic

/-! Memories with gaps, written a stretch at a time. -/

namespace Xv6.Lib
variable {α : Type}

/-- The memory with the list laid over it from address `lo` on. -/
def overlay (f : Nat → Option α) (lo : Nat) (xs : List α) : Nat → Option α :=
  fun a => if lo ≤ a ∧ a < lo + xs.length then xs[a - lo]? else f a

/-- The list is in the memory from address `lo` on. -/
def Reads (f : Nat → Option α) (lo : Nat) (xs : List α) : Prop :=
  ∀ i x, xs[i]? = some x → f (lo + i) = some x

variable {f g : Nat → Option α} {lo lo' : Nat} {xs ys : List α}

theorem overlay_nil (f : Nat → Option α) (lo : Nat) : overlay f lo [] = f := by
  funext a
  rw [overlay, if_neg]
  rw [List.length_nil]
  omega

theorem overlay_outside {a : Nat} (outside : a < lo ∨ lo + xs.length ≤ a) :
    overlay f lo xs a = f a := by
  rw [overlay, if_neg (by omega)]

/-- Stretches that follow each other make one stretch. -/
theorem overlay_append (f : Nat → Option α) (lo : Nat) (xs ys : List α) :
    overlay (overlay f lo xs) (lo + xs.length) ys = overlay f lo (xs ++ ys) := by
  funext a
  unfold overlay
  rw [List.length_append]
  by_cases first : lo ≤ a ∧ a < lo + xs.length
  · rw [if_neg (by omega), if_pos first, if_pos (by omega), List.getElem?_append_left (by omega)]
  by_cases second : lo + xs.length ≤ a ∧ a < lo + xs.length + ys.length
  · rw [if_pos second, if_pos (by omega), List.getElem?_append_right (by omega)]
    congr 1
    omega
  · rw [if_neg second, if_neg first, if_neg (by omega)]

theorem reads_overlay (f : Nat → Option α) (lo : Nat) (xs : List α) : Reads (overlay f lo xs) lo xs := by
  intro i x at_i
  have lt := (List.getElem?_eq_some_iff.mp at_i).1
  rw [overlay, if_pos ⟨by omega, by omega⟩, Nat.add_sub_cancel_left, at_i]

theorem Reads.congr (reads : Reads f lo xs)
    (same : ∀ a, lo ≤ a → a < lo + xs.length → g a = f a) : Reads g lo xs := by
  intro i x at_i
  have lt := (List.getElem?_eq_some_iff.mp at_i).1
  rw [same _ (by omega) (by omega)]
  exact reads i x at_i

end Xv6.Lib
