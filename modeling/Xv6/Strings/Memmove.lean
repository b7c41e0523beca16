import Mathlib.Algebra.Group.Nat.Defs
import Xv6.Lib.Memory

/-! string.c: memmove(), which chooses its direction so that it reads every byte of
the source before it is overwritten. -/

namespace Xv6.Strings
open Lib

/-- `while(n-- > 0) *d++ = *s++;` -/
def copyForward (m : Memory) (d s : UInt32) : Nat → Memory
  | 0 => m
  | n + 1 => copyForward (Function.update m d (m s)) (d + 1) (s + 1) n

/-- `while(n-- > 0) *--d = *--s;` -/
def copyBackward (m : Memory) (d s : UInt32) : Nat → Memory
  | 0 => m
  | n + 1 => copyBackward (Function.update m (d - 1) (m (s - 1))) (d - 1) (s - 1) n

/-- The memory after memmove(), which returns `dst`. -/
def memmove (m : Memory) (dst src n : UInt32) : Memory :=
  if src < dst ∧ src + n > dst then copyBackward m (dst + n) (src + n) n.toNat
  else copyForward m dst src n.toNat

/-! ## Ranges of addresses -/

/-- Address `a` is one of the `n` from `d` on. -/
def Within (d : UInt32) (n : Nat) (a : UInt32) : Prop := ∃ i < n, a = d + .ofNat i

variable {m : Memory} {d s : UInt32} {n i j : Nat}

theorem add_one_ofNat (d : UInt32) (i : Nat) : d + 1 + .ofNat i = d + .ofNat (i + 1) := by
  rw [UInt32.ofNat_add, UInt32.add_assoc, UInt32.add_comm 1]
  rfl

theorem add_ofNat_inj (hi : i < 2 ^ 32) (hj : j < 2 ^ 32)
    (eq : d + UInt32.ofNat i = d + .ofNat j) : i = j := by
  have eq := congrArg UInt32.toNat ((UInt32.add_right_inj d).mp eq)
  rwa [UInt32.toNat_ofNat_of_lt' hi, UInt32.toNat_ofNat_of_lt' hj] at eq

theorem toNat_add_ofNat (fits : d.toNat + i < 2 ^ 32) : (d + .ofNat i).toNat = d.toNat + i := by
  have word : i < 2 ^ 32 := by omega
  rw [UInt32.toNat_add, UInt32.toNat_ofNat_of_lt' word, Nat.mod_eq_of_lt fits]

/-! ## The two loops -/

/-- The bytes from `s` on have been copied to `d`. -/
structure Moved (m : Memory) (d s : UInt32) (n : Nat) (m' : Memory) : Prop where
  copied : ∀ i < n, m' (d + .ofNat i) = m (s + .ofNat i)
  frame : ∀ a, ¬ Within d n a → m' a = m a

theorem Moved.refl (m : Memory) (d s : UInt32) : Moved m d s 0 m where
  copied i hi := absurd hi (Nat.not_lt_zero i)
  frame _ _ := rfl

/-- One byte at the low end, and then the others. -/
theorem Moved.cons {m' : Memory} (small : n + 1 ≤ 2 ^ 32)
    (unread : ∀ k, 0 < k → k ≤ n → s + .ofNat k ≠ d)
    (h : Moved (Function.update m d (m s)) (d + 1) (s + 1) n m') : Moved m d s (n + 1) m' := by
  have first : ¬ Within (d + 1) n d := by
    rintro ⟨i, hi, eq⟩
    rw [add_one_ofNat] at eq
    have zero : d + UInt32.ofNat 0 = d + .ofNat (i + 1) := by
      rw [← eq]
      exact UInt32.add_zero d
    exact absurd (add_ofNat_inj (by omega) (by omega) zero) (by omega)
  constructor
  · intro i hi
    cases i with
    | zero =>
      rw [show d + UInt32.ofNat 0 = d from UInt32.add_zero d, show s + UInt32.ofNat 0 = s from
        UInt32.add_zero s, h.frame d first, Function.update_self]
    | succ i =>
      rw [← add_one_ofNat, ← add_one_ofNat, h.copied i (by omega), Function.update_of_ne]
      rw [add_one_ofNat]
      exact unread (i + 1) (by omega) (by omega)
  · intro a outside
    rw [h.frame a, Function.update_of_ne]
    · rintro rfl
      exact outside ⟨0, by omega, (UInt32.add_zero a).symm⟩
    · rintro ⟨i, hi, rfl⟩
      exact outside ⟨i + 1, by omega, add_one_ofNat d i⟩

/-- One byte at the high end, and then the others. -/
theorem Moved.snoc {m' : Memory} (small : n + 1 ≤ 2 ^ 32)
    (unread : ∀ k, 0 < k → k ≤ n → d + .ofNat k ≠ s)
    (h : Moved (Function.update m (d + .ofNat n) (m (s + .ofNat n))) d s n m') :
    Moved m d s (n + 1) m' := by
  have last : ¬ Within d n (d + .ofNat n) := by
    rintro ⟨i, hi, eq⟩
    have := add_ofNat_inj (by omega) (by omega) eq
    omega
  constructor
  · intro i hi
    by_cases top : i = n
    · rw [top, h.frame _ last, Function.update_self]
    · rw [h.copied i (by omega), Function.update_of_ne]
      intro eq
      -- the byte stored is at a distance from those still to be read
      have split : UInt32.ofNat n = .ofNat (n - i) + .ofNat i := by
        rw [← UInt32.ofNat_add, Nat.sub_add_cancel (by omega)]
      rw [split, ← UInt32.add_assoc] at eq
      exact unread (n - i) (by omega) (by omega) ((UInt32.add_left_inj (.ofNat i)).mp eq).symm
  · intro a outside
    rw [h.frame a, Function.update_of_ne]
    · rintro rfl
      exact outside ⟨n, by omega, rfl⟩
    · rintro ⟨i, hi, rfl⟩
      exact outside ⟨i, by omega, rfl⟩

theorem copyForward_moved (small : n ≤ 2 ^ 32) (unread : ∀ k, 0 < k → k < n → s + .ofNat k ≠ d) :
    Moved m d s n (copyForward m d s n) := by
  induction n generalizing m d s with
  | zero => exact .refl m d s
  | succ n ih =>
    refine .cons small (fun k pos le => unread k pos (by omega))
      (ih (by omega) fun k pos lt eq => ?_)
    -- both pointers have moved on by one
    rw [UInt32.add_assoc, UInt32.add_comm 1, ← UInt32.add_assoc] at eq
    exact unread k pos (by omega) ((UInt32.add_left_inj 1).mp eq)

theorem copyBackward_moved (small : n ≤ 2 ^ 32) (unread : ∀ k, 0 < k → k < n → d + .ofNat k ≠ s) :
    Moved m d s n (copyBackward m (d + .ofNat n) (s + .ofNat n) n) := by
  induction n generalizing m with
  | zero => exact .refl m d s
  | succ n ih =>
    have back (p : UInt32) : p + .ofNat (n + 1) - 1 = p + .ofNat n := by
      rw [UInt32.ofNat_add, ← UInt32.add_assoc]
      exact UInt32.add_sub_cancel _ 1
    rw [copyBackward, back, back]
    exact .snoc small (fun k pos le => unread k pos (by omega))
      (ih (by omega) fun k pos lt => unread k pos (by omega))

/-- memmove() is correct for every overlap of ranges that do not wrap. -/
theorem memmove_moves (m : Memory) {dst src n : UInt32} (source : src.toNat + n.toNat ≤ 2 ^ 32)
    (target : dst.toNat + n.toNat ≤ 2 ^ 32) :
    (∀ i < n.toNat, memmove m dst src n (dst + .ofNat i) = m (src + .ofNat i)) ∧
    ∀ a, ¬ Within dst n.toNat a → memmove m dst src n a = m a := by
  have small : n.toNat ≤ 2 ^ 32 := by omega
  suffices moved : Moved m dst src n.toNat (memmove m dst src n) from ⟨moved.copied, moved.frame⟩
  unfold memmove
  by_cases overlap : src < dst ∧ src + n > dst
  · have low := UInt32.lt_iff_toNat_lt.mp overlap.1
    have unread (k : Nat) (pos : 0 < k) (lt : k < n.toNat) : dst + .ofNat k ≠ src := by
      intro eq
      have := congrArg UInt32.toNat eq
      rw [toNat_add_ofNat (by omega)] at this
      omega
    rw [if_pos overlap]
    have moved := copyBackward_moved (m := m) small unread
    rwa [UInt32.ofNat_toNat] at moved
  · have unread (k : Nat) (pos : 0 < k) (lt : k < n.toNat) : src + .ofNat k ≠ dst := by
      intro eq
      have := congrArg UInt32.toNat eq
      rw [toNat_add_ofNat (by omega)] at this
      -- the target starts inside the source, so the pointers were compared as they are
      apply overlap
      rw [UInt32.lt_iff_toNat_lt, gt_iff_lt, UInt32.lt_iff_toNat_lt, UInt32.toNat_add,
        Nat.mod_eq_of_lt (by omega)]
      omega
    rw [if_neg overlap]
    exact copyForward_moved small unread

/-- Five bytes moved up by two. -/
theorem move_up_by_two : memmove (fun a => a.toUInt8) 12 10 5 (12 + 4) = 14 :=
  (memmove_moves (fun a => a.toUInt8) (by decide) (by decide)).1 4 (by decide)

end Xv6.Strings
