import Mathlib.Data.List.Basic

/-! Strings in memory: the bytes a pointer points to, up to a zero byte. -/

namespace Xv6.Lib

/-- The bytes that a `char*` points to. -/
abbrev Chars := Nat → UInt8

/-- The pointer moved on by one. -/
def Chars.next (s : Chars) : Chars := fun j => s (j + 1)

/-- The string at a pointer, cut off after `n` bytes. -/
def upTo (s : Chars) : Nat → List UInt8
  | 0 => []
  | n + 1 => if s 0 = 0 then [] else s 0 :: upTo s.next n

theorem upTo_congr {s t : Chars} {n : Nat} (h : ∀ j, j < n → s j = t j) : upTo s n = upTo t n := by
  induction n generalizing s t with
  | zero => rfl
  | succ n ih =>
    rw [upTo, upTo, h 0 (Nat.succ_pos n)]
    split
    · rfl
    · exact congrArg (t 0 :: ·) (ih fun j hj => h (j + 1) (Nat.succ_lt_succ hj))

/-- The bytes before the first zero byte. -/
theorem upTo_eq {s : Chars} {l : List UInt8} {n : Nat} (bytes : ∀ j (h : j < l.length), s j = l[j])
    (ends : s l.length = 0) (clean : 0 ∉ l) (le : l.length ≤ n) : upTo s n = l := by
  induction l generalizing s n with
  | nil =>
    cases n with
    | zero => rfl
    | succ n => exact if_pos ends
  | cons a l ih =>
    cases n with
    | zero => cases le
    | succ n =>
      have first : s 0 = a := bytes 0 (Nat.succ_pos _)
      have nonzero : a ≠ 0 := fun zero => clean (zero ▸ List.mem_cons_self)
      rw [upTo, first, if_neg nonzero]
      exact congrArg (a :: ·) (ih (fun j h => bytes (j + 1) (Nat.succ_lt_succ h)) ends
        (fun mem => clean (List.mem_cons_of_mem _ mem)) (Nat.le_of_succ_le_succ le))

/-- The bytes of a list, seen from a pointer to the first. -/
def charsOf (l : List UInt8) : Chars := fun j => l.getD j 0

theorem next_charsOf (b : UInt8) (l : List UInt8) : (charsOf (b :: l)).next = charsOf l := by
  funext j
  simp [charsOf, Chars.next]

theorem upTo_charsOf {l : List UInt8} (text : 0 ∉ l) (n : Nat) : upTo (charsOf l) n = l.take n := by
  induction n generalizing l with
  | zero => rfl
  | succ n ih =>
    cases l with
    | nil => rfl
    | cons b l =>
      have nonzero : b ≠ 0 := fun zero => text (zero ▸ List.mem_cons_self)
      have head : charsOf (b :: l) 0 = b := rfl
      rw [upTo, head, if_neg nonzero, next_charsOf, ih fun mem => text (List.mem_cons_of_mem b mem),
        List.take_succ_cons]

end Xv6.Lib
