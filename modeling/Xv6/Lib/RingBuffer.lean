import Mathlib.Algebra.Group.Nat.Defs
import Mathlib.Data.List.Basic
import Mathlib.Logic.Function.Basic

/-! Ring buffers with two 32-bit counters that are never reduced: an element is
at its counter modulo the capacity, and the counters may wrap. -/

namespace Xv6.Lib

structure RingBuffer (α : Type) where
  data : Nat → α
  head : UInt32
  tail : UInt32

namespace RingBuffer
variable {α : Type} (r : RingBuffer α) (cap : Nat)

def size : Nat := (r.tail - r.head).toNat

/-- The elements, oldest first. -/
def contents : List α := (List.range r.size).map fun k => r.data ((r.head.toNat + k) % cap)

def put (a : α) : RingBuffer α :=
  { r with data := Function.update r.data (r.tail.toNat % cap) a, tail := r.tail + 1 }

def front : α := r.data (r.head.toNat % cap)

def drop : RingBuffer α := { r with head := r.head + 1 }

/-- The element that was put last, and the buffer without it. -/
def back : α := r.data ((r.tail - 1).toNat % cap)

def retract : RingBuffer α := { r with tail := r.tail - 1 }

/-- Counters that wrap do not show: the capacity divides their range. -/
structure Capacity (cap : Nat) : Prop where
  divides : cap ∣ 2 ^ 32
  lt : cap < 2 ^ 32

variable {r cap}

theorem length_contents : (r.contents cap).length = r.size := by
  simp [contents]

/-- The slot of the counter `c + k`, whether or not the sum wraps. -/
theorem slot_add (ok : Capacity cap) (c k : UInt32) :
    (c + k).toNat % cap = (c.toNat + k.toNat) % cap := by
  rw [UInt32.toNat_add]
  exact Nat.mod_mod_of_dvd _ ok.divides

theorem slot_tail (ok : Capacity cap) : r.tail.toNat % cap = (r.head.toNat + r.size) % cap := by
  have eq : r.head + (r.tail - r.head) = r.tail := by
    rw [UInt32.add_comm, UInt32.sub_add_cancel]
  rw [size, ← slot_add ok, eq]

theorem size_put (a : α) (room : r.size + 1 < 2 ^ 32) : (r.put cap a).size = r.size + 1 := by
  have tail := r.tail.toNat_lt
  have head := r.head.toNat_lt
  unfold size at room ⊢
  simp only [put, UInt32.toNat_sub, UInt32.toNat_add, UInt32.toNat_one] at room ⊢
  omega

theorem size_drop (some : 0 < r.size) : r.drop.size + 1 = r.size := by
  have tail := r.tail.toNat_lt
  have head := r.head.toNat_lt
  unfold size at some ⊢
  simp only [drop, UInt32.toNat_sub, UInt32.toNat_add, UInt32.toNat_one] at some ⊢
  omega

/-- The slot that is written next holds no element. -/
theorem slot_ne_tail (ok : Capacity cap) (room : r.size < cap) {k : Nat} (hk : k < r.size) :
    (r.head.toNat + k) % cap ≠ r.tail.toNat % cap := by
  rw [slot_tail ok]
  intro eq
  have apart := Nat.sub_mod_eq_zero_of_mod_eq eq.symm
  rw [Nat.add_sub_add_left, Nat.mod_eq_of_lt (by omega)] at apart
  omega

/-- A slot that holds no element is overwritten. -/
theorem contents_put (ok : Capacity cap) (a : α) (room : r.size < cap) :
    (r.put cap a).contents cap = r.contents cap ++ [a] := by
  have lt := ok.lt
  have last := slot_tail (r := r) ok
  rw [contents, size_put a (by omega), List.range_succ, List.map_append]
  congr 1
  · apply List.map_congr_left
    intro k hk
    exact Function.update_of_ne (slot_ne_tail ok room (List.mem_range.mp hk)) _ _
  · simp only [List.map_cons, List.map_nil, put, ← last, Function.update_self]

theorem contents_drop (ok : Capacity cap) (some : 0 < r.size) :
    r.contents cap = r.front cap :: r.drop.contents cap := by
  rw [contents, ← size_drop some, List.range_succ_eq_map, List.map_cons, List.map_map, contents]
  congr 1
  apply List.map_congr_left
  intro k _
  have slot : (r.head.toNat + (k + 1)) % cap = ((r.head + 1).toNat + k) % cap := by
    have one := slot_add ok r.head 1
    have step : (r.head.toNat + 1 + k) % cap = ((r.head + 1).toNat + k) % cap := by
      rw [Nat.add_mod, ← show (r.head + 1).toNat % cap = (r.head.toNat + 1) % cap from one,
        ← Nat.add_mod]
    rw [← step]
    congr 1
    omega
  exact congrArg r.data slot

theorem size_retract (some : 0 < r.size) : r.retract.size + 1 = r.size := by
  have tail := r.tail.toNat_lt
  have head := r.head.toNat_lt
  unfold size at some ⊢
  simp only [retract, UInt32.toNat_sub, UInt32.toNat_one] at some ⊢
  omega

theorem contents_retract (ok : Capacity cap) (some : 0 < r.size) :
    r.contents cap = r.retract.contents cap ++ [r.back cap] := by
  have last := slot_tail (r := r.retract) ok
  rw [contents, ← size_retract some, List.range_succ, List.map_append]
  congr 1
  simp only [List.map_cons, List.map_nil, back]
  exact congrArg (fun slot => [r.data slot]) last.symm

end RingBuffer
end Xv6.Lib
