import Mathlib.Logic.Function.Basic
import Mathlib.Data.List.Basic
import Mathlib.Algebra.Group.Nat.Defs

/-! Fixed-size blocks of bytes, read and written as arrays of little-endian
words. -/

namespace Xv6.Lib

abbrev Bytes (n : Nat) := Fin n → UInt8

/-- The number with the given bytes, lowest first. -/
def wordOf (b₀ b₁ b₂ b₃ : UInt8) : UInt32 :=
  UInt32.ofNat (b₀.toNat + 256 * (b₁.toNat + 256 * (b₂.toNat + 256 * b₃.toNat)))

/-- Byte `k` of a word, for `k` below 4. -/
def byteOf (v : UInt32) (k : Nat) : UInt8 := UInt8.ofNat (v.toNat / 256 ^ k)

theorem wordOf_byteOf (v : UInt32) :
    wordOf (byteOf v 0) (byteOf v 1) (byteOf v 2) (byteOf v 3) = v := by
  have bound := v.toNat_lt
  apply UInt32.toNat.inj
  simp only [wordOf, byteOf, UInt32.toNat_ofNat', UInt8.toNat_ofNat']
  omega

/-- Adding a signed number to a word. -/
theorem toNat_add_signed (v : UInt32) (n : Int32) :
    ((v + n.toUInt32).toNat : Int) = ((v.toNat : Int) + n.toInt) % 4294967296 := by
  have word : n.toUInt32.toNat = n.toBitVec.toNat := rfl
  have signed : n.toInt = n.toBitVec.toInt := rfl
  rw [UInt32.toNat_add, word, signed, BitVec.toInt_eq_toNat_cond]
  have bound := n.toBitVec.isLt
  split
  · omega
  · omega

namespace Bytes
variable {n : Nat}

def zero : Bytes n := fun _ => 0

/-- Word `i` of the array; a word that is not wholly in the block reads as 0. -/
def word (b : Bytes n) (i : Nat) : UInt32 :=
  if h : 4 * i + 3 < n then
    wordOf (b ⟨4 * i, by omega⟩) (b ⟨4 * i + 1, by omega⟩) (b ⟨4 * i + 2, by omega⟩) (b ⟨4 * i + 3, h⟩)
  else 0

def setWord (b : Bytes n) (i : Nat) (v : UInt32) : Bytes n :=
  fun j => if j.val / 4 = i then byteOf v (j.val % 4) else b j

theorem word_setWord_self (b : Bytes n) {i : Nat} (h : 4 * i + 3 < n) (v : UInt32) :
    (b.setWord i v).word i = v := by
  have index (k : Nat) (hk : k < 4) : (4 * i + k) / 4 = i ∧ (4 * i + k) % 4 = k := by omega
  have zero : 4 * i / 4 = i ∧ 4 * i % 4 = 0 := by omega
  simp only [word, h, ↓reduceDIte, setWord, index, zero, Nat.lt_add_one, Nat.reduceLT, ↓reduceIte]
  exact wordOf_byteOf v

theorem word_setWord_of_ne (b : Bytes n) {i j : Nat} (h : j ≠ i) (v : UInt32) :
    (b.setWord i v).word j = b.word j := by
  have index (k : Nat) (hk : k < 4) : (4 * j + k) / 4 ≠ i := by omega
  have zero : 4 * j / 4 ≠ i := by omega
  simp only [word, setWord, index, zero, Nat.lt_add_one, Nat.reduceLT, ↓reduceIte]

/-- Word `i` of the array is replaced by `f 0`, the one after it by `f 1`, and
so on for `len` words. -/
def setWords (b : Bytes n) (i len : Nat) (f : Nat → UInt32) : Bytes n :=
  fun j =>
    if i ≤ j.val / 4 ∧ j.val / 4 < i + len then byteOf (f (j.val / 4 - i)) (j.val % 4) else b j

theorem word_setWords (b : Bytes n) {i len k : Nat} (h : k < len) (fits : 4 * (i + len) ≤ n)
    (f : Nat → UInt32) : (b.setWords i len f).word (i + k) = f k := by
  have index (r : Nat) (hr : r < 4) : (4 * (i + k) + r) / 4 = i + k ∧ (4 * (i + k) + r) % 4 = r := by
    omega
  have zero : 4 * (i + k) / 4 = i + k ∧ 4 * (i + k) % 4 = 0 := by omega
  have inside : i ≤ i + k ∧ i + k < i + len := by omega
  have whole : 4 * (i + k) + 3 < n := by omega
  simp only [word, whole, ↓reduceDIte, setWords, index, zero, Nat.lt_add_one, Nat.reduceLT, inside,
    and_self, ↓reduceIte, Nat.add_sub_cancel_left]
  exact wordOf_byteOf (f k)

theorem word_setWords_of_not_mem (b : Bytes n) {i len j : Nat} (h : j < i ∨ i + len ≤ j)
    (f : Nat → UInt32) : (b.setWords i len f).word j = b.word j := by
  have index (r : Nat) (hr : r < 4) :
      ¬ (i ≤ (4 * j + r) / 4 ∧ (4 * j + r) / 4 < i + len) := by omega
  have zero : ¬ (i ≤ 4 * j / 4 ∧ 4 * j / 4 < i + len) := by omega
  simp only [word, setWords, index, zero, Nat.lt_add_one, Nat.reduceLT, ↓reduceIte]

@[simp] theorem word_zero (i : Nat) : (zero : Bytes n).word i = 0 := by
  unfold word
  split
  · rfl
  · rfl

/-! ## Single bytes -/

/-- Byte `i`; past the end of the block, 0. -/
def byte (b : Bytes n) (i : Nat) : UInt8 := if h : i < n then b ⟨i, h⟩ else 0

@[simp] theorem byte_zero (i : Nat) : (zero : Bytes n).byte i = 0 := by
  unfold byte
  split
  · rfl
  · rfl

/-- The `m` bytes from `off` on. -/
def slice (b : Bytes n) (off m : Nat) : List UInt8 := (List.range m).map fun k => b.byte (off + k)

/-- The bytes from `off` on replaced by the list. -/
def splice (b : Bytes n) (off : Nat) (src : List UInt8) : Bytes n :=
  fun j => if off ≤ j.val then src.getD (j.val - off) (b j) else b j

theorem byte_splice (b : Bytes n) {off : Nat} {src : List UInt8} (fits : off + src.length ≤ n)
    (i : Nat) : (b.splice off src).byte i =
      if off ≤ i then src.getD (i - off) (b.byte i) else b.byte i := by
  unfold byte splice
  by_cases h : i < n
  · simp only [h, ↓reduceDIte]
  · have past : src.length ≤ i - off := by omega
    rw [List.getD_eq_getElem?_getD, List.getElem?_eq_none past]
    simp [h]

def bit (b : Bytes n) (i : Nat) : Bool := (b.byte (i / 8)).toBitVec.getLsbD (i % 8)

/-- `data[i/8] |= m`, with `m = 1 << (i % 8)` -/
def setBit (b : Bytes n) (i : Nat) : Bytes n :=
  fun j => if j.val = i / 8 then ⟨(b j).toBitVec ||| BitVec.twoPow 8 (i % 8)⟩ else b j

/-- `data[i/8] &= ~m` -/
def clearBit (b : Bytes n) (i : Nat) : Bytes n :=
  fun j => if j.val = i / 8 then ⟨(b j).toBitVec &&& ~~~(BitVec.twoPow 8 (i % 8))⟩ else b j

theorem bit_setBit (b : Bytes n) {i : Nat} (h : i / 8 < n) (j : Nat) :
    (b.setBit i).bit j = if j = i then true else b.bit j := by
  by_cases same : j / 8 = i / 8
  · have offset : j = i ↔ j % 8 = i % 8 := by omega
    have low : j % 8 < 8 := by omega
    by_cases eq : j % 8 = i % 8
    · have low' : i % 8 < 8 := by omega
      simp [bit, byte, setBit, same, h, offset, eq, low']
    · simp [bit, byte, setBit, same, h, offset, low, eq]
  · have other : j ≠ i := by rintro rfl; exact same rfl
    simp [bit, byte, setBit, same, other]

end Bytes
end Xv6.Lib
