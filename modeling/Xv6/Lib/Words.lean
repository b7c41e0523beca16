import Xv6.Lib.Bytes
import Xv6.Lib.Overlay

/-! Words in a memory with gaps. A word is there if all of its four bytes are. -/

namespace Xv6.Lib

def readWord (m : Nat → Option UInt8) (a : Nat) : Option UInt32 :=
  match m a, m (a + 1), m (a + 2), m (a + 3) with
  | some b₀, some b₁, some b₂, some b₃ => some (wordOf b₀ b₁ b₂ b₃)
  | _, _, _, _ => none

def writeWord (m : Nat → Option UInt8) (a : Nat) (v : UInt32) : Nat → Option UInt8 :=
  overlay m a [byteOf v 0, byteOf v 1, byteOf v 2, byteOf v 3]

variable {m m' : Nat → Option UInt8} {a x : Nat} {v : UInt32}

theorem readWord_writeWord (m : Nat → Option UInt8) (a : Nat) (v : UInt32) :
    readWord (writeWord m a v) a = some v := by
  have reads := reads_overlay m a [byteOf v 0, byteOf v 1, byteOf v 2, byteOf v 3]
  have at_0 := reads 0 _ rfl
  have at_1 := reads 1 _ rfl
  have at_2 := reads 2 _ rfl
  have at_3 := reads 3 _ rfl
  rw [Nat.add_zero] at at_0
  simp only [readWord, writeWord, at_0, at_1, at_2, at_3, wordOf_byteOf]

theorem writeWord_outside (outside : x < a ∨ a + 4 ≤ x) : writeWord m a v x = m x :=
  overlay_outside outside

theorem readWord_congr (same : ∀ x, a ≤ x → x < a + 4 → m' x = m x) :
    readWord m' a = readWord m a := by
  rw [readWord, readWord, same a (by omega) (by omega), same (a + 1) (by omega) (by omega),
    same (a + 2) (by omega) (by omega), same (a + 3) (by omega) (by omega)]

theorem isSome_readWord : (readWord m a).isSome ↔ ∀ x, a ≤ x → x < a + 4 → (m x).isSome := by
  constructor
  · intro there x low high
    unfold readWord at there
    split at there
    · rename_i at_0 at_1 at_2 at_3
      obtain rfl | rfl | rfl | rfl : x = a ∨ x = a + 1 ∨ x = a + 2 ∨ x = a + 3 := by omega
      · rw [at_0]; rfl
      · rw [at_1]; rfl
      · rw [at_2]; rfl
      · rw [at_3]; rfl
    · cases there
  · intro there
    obtain ⟨b₀, at_0⟩ := Option.isSome_iff_exists.mp (there a (by omega) (by omega))
    obtain ⟨b₁, at_1⟩ := Option.isSome_iff_exists.mp (there (a + 1) (by omega) (by omega))
    obtain ⟨b₂, at_2⟩ := Option.isSome_iff_exists.mp (there (a + 2) (by omega) (by omega))
    obtain ⟨b₃, at_3⟩ := Option.isSome_iff_exists.mp (there (a + 3) (by omega) (by omega))
    simp only [readWord, at_0, at_1, at_2, at_3, Option.isSome_some]

/-- A store to a word that is there makes no other byte appear. -/
theorem isSome_writeWord (there : (readWord m a).isSome) (v : UInt32) (x : Nat) :
    (writeWord m a v x).isSome = (m x).isSome := by
  by_cases inside : a ≤ x ∧ x < a + 4
  · have written := isSome_readWord.mp (by rw [readWord_writeWord m a v]; rfl) x inside.1 inside.2
    rw [written, isSome_readWord.mp there x inside.1 inside.2]
  · rw [writeWord_outside (by omega)]

end Xv6.Lib
