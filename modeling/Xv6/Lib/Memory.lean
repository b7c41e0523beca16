import Mathlib.Logic.Function.Basic
import Mathlib.Data.List.Basic

/-! A byte-addressed memory read in little-endian words, and what is left of a
word when only its lowest byte is written. -/

namespace Xv6.Lib

abbrev Memory := UInt32 → UInt8

namespace Memory

/-- The four bytes at `a` as a number. -/
def wordNat (m : Memory) (a : UInt32) : Nat :=
  (m a).toNat + 256 * ((m (a + 1)).toNat + 256 * ((m (a + 2)).toNat + 256 * (m (a + 3)).toNat))

def word (m : Memory) (a : UInt32) : UInt32 := UInt32.ofNat (m.wordNat a)

/-- A store through a `char *`: the value is truncated to a byte. -/
def storeByte (m : Memory) (a v : UInt32) : Memory := Function.update m a v.toUInt8

def storeBytes (m : Memory) (stores : List (UInt32 × UInt32)) : Memory :=
  stores.foldl (fun m s => m.storeByte s.1 s.2) m

/-- The words at `a` and `b` share no byte. -/
def Apart (a b : UInt32) : Prop :=
  ∀ i ∈ [0, 1, 2, 3], ∀ j ∈ [0, 1, 2, 3], a + i ≠ b + j

-- not by search, which may enumerate all words
instance (a b : UInt32) : Decidable (Apart a b) :=
  have (i : UInt32) : Decidable (∀ j ∈ [0, 1, 2, 3], a + i ≠ b + j) := List.decidableBAll _ _
  List.decidableBAll _ _

theorem Apart.symm {a b : UInt32} (h : Apart a b) : Apart b a :=
  fun i hi j hj eq => h j hj i hi eq.symm

theorem toNat_word (m : Memory) (a : UInt32) : (m.word a).toNat = m.wordNat a := by
  have h0 := (m a).toNat_lt
  have h1 := (m (a + 1)).toNat_lt
  have h2 := (m (a + 2)).toNat_lt
  have h3 := (m (a + 3)).toNat_lt
  rw [word, UInt32.toNat_ofNat']
  unfold wordNat
  omega

/-- A byte store elsewhere does not change a word. -/
theorem word_storeByte_apart {a b : UInt32} (h : Apart a b) (m : Memory) (v : UInt32) :
    (m.storeByte b v).word a = m.word a := by
  have other (i : UInt32) (hi : i ∈ [0, 1, 2, 3]) : a + i ≠ b := by
    simpa using h i hi 0 (by simp)
  have h0 : a ≠ b := by simpa using other 0 (by simp)
  simp [word, wordNat, storeByte, h0, other]

/-- A byte store at a word replaces its lowest byte. -/
theorem toNat_word_storeByte (m : Memory) (a v : UInt32) :
    ((m.storeByte a v).word a).toNat = v.toNat % 256 + 256 * ((m.word a).toNat / 256) := by
  have next (i : UInt32) (hi : i ≠ 0) : a + i ≠ a := by simpa using hi
  have low := (m a).toNat_lt
  rw [toNat_word, toNat_word]
  simp only [wordNat, storeByte, Function.update_self, UInt32.toNat_toUInt8,
    Function.update_of_ne (next 1 (by decide)), Function.update_of_ne (next 2 (by decide)),
    Function.update_of_ne (next 3 (by decide))]
  omega

/-- The word reads as the stored value exactly if its upper bytes were already
those of the value. -/
theorem word_storeByte_eq_iff (m : Memory) (a v : UInt32) :
    (m.storeByte a v).word a = v ↔ m.word a / 256 = v / 256 := by
  have byte : (256 : UInt32).toNat = 256 := rfl
  rw [← UInt32.toNat_inj, ← UInt32.toNat_inj, toNat_word_storeByte, UInt32.toNat_div,
    UInt32.toNat_div, byte]
  omega

theorem word_storeBytes_apart {a : UInt32} {stores : List (UInt32 × UInt32)}
    (h : ∀ s ∈ stores, Apart a s.1) (m : Memory) : (m.storeBytes stores).word a = m.word a := by
  induction stores generalizing m with
  | nil => rfl
  | cons s stores ih =>
    have rest := ih (fun s' hs => h s' (List.mem_cons_of_mem _ hs)) (m.storeByte s.1 s.2)
    exact rest.trans (word_storeByte_apart (h s List.mem_cons_self) m s.2)

/-- Byte stores to separate words: every word reads as the value stored to it
exactly if each had the upper bytes of that value before. -/
theorem words_storeBytes_iff (stores : List (UInt32 × UInt32))
    (apart : stores.Pairwise fun s s' => Apart s.1 s'.1) (m : Memory) :
    (∀ s ∈ stores, (m.storeBytes stores).word s.1 = s.2) ↔
      ∀ s ∈ stores, m.word s.1 / 256 = s.2 / 256 := by
  induction stores generalizing m with
  | nil => simp
  | cons s stores ih =>
    obtain ⟨first, rest⟩ := List.pairwise_cons.mp apart
    have head : (m.storeBytes (s :: stores)).word s.1 = (m.storeByte s.1 s.2).word s.1 :=
      word_storeBytes_apart first _
    have tail : (∀ x ∈ stores, (m.storeBytes (s :: stores)).word x.1 = x.2) ↔
        ∀ x ∈ stores, m.word x.1 / 256 = x.2 / 256 := by
      refine (ih rest (m.storeByte s.1 s.2)).trans (forall₂_congr fun x mem => ?_)
      rw [word_storeByte_apart (first x mem).symm]
    simp only [List.forall_mem_cons, head, tail, word_storeByte_eq_iff]

end Memory
end Xv6.Lib
