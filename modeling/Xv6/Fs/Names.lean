import Xv6.Fs.Files
import Xv6.Lib.Chars
import Xv6.Lib.SlotTable

/-! Names in directories. A directory entry holds a name in DIRSIZ bytes, with
a terminator only if there is room for it; names are told apart by those bytes. -/

namespace Xv6.Fs
open Lib

/-! ## string.c -/

def strncmp (p q : Chars) : Nat → Int
  | 0 => 0
  | n + 1 =>
    if p 0 ≠ 0 ∧ p 0 = q 0 then strncmp p.next q.next n
    else (p 0).toNat - (q 0).toNat

/-- The `n` bytes that strncpy() writes. -/
def strncpy (t : Chars) : Nat → List UInt8
  | 0 => []
  | n + 1 => t 0 :: if t 0 ≠ 0 then strncpy t.next n else List.replicate n 0

/-- strncmp() compares the strings cut off after `n` bytes. -/
theorem strncmp_eq_zero_iff (p q : Chars) (n : Nat) : strncmp p q n = 0 ↔ upTo p n = upTo q n := by
  induction n generalizing p q with
  | zero => simp [strncmp, upTo]
  | succ n ih =>
    rw [strncmp, upTo, upTo]
    by_cases ends : p 0 = 0
    · by_cases both : q 0 = 0
      · simp [ends, both]
      · have : (q 0).toNat ≠ 0 := fun zero => both (UInt8.toNat_inj.mp zero)
        simpa [ends, both] using this
    · by_cases same : p 0 = q 0
      · have rest : q 0 ≠ 0 := same ▸ ends
        rw [if_pos ⟨ends, same⟩, ih, if_neg ends, if_neg rest, same, List.cons.injEq]
        simp
      · have diff : ((p 0).toNat : Int) - (q 0).toNat ≠ 0 := by
          intro eq
          exact same (UInt8.toNat_inj.mp (by omega))
        simp only [ends, same, diff, ne_eq, not_false_eq_true, and_false, ↓reduceIte, false_iff]
        split
        · exact List.cons_ne_nil _ _
        · simp [same]

/-- strncpy() copies the string cut off after `n` bytes. -/
theorem upTo_strncpy (t : Chars) (n : Nat) : upTo (charsOf (strncpy t n)) n = upTo t n := by
  induction n generalizing t with
  | zero => rfl
  | succ n ih =>
    have first : charsOf (strncpy t (n + 1)) 0 = t 0 := by simp [charsOf, strncpy]
    rw [upTo, upTo, first]
    split
    · rfl
    · rename_i more
      rw [strncpy, next_charsOf, if_pos more, ih]

/-! ## struct dirent -/

def dirsiz : Nat := 14

def namecmp (s t : Chars) : Int := strncmp s t dirsiz

structure Dirent where
  inum : UInt16
  name : Bytes dirsiz

namespace Dirent

def zero : Dirent := ⟨0, Bytes.zero⟩

/-- `sizeof(de)` -/
def sizeof : Nat := 16

/-- `de.name` as a pointer; it is followed by bytes that namecmp() never reads. -/
def chars (de : Dirent) : Chars := de.name.byte

def bytes (de : Dirent) : List UInt8 :=
  UInt8.ofNat de.inum.toNat :: UInt8.ofNat (de.inum.toNat / 256) :: List.ofFn de.name

def ofBytes (l : List UInt8) : Dirent where
  inum := UInt16.ofNat ((l.getD 0 0).toNat + 256 * (l.getD 1 0).toNat)
  name := fun j => l.getD (j.val + 2) 0

theorem length_bytes (de : Dirent) : de.bytes.length = sizeof := by
  rw [bytes, List.length_cons, List.length_cons, List.length_ofFn]
  rfl

theorem ofBytes_bytes (de : Dirent) : ofBytes de.bytes = de := by
  obtain ⟨inum, name⟩ := de
  have bound := inum.toNat_lt
  rw [ofBytes, Dirent.mk.injEq]
  constructor
  · apply UInt16.toNat.inj
    simp [bytes]
    omega
  · funext j
    simp [bytes]

/-- What the entry is found by, unless it is free. -/
def key (de : Dirent) : Option (List UInt8) :=
  if de.inum = 0 then none else some (upTo de.chars dirsiz)

/-- The entry that dirlink() makes. -/
def named (inum : Nat) (name : Chars) : Dirent where
  inum := UInt16.ofNat inum
  name := fun j => charsOf (strncpy name dirsiz) j.val

end Dirent

/-- The key of a name. -/
def keyOf (name : Chars) : List UInt8 := upTo name dirsiz

theorem key_named {inum : Nat} (pos : inum ≠ 0) (lt : inum < 2 ^ 16) (name : Chars) :
    (Dirent.named inum name).key = some (keyOf name) := by
  have used : (Dirent.named inum name).inum ≠ 0 := by
    intro zero
    have := congrArg UInt16.toNat zero
    rw [Dirent.named, UInt16.toNat_ofNat', Nat.mod_eq_of_lt lt] at this
    exact pos this
  have same : upTo (Dirent.named inum name).chars dirsiz = keyOf name := by
    rw [keyOf, ← upTo_strncpy name dirsiz]
    apply upTo_congr
    intro j hj
    simp [Dirent.chars, Bytes.byte, Dirent.named, hj]
  rw [Dirent.key, if_neg used, same]

theorem key_zero : Dirent.zero.key = none := rfl

/-- The test that dirlookup() makes on an entry. -/
theorem namecmp_eq_zero_iff (name : Chars) (de : Dirent) :
    (de.inum ≠ 0 ∧ namecmp name de.chars = 0) ↔ de.key = some (keyOf name) := by
  rw [namecmp, strncmp_eq_zero_iff, Dirent.key]
  by_cases free : de.inum = 0
  · simp [free]
  · simp only [free, ne_eq, not_false_eq_true, true_and, ↓reduceIte, Option.some.injEq, keyOf]
    exact eq_comm

/-! ## The contents of a directory -/

/-- The bytes of a list of entries. -/
def entryBytes (es : List Dirent) : List UInt8 := es.flatMap Dirent.bytes

theorem length_entryBytes (es : List Dirent) : (entryBytes es).length = Dirent.sizeof * es.length := by
  induction es with
  | nil => rfl
  | cons de es ih =>
    rw [entryBytes, List.flatMap_cons, List.length_append, de.length_bytes, ← entryBytes, ih,
      List.length_cons, Nat.mul_succ, Nat.add_comm]

theorem entryBytes_append (es es' : List Dirent) :
    entryBytes (es ++ es') = entryBytes es ++ entryBytes es' := List.flatMap_append

theorem take_entryBytes (es : List Dirent) (n : Nat) :
    (entryBytes es).take (Dirent.sizeof * n) = entryBytes (es.take n) := by
  by_cases h : n ≤ es.length
  · conv_lhs => rw [← List.take_append_drop n es, entryBytes_append]
    apply List.take_left'
    rw [length_entryBytes, List.length_take, Nat.min_eq_left h]
  · rw [List.take_of_length_le (by omega : es.length ≤ n), List.take_of_length_le]
    rw [length_entryBytes]
    exact Nat.mul_le_mul_left _ (by omega)

theorem drop_entryBytes (es : List Dirent) (n : Nat) :
    (entryBytes es).drop (Dirent.sizeof * n) = entryBytes (es.drop n) := by
  by_cases h : n ≤ es.length
  · conv_lhs => rw [← List.take_append_drop n es, entryBytes_append]
    apply List.drop_left'
    rw [length_entryBytes, List.length_take, Nat.min_eq_left h]
  · rw [List.drop_eq_nil_of_le (by omega : es.length ≤ n), List.drop_eq_nil_of_le]
    · rfl
    · rw [length_entryBytes]
      exact Nat.mul_le_mul_left _ (by omega)

/-- Entry `n` is the bytes at its offset. -/
theorem extract_entryBytes {es : List Dirent} {n : Nat} {de : Dirent} (h : es[n]? = some de) :
    (entryBytes es).extract (Dirent.sizeof * n) (Dirent.sizeof * n + Dirent.sizeof) = de.bytes := by
  have lt := (List.getElem?_eq_some_iff.mp h).1
  have eq := (List.getElem?_eq_some_iff.mp h).2
  rw [List.extract_eq_take_drop, Nat.add_sub_cancel_left, drop_entryBytes,
    ← List.getElem_cons_drop lt, eq, entryBytes, List.flatMap_cons]
  exact List.take_left' de.length_bytes

/-- Writing an entry at its offset, at the end at the latest. -/
theorem spliced_entryBytes {es : List Dirent} {n : Nat} (de : Dirent) :
    spliced (entryBytes es) (Dirent.sizeof * n) de.bytes = entryBytes (SlotTable.put es n de) := by
  have next : Dirent.sizeof * n + Dirent.sizeof = Dirent.sizeof * (n + 1) := rfl
  rw [spliced, de.length_bytes, next, take_entryBytes, drop_entryBytes, SlotTable.put,
    entryBytes_append, List.append_assoc]
  rfl

end Xv6.Fs
