import Xv6.Lib.Prog
import Xv6.Fs.Layout

/-! The disk as the file system sees it through the buffer cache: blocks of
bytes, and in them the free bit map and the inodes. Block numbers passed to
log_write() are recorded in order. -/

namespace Xv6.Fs
open Lib

def ndirect : Nat := 12

def nindirect : Nat := bsize / 4

def maxfile : Nat := ndirect + nindirect

/-! ## Inodes in a block -/

/-- struct dinode, which is also the part of struct inode that is a copy of it. -/
structure Dinode where
  type : Int16
  major : Int16
  minor : Int16
  nlink : Int16
  size : UInt32
  addrs : Fin (ndirect + 1) → UInt32

def Dinode.zero : Dinode := ⟨0, 0, 0, 0, 0, fun _ => 0⟩

/-- Two shorts in one word. -/
def pair (low high : Int16) : UInt32 :=
  UInt32.ofNat (low.toUInt16.toNat + 65536 * high.toUInt16.toNat)

def lowShort (w : UInt32) : Int16 := (UInt16.ofNat w.toNat).toInt16

def highShort (w : UInt32) : Int16 := (UInt16.ofNat (w.toNat / 65536)).toInt16

theorem lowShort_pair (low high : Int16) : lowShort (pair low high) = low := by
  have hl := low.toUInt16.toNat_lt
  have hh := high.toUInt16.toNat_lt
  have same : UInt16.ofNat (pair low high).toNat = low.toUInt16 := by
    apply UInt16.toNat.inj
    simp only [pair, UInt32.toNat_ofNat', UInt16.toNat_ofNat']
    omega
  rw [lowShort, same]
  exact Int16.toInt16_toUInt16 low

theorem highShort_pair (low high : Int16) : highShort (pair low high) = high := by
  have hl := low.toUInt16.toNat_lt
  have hh := high.toUInt16.toNat_lt
  have same : UInt16.ofNat ((pair low high).toNat / 65536) = high.toUInt16 := by
    apply UInt16.toNat.inj
    simp only [pair, UInt32.toNat_ofNat', UInt16.toNat_ofNat']
    omega
  rw [highShort, same]
  exact Int16.toInt16_toUInt16 high

/-- Word `t` of the 16 words of an inode on disk. -/
def Dinode.word (ip : Dinode) (t : Nat) : UInt32 :=
  if t = 0 then pair ip.type ip.major
  else if t = 1 then pair ip.minor ip.nlink
  else if t = 2 then ip.size
  else if h : t - 3 < ndirect + 1 then ip.addrs ⟨t - 3, h⟩ else 0

/-- `(struct dinode*)bp->data + k` -/
def dinodeAt (b : Block) (k : Nat) : Dinode where
  type := lowShort (b.word (16 * k))
  major := highShort (b.word (16 * k))
  minor := lowShort (b.word (16 * k + 1))
  nlink := highShort (b.word (16 * k + 1))
  size := b.word (16 * k + 2)
  addrs := fun j => b.word (16 * k + (3 + j.val))

def setDinodeAt (b : Block) (k : Nat) (ip : Dinode) : Block := b.setWords (16 * k) 16 ip.word

theorem dinodeAt_setDinodeAt (b : Block) {k : Nat} (h : k < ipb) (ip : Dinode) :
    dinodeAt (setDinodeAt b k ip) k = ip := by
  have fits : 4 * (16 * k + 16) ≤ bsize := by
    simp only [ipb, bsize] at h ⊢
    omega
  have word (t : Nat) (ht : t < 16) : (setDinodeAt b k ip).word (16 * k + t) = ip.word t :=
    Bytes.word_setWords b ht fits ip.word
  have first := word 0 (by omega)
  rw [Nat.add_zero] at first
  have pointers : (fun j : Fin (ndirect + 1) => (setDinodeAt b k ip).word (16 * k + (3 + j.val))) =
      ip.addrs := by
    funext j
    have hj : j.val < 13 := j.isLt
    rw [word (3 + j.val) (by omega)]
    have index : 3 + j.val - 3 = j.val := by omega
    have off : 3 + j.val ≠ 0 ∧ 3 + j.val ≠ 1 ∧ 3 + j.val ≠ 2 := by omega
    simp only [Dinode.word, off, ↓reduceIte, index, j.isLt, ↓reduceDIte]
  simp only [dinodeAt, first, word 1 (by omega), word 2 (by omega), pointers]
  simp [Dinode.word, lowShort_pair, highShort_pair]

theorem dinodeAt_setDinodeAt_of_ne (b : Block) {j k : Nat} (h : j ≠ k) (ip : Dinode) :
    dinodeAt (setDinodeAt b k ip) j = dinodeAt b j := by
  have word (t : Nat) (ht : t < 16) : (setDinodeAt b k ip).word (16 * j + t) = b.word (16 * j + t) :=
    Bytes.word_setWords_of_not_mem b (by omega) ip.word
  have first := word 0 (by omega)
  rw [Nat.add_zero] at first
  have pointers : (fun i : Fin (ndirect + 1) => (setDinodeAt b k ip).word (16 * j + (3 + i.val))) =
      fun i => b.word (16 * j + (3 + i.val)) := by
    funext i
    have hi : i.val < 13 := i.isLt
    exact word (3 + i.val) (by omega)
  simp only [dinodeAt, first, word 1 (by omega), word 2 (by omega), pointers]

/-! ## The disk -/

structure Disk where
  block : Nat → Block
  /-- The block numbers passed to log_write(), in order. -/
  logged : List Nat

namespace Disk

def write (d : Disk) (b : Nat) (v : Block) : Disk :=
  ⟨Function.update d.block b v, d.logged ++ [b]⟩

@[simp] theorem write_self (d : Disk) (b : Nat) (v : Block) : (d.write b v).block b = v := by
  simp [write]

theorem write_of_ne (d : Disk) {a b : Nat} (h : a ≠ b) (v : Block) :
    (d.write b v).block a = d.block a := by
  simp [write, h]

@[simp] theorem logged_write (d : Disk) (b : Nat) (v : Block) :
    (d.write b v).logged = d.logged ++ [b] := rfl

end Disk

variable (sb : Superblock)

/-- Block `b` is marked in the free bit map. -/
def Disk.used (d : Disk) (b : Nat) : Bool := (d.block (sb.bblock b)).bit (b % bpb)

def Disk.dinode (d : Disk) (i : Nat) : Dinode := dinodeAt (d.block (sb.iblock i)) (i % ipb)

def Disk.mark (d : Disk) (b : Nat) : Disk :=
  d.write (sb.bblock b) ((d.block (sb.bblock b)).setBit (b % bpb))

def Disk.unmark (d : Disk) (b : Nat) : Disk :=
  d.write (sb.bblock b) ((d.block (sb.bblock b)).clearBit (b % bpb))

def Disk.setDinode (d : Disk) (i : Nat) (ip : Dinode) : Disk :=
  d.write (sb.iblock i) (setDinodeAt (d.block (sb.iblock i)) (i % ipb) ip)

/-! ## fs.c: the allocators -/

def logWrite (b : Nat) (v : Block) : Prog Disk Unit := .modify fun d => d.write b v

/-- Zero a block. -/
def bzero (b : Nat) : Prog Disk Unit := logWrite b Bytes.zero

/-- Allocate a zeroed disk block: the first one whose bit is clear. -/
def balloc : Prog Disk Nat := do
  let d ← .get
  match (List.range sb.size).find? fun b => !d.used sb b with
  | some b =>
    .modify fun d => d.mark sb b
    bzero b
    return b
  | none => .halt -- balloc: out of blocks

/-- Free a disk block. -/
def bfree (b : Nat) : Prog Disk Unit := do
  let d ← .get
  if d.used sb b then .modify fun d => d.unmark sb b
  else .halt -- freeing free block

/-- Copy a modified in-memory inode to disk. -/
def iupdate (inum : Nat) (ip : Dinode) : Prog Disk Unit := .modify fun d => d.setDinode sb inum ip

/-- Allocate a new inode with the given type: the first one of type 0. -/
def ialloc (type : Int16) : Prog Disk Nat := do
  let d ← .get
  match (List.range' 1 (sb.ninodes - 1)).find? fun i => (d.dinode sb i).type == 0 with
  | some inum =>
    iupdate sb inum { Dinode.zero with type := type }
    return inum
  | none => .halt -- ialloc: no inodes

/-! ## What a write leaves alone -/

variable {sb} {d : Disk}

namespace Disk

theorem used_write_data (sound : sb.Sound) {x b : Nat} (hx : sb.nmeta ≤ x) (hb : b < sb.size)
    (v : Block) : (d.write x v).used sb b = d.used sb b := by
  have other : sb.bblock b ≠ x := by
    rw [sound.bblock hb]
    have := sb.bmapstart_lt
    omega
  rw [used, used, write_of_ne d other]

theorem dinode_write_data (sound : sb.Sound) {x i : Nat} (hx : sb.nmeta ≤ x) (hi : i < sb.ninodes)
    (v : Block) : (d.write x v).dinode sb i = d.dinode sb i := by
  have other : sb.iblock i ≠ x := by
    have := sound.iblock_lt hi
    have := sb.bmapstart_lt
    omega
  rw [dinode, dinode, write_of_ne d other]

theorem used_mark (sound : sb.Sound) {b c : Nat} (hb : b < sb.size) (hc : c < sb.size) :
    (d.mark sb b).used sb c = if c = b then true else d.used sb c := by
  have small := sound.disk
  simp only [fsSize] at small
  have hb' : b % bpb = b := Nat.mod_eq_of_lt (by simp only [bpb, bsize]; omega)
  have hc' : c % bpb = c := Nat.mod_eq_of_lt (by simp only [bpb, bsize]; omega)
  rw [used, used, mark, sound.bblock hb, sound.bblock hc, write_self, hb', hc']
  exact Bytes.bit_setBit _ (by simp only [bsize]; omega) c

/-- A write to the bit map is seen neither in the inodes nor in the data. -/
theorem dinode_write_bitmap (sound : sb.Sound) {b i : Nat} (hb : b < sb.size) (hi : i < sb.ninodes)
    (v : Block) : (d.write (sb.bblock b) v).dinode sb i = d.dinode sb i := by
  have other : sb.iblock i ≠ sb.bblock b := by
    rw [sound.bblock hb]
    exact Nat.ne_of_lt (sound.iblock_lt hi)
  rw [dinode, dinode, write_of_ne d other]

theorem block_write_bitmap (sound : sb.Sound) {b x : Nat} (hb : b < sb.size) (hx : sb.nmeta ≤ x)
    (v : Block) : (d.write (sb.bblock b) v).block x = d.block x := by
  apply write_of_ne
  rw [sound.bblock hb]
  have := sb.bmapstart_lt
  omega

theorem dinode_setDinode (i j : Nat) (ip : Dinode) :
    (d.setDinode sb i ip).dinode sb j = if j = i then ip else d.dinode sb j := by
  have row : 0 < ipb := by decide
  unfold dinode setDinode
  by_cases same : sb.iblock j = sb.iblock i
  · rw [same, write_self]
    have rows : j / ipb = i / ipb := by
      unfold Superblock.iblock at same
      omega
    by_cases here : j = i
    · subst here
      rw [if_pos rfl]
      exact dinodeAt_setDinodeAt _ (Nat.mod_lt j row) ip
    · have columns : j % ipb ≠ i % ipb := by
        intro eq
        have hj := Nat.div_add_mod j ipb
        have hi := Nat.div_add_mod i ipb
        rw [rows, eq, hi] at hj
        exact here hj.symm
      rw [if_neg here]
      exact dinodeAt_setDinodeAt_of_ne _ columns ip
  · have here : j ≠ i := by rintro rfl; exact same rfl
    rw [write_of_ne d same, if_neg here]

theorem used_setDinode (sound : sb.Sound) {i b : Nat} (hi : i < sb.ninodes) (hb : b < sb.size)
    (ip : Dinode) : (d.setDinode sb i ip).used sb b = d.used sb b := by
  have other : sb.bblock b ≠ sb.iblock i := by
    rw [sound.bblock hb]
    exact Nat.ne_of_gt (sound.iblock_lt hi)
  rw [used, used, setDinode, write_of_ne d other]

theorem block_setDinode (sound : sb.Sound) {i x : Nat} (hi : i < sb.ninodes) (hx : sb.nmeta ≤ x)
    (ip : Dinode) : (d.setDinode sb i ip).block x = d.block x := by
  apply write_of_ne
  have := sound.iblock_lt hi
  have := sb.bmapstart_lt
  omega

end Disk

end Xv6.Fs
