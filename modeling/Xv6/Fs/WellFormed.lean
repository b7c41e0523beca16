import Xv6.Fs.Content

/-! A well-formed file system, and the one that mkfs makes when it is given no
files. -/

namespace Xv6.Fs
open Lib
variable {sb : Superblock} {d : Disk} {node node' : Nat → Dinode} {i : Nat}

/-- The bit map, the inodes and their blocks agree: each block is marked or
free as it should be, and each file has the blocks that its size calls for. -/
structure WellFormed (sb : Superblock) (d : Disk) : Prop where
  owned : Owned sb d (d.dinode sb)
  shape : ∀ i, i < sb.ninodes → (d.dinode sb i).type ≠ 0 →
    Shape d (d.dinode sb i) (blocksFor (d.dinode sb i).size.toNat)

theorem Owned.congr_node (owned : Owned sb d node)
    (same : ∀ j, j < sb.ninodes → node' j = node j) : Owned sb d node' := by
  apply owned.of_refers fun _ _ => rfl
  intro j p b
  apply and_congr_right
  intro hj
  rw [same j hj]

theorem WellFormed.held (wf : WellFormed sb d) (hi : i < sb.ninodes)
    (live : (d.dinode sb i).type ≠ 0) : Held sb d (d.dinode sb) i (d.dinode sb i) :=
  ⟨by rw [Function.update_eq_self]; exact wf.owned, hi, live⟩

/-! ## mkfs.c -/

def rootino : Nat := 1

/-- The bit map with the first `used` blocks marked. -/
def bitmap (used : Nat) : Block := (List.range used).foldl Bytes.setBit Bytes.zero

theorem bit_bitmap {used : Nat} (h : used ≤ 8 * bsize) (b : Nat) :
    (bitmap used).bit b = decide (b < used) := by
  induction used with
  | zero => simp [bitmap, Bytes.bit]
  | succ n ih =>
    have last : bitmap (n + 1) = (bitmap n).setBit n := by
      rw [bitmap, List.range_succ, List.foldl_append]
      rfl
    rw [last, Bytes.bit_setBit _ (by omega), ih (by omega)]
    by_cases here : b = n
    · simp [here]
    · rw [if_neg here]
      have same : b < n ↔ b < n + 1 := by omega
      simp only [same]

/-- The inode of the root directory. Its size is rounded up to a whole block. -/
def rootInode (sb : Superblock) : Dinode where
  type := tDir
  major := 0
  minor := 0
  nlink := 1
  size := .ofNat bsize
  addrs := fun j => if j.val = 0 then .ofNat sb.nmeta else 0

/-- The entries "." and "..". -/
def rootBlock : Block := fun j =>
  if j.val = 0 ∨ j.val = 16 then 1
  else if j.val = 2 ∨ j.val = 18 ∨ j.val = 19 then 46
  else 0

/-- The image before the root inode is written. -/
def blankDisk (sb : Superblock) : Disk where
  block b :=
    if b = sb.bmapstart then bitmap (sb.nmeta + 1)
    else if b = sb.nmeta then rootBlock
    else Bytes.zero
  logged := []

/-- The image of a file system with nothing but the root directory. -/
def freshDisk (sb : Superblock) : Disk where
  block := ((blankDisk sb).setDinode sb rootino (rootInode sb)).block
  logged := []

/-- There is room for the root directory. -/
structure Superblock.Roomy (sb : Superblock) : Prop extends sb.Sound where
  root : rootino < sb.ninodes
  block : sb.nmeta < sb.size

theorem mkfs_roomy : Superblock.Roomy mkfs := ⟨mkfs_sound, by decide, by decide⟩

namespace Superblock.Roomy
variable (roomy : Superblock.Roomy sb)
include roomy

theorem used_fresh {b : Nat} (hb : b < sb.size) :
    (freshDisk sb).used sb b = decide (b < sb.nmeta + 1) := by
  have small := roomy.disk
  have block := roomy.block
  simp only [fsSize] at small
  have low : b % bpb = b := Nat.mod_eq_of_lt (by simp only [bpb, bsize]; omega)
  have same : ((blankDisk sb).setDinode sb rootino (rootInode sb)).used sb b =
      (blankDisk sb).used sb b :=
    Disk.used_setDinode roomy.toSound roomy.root hb (rootInode sb)
  apply same.trans
  rw [Disk.used, roomy.bblock hb, low]
  simp only [blankDisk, ↓reduceIte]
  exact bit_bitmap (by simp only [bsize]; omega) b

theorem dinode_fresh {i : Nat} (hi : i < sb.ninodes) :
    (freshDisk sb).dinode sb i = if i = rootino then rootInode sb else Dinode.zero := by
  have stored : ((blankDisk sb).setDinode sb rootino (rootInode sb)).dinode sb i =
      if i = rootino then rootInode sb else (blankDisk sb).dinode sb i :=
    Disk.dinode_setDinode rootino i (rootInode sb)
  apply stored.trans
  have area := roomy.iblock_lt hi
  have data := sb.bmapstart_lt
  have other : sb.iblock i ≠ sb.bmapstart := by omega
  have other' : sb.iblock i ≠ sb.nmeta := by omega
  have empty : dinodeAt (Bytes.zero : Block) (i % ipb) = Dinode.zero := by
    simp [dinodeAt, Dinode.zero, lowShort, highShort]
  simp only [Disk.dinode, blankDisk, other, other', ↓reduceIte, empty]

theorem ptr_root (e : Disk) (p : Place) :
    e.ptr (rootInode sb) p = if p = .file 0 then sb.nmeta else 0 := by
  have bound := toNat_ofNat_block roomy.toSound roomy.block
  have last : (rootInode sb).addr ndirect = 0 := by simp [rootInode, Dinode.addr, ndirect]
  cases p with
  | indirect => simp [Disk.ptr, last]
  | file n =>
    by_cases direct : n < ndirect
    · have small : n < ndirect + 1 := by omega
      simp only [Disk.ptr, direct, ↓reduceIte, Dinode.addr, small, ↓reduceDIte, rootInode,
        Place.file.injEq]
      split
      · exact bound
      · rfl
    · have other : n ≠ 0 := by
        rintro rfl
        exact direct (by decide)
      simp [Disk.ptr, direct, last, other]

theorem refers_fresh (i : Nat) (p : Place) (b : Nat) :
    Refers sb (freshDisk sb) ((freshDisk sb).dinode sb) i p b ↔
      i = rootino ∧ p = .file 0 ∧ b = sb.nmeta := by
  have nonzero := sb.nmeta_pos
  constructor
  · rintro ⟨hi, live, eq, used⟩
    rw [roomy.dinode_fresh hi] at live eq
    by_cases root : i = rootino
    · rw [if_pos root, roomy.ptr_root] at eq
      by_cases first : p = .file 0
      · rw [if_pos first] at eq
        exact ⟨root, first, eq.symm⟩
      · rw [if_neg first] at eq
        exact absurd eq.symm used
    · rw [if_neg root] at live
      exact absurd rfl live
  · rintro ⟨rfl, rfl, rfl⟩
    refine ⟨roomy.root, ?_, ?_, Nat.ne_of_gt nonzero⟩
    · rw [roomy.dinode_fresh roomy.root, if_pos rfl]
      simp [rootInode, tDir]
    · rw [roomy.dinode_fresh roomy.root, if_pos rfl, roomy.ptr_root, if_pos rfl]

theorem fresh_wellFormed : WellFormed sb (freshDisk sb) := by
  have refers := roomy.refers_fresh
  refine ⟨⟨?_, ?_, ?_⟩, ?_⟩
  · intro i p b h
    obtain ⟨_, _, rfl⟩ := (refers i p b).mp h
    exact ⟨Nat.le_refl _, roomy.block⟩
  · intro i p j q b h h'
    obtain ⟨rfl, rfl, _⟩ := (refers i p b).mp h
    obtain ⟨rfl, rfl, _⟩ := (refers j q b).mp h'
    exact ⟨rfl, rfl⟩
  · intro b hb
    rw [roomy.used_fresh hb, decide_eq_true_eq]
    constructor
    · intro lt
      by_cases root : b = sb.nmeta
      · exact .inr ⟨rootino, .file 0, (refers _ _ _).mpr ⟨rfl, rfl, root⟩⟩
      · exact .inl (by omega)
    · rintro (lt | ⟨i, p, h⟩)
      · omega
      · obtain ⟨_, _, rfl⟩ := (refers i p b).mp h
        exact Nat.lt_succ_self _
  · intro i hi live
    have nonzero := sb.nmeta_pos
    rw [roomy.dinode_fresh hi] at live ⊢
    by_cases root : i = rootino
    · have one : blocksFor (rootInode sb).size.toNat = 1 := by simp [rootInode, blocksFor, bsize]
      rw [if_pos root, one]
      refine ⟨by decide, ?_, ?_⟩
      · intro n _
        rw [roomy.ptr_root]
        by_cases first : n = 0
        · simp [first]
          omega
        · simp [first]
      · rw [roomy.ptr_root]
        simp [ndirect]
    · rw [if_neg root] at live
      exact absurd rfl live

end Superblock.Roomy

end Xv6.Fs
