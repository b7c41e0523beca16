import Xv6.Lib.Bytes

/-! The constants of param.h and fs.h, and the layout of the disk that mkfs
computes from them. -/

namespace Xv6
open Lib

/-! ## param.h -/

def maxOpBlocks : Nat := 10

def logSize : Nat := maxOpBlocks * 3

def fsSize : Nat := 1000

/-! ## fs.h -/

abbrev bsize : Nat := 512

abbrev Block := Bytes bsize

/-- The fields of the superblock the file system uses. -/
structure Superblock where
  size : Nat
  ninodes : Nat
  nlog : Nat
  logstart : Nat
  inodestart : Nat
  bmapstart : Nat
  deriving DecidableEq, Repr

/-- Inodes per block. -/
def ipb : Nat := bsize / 64

/-- Bitmap bits per block. -/
def bpb : Nat := bsize * 8

/-- Block containing inode `i`. -/
def Superblock.iblock (sb : Superblock) (i : Nat) : Nat := i / ipb + sb.inodestart

/-- Block of the free map containing the bit for block `b`. -/
def Superblock.bblock (sb : Superblock) (b : Nat) : Nat := b / bpb + sb.bmapstart

/-- Where the data blocks begin: all blocks before are metadata. -/
def Superblock.nmeta (sb : Superblock) : Nat := sb.bmapstart + (sb.size / bpb + 1)

/-- The parts of the disk follow each other as fs.h has them: boot block, super
block, log, inode blocks, free bit map, data blocks. The disk driver knows no
more than FSSIZE blocks. -/
structure Superblock.Sound (sb : Superblock) : Prop where
  disk : sb.size ≤ fsSize
  log : 2 ≤ sb.logstart ∧ sb.logstart + sb.nlog ≤ sb.inodestart
  inodes : sb.inodestart + (sb.ninodes / ipb + 1) ≤ sb.bmapstart
  data : sb.nmeta ≤ sb.size

theorem Superblock.Sound.bblock {sb : Superblock} (sound : sb.Sound) {b : Nat} (h : b < sb.size) :
    sb.bblock b = sb.bmapstart := by
  have small := sound.disk
  simp only [fsSize] at small
  have first : b / 4096 = 0 := Nat.div_eq_of_lt (by omega)
  simp [Superblock.bblock, bpb, bsize, first]

theorem Superblock.Sound.iblock_lt {sb : Superblock} (sound : sb.Sound) {i : Nat} (h : i < sb.ninodes) :
    sb.iblock i < sb.bmapstart := by
  have inodes := sound.inodes
  have row : i / ipb ≤ sb.ninodes / ipb := Nat.div_le_div_right (Nat.le_of_lt h)
  unfold Superblock.iblock
  omega

theorem Superblock.bmapstart_lt (sb : Superblock) : sb.bmapstart < sb.nmeta := by
  exact Nat.lt_add_of_pos_right (Nat.succ_pos _)

theorem Superblock.nmeta_pos (sb : Superblock) : 0 < sb.nmeta :=
  Nat.zero_lt_of_lt sb.bmapstart_lt

/-! ## mkfs.c -/

def ninodes : Nat := 200

def ninodeblocks : Nat := ninodes / ipb + 1

/-- The superblock mkfs writes. -/
def mkfs : Superblock where
  size := fsSize
  ninodes := ninodes
  nlog := logSize
  logstart := 2
  inodestart := 2 + logSize
  bmapstart := 2 + logSize + ninodeblocks

theorem mkfs_sound : mkfs.Sound := ⟨by decide, by decide, by decide, by decide⟩

end Xv6
