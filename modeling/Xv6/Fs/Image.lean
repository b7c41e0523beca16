import Mathlib.Order.Interval.Finset.Nat
import Xv6.Fs.Directory

/-! mkfs.c: the image of a file system, written before there is a kernel to write it.
mkfs hands out inodes and blocks in order and writes the bit map last. Each of its
appends is a writei() on the disk that has the bit map already. -/

namespace Xv6

/-- readsb() on the block that holds the superblock. -/
def Fs.readsb (b : Block) : Superblock where
  size := (b.word 0).toNat
  ninodes := (b.word 2).toNat
  nlog := (b.word 3).toNat
  logstart := (b.word 4).toNat
  inodestart := (b.word 5).toNat
  bmapstart := (b.word 6).toNat

namespace Mkfs
open Lib Fs

/-! ## mkfs.c -/

/-- The image file, and the two counters. -/
structure Image where
  block : Nat → Block
  freeinode : Nat
  freeblock : Nat

/-- Nothing can be read behind the FSSIZE sectors that have been zeroed. -/
def rsect (sec : Nat) : Prog Image Block := do
  let img ← .get
  if sec < fsSize then return img.block sec else .halt

def wsect (sec : Nat) (buf : Block) : Prog Image Unit :=
  .modify fun img => { img with block := Function.update img.block sec buf }

def winode (inum : Nat) (ip : Dinode) : Prog Image Unit := do
  let buf ← rsect (mkfs.iblock inum)
  wsect (mkfs.iblock inum) (setDinodeAt buf (inum % ipb) ip)

def rinode (inum : Nat) : Prog Image Dinode := do
  let buf ← rsect (mkfs.iblock inum)
  return dinodeAt buf (inum % ipb)

/-- What ialloc() writes. -/
def newInode (type : Int16) : Dinode := { Dinode.zero with type := type, nlink := 1 }

def ialloc (type : Int16) : Prog Image Nat := do
  let img ← .get
  .modify fun img => { img with freeinode := img.freeinode + 1 }
  winode img.freeinode (newInode type)
  return img.freeinode

/-- `freeblock++` -/
def nextBlock : Prog Image Nat := do
  let img ← .get
  .modify fun img => { img with freeblock := img.freeblock + 1 }
  return img.freeblock

/-- `din.addrs[n]`, set to the next block if it is 0. -/
def addrOrNext (din : Dinode) (n : Nat) : Prog Image (Nat × Dinode) :=
  if din.addr n = 0 then do
    let b ← nextBlock
    return (b, din.setAddr n (.ofNat b))
  else return ((din.addr n).toNat, din)

/-- The same for an entry of the indirect block. -/
def entryOrNext (addr : Nat) (din : Dinode) (fbn : Nat) : Prog Image (Nat × Dinode) := do
  let indirect ← rsect addr
  if indirect.word (fbn - ndirect) = 0 then
    let b ← nextBlock
    wsect addr (indirect.setWord (fbn - ndirect) (.ofNat b))
    return (b, din)
  else return ((indirect.word (fbn - ndirect)).toNat, din)

/-- The block for the `fbn`th block of the file. -/
def blockFor (din : Dinode) (fbn : Nat) : Prog Image (Nat × Dinode) :=
  if fbn < ndirect then addrOrNext din fbn
  else do
    let (addr, din) ← addrOrNext din ndirect
    entryOrNext addr din fbn

/-- The loop of iappend(): the inode and `off` as it leaves them. -/
def appendLoop : Nat → Dinode → Nat → List UInt8 → Prog Image (Dinode × Nat)
  | 0, din, off, _ => pure (din, off)
  | fuel + 1, din, off, p =>
    if p = [] then pure (din, off)
    else if maxfile ≤ off / bsize then .halt -- assert(fbn < MAXFILE)
    else do
      let (x, din) ← blockFor din (off / bsize)
      let n1 := min p.length ((off / bsize + 1) * bsize - off)
      let buf ← rsect x
      wsect x (buf.splice (off - off / bsize * bsize) (p.take n1))
      appendLoop fuel din (off + n1) (p.drop n1)

def iappend (inum : Nat) (p : List UInt8) : Prog Image Unit := do
  let din ← rinode inum
  let (din, off) ← appendLoop p.length din din.size.toNat p
  winode inum { din with size := .ofNat off }

def balloc (used : Nat) : Prog Image Unit :=
  if used < bsize * 8 then wsect mkfs.bmapstart (bitmap used) else .halt

/-- An input file: its name on the command line, and what the calls of read() for it
return. -/
structure File where
  name : List UInt8
  text : 0 ∉ name
  reads : List (List UInt8)
  filled : ∀ r ∈ reads, 0 < r.length ∧ r.length ≤ bsize

namespace File

/-- The name without a leading `_`. -/
def stored (f : File) : List UInt8 := if f.name.head? = some 95 then f.name.tail else f.name

/-- The name in the directory. -/
def entryName (f : File) : List UInt8 := f.stored.take dirsiz

def bytes (f : File) : List UInt8 := f.reads.flatten

end File

def addFile (rootino : Nat) (f : File) : Prog Image Unit :=
  if 47 ∈ f.name then .halt -- assert(index(argv[i], '/') == 0)
  else do
    let inum ← ialloc tFile
    iappend rootino (Dirent.named inum (charsOf f.stored)).bytes
    Prog.each (iappend inum) f.reads

/-- `sb` in a block -/
def superblock : Block :=
  Bytes.zero.setWords 0 7 fun t => .ofNat
    ([mkfs.size, mkfs.size - mkfs.nmeta, mkfs.ninodes, mkfs.nlog, mkfs.logstart, mkfs.inodestart,
      mkfs.bmapstart].getD t 0)

/-- The zeroed image. -/
def zeroes : Image := ⟨fun _ => Bytes.zero, 1, mkfs.nmeta⟩

/-- main() once there is an inode for the root directory. strcpy() of "." and ".." into
zeroed entries comes to the same as strncpy(). -/
def fill (root : Nat) (files : List File) : Prog Image Unit := do
  iappend root (Dirent.named root (charsOf [46])).bytes
  iappend root (Dirent.named root (charsOf [46, 46])).bytes
  Prog.each (addFile root) files
  -- fix size of root inode dir
  let din ← rinode root
  winode root { din with size := .ofNat ((din.size.toNat / bsize + 1) * bsize) }
  let img ← .get
  balloc img.freeblock

def main (files : List File) : Prog Image Unit := do
  wsect 1 superblock
  let root ← ialloc tDir
  if root ≠ rootino then .halt else fill root files

/-- The disk that the kernel finds. -/
def Image.disk (img : Image) : Disk := ⟨img.block, []⟩

/-! ## The disk with its bit map -/

theorem bitmap_succ (n : Nat) : bitmap (n + 1) = (bitmap n).setBit n := by
  rw [bitmap, List.range_succ, List.foldl_append]
  rfl

/-- What balloc() does when it returns. -/
theorem balloc_cases {sb : Superblock} {d d' : Disk} {b : Nat}
    (h : Fs.balloc sb d = some (b, d')) :
    b < sb.size ∧ d.used sb b = false ∧ (∀ c < b, d.used sb c = true) ∧
      d' = (d.mark sb b).write b Bytes.zero := by
  obtain ⟨_, _, got, h⟩ := Prog.bind_eq_some.mp h
  obtain ⟨rfl, rfl⟩ := Prog.get_eq_some.mp got
  cases found : (List.range sb.size).find? fun b => !d.used sb b with
  | none => simp [found] at h
  | some c =>
    simp only [found] at h
    obtain ⟨_, _, marked, h⟩ := Prog.bind_eq_some.mp h
    obtain ⟨_, _, zeroed, h⟩ := Prog.bind_eq_some.mp h
    obtain ⟨rfl, rfl⟩ := Prog.pure_eq_some.mp h
    rw [Prog.modify_eq_some] at marked
    subst marked
    rw [bzero, logWrite, Prog.modify_eq_some] at zeroed
    obtain ⟨free, mem, first⟩ := List.find?_range_eq_some.mp found
    refine ⟨List.mem_range.mp mem, by simpa using free, ?_, zeroed.symm⟩
    intro x lt
    simpa using first x lt

/-- `d` is the image with the bit map that it will be given, and no block has been
touched that has not been handed out. -/
structure Sim (img : Image) (d : Disk) : Prop where
  data : ∀ b, b ≠ mkfs.bmapstart → d.block b = img.block b
  map : d.block mkfs.bmapstart = bitmap img.freeblock
  blank : ∀ b, img.freeblock ≤ b → img.block b = Bytes.zero
  low : mkfs.nmeta ≤ img.freeblock
  high : img.freeblock ≤ fsSize

section
variable {img : Image} {d d' : Disk} {node : Nat → Dinode} {i : Nat} {ip ip' : Dinode}

theorem mkfs_size : mkfs.size = fsSize := rfl

theorem Sim.used (sim : Sim img d) {b : Nat} (hb : b < fsSize) :
    d.used mkfs b = decide (b < img.freeblock) := by
  have small : b % bpb = b := Nat.mod_eq_of_lt (Nat.lt_trans hb (by decide))
  have fits : img.freeblock ≤ 8 * bsize := Nat.le_trans sim.high (by decide)
  rw [Disk.used, mkfs_sound.bblock hb, sim.map, small, bit_bitmap fits]

theorem Sim.free (sim : Sim img d) : d.free mkfs = fsSize - img.freeblock := by
  have blocks : (Finset.range mkfs.size).filter (fun b => d.used mkfs b = false) =
      Finset.Ico img.freeblock fsSize := by
    ext b
    rw [Finset.mem_filter, Finset.mem_range, mkfs_size, Finset.mem_Ico]
    constructor
    · rintro ⟨lt, free⟩
      rw [sim.used lt, decide_eq_false_iff_not] at free
      omega
    · rintro ⟨le, lt⟩
      refine ⟨lt, ?_⟩
      rw [sim.used lt, decide_eq_false_iff_not]
      omega
  rw [Disk.free, blocks, Nat.card_Ico]

/-- A block that is not the bit map is written in both. -/
theorem Sim.write (sim : Sim img d) {b : Nat} (other : b ≠ mkfs.bmapstart) (old : b < img.freeblock)
    (v : Block) : Sim { img with block := Function.update img.block b v } (d.write b v) where
  data x hx := by
    show (d.write b v).block x = Function.update img.block b v x
    by_cases here : x = b
    · rw [here, Disk.write_self, Function.update_self]
    · rw [Disk.write_of_ne d here, Function.update_of_ne here, sim.data x hx]
  map := by rw [Disk.write_of_ne d other.symm, sim.map]
  blank x hx := by
    have hx : img.freeblock ≤ x := hx
    show Function.update img.block b v x = _
    rw [Function.update_of_ne (by omega)]
    exact sim.blank x hx
  low := sim.low
  high := sim.high

/-- The next block is the one that balloc() finds. -/
theorem Sim.balloc (sim : Sim img d) {b : Nat} (h : Fs.balloc mkfs d = some (b, d')) :
    b = img.freeblock ∧ Sim { img with freeblock := img.freeblock + 1 } d' := by
  obtain ⟨lt, free, first, rfl⟩ := balloc_cases h
  rw [mkfs_size] at lt
  have here : b = img.freeblock := by
    rw [sim.used lt, decide_eq_false_iff_not] at free
    by_contra other
    have earlier := first img.freeblock (by omega)
    rw [sim.used (by omega), decide_eq_true_iff] at earlier
    omega
  subst here
  have low := sim.low
  have bmap : mkfs.bmapstart < mkfs.nmeta := mkfs.bmapstart_lt
  have apart : img.freeblock ≠ mkfs.bmapstart := by omega
  have place : img.freeblock % bpb = img.freeblock :=
    Nat.mod_eq_of_lt (Nat.lt_trans lt (by decide))
  refine ⟨rfl, ?_, ?_, ?_, Nat.le_succ_of_le low, lt⟩
  · intro x hx
    by_cases new : x = img.freeblock
    · rw [new, Disk.write_self]
      exact (sim.blank _ (Nat.le_refl _)).symm
    · rw [Disk.write_of_ne _ new, Disk.mark, mkfs_sound.bblock lt, Disk.write_of_ne _ hx]
      exact sim.data x hx
  · rw [Disk.write_of_ne _ apart.symm, Disk.mark, mkfs_sound.bblock lt, Disk.write_self, sim.map,
      place]
    exact (bitmap_succ _).symm
  · intro x hx
    exact sim.blank x (Nat.le_of_succ_le hx)

/-- The run of a program of mkfs that ends in the image of `d'`. No inode is handed out,
and the superblock stays. -/
def Does {α : Type} (x : Prog Image α) (img : Image) (a : α) (d' : Disk) : Prop :=
  ∃ img', x img = some (a, img') ∧ Sim img' d' ∧ img'.freeinode = img.freeinode ∧
    img'.block 1 = img.block 1

theorem rsect_eq {sec : Nat} (h : sec < fsSize) : rsect sec img = some (img.block sec, img) := by
  refine Prog.bind_eq_some.mpr ⟨img, img, rfl, ?_⟩
  simp only [if_pos h]
  rfl

/-- A block of a file has been handed out. -/
theorem Sim.ptr_old (sim : Sim img d) (held : Held mkfs d node i ip) {p : Place}
    (h : d.ptr ip p ≠ 0) :
    mkfs.nmeta ≤ d.ptr ip p ∧ d.ptr ip p < img.freeblock ∧ d.ptr ip p < fsSize := by
  obtain ⟨low, lt⟩ := held.ptr_area h
  have marked := (held.owned.used _ lt).mpr (.inr ⟨i, p, held.refers h⟩)
  rw [mkfs_size] at lt
  rw [sim.used lt, decide_eq_true_iff] at marked
  exact ⟨low, marked, lt⟩

theorem ne_bmapstart {b : Nat} (data : mkfs.nmeta ≤ b) : b ≠ mkfs.bmapstart := by
  have := mkfs.bmapstart_lt
  omega

theorem one_ne {b : Nat} (data : mkfs.nmeta ≤ b) : 1 ≠ b := by
  have : 1 < mkfs.nmeta := by decide
  omega

theorem Sim.addrOrNext (sim : Sim img d) {n b : Nat}
    (h : addrOrAlloc mkfs ip n d = some ((b, ip'), d')) :
    Does (addrOrNext ip n) img (b, ip') d' := by
  obtain ⟨used, rfl, rfl, rfl⟩ | ⟨none, alloc, rfl⟩ := addrOrAlloc_cases h
  · exact ⟨img, by rw [Mkfs.addrOrNext, if_neg used]; rfl, sim, rfl, rfl⟩
  · obtain ⟨rfl, sim'⟩ := sim.balloc alloc
    exact ⟨_, by rw [Mkfs.addrOrNext, if_pos none]; rfl, sim', rfl, rfl⟩

theorem Sim.entryOrNext (sim : Sim img d) {addr bn b : Nat} (data : mkfs.nmeta ≤ addr)
    (old : addr < img.freeblock) (h : entryOrAlloc mkfs addr ip bn d = some ((b, ip'), d')) :
    Does (entryOrNext addr ip bn) img (b, ip') d' := by
  have read : rsect addr img = some (img.block addr, img) :=
    rsect_eq (Nat.lt_of_lt_of_le old sim.high)
  have same := sim.data addr (ne_bmapstart data)
  obtain ⟨rfl, ⟨used, rfl, rfl⟩ | ⟨none, d₁, alloc, rfl⟩⟩ := entryOrAlloc_cases h
  · refine ⟨img, Prog.bind_eq_some.mpr ⟨_, _, read, ?_⟩, sim, rfl, rfl⟩
    rw [same] at used
    simp only [if_neg used, same]
    rfl
  · obtain ⟨rfl, sim'⟩ := sim.balloc alloc
    have same' : d₁.block addr = img.block addr := sim'.data addr (ne_bmapstart data)
    rw [same']
    refine ⟨_, Prog.bind_eq_some.mpr ⟨_, _, read, ?_⟩,
      sim'.write (ne_bmapstart data) (Nat.lt_succ_of_lt old) _, rfl,
      Function.update_of_ne (one_ne data) _ _⟩
    rw [same] at none
    simp only [if_pos none]
    rfl

theorem Does.bind {α β : Type} {x : Prog Image α} {f : α → Prog Image β} {a : α} {b : β}
    (first : Does x img a d)
    (rest : ∀ img', Sim img' d → x img = some (a, img') → Does (f a) img' b d') :
    Does (x >>= f) img b d' := by
  obtain ⟨img₁, run, sim, inodes, super⟩ := first
  obtain ⟨img₂, run', sim', inodes', super'⟩ := rest img₁ sim run
  exact ⟨img₂, Prog.bind_eq_some.mpr ⟨a, img₁, run, run'⟩, sim', inodes'.trans inodes,
    super'.trans super⟩

/-- mkfs finds the block that bmap() finds. -/
theorem Sim.blockFor (sim : Sim img d) (held : Held mkfs d node i ip) {bn b : Nat}
    (small : bn < maxfile) (h : bmap mkfs ip bn d = some ((b, ip'), d')) :
    Does (blockFor ip bn) img (b, ip') d' := by
  by_cases direct : bn < ndirect
  · rw [bmap, if_pos direct] at h
    rw [Mkfs.blockFor, if_pos direct]
    exact sim.addrOrNext h
  · rw [bmap_of_indirect direct small] at h
    rw [Mkfs.blockFor, if_neg direct]
    obtain ⟨⟨addr, ip₁⟩, d₁, first, second⟩ := Prog.bind_eq_some.mp h
    refine (sim.addrOrNext first).bind fun img₁ sim₁ run => sim₁.entryOrNext ?_ ?_ second
    all_goals
      obtain ⟨used, rfl, rfl, rfl⟩ | ⟨none, alloc, rfl⟩ := addrOrAlloc_cases first
    · exact (sim.ptr_old held (p := .indirect) fun zero => used (UInt32.toNat.inj zero)).1
    · obtain ⟨rfl, -⟩ := sim.balloc alloc
      exact sim.low
    · rw [Mkfs.addrOrNext, if_neg used] at run
      obtain ⟨-, rfl⟩ := Prog.pure_eq_some.mp run
      exact (sim.ptr_old held (p := .indirect) fun zero => used (UInt32.toNat.inj zero)).2.1
    · obtain ⟨rfl, -⟩ := sim.balloc alloc
      rw [Mkfs.addrOrNext, if_pos none] at run
      obtain ⟨_, _, next, rest⟩ := Prog.bind_eq_some.mp run
      obtain ⟨-, rfl⟩ := Prog.pure_eq_some.mp rest
      cases next
      exact Nat.lt_succ_self _

/-- One round of the loop copies the same bytes to the same block. -/
theorem round_eq (off : Nat) :
    (off / bsize + 1) * bsize - off = bsize - off % bsize ∧ off - off / bsize * bsize = off % bsize := by
  have split := Nat.div_add_mod off bsize
  have low := Nat.mod_lt off (by decide : 0 < bsize)
  rw [Nat.add_mul, Nat.mul_comm (off / bsize)]
  omega

theorem Sim.appendLoop {fuel k off : Nat} {src : List UInt8} (sim : Sim img d)
    (enough : src.length ≤ fuel) (held : Held mkfs d node i ip) (shape : Shape d ip k)
    (le : off ≤ k * bsize) (small : off + src.length ≤ maxfile * bsize)
    (h : writeLoop mkfs fuel ip off src d = some (ip', d')) :
    Does (appendLoop fuel ip off src) img (ip', off + src.length) d' := by
  induction fuel generalizing img d ip k off src with
  | zero =>
    obtain rfl := List.eq_nil_of_length_eq_zero (Nat.le_zero.mp enough)
    obtain ⟨rfl, rfl⟩ := Prog.pure_eq_some.mp h
    exact ⟨img, rfl, sim, rfl, rfl⟩
  | succ fuel ih =>
    rw [writeLoop] at h
    rw [Mkfs.appendLoop]
    by_cases empty : src = []
    · subst empty
      rw [if_pos rfl] at h ⊢
      obtain ⟨rfl, rfl⟩ := Prog.pure_eq_some.mp h
      exact ⟨img, rfl, sim, rfl, rfl⟩
    have nonempty : 0 < src.length := List.length_pos_of_ne_nil empty
    have fbn : off / bsize < maxfile := div_lt_of_lt_mul (by omega)
    rw [if_neg empty] at h
    rw [if_neg empty, if_neg (by omega), (round_eq off).1, (round_eq off).2]
    obtain ⟨⟨b, ip₁⟩, d₁, mapped, h⟩ := Prog.bind_eq_some.mp h
    obtain ⟨_, d₂, written, h⟩ := Prog.bind_eq_some.mp h
    obtain rfl := Prog.modify_eq_some.mp written
    refine (sim.blockFor held fbn mapped).bind fun img₁ sim₁ _ => ?_
    generalize m_eq : min src.length (bsize - off % bsize) = m at h
    have low := Nat.mod_lt off (by decide : 0 < bsize)
    have taken : (src.take m).length = m := by
      rw [List.length_take]
      omega
    have dropped : (src.drop m).length = src.length - m := List.length_drop
    have fits : off % bsize + (src.take m).length ≤ bsize := by omega
    obtain ⟨held₂, first⟩ := write_round mkfs_sound held shape le (by omega) fits (by omega) mapped
    have within := first.within
    rw [taken] at within
    -- the block is one of the file's, so it is read and written in both
    obtain ⟨held₁, map⟩ := bmap_spec mkfs_sound held shape
      (Nat.div_le_of_le_mul (by rwa [Nat.mul_comm])) fbn mapped
    have bound := map.shape.le
    have here : d₁.ptr ip₁ (.file (off / bsize)) ≠ 0 := (map.shape.file _ fbn).mpr (by omega)
    obtain ⟨data, old, inside⟩ := sim₁.ptr_old held₁ here
    rw [map.ptr] at data old inside
    have last : off + src.length = off + m + (src.drop m).length := by omega
    have sim₂ := sim₁.write (ne_bmapstart data) old ((d₁.block b).splice (off % bsize) (src.take m))
    obtain ⟨img', run, sim', inodes, super⟩ :=
      ih sim₂ (by omega) held₂ first.shape within (by omega) h
    refine ⟨img', Prog.bind_eq_some.mpr ⟨_, _, rsect_eq inside, ?_⟩, sim', inodes,
      super.trans (Function.update_of_ne (one_ne data) _ _)⟩
    rw [last]
    refine Prog.bind_eq_some.mpr ⟨(), _, ?_, run⟩
    rw [← sim₁.data b (ne_bmapstart data)]
    rfl

/-! ## Inodes -/

theorem iblock_bounds (hi : i < mkfs.ninodes) :
    mkfs.iblock i ≠ mkfs.bmapstart ∧ mkfs.iblock i ≠ 1 ∧ mkfs.iblock i < mkfs.nmeta ∧
      mkfs.iblock i < fsSize := by
  have lt := mkfs_sound.iblock_lt hi
  have := mkfs.bmapstart_lt
  have : mkfs.nmeta ≤ fsSize := mkfs_sound.data
  have : 32 ≤ mkfs.iblock i := Nat.le_add_left _ _
  omega

theorem Sim.rinode (sim : Sim img d) (hi : i < mkfs.ninodes) :
    rinode i img = some (d.dinode mkfs i, img) := by
  obtain ⟨data, -, -, inside⟩ := iblock_bounds hi
  refine Prog.bind_eq_some.mpr ⟨_, _, rsect_eq inside, ?_⟩
  rw [Disk.dinode, sim.data _ data]
  rfl

theorem Sim.winode (sim : Sim img d) (hi : i < mkfs.ninodes) (ip : Dinode) :
    Does (winode i ip) img () (d.setDinode mkfs i ip) := by
  obtain ⟨data, super, low, inside⟩ := iblock_bounds hi
  have le := sim.low
  let v := setDinodeAt (img.block (mkfs.iblock i)) (i % ipb) ip
  have both : d.setDinode mkfs i ip = d.write (mkfs.iblock i) v := by
    rw [Disk.setDinode, sim.data _ data]
  rw [both]
  exact ⟨_, Prog.bind_eq_some.mpr ⟨_, _, rsect_eq inside, rfl⟩,
    sim.write data (show mkfs.iblock i < img.freeblock by omega) v, rfl,
    Function.update_of_ne super.symm v _⟩

/-- iappend() does what writei() does at the end of the file, with the same blocks. -/
theorem Sim.iappend (sim : Sim img d) (dev : Devsw) {src : List UInt8} (some : src ≠ [])
    (held : Held mkfs d node i (d.dinode mkfs i)) (file : (d.dinode mkfs i).type ≠ tDev)
    (shape : Shape d (d.dinode mkfs i) (blocksFor (d.dinode mkfs i).size.toNat))
    (small : (d.dinode mkfs i).size.toNat + src.length ≤ maxfile * bsize) {r : Int}
    (h : writei mkfs dev i (d.dinode mkfs i) src (d.dinode mkfs i).size d = Option.some ((r, ip'), d')) :
    Does (iappend i src) img () d' ∧
      d'.free mkfs + growth (blocksFor (d.dinode mkfs i).size.toNat)
        (blocksFor ((d.dinode mkfs i).size.toNat + src.length)) = d.free mkfs := by
  generalize ipEq : d.dinode mkfs i = ip at held file shape small h
  have limit : maxfile * bsize < 2 ^ 31 := by decide
  have ok : ¬ Refused ip ip.size.toNat src.length := by
    unfold Refused
    omega
  obtain ⟨-, ip₁, d₁, loop, ends⟩ := writei_cases dev file (by omega) ok h
  have room := le_blocksFor ip.size.toNat
  obtain ⟨held₁, written⟩ := writeLoop_spec mkfs_sound (Nat.le_refl _) held shape room small loop
  have size : ip₁.size = ip.size := by rw [written.grown.same]
  have nonempty : 0 < src.length := List.length_pos_of_ne_nil some
  rw [size] at ends
  obtain ⟨-, -, rfl, rfl⟩ | ⟨no, -, -⟩ := ends
  · have more : blocksFor ip.size.toNat ≤ blocksFor (ip.size.toNat + src.length) :=
      Nat.div_le_div_right (by omega)
    have free := written.free
    rw [Nat.max_eq_right more] at free
    refine ⟨?_, by rw [free_congr fun b hb => Disk.used_setDinode mkfs_sound held.bound hb _, free]⟩
    rw [Mkfs.iappend]
    refine Does.bind ⟨img, sim.rinode held.bound, sim, rfl, rfl⟩ fun img₁ sim₁ _ => ?_
    rw [ipEq]
    refine (sim₁.appendLoop (Nat.le_refl _) held shape room small loop).bind fun img₂ sim₂ _ => ?_
    have total : ip.size + .ofNat src.length = UInt32.ofNat (ip.size.toNat + src.length) := by
      rw [UInt32.ofNat_add, UInt32.ofNat_toNat]
    rw [total]
    exact sim₂.winode held.bound _
  · omega

end

end Mkfs
end Xv6
