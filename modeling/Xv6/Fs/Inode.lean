import Xv6.Fs.Disk

/-! fs.c: the contents of an inode. The functions take the in-memory copy of
the inode and return it as they leave it. -/

namespace Xv6.Fs
open Lib

def tDir : Int16 := 1

def tFile : Int16 := 2

def tDev : Int16 := 3

namespace Dinode

/-- `addrs[n]` -/
def addr (ip : Dinode) (n : Nat) : UInt32 :=
  if h : n < ndirect + 1 then ip.addrs ⟨n, h⟩ else 0

def setAddr (ip : Dinode) (n : Nat) (v : UInt32) : Dinode :=
  { ip with addrs := fun j => if j.val = n then v else ip.addrs j }

theorem addr_setAddr (ip : Dinode) {n : Nat} (h : n ≤ ndirect) (v : UInt32) (m : Nat) :
    (ip.setAddr n v).addr m = if m = n then v else ip.addr m := by
  unfold addr setAddr
  by_cases small : m < ndirect + 1
  · simp only [small, ↓reduceDIte]
  · have other : m ≠ n := by omega
    simp only [small, ↓reduceDIte, other, ↓reduceIte]

end Dinode

variable (sb : Superblock)

/-- Entry `n` of `addrs`, with a block allocated for it if there is none. -/
def addrOrAlloc (ip : Dinode) (n : Nat) : Prog Disk (Nat × Dinode) :=
  if ip.addr n = 0 then do
    let addr ← balloc sb
    return (addr, ip.setAddr n (.ofNat addr))
  else return ((ip.addr n).toNat, ip)

/-- The disk block address of the `bn`th block in inode `ip`. If there is no
such block, one is allocated. -/
def bmap (ip : Dinode) (bn : Nat) : Prog Disk (Nat × Dinode) :=
  if bn < ndirect then addrOrAlloc sb ip bn
  else if bn - ndirect < nindirect then do
    -- load indirect block, allocating if necessary
    let (addr, ip) ← addrOrAlloc sb ip ndirect
    let d ← .get
    let a := (d.block addr).word (bn - ndirect)
    if a = 0 then
      let b ← balloc sb
      .modify fun d => d.write addr ((d.block addr).setWord (bn - ndirect) (.ofNat b))
      return (b, ip)
    else return (a.toNat, ip)
  else .halt -- bmap: out of range

def bfreeIf (a : UInt32) : Prog Disk Unit := if a = 0 then pure () else bfree sb a.toNat

/-- Truncate inode (discard contents). -/
def itrunc (inum : Nat) (ip : Dinode) : Prog Disk Dinode := do
  Prog.each (fun n => bfreeIf sb (ip.addr n)) (List.range ndirect)
  if ip.addr ndirect = 0 then pure ()
  else
    let d ← .get
    let a := d.block (ip.addr ndirect).toNat
    Prog.each (fun j => bfreeIf sb (a.word j)) (List.range nindirect)
    bfree sb (ip.addr ndirect).toNat
  let ip := { ip with addrs := fun _ => 0, size := 0 }
  iupdate sb inum ip
  return ip

/-- What the device functions of `devsw` return. -/
structure Devsw where
  read : Nat → Option (UInt32 → Option (List UInt8))
  write : Nat → Option (List UInt8 → Int)

def ndev : Nat := 10

/-- The entry of a table of devices for a major number. -/
def device {α : Type} (table : Nat → Option α) (major : Int16) : Option α :=
  if major < 0 ∨ (ndev : Int) ≤ major.toInt then none else table major.toInt.toNat

/-- The loop of readi(). Each round copies at least one byte, so that `n` is
enough fuel. -/
def readLoop : Nat → Dinode → Nat → Nat → Prog Disk (List UInt8 × Dinode)
  | 0, ip, _, _ => pure ([], ip)
  | fuel + 1, ip, off, n =>
    if n = 0 then pure ([], ip)
    else do
      let (b, ip) ← bmap sb ip (off / bsize)
      let d ← .get
      let m := min n (bsize - off % bsize)
      let (rest, ip) ← readLoop fuel ip (off + m) (n - m)
      return ((d.block b).slice (off % bsize) m ++ rest, ip)

/-- Read data from inode: what is copied to `dst`, or `none` for -1. -/
def readi (dev : Devsw) (ip : Dinode) (off n : UInt32) :
    Prog Disk (Option (List UInt8) × Dinode) :=
  if ip.type = tDev then
    match device dev.read ip.major with
    | none => return (none, ip)
    | some read => return (read n, ip)
  else if off > ip.size ∨ off + n < off then return (none, ip)
  else do
    let n := if off + n > ip.size then ip.size - off else n
    let (dst, ip) ← readLoop sb n.toNat ip off.toNat n.toNat
    return (some dst, ip)

/-- The loop of writei(). -/
def writeLoop : Nat → Dinode → Nat → List UInt8 → Prog Disk Dinode
  | 0, ip, _, _ => pure ip
  | fuel + 1, ip, off, src =>
    if src = [] then pure ip
    else do
      let (b, ip) ← bmap sb ip (off / bsize)
      let m := min src.length (bsize - off % bsize)
      .modify fun d => d.write b ((d.block b).splice (off % bsize) (src.take m))
      writeLoop fuel ip (off + m) (src.drop m)

/-- Write data to inode `inum`. -/
def writei (dev : Devsw) (inum : Nat) (ip : Dinode) (src : List UInt8) (off : UInt32) :
    Prog Disk (Int × Dinode) :=
  let n := UInt32.ofNat src.length
  if ip.type = tDev then
    match device dev.write ip.major with
    | none => return (-1, ip)
    | some write => return (write src, ip)
  else if off > ip.size ∨ off + n < off then return (-1, ip)
  else if (off + n).toNat > maxfile * bsize then return (-1, ip)
  else do
    let ip ← writeLoop sb src.length ip off.toNat src
    if 0 < n ∧ off + n > ip.size then
      let ip := { ip with size := off + n }
      iupdate sb inum ip
      return (n.toNat, ip)
    else return (n.toNat, ip)

end Xv6.Fs
