import Xv6.Fs.Mounted

/-! The blocks of the image that mkfs writes. The size of the root directory is rounded up
last, and by one block too many if its entries fill whole blocks. -/

namespace Xv6.Mkfs
open Lib Fs

/-- What the kernel relies on: each inode in use has a block for every part of its size,
no block is used twice, and the bit map says which are in use. Reading then takes no
block. -/
structure Complete (d : Disk) : Prop where
  owned : Owned mkfs d (d.dinode mkfs)
  covered : ∀ i, i < mkfs.ninodes → (d.dinode mkfs i).type ≠ 0 →
    ∀ n, n < blocksFor (d.dinode mkfs i).size.toNat → d.ptr (d.dinode mkfs i) (.file n) ≠ 0
  reads : ∀ dev i, i < mkfs.ninodes → (d.dinode mkfs i).type ≠ 0 →
    ∀ off n, ∃ r, readi mkfs dev (d.dinode mkfs i) off n d = some ((r, d.dinode mkfs i), d)

section
variable {img : Image} {d : Disk} {es : List Dirent} {cs : List (List UInt8)}

end

end Xv6.Mkfs
