import Xv6.Fs.Files

/-! Writing an inode to disk: the blocks of all files stay as they are, as long as
the inode has the same blocks as before. -/

namespace Xv6.Fs
open Lib
variable {sb : Superblock} {d : Disk} {i j : Nat} {v : Dinode}

/-- An inode with no blocks. -/
def Dinode.Empty (ip : Dinode) : Prop := (∀ n, ip.addrs n = 0) ∧ ip.size = 0

theorem Dinode.Empty.ptr {ip : Dinode} (empty : ip.Empty) (d : Disk) (p : Place) : d.ptr ip p = 0 := by
  have addr (n : Nat) : ip.addr n = 0 := by
    rw [Dinode.addr]
    split
    · exact empty.1 _
    · rfl
  cases p with
  | indirect =>
    rw [Disk.ptr, addr]
    rfl
  | file n =>
    rw [Disk.ptr, addr, addr]
    split <;> rfl

theorem Dinode.Empty.shape {ip : Dinode} (empty : ip.Empty) (d : Disk) :
    Shape d ip (blocksFor ip.size.toNat) := by
  have none : blocksFor ip.size.toNat = 0 := by
    rw [empty.2]
    decide
  rw [none]
  refine ⟨Nat.zero_le _, fun n _ => ?_, ?_⟩
  · rw [empty.ptr]
    exact ⟨fun h => absurd rfl h, fun less => absurd less (Nat.not_lt_zero _)⟩
  · rw [empty.ptr]
    exact ⟨fun h => absurd rfl h, fun less => absurd less (Nat.not_lt_zero _)⟩

theorem Dinode.Empty.content {ip : Dinode} (empty : ip.Empty) (d : Disk) : d.content ip = [] := by
  rw [Disk.content, empty.2]
  rfl

theorem content_of_addrs {ip : Dinode} (addrs : v.addrs = ip.addrs) (size : v.size = ip.size) :
    d.content v = d.content ip := by
  apply content_congr size
  intro x _
  rw [Disk.byteAt, Disk.byteAt, Disk.fileBlock, Disk.fileBlock, ptr_of_addrs addrs]

namespace WellFormed
variable (sound : sb.Sound) (wf : WellFormed sb d) (hi : i < sb.ninodes)
include sound wf hi

theorem ptr_setDinode (v : Dinode) (hj : j < sb.ninodes) (live : (d.dinode sb j).type ≠ 0)
    (p : Place) : (d.setDinode sb i v).ptr (d.dinode sb j) p = d.ptr (d.dinode sb j) p :=
  wf.owned.ptr_setDinode sound hi v hj live p

/-- The contents of a file as it was on disk. -/
theorem content_setDinode (v : Dinode) (hj : j < sb.ninodes) (live : (d.dinode sb j).type ≠ 0) :
    (d.setDinode sb i v).content (d.dinode sb j) = d.content (d.dinode sb j) := by
  have shape := wf.shape j hj live
  apply List.map_congr_left
  intro x hx
  have lt : x / bsize < blocksFor (d.dinode sb j).size.toNat :=
    div_lt_of_lt_mul (Nat.lt_of_lt_of_le (List.mem_range.mp hx) (le_blocksFor _))
  have used := (shape.file _ (Nat.lt_of_lt_of_le lt shape.le)).mpr lt
  have area := (wf.held hj live).ptr_area used
  rw [Disk.byteAt, Disk.byteAt, Disk.fileBlock, wf.ptr_setDinode sound hi v hj live,
    Disk.block_setDinode sound hi area.1]
  rfl

/-- Who refers to which block does not change. -/
theorem setDinode (refers : ∀ p b, b ≠ 0 →
      (v.type ≠ 0 ∧ (d.setDinode sb i v).ptr v p = b ↔
        (d.dinode sb i).type ≠ 0 ∧ d.ptr (d.dinode sb i) p = b))
    (shape : v.type ≠ 0 → Shape (d.setDinode sb i v) v (blocksFor v.size.toNat)) :
    WellFormed sb (d.setDinode sb i v) := by
  have node (j : Nat) := @Disk.dinode_setDinode sb d i j v
  constructor
  · apply wf.owned.of_refers fun b hb => Disk.used_setDinode sound hi hb _
    intro j p b
    unfold Refers
    apply and_congr_right
    intro hj
    rw [node, ← and_assoc, ← and_assoc]
    apply and_congr_left
    intro nonzero
    by_cases here : j = i
    · rw [if_pos here, here]
      exact refers p b nonzero
    · rw [if_neg here]
      apply and_congr_right
      intro live
      rw [wf.ptr_setDinode sound hi v hj live]
  · intro j hj live
    rw [node] at live ⊢
    by_cases here : j = i
    · rw [if_pos here] at live ⊢
      exact shape live
    · rw [if_neg here] at live ⊢
      exact (wf.shape j hj live).congr (wf.ptr_setDinode sound hi v hj live)

/-- An inode without blocks, in use or not, becomes one that is in use or not. -/
theorem setDinode_empty (old : (d.dinode sb i).type = 0 ∨ (d.dinode sb i).Empty) (new : v.Empty) :
    WellFormed sb (d.setDinode sb i v) := by
  refine wf.setDinode sound hi (fun p b nonzero => ?_) fun _ => new.shape _
  constructor
  · rintro ⟨_, eq⟩
    exact absurd ((new.ptr _ p).symm.trans eq).symm nonzero
  · rintro ⟨live, eq⟩
    obtain free | empty := old
    · exact absurd free live
    · exact absurd ((empty.ptr _ p).symm.trans eq).symm nonzero

/-- iupdate() of an inode that has kept its type and its blocks. -/
theorem setDinode_same (type : v.type = (d.dinode sb i).type) (live : v.type ≠ 0)
    (addrs : v.addrs = (d.dinode sb i).addrs) (size : v.size = (d.dinode sb i).size) :
    WellFormed sb (d.setDinode sb i v) := by
  have live' : (d.dinode sb i).type ≠ 0 := type ▸ live
  have ptr (p : Place) : (d.setDinode sb i v).ptr v p = d.ptr (d.dinode sb i) p :=
    (ptr_of_addrs addrs p).trans (wf.ptr_setDinode sound hi v hi live' p)
  refine wf.setDinode sound hi (fun p b _ => ?_) fun _ => ?_
  · rw [type, ptr]
  · rw [size]
    exact (wf.shape i hi live').congr ptr

/-- All files have the contents that they had. -/
theorem contents_setDinode (addrs : v.addrs = (d.dinode sb i).addrs)
    (size : v.size = (d.dinode sb i).size) (hj : j < sb.ninodes)
    (live : (d.dinode sb j).type ≠ 0) :
    (d.setDinode sb i v).content ((d.setDinode sb i v).dinode sb j) = d.content (d.dinode sb j) := by
  rw [← wf.content_setDinode sound hi v hj live, Disk.dinode_setDinode]
  by_cases here : j = i
  · rw [if_pos here, here]
    exact content_of_addrs addrs size
  · rw [if_neg here]

end WellFormed

end Xv6.Fs
