import Xv6.Fs.WellFormed

/-! readi() and writei() make each inode an array of bytes. -/

namespace Xv6.Fs
open Lib
variable {sb : Superblock} {d d' : Disk} {node : Nat → Dinode} {i : Nat} {ip ip' : Dinode}

/-! ## The other inodes -/

/-- An inode that grows has no block of another one. -/
theorem Held.ptr_ne_other (held : Held sb d node i ip) {j : Nat} (other : j ≠ i)
    (hj : j < sb.ninodes) (live : (node j).type ≠ 0) {q : Place} (nonzero : d.ptr (node j) q ≠ 0)
    (p : Place) : d.ptr ip p ≠ d.ptr (node j) q := by
  intro eq
  have mine := held.refers (p := p) (eq ▸ nonzero)
  have theirs : Refers sb d (Function.update node i ip) j q (d.ptr ip p) := by
    refine ⟨hj, ?_, ?_, eq ▸ nonzero⟩
    · rw [Function.update_of_ne other]; exact live
    · rw [Function.update_of_ne other]; exact eq.symm
  exact other (held.owned.unique _ _ _ _ _ theirs mine).1

/-- A block of another inode, which is therefore a data block. -/
theorem Held.other_area (held : Held sb d node i ip) {j : Nat} (other : j ≠ i)
    (hj : j < sb.ninodes) (live : (node j).type ≠ 0) {q : Place}
    (nonzero : d.ptr (node j) q ≠ 0) : sb.nmeta ≤ d.ptr (node j) q := by
  refine (held.owned.area j q _ ⟨hj, ?_, ?_, nonzero⟩).1
  · rw [Function.update_of_ne other]; exact live
  · rw [Function.update_of_ne other]

namespace Confined
variable (frame : Confined sb d d' ip') (held : Held sb d' node i ip') {j : Nat}
    (other : j ≠ i) (hj : j < sb.ninodes) (live : (node j).type ≠ 0)
include frame held other hj live

theorem ptr_other (p : Place) : d'.ptr (node j) p = d.ptr (node j) p := by
  apply ptr_congr
  intro nonzero
  apply frame
  · exact held.other_area other hj live (q := .indirect) nonzero
  · exact held.ptr_ne_other other hj live (q := .indirect) nonzero

theorem fileBlock_other {n : Nat} (used : d.ptr (node j) (.file n) ≠ 0) :
    d'.fileBlock (node j) n = d.fileBlock (node j) n := by
  have same := frame.ptr_other held other hj live (.file n)
  rw [← same] at used
  rw [Disk.fileBlock, Disk.fileBlock, ← same]
  apply frame
  · exact held.other_area other hj live used
  · exact held.ptr_ne_other other hj live used

theorem content_other {k : Nat} (shape : Shape d (node j) k)
    (size : (node j).size.toNat ≤ k * bsize) : d'.content (node j) = d.content (node j) := by
  apply List.map_congr_left
  intro x hx
  have lt : x / bsize < k := div_lt_of_lt_mul (Nat.lt_of_lt_of_le (List.mem_range.mp hx) size)
  have used := (shape.file _ (Nat.lt_of_lt_of_le lt shape.le)).mpr lt
  rw [Disk.byteAt, Disk.byteAt, frame.fileBlock_other held other hj live used]

end Confined

theorem length_content (d : Disk) (ip : Dinode) : (d.content ip).length = ip.size.toNat := by
  simp [Disk.content]

theorem le_blocksFor (n : Nat) : n ≤ blocksFor n * bsize :=
  (blocksFor_le_iff n _).mp (Nat.le_refl _)

/-! ## readi() -/

theorem readi_eq (dev : Devsw) (file : ip.type ≠ tDev)
    (shape : Shape d ip (blocksFor ip.size.toNat)) (off n : UInt32) :
    readi sb dev ip off n d =
      if ip.size.toNat < off.toNat ∨ 2 ^ 32 ≤ off.toNat + n.toNat then some ((none, ip), d)
      else some ((some ((d.content ip).extract off.toNat
        (min (off.toNat + n.toNat) ip.size.toNat)), ip), d) := by
  have bound := n.toNat_lt
  have past : off > ip.size ↔ ip.size.toNat < off.toNat := UInt32.lt_iff_toNat_lt
  have wraps : off + n < off ↔ 2 ^ 32 ≤ off.toNat + n.toNat := by
    rw [UInt32.lt_iff_toNat_lt, UInt32.toNat_add]
    omega
  rw [readi, if_neg file]
  simp only [past, wraps]
  split
  case isTrue => rfl
  case isFalse ok =>
    have clip : (if off + n > ip.size then ip.size - off else n).toNat =
        min (off.toNat + n.toNat) ip.size.toNat - off.toNat := by
      have sum : (off + n).toNat = off.toNat + n.toNat := by
        rw [UInt32.toNat_add]
        omega
      have more : off + n > ip.size ↔ ip.size.toNat < off.toNat + n.toNat := by
        rw [← sum]
        exact UInt32.lt_iff_toNat_lt
      simp only [more]
      split
      · rw [UInt32.toNat_sub_of_le _ _ (UInt32.le_iff_toNat_le.mpr (by omega))]
        omega
      · omega
    generalize (if off + n > ip.size then ip.size - off else n) = m at clip
    generalize stop_eq : min (off.toNat + n.toNat) ip.size.toNat = stop at clip
    have within : off.toNat + m.toNat ≤ blocksFor ip.size.toNat * bsize := by
      have := le_blocksFor ip.size.toNat
      omega
    apply Prog.bind_eq_some.mpr
    refine ⟨_, d, readLoop_eq (Nat.le_refl _) shape within, ?_⟩
    rw [Prog.pure_eq_some]
    refine ⟨?_, rfl⟩
    congr 2
    apply List.ext_getElem
    · simp [length_content, clip]
      omega
    · intro x hx hx'
      simp [Disk.content]

/-! ## writei() -/

/-- `src` spliced in at `off`, past the end if needed. -/
def spliced (c : List UInt8) (off : Nat) (src : List UInt8) : List UInt8 :=
  c.take off ++ src ++ c.drop (off + src.length)

/-- writei() refuses: the offset is past the end, the sum wraps, or the file
would be too long. -/
def Refused (ip : Dinode) (off n : Nat) : Prop :=
  ip.size.toNat < off ∨ 2 ^ 32 ≤ off + n ∨ maxfile * bsize < off + n

instance (ip : Dinode) (off n : Nat) : Decidable (Refused ip off n) :=
  inferInstanceAs (Decidable (_ ∨ _ ∨ _))

/-- How many blocks the file has when `n` bytes at `off` have been written. -/
def blocksAfter (ip : Dinode) (off n : Nat) : Nat :=
  max (blocksFor ip.size.toNat) (blocksFor (off + n))

/-- What writei() does to inode `i`, whose blocks were as its size called for. -/
structure Wrote (sb : Superblock) (d : Disk) (i : Nat) (ip : Dinode) (off : Nat)
    (src : List UInt8) (d' : Disk) (ip' : Dinode) : Prop where
  same : ip' = { ip with addrs := ip'.addrs, size := ip'.size }
  size : ip'.size.toNat = max ip.size.toNat (off + src.length)
  shape : Shape d' ip' (blocksFor ip'.size.toNat)
  content : d'.content ip' = spliced (d.content ip) off src
  frame : Confined sb d d' ip'
  stored : d'.dinode sb i = ip'
  nodes : ∀ j, j < sb.ninodes → j ≠ i → d'.dinode sb j = d.dinode sb j
  logged : ∃ l, d'.logged = d.logged ++ l ∧ ∀ x, x ∈ l ↔
    (∃ y, off ≤ y ∧ y < off + src.length ∧ x = d'.ptr ip' (.file (y / bsize))) ∨
    blocksFor ip.size.toNat < blocksAfter ip off src.length ∧
      (x = sb.bmapstart ∨ ndirect < blocksAfter ip off src.length ∧ x = d'.ptr ip' .indirect) ∨
    ip.size.toNat < off + src.length ∧ x = sb.iblock i

theorem content_congr {ip₁ ip₂ : Dinode} (size : ip₁.size = ip₂.size)
    (byte : ∀ x, x < ip₂.size.toNat → d.byteAt ip₁ x = d'.byteAt ip₂ x) :
    d.content ip₁ = d'.content ip₂ := by
  unfold Disk.content
  rw [size]
  apply List.map_congr_left
  intro x hx
  exact byte x (List.mem_range.mp hx)

/-- The contents after the loop, for the size that the file is given. -/
theorem Written.content {k k' off : Nat} {src : List UInt8} (h : Written sb d ip k off src d' ip' k')
    {size : UInt32} (old : ip.size.toNat ≤ k * bsize) (le : off ≤ ip.size.toNat)
    (new : size.toNat = max ip.size.toNat (off + src.length)) :
    d'.content { ip' with size := size } = spliced (d.content ip) off src := by
  have within := h.within
  have grows := Nat.mul_le_mul_right bsize h.le
  have length := length_content d ip
  apply List.ext_getElem
  · simp only [length_content, spliced, List.length_append, List.length_take, List.length_drop]
    omega
  · intro x hx hx'
    rw [length_content] at hx
    change x < size.toNat at hx
    have byte := h.bytes x (by omega)
    have same : d'.byteAt { ip' with size := size } x = d'.byteAt ip' x := rfl
    simp only [Disk.content, List.getElem_map, List.getElem_range, same, byte, spliced]
    by_cases before : x < off
    · rw [if_neg (by omega), if_pos (by omega)]
      rw [List.getElem_append_left (by simp; omega), List.getElem_append_left (by simp; omega)]
      simp
    · by_cases inside : x < off + src.length
      · rw [if_pos (by omega)]
        rw [List.getElem_append_left (by simp; omega), List.getElem_append_right (by simp; omega)]
        rw [List.getD_eq_getElem _ _ (by omega)]
        congr 1
        simp
        omega
      · rw [if_neg (by omega), if_pos (by omega)]
        rw [List.getElem_append_right (by simp; omega)]
        simp
        congr 1
        omega

/-- Whether the size grows is whether the file reaches past its end. -/
theorem writei_cases (dev : Devsw) (file : ip.type ≠ tDev) {off : UInt32} {src : List UInt8}
    (short : src.length < 2 ^ 32) (ok : ¬ Refused ip off.toNat src.length) {r : Int}
    (h : writei sb dev i ip src off d = some ((r, ip'), d')) :
    r = src.length ∧ ∃ ip₁ d₁, writeLoop sb src.length ip off.toNat src d = some (ip₁, d₁) ∧
      ((0 < src.length ∧ ip₁.size.toNat < off.toNat + src.length ∧
          ip' = { ip₁ with size := off + .ofNat src.length } ∧ d' = d₁.setDinode sb i ip') ∨
        (¬ (0 < src.length ∧ ip₁.size.toNat < off.toNat + src.length) ∧ ip' = ip₁ ∧ d' = d₁)) := by
  unfold Refused at ok
  have length : (UInt32.ofNat src.length).toNat = src.length := by
    rw [UInt32.toNat_ofNat']
    omega
  have sum : (off + .ofNat src.length).toNat = off.toNat + src.length := by
    rw [UInt32.toNat_add, length]
    omega
  have past : ¬ (off > ip.size ∨ off + .ofNat src.length < off) := by
    rw [gt_iff_lt, UInt32.lt_iff_toNat_lt, UInt32.lt_iff_toNat_lt, sum]
    omega
  have fits : ¬ (off + .ofNat src.length).toNat > maxfile * bsize := by
    rw [sum]
    omega
  simp only [writei, file, past, fits, ↓reduceIte] at h
  obtain ⟨ip₁, d₁, loop, h⟩ := Prog.bind_eq_some.mp h
  have grows : (0 < UInt32.ofNat src.length ∧ off + .ofNat src.length > ip₁.size) ↔
      (0 < src.length ∧ ip₁.size.toNat < off.toNat + src.length) := by
    rw [gt_iff_lt, UInt32.lt_iff_toNat_lt, UInt32.lt_iff_toNat_lt, sum, length]
    rfl
  simp only [grows, length] at h
  split at h
  case isTrue more =>
    obtain ⟨_, d₂, updated, h⟩ := Prog.bind_eq_some.mp h
    obtain ⟨eq, rfl⟩ := Prog.pure_eq_some.mp h
    obtain ⟨rfl, rfl⟩ := Prod.mk.inj eq
    refine ⟨rfl, ip₁, d₁, loop, .inl ⟨more.1, more.2, rfl, ?_⟩⟩
    exact (Prog.modify_eq_some.mp updated).symm
  case isFalse same =>
    obtain ⟨eq, rfl⟩ := Prog.pure_eq_some.mp h
    obtain ⟨rfl, rfl⟩ := Prod.mk.inj eq
    exact ⟨rfl, ip₁, d₁, loop, .inr ⟨same, rfl, rfl⟩⟩

theorem ptr_of_addrs (same : ip'.addrs = ip.addrs) (p : Place) : d.ptr ip' p = d.ptr ip p := by
  have addr (n : Nat) : ip'.addr n = ip.addr n := by rw [Dinode.addr, Dinode.addr, same]
  cases p with
  | file n => simp only [Disk.ptr, addr]
  | indirect => simp only [Disk.ptr, addr]

/-- Writing an inode to disk leaves the places of all inodes as they are. -/
theorem Owned.ptr_setDinode (sound : sb.Sound) (owned : Owned sb d node) (hi : i < sb.ninodes)
    (v : Dinode) {j : Nat} (hj : j < sb.ninodes) (live : (node j).type ≠ 0) (p : Place) :
    (d.setDinode sb i v).ptr (node j) p = d.ptr (node j) p := by
  apply ptr_congr
  intro nonzero
  apply Disk.block_setDinode sound hi
  exact (owned.area j .indirect _ ⟨hj, live, rfl, nonzero⟩).1

/-- iupdate() of an inode whose addresses are those it had. -/
theorem Held.setDinode (sound : sb.Sound) (held : Held sb d node i ip)
    (addrs : ip'.addrs = ip.addrs) (type : ip'.type = ip.type) :
    Held sb (d.setDinode sb i ip') node i ip' := by
  have owned : Owned sb (d.setDinode sb i ip') (Function.update node i ip) := by
    apply held.owned.congr
    · intro b hb
      exact Disk.used_setDinode sound held.bound hb ip'
    · intro j hj live p
      exact held.owned.ptr_setDinode sound held.bound ip' hj live p
  refine ⟨owned.of_refers (fun _ _ => rfl) ?_, held.bound, type ▸ held.live⟩
  intro j p b
  by_cases here : j = i
  · subst here
    simp only [Refers, Function.update_self, type, ptr_of_addrs addrs]
  · simp only [Refers, Function.update_of_ne here]

theorem Held.ptr_setDinode (sound : sb.Sound) (held : Held sb d node i ip) (v : Dinode)
    (p : Place) : (d.setDinode sb i v).ptr ip p = d.ptr ip p := by
  have same := held.owned.ptr_setDinode sound held.bound v held.bound
    (by simpa using held.live) p
  simpa using same

/-- A file that has been given no block is the same inode. -/
theorem Extends.eq_of_shape {k : Nat} (grown : Extends sb d ip d' ip') (shape : Shape d ip k)
    (shape' : Shape d' ip' k) : ip' = ip := by
  have addrs : ip'.addrs = ip.addrs := by
    funext j
    have hj := j.isLt
    apply UInt32.toNat.inj
    by_cases direct : j.val < ndirect
    · have place (e : Disk) (q : Dinode) : (q.addrs j).toNat = e.ptr q (.file j.val) := by
        simp [Disk.ptr, direct, Dinode.addr, hj]
      have small : j.val < maxfile := Nat.lt_of_lt_of_le direct (by decide)
      rw [place d' ip', place d ip]
      by_cases used : j.val < k
      · exact grown.keep _ ((shape.file _ small).mpr used)
      · have zero := (shape.file _ small).not.mpr used
        have zero' := (shape'.file _ small).not.mpr used
        omega
    · have last : j.val = ndirect := by omega
      have place (e : Disk) (q : Dinode) : (q.addrs j).toNat = e.ptr q .indirect := by
        simp [Disk.ptr, Dinode.addr, ← last]
      rw [place d' ip', place d ip]
      by_cases used : ndirect < k
      · exact grown.keep _ (shape.indirect.mpr used)
      · have zero := shape.indirect.not.mpr used
        have zero' := shape'.indirect.not.mpr used
        omega
  rw [grown.same, addrs]

/-- iupdate() of an inode after the loop of writei(). -/
theorem Wrote.of_grown (sound : sb.Sound) {off : UInt32} {src : List UInt8}
    (old : ip.size.toNat ≤ blocksFor ip.size.toNat * bsize) (le : off.toNat ≤ ip.size.toNat)
    {size : UInt32} (eq : size.toNat = off.toNat + src.length)
    (more : ip.size.toNat < off.toNat + src.length) {d₁ : Disk} {ip₁ : Dinode}
    (held : Held sb d₁ node i ip₁) (written : Written sb d ip (blocksFor ip.size.toNat) off.toNat
      src d₁ ip₁ (blocksAfter ip off.toNat src.length)) :
    Wrote sb d i ip off.toNat src (d₁.setDinode sb i { ip₁ with size := size })
      { ip₁ with size := size } := by
  have ptr (p : Place) : (d₁.setDinode sb i { ip₁ with size := size }).ptr
      { ip₁ with size := size } p = d₁.ptr ip₁ p :=
    (ptr_of_addrs rfl p).trans (held.ptr_setDinode sound _ p)
  have new : size.toNat = max ip.size.toNat (off.toNat + src.length) := by omega
  have blocks : blocksAfter ip off.toNat src.length = blocksFor size.toNat := by
    rw [blocksAfter, eq, Nat.max_eq_right]
    apply (blocksFor_le_iff _ _).mpr
    exact Nat.le_of_lt (Nat.lt_of_lt_of_le more (le_blocksFor _))
  have block (x : Nat) (hx : sb.nmeta ≤ x) :
      (d₁.setDinode sb i { ip₁ with size := size }).block x = d₁.block x :=
    Disk.block_setDinode sound held.bound hx _
  constructor
  case same => rw [written.grown.same]
  case size => exact new
  case shape =>
    change Shape _ _ (blocksFor size.toNat)
    rw [← blocks]
    exact written.shape.congr ptr
  case content =>
    rw [← written.content old le new]
    apply content_congr rfl
    intro x hx
    change x < size.toNat at hx
    have lt : x / bsize < blocksAfter ip off.toNat src.length := by
      rw [blocks]
      exact div_lt_of_lt_mul (Nat.lt_of_lt_of_le hx (le_blocksFor _))
    have used := (written.shape.file _ (Nat.lt_of_lt_of_le lt written.shape.le)).mpr lt
    have there : d₁.fileBlock { ip₁ with size := size } (x / bsize) =
        d₁.fileBlock ip₁ (x / bsize) :=
      congrArg d₁.block (ptr_of_addrs rfl _)
    rw [Disk.byteAt, Disk.byteAt, there, Disk.fileBlock, ptr, block _ (held.ptr_area used).1,
      Disk.fileBlock]
  case frame =>
    intro x hx free
    rw [block x hx]
    apply written.grown.frame x hx
    intro p
    rw [← ptr p]
    exact free p
  case stored => rw [Disk.dinode_setDinode, if_pos rfl]
  case nodes =>
    intro j hj other
    rw [Disk.dinode_setDinode, if_neg other]
    exact written.grown.nodes j hj
  case logged =>
    obtain ⟨l, logged, mem⟩ := written.logged
    refine ⟨l ++ [sb.iblock i], ?_, fun x => ?_⟩
    · rw [Disk.setDinode, Disk.logged_write, logged, List.append_assoc]
    · rw [List.mem_append, mem, List.mem_singleton]
      simp only [ptr, more, true_and, or_assoc]

theorem writei_spec (sound : sb.Sound) (dev : Devsw) (held : Held sb d node i ip)
    (file : ip.type ≠ tDev) (shape : Shape d ip (blocksFor ip.size.toNat))
    (stored : d.dinode sb i = ip) {off : UInt32} {src : List UInt8} (short : src.length < 2 ^ 32)
    (ok : ¬ Refused ip off.toNat src.length) {r : Int}
    (h : writei sb dev i ip src off d = some ((r, ip'), d')) :
    r = src.length ∧ Held sb d' node i ip' ∧ Wrote sb d i ip off.toNat src d' ip' := by
  have bounds : off.toNat ≤ ip.size.toNat ∧ off.toNat + src.length ≤ maxfile * bsize ∧
      off.toNat + src.length < 2 ^ 32 := by
    unfold Refused at ok
    omega
  have old := le_blocksFor ip.size.toNat
  obtain ⟨rfl, ip₁, d₁, loop, ends⟩ := writei_cases dev file short ok h
  obtain ⟨held₁, written⟩ := writeLoop_spec sound (Nat.le_refl _) held shape
    (Nat.le_trans bounds.1 old) bounds.2.1 loop
  have size : ip₁.size = ip.size := by rw [written.grown.same]
  refine ⟨rfl, ?_⟩
  obtain ⟨_, more, rfl, rfl⟩ | ⟨same, rfl, rfl⟩ := ends
  · have sum : (off + .ofNat src.length).toNat = off.toNat + src.length := by
      rw [UInt32.toNat_add, UInt32.toNat_ofNat']
      omega
    rw [size] at more
    refine ⟨held₁.setDinode sound rfl rfl, ?_⟩
    exact .of_grown sound old bounds.1 sum more held₁ written
  · rw [size] at same
    refine ⟨held₁, ?_⟩
    have within : off.toNat + src.length ≤ ip.size.toNat := by omega
    have blocks : blocksAfter ip off.toNat src.length = blocksFor ip.size.toNat := by
      apply Nat.max_eq_left
      apply (blocksFor_le_iff _ _).mpr
      exact Nat.le_trans within old
    change Written sb d ip _ _ _ _ _ (blocksAfter ip off.toNat src.length) at written
    have shape' := written.shape
    rw [blocks] at shape'
    obtain rfl := written.grown.eq_of_shape shape shape'
    constructor
    case same => rfl
    case size => omega
    case shape => exact shape'
    case content =>
      have new : ip'.size.toNat = max ip'.size.toNat (off.toNat + src.length) := by omega
      exact written.content old bounds.1 new
    case frame => exact written.grown.frame
    case stored => rw [written.grown.nodes i held.bound, stored]
    case nodes => exact fun j hj _ => written.grown.nodes j hj
    case logged =>
      obtain ⟨l, logged, mem⟩ := written.logged
      have no : ¬ ip'.size.toNat < off.toNat + src.length := by omega
      refine ⟨l, logged, fun x => ?_⟩
      simp only [mem, no, false_and, or_false]

theorem writei_refused (dev : Devsw) (file : ip.type ≠ tDev) {off : UInt32} {src : List UInt8}
    (short : src.length < 2 ^ 32) (refused : Refused ip off.toNat src.length) :
    writei sb dev i ip src off d = some ((-1, ip), d) := by
  have length : (UInt32.ofNat src.length).toNat = src.length := by
    rw [UInt32.toNat_ofNat']
    omega
  have past : (off > ip.size ∨ off + .ofNat src.length < off) ↔
      (ip.size.toNat < off.toNat ∨ 2 ^ 32 ≤ off.toNat + src.length) := by
    rw [gt_iff_lt, UInt32.lt_iff_toNat_lt, UInt32.lt_iff_toNat_lt, UInt32.toNat_add, length]
    omega
  simp only [writei, file, ↓reduceIte, past]
  by_cases first : ip.size.toNat < off.toNat ∨ 2 ^ 32 ≤ off.toNat + src.length
  · rw [if_pos first]
    rfl
  · have fits : (off + .ofNat src.length).toNat > maxfile * bsize := by
      rw [UInt32.toNat_add, length]
      unfold Refused at refused
      omega
    rw [if_neg first, if_pos fits]
    rfl

theorem writei_returns (sound : sb.Sound) (dev : Devsw) (held : Held sb d node i ip)
    (shape : Shape d ip (blocksFor ip.size.toNat)) {off : UInt32} {src : List UInt8}
    (ok : ¬ Refused ip off.toNat src.length)
    (enough : growth (blocksFor ip.size.toNat) (blocksAfter ip off.toNat src.length) ≤ d.free sb) :
    (writei sb dev i ip src off).Returns d := by
  have bounds : off.toNat ≤ ip.size.toNat ∧ off.toNat + src.length ≤ maxfile * bsize := by
    unfold Refused at ok
    omega
  unfold writei
  dsimp only
  split
  case isTrue =>
    split
    · exact .pure _ _
    · exact .pure _ _
  case isFalse =>
    split
    case isTrue => exact .pure _ _
    case isFalse =>
      split
      case isTrue => exact .pure _ _
      case isFalse =>
        have loop : (writeLoop sb src.length ip off.toNat src).Returns d :=
          writeLoop_returns sound held shape (Nat.le_trans bounds.1 (le_blocksFor _)) bounds.2 enough
        apply loop.bind
        intro ip₁ d₁ _
        split
        · exact (Prog.Returns.modify _ d₁).bind fun _ _ _ => .pure _ _
        · exact .pure _ _

/-! ## Files are byte arrays -/

namespace Wrote
variable {off : Nat} {src : List UInt8} (wrote : Wrote sb d i ip off src d' ip')
    (held : Held sb d' (d.dinode sb) i ip') {j : Nat}
include wrote held

/-- Every other file has the contents it had. -/
theorem content_other (wf : WellFormed sb d) (other : j ≠ i) (hj : j < sb.ninodes)
    (live : (d.dinode sb j).type ≠ 0) :
    d'.content (d'.dinode sb j) = d.content (d.dinode sb j) := by
  rw [wrote.nodes j hj other]
  exact wrote.frame.content_other held other hj live (wf.shape j hj live) (le_blocksFor _)

theorem wellFormed (wf : WellFormed sb d) : WellFormed sb d' := by
  have nodes (j : Nat) (hj : j < sb.ninodes) :
      d'.dinode sb j = Function.update (d.dinode sb) i ip' j := by
    by_cases here : j = i
    · rw [here, Function.update_self, wrote.stored]
    · rw [Function.update_of_ne here, wrote.nodes j hj here]
  refine ⟨held.owned.congr_node nodes, ?_⟩
  intro j hj live
  by_cases here : j = i
  · rw [here, wrote.stored]
    exact wrote.shape
  · rw [wrote.nodes j hj here] at live ⊢
    exact (wf.shape j hj live).congr (wrote.frame.ptr_other held here hj live)

end Wrote

end Xv6.Fs
