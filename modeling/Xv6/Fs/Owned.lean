import Mathlib.Data.Finset.Card
import Mathlib.Data.Finset.Range
import Xv6.Fs.Inode

/-! Who refers to which block. Ownership is stated for a disk and the inodes as
they are in memory, which may be ahead of the disk. -/

namespace Xv6.Fs
open Lib

/-- The places of an inode that can hold a block number: one for each block of
the file and one for the indirect block. -/
inductive Place where
  | file (n : Nat)
  | indirect
  deriving DecidableEq, Repr

/-- The block number at a place, 0 if there is none. -/
def Disk.ptr (d : Disk) (ip : Dinode) : Place → Nat
  | .file n =>
    if n < ndirect then (ip.addr n).toNat
    else if ip.addr ndirect = 0 then 0
    else ((d.block (ip.addr ndirect).toNat).word (n - ndirect)).toNat
  | .indirect => (ip.addr ndirect).toNat

variable (sb : Superblock)

/-- Inode `i` is in use and its place `p` holds block `b`. -/
def Refers (d : Disk) (node : Nat → Dinode) (i : Nat) (p : Place) (b : Nat) : Prop :=
  i < sb.ninodes ∧ (node i).type ≠ 0 ∧ d.ptr (node i) p = b ∧ b ≠ 0

/-- The bit map marks the metadata and what inodes refer to; no block is
referred to twice. -/
structure Owned (d : Disk) (node : Nat → Dinode) : Prop where
  area : ∀ i p b, Refers sb d node i p b → sb.nmeta ≤ b ∧ b < sb.size
  unique : ∀ i p j q b, Refers sb d node i p b → Refers sb d node j q b → i = j ∧ p = q
  used : ∀ b, b < sb.size →
    (d.used sb b = true ↔ b < sb.nmeta ∨ ∃ i p, Refers sb d node i p b)

/-- Inode `i` is in use and is `ip` in memory. -/
structure Held (d : Disk) (node : Nat → Dinode) (i : Nat) (ip : Dinode) : Prop where
  owned : Owned sb d (Function.update node i ip)
  bound : i < sb.ninodes
  live : ip.type ≠ 0

/-- The first `k` blocks of the file have been allocated, and the indirect
block when one of them needs it. -/
structure Shape (d : Disk) (ip : Dinode) (k : Nat) : Prop where
  le : k ≤ maxfile
  file : ∀ n, n < maxfile → (d.ptr ip (.file n) ≠ 0 ↔ n < k)
  indirect : d.ptr ip .indirect ≠ 0 ↔ ndirect < k

variable {sb} {d d' : Disk} {node : Nat → Dinode} {i : Nat} {ip ip' : Dinode}

theorem toNat_ofNat_block (sound : sb.Sound) {b : Nat} (h : b < sb.size) :
    (UInt32.ofNat b).toNat = b := by
  have small := sound.disk
  simp only [fsSize] at small
  rw [UInt32.toNat_ofNat']
  omega

/-- The places depend on the inode and, for an inode that has one, on its
indirect block. -/
theorem ptr_congr (same : d.ptr ip .indirect ≠ 0 →
    d'.block (d.ptr ip .indirect) = d.block (d.ptr ip .indirect)) (p : Place) :
    d'.ptr ip p = d.ptr ip p := by
  cases p with
  | indirect => rfl
  | file n =>
    unfold Disk.ptr at same ⊢
    by_cases direct : n < ndirect
    · simp only [direct, ↓reduceIte]
    · by_cases none : ip.addr ndirect = 0
      · simp only [direct, none, ↓reduceIte]
      · have used : (ip.addr ndirect).toNat ≠ 0 := by
          intro zero
          exact none (UInt32.toNat.inj zero)
        simp only [direct, none, ↓reduceIte]
        rw [same used]

/-! ## balloc() -/

/-- What balloc() does: block `b` was free, and is marked and cleared. -/
structure Allocated (sb : Superblock) (d : Disk) (b : Nat) (d' : Disk) : Prop where
  bound : b < sb.size
  data : sb.nmeta ≤ b
  fresh : d.used sb b = false
  used : ∀ c, c < sb.size → d'.used sb c = if c = b then true else d.used sb c
  zero : d'.block b = Bytes.zero
  others : ∀ x, sb.nmeta ≤ x → x ≠ b → d'.block x = d.block x
  nodes : ∀ j, j < sb.ninodes → d'.dinode sb j = d.dinode sb j
  logged : d'.logged = d.logged ++ [sb.bmapstart, b]

theorem balloc_spec (sound : sb.Sound) (owned : Owned sb d node) {b : Nat}
    (h : balloc sb d = some (b, d')) : Allocated sb d b d' := by
  obtain ⟨_, _, got, h⟩ := Prog.bind_eq_some.mp h
  obtain ⟨rfl, rfl⟩ := Prog.get_eq_some.mp got
  cases found : (List.range sb.size).find? fun b => !d.used sb b with
  | none => simp [found] at h
  | some c =>
    simp only [found] at h
    obtain ⟨_, _, marked, h⟩ := Prog.bind_eq_some.mp h
    obtain ⟨_, _, zeroed, h⟩ := Prog.bind_eq_some.mp h
    obtain ⟨rfl, rfl⟩ := Prog.pure_eq_some.mp h
    rw [Prog.modify_eq_some] at marked
    subst marked
    rw [bzero, logWrite, Prog.modify_eq_some] at zeroed
    subst zeroed
    have bound : c < sb.size := List.mem_range.mp (List.mem_of_find?_eq_some found)
    have fresh : d.used sb c = false := by simpa using List.find?_some found
    have data : sb.nmeta ≤ c := by
      by_contra less
      have used := (owned.used c bound).mpr (.inl (by omega))
      simp [fresh] at used
    constructor
    case bound => exact bound
    case data => exact data
    case fresh => exact fresh
    case used =>
      intro x hx
      rw [Disk.used_write_data sound data hx, Disk.used_mark sound bound hx]
    case zero => exact Disk.write_self _ _ _
    case others =>
      intro x hx other
      rw [Disk.write_of_ne _ other]
      exact Disk.block_write_bitmap sound bound hx _
    case nodes =>
      intro j hj
      rw [Disk.dinode_write_data sound data hj]
      exact Disk.dinode_write_bitmap sound bound hj _
    case logged =>
      rw [Disk.logged_write]
      simp [Disk.mark, sound.bblock bound]

/-- How many blocks are free. -/
def Disk.free (sb : Superblock) (d : Disk) : Nat :=
  ((Finset.range sb.size).filter fun b => d.used sb b = false).card

theorem free_of_used {b : Nat} (bound : b < sb.size) (fresh : d.used sb b = false)
    (used : ∀ c, c < sb.size → d'.used sb c = if c = b then true else d.used sb c) :
    d'.free sb + 1 = d.free sb := by
  have fewer : ((Finset.range sb.size).filter fun c => d'.used sb c = false) =
      ((Finset.range sb.size).filter fun c => d.used sb c = false).erase b := by
    ext c
    simp only [Finset.mem_filter, Finset.mem_range, Finset.mem_erase]
    constructor
    · rintro ⟨hc, free⟩
      rw [used c hc] at free
      by_cases here : c = b
      · simp [here] at free
      · rw [if_neg here] at free
        exact ⟨here, hc, free⟩
    · rintro ⟨here, hc, free⟩
      rw [used c hc, if_neg here]
      exact ⟨hc, free⟩
  unfold Disk.free
  rw [fewer]
  exact Finset.card_erase_add_one (by simp [bound, fresh])

/-- balloc() returns as long as there is a free block. -/
theorem balloc_returns (h : 0 < d.free sb) : (balloc sb).Returns d := by
  obtain ⟨b, mem⟩ := Finset.card_pos.mp h
  simp only [Finset.mem_filter, Finset.mem_range] at mem
  have found : ((List.range sb.size).find? fun b => !d.used sb b).isSome := by
    rw [List.find?_isSome]
    exact ⟨b, List.mem_range.mpr mem.1, by simp [mem.2]⟩
  obtain ⟨c, hc⟩ := Option.isSome_iff_exists.mp found
  refine ⟨c, (d.mark sb c).write c Bytes.zero, ?_⟩
  apply Prog.bind_eq_some.mpr
  refine ⟨d, d, rfl, ?_⟩
  rw [hc]
  rfl

/-! ## An inode that is given a block -/

/-- Inode `i` has been given block `b` at place `p`. -/
structure Gains (sb : Superblock) (d : Disk) (ip : Dinode) (p : Place) (b : Nat) (d' : Disk)
    (ip' : Dinode) : Prop where
  bound : b < sb.size
  data : sb.nmeta ≤ b
  fresh : d.used sb b = false
  used : ∀ c, c < sb.size → d'.used sb c = if c = b then true else d.used sb c
  empty : d.ptr ip p = 0
  ptr : ∀ q, d'.ptr ip' q = if q = p then b else d.ptr ip q
  others : ∀ x, sb.nmeta ≤ x → x ≠ b → x ≠ d.ptr ip .indirect → d'.block x = d.block x
  nodes : ∀ j, j < sb.ninodes → d'.dinode sb j = d.dinode sb j
  same : ip' = { ip with addrs := ip'.addrs }

namespace Gains
variable {p : Place} {b : Nat}

theorem block_ne_zero (gains : Gains sb d ip p b d' ip') : b ≠ 0 := by
  have data := gains.data
  have := sb.nmeta_pos
  omega

theorem free (gains : Gains sb d ip p b d' ip') : d'.free sb + 1 = d.free sb :=
  free_of_used gains.bound gains.fresh gains.used

/-- The references of inode `i` before and after. -/
theorem refers_self (gains : Gains sb d ip p b d' ip') (held : Held sb d node i ip)
    (q : Place) (c : Nat) :
    Refers sb d' (Function.update node i ip') i q c ↔
      Refers sb d (Function.update node i ip) i q c ∨ (q = p ∧ c = b) := by
  have live' : ip'.type ≠ 0 := by rw [gains.same]; exact held.live
  simp only [Refers, Function.update_self, held.bound, held.live, live', true_and, ne_eq,
    not_false_eq_true]
  rw [gains.ptr q]
  by_cases here : q = p
  · subst here
    have empty := gains.empty
    have nonzero := gains.block_ne_zero
    simp only [↓reduceIte, true_and]
    constructor
    · rintro ⟨rfl, _⟩
      exact .inr rfl
    · rintro (⟨old, new⟩ | rfl)
      · exact absurd (old.symm.trans empty) new
      · exact ⟨rfl, nonzero⟩
  · simp only [here, ↓reduceIte, false_and, or_false]

/-- No other inode notices. -/
theorem ptr_other (gains : Gains sb d ip p b d' ip') (held : Held sb d node i ip) {j : Nat}
    (other : j ≠ i) (hj : j < sb.ninodes) (used : (node j).type ≠ 0) (q : Place) :
    d'.ptr (node j) q = d.ptr (node j) q := by
  apply ptr_congr
  intro nonzero
  have refers : Refers sb d (Function.update node i ip) j .indirect (d.ptr (node j) .indirect) := by
    refine ⟨hj, ?_, ?_, nonzero⟩
    · rw [Function.update_of_ne other]; exact used
    · rw [Function.update_of_ne other]
  obtain ⟨area, bound⟩ := held.owned.area _ _ _ refers
  apply gains.others _ area
  · intro eq
    have marked := (held.owned.used _ bound).mpr (.inr ⟨_, _, refers⟩)
    rw [eq, gains.fresh] at marked
    cases marked
  · intro eq
    have mine : Refers sb d (Function.update node i ip) i .indirect (d.ptr (node j) .indirect) := by
      refine ⟨held.bound, ?_, ?_, nonzero⟩
      · rw [Function.update_self]; exact held.live
      · rw [Function.update_self, eq]
    exact other (held.owned.unique _ _ _ _ _ refers mine).1

theorem refers_iff (gains : Gains sb d ip p b d' ip') (held : Held sb d node i ip) (j : Nat)
    (q : Place) (c : Nat) :
    Refers sb d' (Function.update node i ip') j q c ↔
      Refers sb d (Function.update node i ip) j q c ∨ (j = i ∧ q = p ∧ c = b) := by
  by_cases here : j = i
  · subst here
    simpa using gains.refers_self held q c
  · simp only [here, false_and, or_false, Refers, Function.update_of_ne here]
    constructor
    · rintro ⟨hj, used, eq, nonzero⟩
      rw [gains.ptr_other held here hj used] at eq
      exact ⟨hj, used, eq, nonzero⟩
    · rintro ⟨hj, used, eq, nonzero⟩
      rw [← gains.ptr_other held here hj used] at eq
      exact ⟨hj, used, eq, nonzero⟩

theorem held (gains : Gains sb d ip p b d' ip') (held : Held sb d node i ip) :
    Held sb d' node i ip' := by
  have owned := held.owned
  have refers := gains.refers_iff held
  have free (j : Nat) (q : Place) : ¬ Refers sb d (Function.update node i ip) j q b := by
    intro taken
    have marked := (owned.used b gains.bound).mpr (.inr ⟨j, q, taken⟩)
    rw [gains.fresh] at marked
    cases marked
  refine ⟨?_, held.bound, by rw [gains.same]; exact held.live⟩
  constructor
  case area =>
    intro j q c h
    obtain old | ⟨rfl, rfl, rfl⟩ := (refers j q c).mp h
    · exact owned.area j q c old
    · exact ⟨gains.data, gains.bound⟩
  case unique =>
    intro j q k r c h h'
    obtain old | ⟨rfl, rfl, rfl⟩ := (refers j q c).mp h
    · obtain old' | ⟨rfl, rfl, rfl⟩ := (refers k r c).mp h'
      · exact owned.unique j q k r c old old'
      · exact absurd old (free j q)
    · obtain old' | ⟨rfl, rfl, _⟩ := (refers k r c).mp h'
      · exact absurd old' (free k r)
      · exact ⟨rfl, rfl⟩
  case used =>
    intro c hc
    rw [gains.used c hc]
    by_cases here : c = b
    · subst here
      simp only [↓reduceIte, true_iff]
      exact .inr ⟨i, p, (refers i p c).mpr (.inr ⟨rfl, rfl, rfl⟩)⟩
    · simp only [here, ↓reduceIte, owned.used c hc, refers, and_false, or_false]

end Gains

end Xv6.Fs
