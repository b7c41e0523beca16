import Mathlib.Data.Finset.Insert
import Mathlib.Data.Multiset.Count
import Xv6.Fs.Directory

/-! fs.c: the inode cache. Its entries are counted references to inodes, and hold
a copy of the inode once it has been locked. System calls run one at a time here:
a call that waits for a lock waits for ever. -/

namespace Xv6.Fs
open Lib

abbrev ninode : Nat := 50

def rootdev : Nat := 1

/-- struct inode. `valid` is I_VALID in `flags`, and `node` the copy of disk inode. -/
structure Inode where
  dev : Nat
  inum : Nat
  ref : Nat
  locked : Bool
  valid : Bool
  node : Dinode

/-- The disk, and `icache`. -/
structure Cached where
  disk : Disk
  inode : Fin ninode → Inode

def Cached.set (s : Cached) (a : Fin ninode) (ip : Inode) : Cached :=
  { s with inode := Function.update s.inode a ip }

@[simp] theorem Cached.disk_set (s : Cached) (a : Fin ninode) (ip : Inode) :
    (s.set a ip).disk = s.disk := rfl

theorem Cached.inode_set (s : Cached) (a b : Fin ninode) (ip : Inode) :
    (s.set a ip).inode b = if b = a then ip else s.inode b := Function.update_apply ..

@[simp] theorem Cached.inode_set_self (s : Cached) (a : Fin ninode) (ip : Inode) :
    (s.set a ip).inode a = ip := by
  rw [inode_set, if_pos rfl]

@[simp] theorem Cached.set_self (s : Cached) (a : Fin ninode) : s.set a (s.inode a) = s := by
  rw [set, Function.update_eq_self]

section code
variable (sb : Superblock) (dev : Devsw)

/-- A program for the disk. -/
def onDisk {α : Type} (x : Prog Disk α) : Prog Cached α :=
  x.onPart Cached.disk fun s d => { s with disk := d }

/-- A program for the disk that works on an inode in memory. -/
def onNode {α : Type} (a : Fin ninode) (f : Nat → Dinode → Prog Disk (α × Dinode)) :
    Prog Cached α := do
  let s ← .get
  let (r, node) ← onDisk (f (s.inode a).inum (s.inode a).node)
  .modify fun s => s.set a { s.inode a with node := node }
  return r

def setNode (a : Fin ninode) (f : Dinode → Dinode) : Prog Cached Unit :=
  .modify fun s => s.set a { s.inode a with node := f (s.inode a).node }

namespace Cached

/-- Copy a modified in-memory inode to disk. -/
def iupdate (a : Fin ninode) : Prog Cached Unit := do
  let s ← .get
  onDisk (Fs.iupdate sb (s.inode a).inum (s.inode a).node)

end Cached

/-- Find the inode with number inum on device dev and return the in-memory copy. -/
def iget (dev inum : Nat) : Prog Cached (Fin ninode) := do
  let s ← .get
  -- Is the inode already cached?
  match (List.finRange ninode).find? fun a =>
      0 < (s.inode a).ref ∧ (s.inode a).dev = dev ∧ (s.inode a).inum = inum with
  | some a => do
    .modify fun s => s.set a { s.inode a with ref := (s.inode a).ref + 1 }
    return a
  | none =>
    -- Recycle an inode cache entry.
    match (List.finRange ninode).find? fun a => (s.inode a).ref = 0 with
    | some a => do
      .modify fun s => s.set a { s.inode a with dev := dev, inum := inum, ref := 1, valid := false }
      return a
    | none => .halt -- iget: no inodes

/-- Increment reference count for ip. -/
def idup (a : Fin ninode) : Prog Cached (Fin ninode) := do
  .modify fun s => s.set a { s.inode a with ref := (s.inode a).ref + 1 }
  return a

/-- Lock the given inode. Reads the inode from disk if necessary. -/
def ilock (a : Fin ninode) : Prog Cached Unit := do
  let s ← .get
  let ip := s.inode a
  if ip.ref < 1 then .halt -- ilock
  else if ip.locked then .halt -- acquiresleep() waits
  else if ip.valid then .modify fun s => s.set a { ip with locked := true }
  else
    let node := s.disk.dinode sb ip.inum
    if node.type = 0 then .halt -- ilock: no type
    else .modify fun s => s.set a { ip with locked := true, valid := true, node := node }

/-- Unlock the given inode. -/
def iunlock (a : Fin ninode) : Prog Cached Unit := do
  let s ← .get
  let ip := s.inode a
  if ip.locked = false ∨ ip.ref < 1 then .halt -- iunlock
  else .modify fun s => s.set a { ip with locked := false }

/-- inode has no links and no other references: truncate and free. -/
def ifree (a : Fin ninode) : Prog Cached Unit := do
  onNode a fun inum ip => do
    let ip ← itrunc sb inum ip
    return ((), ip)
  setNode a fun ip => { ip with type := 0 }
  Cached.iupdate sb a
  .modify fun s => s.set a { s.inode a with valid := false }

/-- Drop a reference to an in-memory inode. -/
def iput (a : Fin ninode) : Prog Cached Unit := do
  let s ← .get
  let ip := s.inode a
  .when (ip.ref = 1 ∧ ip.valid = true ∧ ip.node.nlink = 0) (ifree sb a)
  .modify fun s => s.set a { s.inode a with ref := (s.inode a).ref - 1 }

/-- Common idiom: unlock, then put. -/
def iunlockput (a : Fin ninode) : Prog Cached Unit := do
  iunlock a
  iput sb a

namespace Cached

/-- Look for a directory entry in a directory: its offset, and its inode. -/
def dirlookup (a : Fin ninode) (name : Chars) : Prog Cached (Option (UInt32 × Fin ninode)) := do
  let found ← onNode a fun _ dp => Fs.dirlookup sb dev dp name
  match found with
  | none => return none
  | some (off, inum) => do
    let s ← .get
    let b ← iget (s.inode a).dev inum.toNat
    return some (off, b)

end Cached

/-- The part of dirlink() for a name that is not present. -/
def addEntry (dinum : Nat) (dp : Dinode) (name : Chars) (inum : Nat) : Prog Disk Dinode := do
  -- Look for an empty dirent.
  let ((off, _), dp) ← scanDir sb dev (fun de => decide (de.inum = 0)) (rounds dp) dp 0
  writeEntry sb dev dinum dp (.named inum name) off

namespace Cached

/-- Write a new directory entry (name, inum) into the directory dp. -/
def dirlink (a : Fin ninode) (name : Chars) (inum : Nat) : Prog Cached Int := do
  -- Check that name is not present.
  let found ← Cached.dirlookup sb dev a name
  match found with
  | some (_, b) => do
    iput sb b
    return -1
  | none => do
    onNode a fun dinum dp => do
      let dp ← addEntry sb dev dinum dp name inum
      return ((), dp)
    return 0

/-- Allocate a new inode with the given type on device dev. -/
def ialloc (dev : Nat) (type : Int16) : Prog Cached (Fin ninode) := do
  let inum ← onDisk (Fs.ialloc sb type)
  iget dev inum

end Cached
end code

/-! ## References -/

/-- The offset of the entry for a name. -/
def entryOff (es : List Dirent) (c : List UInt8) : UInt32 :=
  .ofNat (Dirent.sizeof * es.findIdx fun de => de.key = some c)

/-- An entry of the cache. It has `n` references more than it had in `old`. -/
structure Entry (sb : Superblock) (d : Disk) (old : Inode) (n : Nat) (lock : Prop) (ip : Inode) :
    Prop where
  ref : ip.ref = old.ref + n
  same : 0 < old.ref → ip.inum = old.inum
  dev : 0 < ip.ref → ip.dev = rootdev
  bound : 0 < ip.ref → ip.inum < sb.ninodes
  live : 0 < old.ref → (d.dinode sb ip.inum).type ≠ 0
  copy : 0 < ip.ref → ip.valid = true → ip.node = d.dinode sb ip.inum ∧ ip.node.type ≠ 0
  locked : ip.locked = true ↔ lock
  valid : lock → 0 < ip.ref ∧ ip.valid = true

/-- A call that found the cache as `base` holds the references `held`, each to an
entry and for an inode number, and has locked `locks`. -/
structure Holding (sb : Superblock) (base : Fin ninode → Inode) (held : Multiset (Fin ninode × Nat))
    (locks : Finset (Fin ninode)) (s : Cached) : Prop where
  entry : ∀ a, Entry sb s.disk (base a) ((held.map Prod.fst).count a) (a ∈ locks) (s.inode a)
  unique : ∀ a b, 0 < (s.inode a).ref → 0 < (s.inode b).ref →
    (s.inode a).inum = (s.inode b).inum → a = b
  who : ∀ p ∈ held, (s.inode p.1).inum = p.2

namespace Holding
variable {sb : Superblock} {base : Fin ninode → Inode} {held held' : Multiset (Fin ninode × Nat)}
  {locks locks' : Finset (Fin ninode)} {s t : Cached} {a b : Fin ninode} {i : Nat} {ip : Inode}

theorem count_pos (mem : (a, i) ∈ held) : 0 < (held.map Prod.fst).count a :=
  Multiset.count_pos.mpr (Multiset.mem_map_of_mem Prod.fst mem)

theorem ref_pos (h : Holding sb base held locks s) (mem : (a, i) ∈ held) : 0 < (s.inode a).ref := by
  have ref := (h.entry a).ref
  have := count_pos mem
  omega

theorem ref_base (h : Holding sb base held locks s) (used : 0 < (base a).ref) :
    0 < (s.inode a).ref := by
  have ref := (h.entry a).ref
  omega

theorem inum_eq (h : Holding sb base held locks s) (mem : (a, i) ∈ held) : (s.inode a).inum = i :=
  h.who (a, i) mem

theorem bound (h : Holding sb base held locks s) (mem : (a, i) ∈ held) : i < sb.ninodes := by
  rw [← h.inum_eq mem]
  exact (h.entry a).bound (h.ref_pos mem)

/-- Every inode that there is a reference to is in use, if those are that the call
holds. -/
theorem live (h : Holding sb base held locks s)
    (live : ∀ p ∈ held, (s.disk.dinode sb p.2).type ≠ 0) (used : 0 < (s.inode a).ref) :
    (s.disk.dinode sb (s.inode a).inum).type ≠ 0 := by
  by_cases old : 0 < (base a).ref
  · exact (h.entry a).live old
  · have ref := (h.entry a).ref
    have count : 0 < (held.map Prod.fst).count a := by omega
    obtain ⟨p, mem, rfl⟩ := Multiset.mem_map.mp (Multiset.count_pos.mp count)
    rw [h.who p mem]
    exact live p mem

/-- The copy of a locked inode. -/
theorem node (h : Holding sb base held locks s) (mem : (a, i) ∈ held) (lock : a ∈ locks) :
    (s.inode a).node = s.disk.dinode sb i := by
  obtain ⟨used, valid⟩ := (h.entry a).valid lock
  rw [((h.entry a).copy used valid).1, h.inum_eq mem]

/-- A change of one entry. -/
theorem set (h : Holding sb base held locks s)
    (entry : Entry sb s.disk (base a) ((held'.map Prod.fst).count a) (a ∈ locks') ip)
    (counts : ∀ b, b ≠ a → (held'.map Prod.fst).count b = (held.map Prod.fst).count b)
    (locked : ∀ b, b ≠ a → (b ∈ locks' ↔ b ∈ locks))
    (unique : 0 < ip.ref → ∀ b, b ≠ a → 0 < (s.inode b).ref → (s.inode b).inum ≠ ip.inum)
    (who : ∀ p ∈ held', p.1 = a ∧ p.2 = ip.inum ∨ p.1 ≠ a ∧ p ∈ held) :
    Holding sb base held' locks' (s.set a ip) := by
  constructor
  case entry =>
    intro b
    by_cases here : b = a
    · subst here
      rw [Cached.inode_set_self]
      exact entry
    · have old := h.entry b
      rw [Cached.inode_set, if_neg here, counts b here]
      simp only [locked b here]
      exact old
  case unique =>
    intro b c hb hc eq
    rw [Cached.inode_set] at hb eq
    rw [Cached.inode_set] at hc eq
    by_cases hba : b = a <;> by_cases hca : c = a
    · rw [hba, hca]
    · rw [if_pos hba] at hb eq
      rw [if_neg hca] at hc eq
      exact absurd eq.symm (unique hb c hca hc)
    · rw [if_neg hba] at hb eq
      rw [if_pos hca] at hc eq
      exact absurd eq (unique hc b hba hb)
    · rw [if_neg hba] at hb eq
      rw [if_neg hca] at hc eq
      exact h.unique b c hb hc eq
  case who =>
    intro p mem
    rw [Cached.inode_set]
    obtain ⟨here, eq⟩ | ⟨other, old⟩ := who p mem
    · rw [if_pos here, eq]
    · rw [if_neg other]
      exact h.who p old

/-- A change of an entry that stays an entry for its inode. -/
theorem set_same (h : Holding sb base held locks s)
    (entry : Entry sb s.disk (base a) ((held.map Prod.fst).count a) (a ∈ locks') ip)
    (locked : ∀ b, b ≠ a → (b ∈ locks' ↔ b ∈ locks)) (ref : ip.ref = (s.inode a).ref)
    (inum : ip.inum = (s.inode a).inum) : Holding sb base held locks' (s.set a ip) := by
  apply h.set entry (fun _ _ => rfl) locked
  · intro used b other hb eq
    rw [ref] at used
    exact other (h.unique b a hb used (eq.trans inum))
  · intro p mem
    by_cases here : p.1 = a
    · exact .inl ⟨here, by rw [inum, ← here, h.who p mem]⟩
    · exact .inr ⟨here, mem⟩

theorem counts_cons (p : Fin ninode × Nat) (held : Multiset (Fin ninode × Nat)) (b : Fin ninode)
    (other : b ≠ p.1) : ((p ::ₘ held).map Prod.fst).count b = (held.map Prod.fst).count b := by
  rw [Multiset.map_cons, Multiset.count_cons_of_ne other]

theorem count_cons (p : Fin ninode × Nat) (held : Multiset (Fin ninode × Nat)) :
    ((p ::ₘ held).map Prod.fst).count p.1 = (held.map Prod.fst).count p.1 + 1 := by
  rw [Multiset.map_cons, Multiset.count_cons_self]

/-! ## What each function does to the references -/

theorem find_some {p : Fin ninode → Prop} [DecidablePred p]
    (found : (List.finRange ninode).find? (fun a => decide (p a)) = some a) : p a := by
  have yes := List.find?_some found
  simpa using yes

theorem find_none {p : Fin ninode → Prop} [DecidablePred p]
    (none : (List.finRange ninode).find? (fun a => decide (p a)) = none) (a : Fin ninode) : ¬ p a := by
  have no := List.find?_eq_none.mp none a (List.mem_finRange a)
  simpa using no

/-- One more reference to an inode that there is a reference to. -/
theorem again (h : Holding sb base held locks s) (used : 0 < (s.inode a).ref) :
    Holding sb base ((a, (s.inode a).inum) ::ₘ held) locks
      (s.set a { s.inode a with ref := (s.inode a).ref + 1 }) := by
  have entry := h.entry a
  apply h.set
  case entry =>
    rw [count_cons (a, (s.inode a).inum) held]
    refine { entry with ref := ?_, dev := fun _ => entry.dev used, bound := fun _ => entry.bound used,
                        copy := fun _ => entry.copy used,
                        valid := fun lock => ⟨Nat.succ_pos _, (entry.valid lock).2⟩ }
    have ref := entry.ref
    dsimp only
    omega
  case counts => exact fun b other => counts_cons (a, _) held b other
  case locked => exact fun _ _ => Iff.rfl
  case unique => exact fun _ b other hb eq => other (h.unique b a hb used eq)
  case who =>
    intro p mem
    by_cases here : p.1 = a
    · refine .inl ⟨here, ?_⟩
      obtain rfl | old := Multiset.mem_cons.mp mem
      · rfl
      · rw [← here, ← h.who p old]
    · obtain rfl | old := Multiset.mem_cons.mp mem
      · exact absurd rfl here
      · exact .inr ⟨here, old⟩

/-- The first reference to an inode, in an entry that is not in use. -/
theorem first (h : Holding sb base held locks s) (zero : (s.inode a).ref = 0)
    (absent : ∀ b, 0 < (s.inode b).ref → (s.inode b).inum ≠ i) (hi : i < sb.ninodes) :
    Holding sb base ((a, i) ::ₘ held) locks
      (s.set a { s.inode a with dev := rootdev, inum := i, ref := 1, valid := false }) := by
  have entry := h.entry a
  have ref := entry.ref
  have none_base : (base a).ref = 0 := by omega
  have none_held : (held.map Prod.fst).count a = 0 := by omega
  have unlocked : a ∉ locks := fun lock => Nat.ne_of_gt (entry.valid lock).1 zero
  apply h.set
  case entry =>
    rw [count_cons (a, i) held]
    exact { ref := by dsimp only; omega
            same := fun used => absurd used (by omega)
            dev := fun _ => rfl
            bound := fun _ => hi
            live := fun used => absurd used (by omega)
            copy := fun _ valid => by cases valid
            locked := entry.locked
            valid := fun lock => absurd lock unlocked }
  case counts => exact fun b other => counts_cons (a, i) held b other
  case locked => exact fun _ _ => Iff.rfl
  case unique => exact fun _ b _ hb => absent b hb
  case who =>
    intro p mem
    obtain rfl | old := Multiset.mem_cons.mp mem
    · exact .inl ⟨rfl, rfl⟩
    · refine .inr ⟨?_, old⟩
      rintro rfl
      exact Nat.ne_of_gt (count_pos (a := p.1) (i := p.2) old) none_held

/-- iget() gives a reference to the inode, unless the cache is full. -/
theorem iget_spec (h : Holding sb base held locks s) (hi : i < sb.ninodes) :
    (∃ a t, iget rootdev i s = some (a, t) ∧ t.disk = s.disk ∧
      Holding sb base ((a, i) ::ₘ held) locks t) ∨
    (iget rootdev i s = none ∧ ∀ a, 0 < (s.inode a).ref) := by
  cases cached : (List.finRange ninode).find? fun a => decide
      (0 < (s.inode a).ref ∧ (s.inode a).dev = rootdev ∧ (s.inode a).inum = i) with
  | some a =>
    obtain ⟨used, _, rfl⟩ := find_some cached
    refine .inl ⟨a, _, ?_, ?_, h.again used⟩
    · simp only [iget, bind, Prog.get, cached]
      rfl
    · rfl
  | none =>
    have absent (b : Fin ninode) (hb : 0 < (s.inode b).ref) : (s.inode b).inum ≠ i := by
      intro eq
      exact find_none cached b ⟨hb, (h.entry b).dev hb, eq⟩
    cases empty : (List.finRange ninode).find? fun a => decide ((s.inode a).ref = 0) with
    | none =>
      refine .inr ⟨?_, fun a => Nat.pos_of_ne_zero (find_none empty a)⟩
      simp only [iget, bind, Prog.get, cached, empty]
      rfl
    | some a =>
      refine .inl ⟨a, _, ?_, ?_, h.first (find_some empty) absent hi⟩
      · simp only [iget, bind, Prog.get, cached, empty]
        rfl
      · rfl

theorem idup_spec (h : Holding sb base held locks s) (used : 0 < (s.inode a).ref) :
    ∃ t, idup a s = some (a, t) ∧ t.disk = s.disk ∧
      Holding sb base ((a, (s.inode a).inum) ::ₘ held) locks t :=
  ⟨_, rfl, rfl, h.again used⟩

theorem ilock_spec (h : Holding sb base held locks s) (mem : (a, i) ∈ held) (free : a ∉ locks)
    (live : (s.disk.dinode sb i).type ≠ 0) :
    ∃ t, ilock sb a s = some ((), t) ∧ t.disk = s.disk ∧
      Holding sb base held (insert a locks) t := by
  have used := h.ref_pos mem
  have entry := h.entry a
  have some : ¬ (s.inode a).ref < 1 := by omega
  have unlocked : (s.inode a).locked = false := by
    rw [← Bool.not_eq_true, entry.locked]
    exact free
  have others (b : Fin ninode) (other : b ≠ a) : b ∈ insert a locks ↔ b ∈ locks := by
    rw [Finset.mem_insert, or_iff_right other]
  have here := Finset.mem_insert_self a locks
  by_cases valid : (s.inode a).valid = true
  · refine ⟨s.set a { s.inode a with locked := true }, ?_, rfl, ?_⟩
    · simp only [ilock, bind, Prog.get, some, unlocked, valid, Bool.false_eq_true, ↓reduceIte]
      rfl
    refine h.set_same ?_ others rfl rfl
    exact { entry with locked := ⟨fun _ => here, fun _ => rfl⟩, valid := fun _ => ⟨used, valid⟩ }
  · have typed : (s.disk.dinode sb (s.inode a).inum).type ≠ 0 := by
      rw [h.inum_eq mem]
      exact live
    refine ⟨s.set a { s.inode a with
      locked := true, valid := true, node := s.disk.dinode sb (s.inode a).inum }, ?_, rfl, ?_⟩
    · simp only [ilock, bind, Prog.get, some, unlocked, valid, typed, Bool.false_eq_true, ↓reduceIte]
      rfl
    refine h.set_same ?_ others rfl rfl
    exact { entry with copy := fun _ _ => ⟨rfl, typed⟩, locked := ⟨fun _ => here, fun _ => rfl⟩,
                       valid := fun _ => ⟨used, rfl⟩ }

/-- ilock() of an inode that is not in use. -/
theorem ilock_dead (h : Holding sb base held locks s) (mem : (a, i) ∈ held)
    (dead : (s.disk.dinode sb i).type = 0) : ilock sb a s = none := by
  have used := h.ref_pos mem
  have some : ¬ (s.inode a).ref < 1 := by omega
  have stale : (s.inode a).valid = false := by
    rw [← Bool.not_eq_true]
    intro valid
    obtain ⟨copy, typed⟩ := (h.entry a).copy used valid
    rw [copy, h.inum_eq mem] at typed
    exact typed dead
  have free : (s.inode a).locked = false := by
    rw [← Bool.not_eq_true, (h.entry a).locked]
    intro lock
    rw [((h.entry a).valid lock).2] at stale
    cases stale
  simp only [ilock, bind, Prog.get, some, free, stale, h.inum_eq mem, dead, Bool.false_eq_true,
    ↓reduceIte]
  rfl

theorem ilock_locked (h : Holding sb base held locks s) (lock : a ∈ locks) :
    ilock sb a s = none := by
  have locked := (h.entry a).locked.mpr lock
  simp only [ilock, bind, Prog.get, locked, ↓reduceIte]
  split <;> rfl

/-- What follows ilock(). -/
theorem ilock_cases (h : Holding sb base held locks s) (mem : (a, i) ∈ held) {α : Type}
    {f : Unit → Prog Cached α} {r : α × Cached} (run : (ilock sb a >>= f) s = some r) :
    a ∉ locks ∧ (s.disk.dinode sb i).type ≠ 0 ∧ ∃ t, f () t = some r ∧ t.disk = s.disk ∧
      Holding sb base held (insert a locks) t := by
  by_cases lock : a ∈ locks
  · exact absurd run fun run => Prog.not_follow run (h.ilock_locked lock)
  by_cases dead : (s.disk.dinode sb i).type = 0
  · exact absurd run fun run => Prog.not_follow run (h.ilock_dead mem dead)
  obtain ⟨t, locked, disk, h'⟩ := h.ilock_spec mem lock dead
  exact ⟨lock, dead, t, Prog.follow run locked, disk, h'⟩

theorem iunlock_spec (h : Holding sb base held locks s) (lock : a ∈ locks) :
    ∃ t, iunlock a s = some ((), t) ∧ t.disk = s.disk ∧
      Holding sb base held (locks.erase a) t := by
  have entry := h.entry a
  obtain ⟨used, valid⟩ := entry.valid lock
  have locked := entry.locked.mpr lock
  have ok : ¬ ((s.inode a).locked = false ∨ (s.inode a).ref < 1) := by
    rw [locked]
    simp only [Bool.true_eq_false, false_or]
    omega
  refine ⟨s.set a { s.inode a with locked := false }, ?_, rfl, ?_⟩
  · simp only [iunlock, bind, Prog.get, ok, ↓reduceIte]
    rfl
  have gone := Finset.notMem_erase a locks
  refine h.set_same ?_ ?_ rfl rfl
  · exact { entry with locked := ⟨fun yes => (by cases yes), fun mem => absurd mem gone⟩
                       valid := fun mem => absurd mem gone }
  · intro b other
    rw [Finset.mem_erase, and_iff_right other]

/-- iput() of an inode that has links or other references. -/
theorem iput_spec (h : Holding sb base ((a, i) ::ₘ held) locks s)
    (free : a ∈ locks → 1 < (s.inode a).ref)
    (kept : (s.disk.dinode sb i).type ≠ 0 → (s.disk.dinode sb i).nlink ≠ 0 ∨ 1 < (s.inode a).ref) :
    ∃ t, iput sb a s = some ((), t) ∧ t.disk = s.disk ∧ Holding sb base held locks t := by
  have mem := Multiset.mem_cons_self (a, i) held
  have used := h.ref_pos mem
  have entry := h.entry a
  have stays : ¬ ((s.inode a).ref = 1 ∧ (s.inode a).valid = true ∧ (s.inode a).node.nlink = 0) := by
    rintro ⟨one, valid, zero⟩
    obtain ⟨copy, typed⟩ := entry.copy used valid
    rw [copy, h.inum_eq mem] at zero typed
    obtain links | more := kept typed
    · exact links zero
    · omega
  refine ⟨s.set a { s.inode a with ref := (s.inode a).ref - 1 }, ?_, rfl, ?_⟩
  · simp only [iput, bind, Prog.get, Prog.when_neg stays]
    rfl
  have less (pos : 0 < (s.inode a).ref - 1) : 0 < (s.inode a).ref := used
  apply h.set
  case entry =>
    have count := count_cons (a, i) held
    have ref := entry.ref
    refine { entry with ref := ?_, dev := entry.dev ∘ less, bound := entry.bound ∘ less,
                        copy := entry.copy ∘ less,
                        valid := fun lock => ⟨?_, (entry.valid lock).2⟩ }
    · dsimp only at count ⊢
      omega
    · have more := free lock
      dsimp only
      omega
  case counts => exact fun b other => (counts_cons (a, i) held b other).symm
  case locked => exact fun _ _ => Iff.rfl
  case unique => exact fun _ b other hb eq => other (h.unique b a hb used eq)
  case who =>
    intro p old
    have was := h.who p (Multiset.mem_cons_of_mem old)
    by_cases here : p.1 = a
    · exact .inl ⟨here, by rw [← was, here]⟩
    · exact .inr ⟨here, Multiset.mem_cons_of_mem old⟩

theorem iunlockput_spec (h : Holding sb base ((a, i) ::ₘ held) locks s) (lock : a ∈ locks)
    (kept : (s.disk.dinode sb i).type ≠ 0 → (s.disk.dinode sb i).nlink ≠ 0 ∨ 1 < (s.inode a).ref) :
    ∃ t, iunlockput sb a s = some ((), t) ∧ t.disk = s.disk ∧
      Holding sb base held (locks.erase a) t := by
  obtain ⟨t₁, unlocked, disk₁, h₁⟩ := h.iunlock_spec lock
  have kept₁ : (t₁.disk.dinode sb i).type ≠ 0 →
      (t₁.disk.dinode sb i).nlink ≠ 0 ∨ 1 < (t₁.inode a).ref := by
    rw [disk₁, (h₁.entry a).ref, ← (h.entry a).ref]
    exact kept
  obtain ⟨t₂, put, disk₂, h₂⟩ := h₁.iput_spec
    (fun lock => absurd lock (Finset.notMem_erase a locks)) kept₁
  exact ⟨t₂, Prog.bind_eq_some.mpr ⟨(), t₁, unlocked, put⟩, disk₂.trans disk₁, h₂⟩

/-! ## Writes to the disk -/

/-- A write that leaves the inodes that are referred to. -/
theorem setDisk (h : Holding sb base held locks s) {d : Disk}
    (same : ∀ a, 0 < (s.inode a).ref →
      d.dinode sb (s.inode a).inum = s.disk.dinode sb (s.inode a).inum) :
    Holding sb base held locks { s with disk := d } where
  entry a := { h.entry a with
    live := fun used => by rw [same a (h.ref_base used)]; exact (h.entry a).live used
    copy := fun used => by rw [same a used]; exact (h.entry a).copy used }
  unique := h.unique
  who := h.who

/-- A write of one inode, in memory and on disk. -/
theorem write (h : Holding sb base held locks s) (mem : (a, i) ∈ held) {node : Dinode} {d : Disk}
    (stored : d.dinode sb i = node) (live : node.type ≠ 0)
    (others : ∀ j, j < sb.ninodes → j ≠ i → d.dinode sb j = s.disk.dinode sb j) :
    Holding sb base held locks
      (Cached.set { s with disk := d } a { s.inode a with node := node }) := by
  have inum := h.inum_eq mem
  have used := h.ref_pos mem
  constructor
  case entry =>
    intro b
    have entry := h.entry b
    rw [Cached.inode_set]
    by_cases here : b = a
    · subst here
      rw [if_pos rfl]
      refine { entry with live := fun _ => ?_, copy := fun _ _ => ?_ }
      · dsimp only [Cached.disk_set]
        rw [inum, stored]
        exact live
      · dsimp only [Cached.disk_set]
        rw [inum, stored]
        exact ⟨rfl, live⟩
    · rw [if_neg here]
      have same (hb : 0 < (s.inode b).ref) :
          d.dinode sb (s.inode b).inum = s.disk.dinode sb (s.inode b).inum := by
        apply others _ (entry.bound hb)
        intro eq
        exact here (h.unique b a hb used (eq.trans inum.symm))
      refine { entry with live := fun hb => ?_, copy := fun hb valid => ?_ }
      · dsimp only [Cached.disk_set]
        rw [same (h.ref_base hb)]
        exact entry.live hb
      · dsimp only [Cached.disk_set]
        rw [same hb]
        exact entry.copy hb valid
  case unique =>
    have ref (b : Fin ninode) : ((Cached.set { s with disk := d } a
        { s.inode a with node := node }).inode b).ref = (s.inode b).ref ∧
        ((Cached.set { s with disk := d } a
        { s.inode a with node := node }).inode b).inum = (s.inode b).inum := by
      rw [Cached.inode_set]
      split
      · rename_i here
        rw [here]
        exact ⟨rfl, rfl⟩
      · exact ⟨rfl, rfl⟩
    intro b c
    rw [(ref b).1, (ref b).2, (ref c).1, (ref c).2]
    exact h.unique b c
  case who =>
    intro p there
    rw [Cached.inode_set]
    split
    · rename_i here
      rw [← here]
      exact h.who p there
    · exact h.who p there

/-- A program for the disk that writes its inode back, if it writes anything. -/
theorem onNode_spec (h : Holding sb base held locks s) (mem : (a, i) ∈ held) (lock : a ∈ locks)
    {α : Type} {f : Nat → Dinode → Prog Disk (α × Dinode)} {r : α}
    (run : onNode a f s = some (r, t)) :
    ∃ node, f i (s.disk.dinode sb i) s.disk = some ((r, node), t.disk) ∧
      (t.disk.dinode sb i = node → node.type ≠ 0 →
        (∀ j, j < sb.ninodes → j ≠ i → t.disk.dinode sb j = s.disk.dinode sb j) →
        Holding sb base held locks t) := by
  have run := Prog.follow run rfl
  obtain ⟨⟨r', node⟩, s₁, ran, run⟩ := Prog.bind_eq_some.mp run
  obtain ⟨d, did, rfl⟩ := Prog.onPart_eq_some.mp ran
  have run := Prog.follow run rfl
  obtain ⟨rfl, rfl⟩ := Prog.pure_eq_some.mp run
  rw [h.node mem lock, h.inum_eq mem] at did
  exact ⟨node, did, fun stored live others => h.write mem stored live others⟩

/-- A change of a locked inode that is written to disk. -/
theorem iupdate_spec (h : Holding sb base held locks s) (mem : (a, i) ∈ held) (lock : a ∈ locks)
    {f : Dinode → Dinode} (live : (f (s.disk.dinode sb i)).type ≠ 0) :
    ∃ t₁ t, setNode a f s = some ((), t₁) ∧ Cached.iupdate sb a t₁ = some ((), t) ∧
      t.disk = s.disk.setDinode sb i (f (s.disk.dinode sb i)) ∧ Holding sb base held locks t := by
  have written : Holding sb base held locks
      (Cached.set { s with disk := s.disk.setDinode sb i (f (s.disk.dinode sb i)) } a
        { s.inode a with node := f (s.disk.dinode sb i) }) := by
    apply h.write mem _ live
    · intro j _ other
      rw [Disk.dinode_setDinode, if_neg other]
    · rw [Disk.dinode_setDinode, if_pos rfl]
  refine ⟨_, _, rfl, ?_, ?_, written⟩
  · simp only [Cached.iupdate, bind, Prog.get, onDisk, Prog.onPart, Fs.iupdate, Prog.modify,
      Cached.inode_set_self, Cached.disk_set, h.inum_eq mem, h.node mem lock]
    rfl
  · rfl

/-! ## Calls within calls -/

/-- What a call holds is what another one finds. -/
theorem rebase (h : Holding sb base held locks s)
    (live : ∀ p ∈ held, (s.disk.dinode sb p.2).type ≠ 0) : Holding sb s.inode 0 locks s where
  entry a := { h.entry a with ref := rfl, same := fun _ => rfl, live := h.live live }
  unique := h.unique
  who p mem := absurd mem (Multiset.notMem_zero p)

theorem trans (h : Holding sb base held locks s) (h' : Holding sb s.inode held' locks' t) :
    Holding sb base (held + held') locks' t where
  entry a := by
    have entry := h.entry a
    refine { h'.entry a with ref := ?_, same := ?_, live := (h'.entry a).live ∘ h.ref_base }
    · rw [(h'.entry a).ref, entry.ref, Multiset.map_add, Multiset.count_add, Nat.add_assoc]
    · intro used
      rw [(h'.entry a).same (h.ref_base used), entry.same used]
  unique := h'.unique
  who p mem := by
    obtain old | new := Multiset.mem_add.mp mem
    · rw [(h'.entry p.1).same (h.ref_pos (a := p.1) (i := p.2) old), h.who p old]
    · exact h'.who p new

/-- The reference that dirlookup() of a locked directory returns is iget()'s. -/
theorem dirlookup_eq (h : Holding sb base held locks s) (dev : Devsw) (mem : (a, i) ∈ held)
    (lock : a ∈ locks) {es : List Dirent} (dir : IsDir sb s.disk i es) (name : Chars) :
    Cached.dirlookup sb dev a name s =
      match SlotTable.lookup Dirent.key es (keyOf name) with
      | none => some (none, s)
      | some de => (do
          let b ← iget rootdev de.inum.toNat
          return some (entryOff es (keyOf name), b) :
            Prog Cached (Option (UInt32 × Fin ninode))) s := by
  have node := h.node mem lock
  have search := @Lists.dirlookup_eq sb dev _ _ _ dir.lists name
  have root := (h.entry a).dev (h.ref_pos mem)
  have back : s.set a { s.inode a with node := s.disk.dinode sb i } = s := by
    rw [← node]
    exact s.set_self a
  simp only [Cached.dirlookup, onNode, onDisk, Prog.onPart, bind, Prog.get, node, search, Prog.modify,
    back]
  cases SlotTable.lookup Dirent.key es (keyOf name) with
  | none => rfl
  | some de =>
    rw [← root]
    rfl

end Holding

/-! ## File systems at rest -/

section rest
variable {sb : Superblock} {base : Fin ninode → Inode} {held : Multiset (Fin ninode × Nat)}
  {locks : Finset (Fin ninode)} {d : Disk} {s : Cached} {a : Fin ninode} {i : Nat}

/-- Inode `i` is in use. -/
def Live (sb : Superblock) (d : Disk) (i : Nat) : Prop :=
  i < sb.ninodes ∧ (d.dinode sb i).type ≠ 0

/-- A well-formed file system in which each directory is a list of entries. -/
structure Tree (sb : Superblock) (d : Disk) : Prop where
  wellFormed : WellFormed sb d
  root : Live sb d rootino
  listed : ∀ i, i < sb.ninodes → (d.dinode sb i).type = tDir →
    ∃ es, d.content (d.dinode sb i) = entryBytes es ∧
      ∀ de ∈ es, de.inum ≠ 0 → de.inum.toNat < sb.ninodes

/-- An inode in use that has no links is referred to. -/
def Kept (sb : Superblock) (base : Fin ninode → Inode) (d : Disk) : Prop :=
  ∀ i, Live sb d i → (d.dinode sb i).nlink ≠ 0 ∨ ∃ a, 0 < (base a).ref ∧ (base a).inum = i

/-- No call is running. -/
structure Cached.AtRest (sb : Superblock) (s : Cached) : Prop where
  tree : Tree sb s.disk
  holding : Holding sb s.inode 0 ∅ s
  kept : Kept sb s.inode s.disk

/-- A call does not hold the only reference to an inode that was referred to before. -/
theorem Holding.shared (h : Holding sb base ((a, i) ::ₘ held) locks s)
    (old : ∃ b, 0 < (base b).ref ∧ (base b).inum = i) : 1 < (s.inode a).ref := by
  have mem := Multiset.mem_cons_self (a, i) held
  obtain ⟨b, used, inum⟩ := old
  have same := ((h.entry b).same used).trans inum
  obtain rfl := h.unique b a (h.ref_base used) (h.ref_pos mem) (same.trans (h.inum_eq mem).symm)
  have ref := (h.entry b).ref
  have count := Holding.count_pos mem
  omega

theorem Kept.reference (kept : Kept sb base s.disk)
    (h : Holding sb base ((a, i) ::ₘ held) locks s) (live : (s.disk.dinode sb i).type ≠ 0) :
    (s.disk.dinode sb i).nlink ≠ 0 ∨ 1 < (s.inode a).ref :=
  (kept i ⟨h.bound (Multiset.mem_cons_self (a, i) held), live⟩).imp_right h.shared

/-- The entries of directory `i`. -/
def Disk.entries (sb : Superblock) (d : Disk) (i : Nat) : List Dirent :=
  (List.range ((d.dinode sb i).size.toNat / Dirent.sizeof)).map fun n =>
    .ofBytes ((d.content (d.dinode sb i)).extract (Dirent.sizeof * n)
      (Dirent.sizeof * n + Dirent.sizeof))

/-- The inode that a name stands for in inode `i`, if that is a directory. -/
def Disk.child (sb : Superblock) (d : Disk) (i : Nat) (c : List UInt8) : Option Nat :=
  if (d.dinode sb i).type = tDir then
    (SlotTable.lookup Dirent.key (d.entries sb i) c).map fun de => de.inum.toNat
  else none

theorem IsDir.entries_eq {es : List Dirent} (dir : IsDir sb d i es) : d.entries sb i = es := by
  have size := dir.lists.size
  apply List.ext_getElem
  · rw [Disk.entries, List.length_map, List.length_range, size, Nat.mul_div_cancel_left _ (by decide)]
  · intro n _ hn
    have there := extract_entryBytes (List.getElem?_eq_getElem hn)
    simp only [Disk.entries, List.getElem_map, List.getElem_range]
    rw [dir.content, there]
    exact es[n].ofBytes_bytes

theorem child_of_not_dir (file : (d.dinode sb i).type ≠ tDir) (c : List UInt8) :
    d.child sb i c = none := if_neg file

theorem inum_of_lookup {es : List Dirent} {c : List UInt8} {de : Dirent}
    (found : SlotTable.lookup Dirent.key es c = some de) : de.inum ≠ 0 := by
  intro zero
  have key := SlotTable.key_of_lookup found
  rw [(key_eq_none_iff de).mpr zero] at key
  cases key

theorem Tree.isDir (tree : Tree sb d) (hi : i < sb.ninodes) (type : (d.dinode sb i).type = tDir) :
    IsDir sb d i (d.entries sb i) ∧ ∀ de ∈ d.entries sb i, de.inum ≠ 0 → de.inum.toNat < sb.ninodes := by
  obtain ⟨es, content, bound⟩ := tree.listed i hi type
  have dir : IsDir sb d i es := ⟨tree.wellFormed, hi, type, content⟩
  rw [dir.entries_eq]
  exact ⟨dir, bound⟩

/-- An entry names an inode that is not in use. -/
def Dangling (sb : Superblock) (d : Disk) : Prop :=
  ∃ i c j, i < sb.ninodes ∧ d.child sb i c = some j ∧ (d.dinode sb j).type = 0

/-- A name stands for an inode of the disk. -/
theorem Tree.child_bound (tree : Tree sb d) (hi : i < sb.ninodes) {c : List UInt8} {j : Nat}
    (child : d.child sb i c = some j) : j < sb.ninodes := by
  unfold Disk.child at child
  split at child
  case isFalse => cases child
  case isTrue type =>
    obtain ⟨de, found, rfl⟩ := Option.map_eq_some_iff.mp child
    exact (tree.isDir hi type).2 de (List.mem_of_find?_eq_some found) (inum_of_lookup found)

/-- dirlookup() of a locked directory gives a reference to what the name stands
for, unless the cache is full. -/
theorem Holding.dirlookup_spec (tree : Tree sb s.disk) (h : Holding sb base held locks s)
    (dev : Devsw) (mem : (a, i) ∈ held) (lock : a ∈ locks)
    (type : (s.disk.dinode sb i).type = tDir) (name : Chars) :
    (s.disk.child sb i (keyOf name) = none ∧ Cached.dirlookup sb dev a name s = some (none, s)) ∨
    ∃ j, s.disk.child sb i (keyOf name) = some j ∧
      ((∃ b t, Cached.dirlookup sb dev a name s =
          some (some (entryOff (s.disk.entries sb i) (keyOf name), b), t) ∧ t.disk = s.disk ∧
        Holding sb base ((b, j) ::ₘ held) locks t) ∨
      (Cached.dirlookup sb dev a name s = none ∧ ∀ b, 0 < (s.inode b).ref)) := by
  have hi := h.bound mem
  have search := h.dirlookup_eq dev mem lock (tree.isDir hi type).1 name
  have child : s.disk.child sb i (keyOf name) =
      (SlotTable.lookup Dirent.key (s.disk.entries sb i) (keyOf name)).map
        fun de => de.inum.toNat := if_pos type
  cases found : SlotTable.lookup Dirent.key (s.disk.entries sb i) (keyOf name) with
  | none =>
    rw [found] at child search
    exact .inl ⟨child, search⟩
  | some de =>
    rw [found] at child search
    rw [search]
    refine .inr ⟨de.inum.toNat, child, ?_⟩
    obtain ⟨b, t, got, disk, h'⟩ | ⟨got, full⟩ := h.iget_spec (tree.child_bound hi child)
    · refine .inl ⟨b, t, ?_, disk, h'⟩
      simp only [bind, got]
      rfl
    · refine .inr ⟨?_, full⟩
      simp only [bind, got]

end rest
end Xv6.Fs
