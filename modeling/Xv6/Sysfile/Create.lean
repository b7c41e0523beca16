import Xv6.Fs.TreeUpdates
import Xv6.Sysfile.Calls

/-! create(): what it returns and what it leaves, from a file system at rest. -/

namespace Xv6.Sysfile
open Lib Fs Files
variable {sb : Superblock} {dev : Devsw} {base : Fin ninode → Inode} {s t : Cached}
  {cwd a : Fin ninode} {i : Nat} {path : List UInt8} {α : Type} {r : α × Cached}

/-- What follows namei(). -/
theorem namei_cases (rest : s.AtRest sb) (used : 0 < (s.inode cwd).ref) (clean : 0 ∉ path)
    {f : Option (Fin ninode) → Prog Cached α}
    (run : (namei sb dev cwd path >>= f) s = some r) :
    (s.disk.walk sb (s.start cwd path) (components path) = none ∧ ∃ t, f none t = some r ∧
      t.disk = s.disk ∧ Holding sb s.inode 0 ∅ t) ∨
    ∃ i a t, s.disk.walk sb (s.start cwd path) (components path) = some i ∧ f (some a) t = some r ∧
      t.disk = s.disk ∧ Holding sb s.inode {(a, i)} ∅ t := by
  obtain ⟨q, name, t, walked, gives, _⟩ | ⟨halts, _⟩ :=
    namex_spec rest dev used clean false (charsOf [])
  · have found : namei sb dev cwd path s = some (q, t) := by
      simp only [namei, bind, walked]
      rfl
    have run := Prog.follow run found
    rw [resolve_eq_walk] at gives
    obtain ⟨disk, gives⟩ := gives
    cases target : s.disk.walk sb (s.start cwd path) (components path) with
    | none =>
      rw [target] at gives
      obtain ⟨rfl, h⟩ := gives
      exact .inl ⟨rfl, t, run, disk, h⟩
    | some i =>
      rw [target] at gives
      obtain ⟨a, rfl, h⟩ := gives
      exact .inr ⟨i, a, t, rfl, run, disk, h⟩
  · have none : namei sb dev cwd path s = none := by
      simp only [namei, bind, halts]
    exact absurd run fun run => Prog.not_follow run none

/-- What follows nameiparent(). -/
theorem nameiparent_cases (rest : s.AtRest sb) (used : 0 < (s.inode cwd).ref) (clean : 0 ∉ path)
    {name : Chars} {f : Option (Fin ninode) × Chars → Prog Cached α}
    (run : (nameiparent sb dev cwd path name >>= f) s = some r) :
    (s.disk.walkParent sb (s.start cwd path) (components path) = none ∧ ∃ name t,
      f (none, name) t = some r ∧ t.disk = s.disk ∧ Holding sb s.inode 0 ∅ t) ∨
    ∃ i a name t, s.disk.walkParent sb (s.start cwd path) (components path) = some (i, keyOf name) ∧
      f (some a, name) t = some r ∧ t.disk = s.disk ∧ Holding sb s.inode {(a, i)} ∅ t := by
  obtain ⟨q, name', t, walked, gives, named⟩ | ⟨halts, _⟩ := namex_spec rest dev used clean true name
  · have run := Prog.follow run walked
    rw [resolve_eq_walkParent] at gives
    obtain ⟨disk, gives⟩ := gives
    cases target : s.disk.walkParent sb (s.start cwd path) (components path) with
    | none =>
      rw [target] at gives
      obtain ⟨rfl, h⟩ := gives
      exact .inl ⟨rfl, name', t, run, disk, h⟩
    | some p =>
      obtain ⟨i, c⟩ := p
      rw [target] at gives
      obtain ⟨a, rfl, h⟩ := gives
      have last := named rfl (Option.some_ne_none a)
      rw [(walkParent_some target).1] at last
      obtain rfl := Option.some.inj last
      exact .inr ⟨i, a, name', t, rfl, run, disk, h⟩
  · exact absurd run fun run => Prog.not_follow run halts

/-! ## A new file -/

/-- The inode that create() makes. -/
def newInode (type major minor : Int16) : Dinode :=
  { Dinode.zero with type := type, major := major, minor := minor, nlink := 1 }

/-- ialloc(), and a reference to the new inode. -/
theorem ialloc_cases (sound : sb.Sound) (tree : Tree sb s.disk) {held : Multiset (Fin ninode × Nat)}
    {locks : Finset (Fin ninode)} (h : Holding sb base held locks s)
    (live : ∀ p ∈ held, (s.disk.dinode sb p.2).type ≠ 0) {type : Int16} (typed : type ≠ 0)
    {f : Fin ninode → Prog Cached α} (run : (Cached.ialloc sb rootdev type >>= f) s = some r) :
    ∃ j b t, j < sb.ninodes ∧ (s.disk.dinode sb j).type = 0 ∧ f b t = some r ∧
      t.disk = s.disk.setDinode sb j { Dinode.zero with type := type } ∧ Tree sb t.disk ∧
      Holding sb base ((b, j) ::ₘ held) locks t := by
  obtain ⟨b, t, got, run⟩ := Prog.bind_eq_some.mp (show _ = some (r.1, r.2) from run)
  obtain ⟨j, s₁, allocated, got⟩ := Prog.bind_eq_some.mp got
  obtain ⟨d, taken, rfl⟩ := Prog.onPart_eq_some.mp allocated
  obtain ⟨hj, free, rfl⟩ := ialloc_spec taken
  have h₁ : Holding sb base held locks
      { s with disk := s.disk.setDinode sb j { Dinode.zero with type := type } } := by
    apply h.setDisk
    intro c used
    have other : (s.inode c).inum ≠ j := by
      intro eq
      exact h.live live used (eq ▸ free)
    rw [Disk.dinode_setDinode, if_neg other]
  obtain ⟨b', t', found, disk, h₂⟩ | ⟨halts, _⟩ := h₁.iget_spec hj
  · rw [found] at got
    obtain ⟨rfl, rfl⟩ := Prod.mk.inj (Option.some.inj got)
    refine ⟨j, b', t', hj, free, run, disk, ?_, h₂⟩
    rw [disk]
    exact tree.setDinode_new sound hj free (empty_zero type) typed
  · rw [halts] at got
    cases got

/-- The new inode, locked, before its name is entered. -/
theorem createNew_inode (sound : sb.Sound) (tree : Tree sb s.disk)
    (h : Holding sb base {(a, i)} (insert a ∅) s) (dir : (s.disk.dinode sb i).type = tDir)
    {name : Chars} {type major minor : Int16} (typed : type ≠ 0) {q : Option (Fin ninode) × Cached}
    (run : createNew sb dev a name type major minor s = some q) :
    ∃ b j s₁, (do
        Prog.when (type = tDir) (createDots sb dev a b)
        enterName sb dev a b name) s₁ = some q ∧
      b ≠ a ∧ j ≠ i ∧ j < sb.ninodes ∧ (s.disk.dinode sb j).type = 0 ∧ Tree sb s₁.disk ∧
      s₁.disk.dinode sb j = newInode type major minor ∧
      (∀ k, k ≠ j → s₁.disk.dinode sb k = s.disk.dinode sb k) ∧
      (∀ k, k < sb.ninodes → k ≠ j → ∀ c, s₁.disk.child sb k c = s.disk.child sb k c) ∧
      Holding sb base {(a, i), (b, j)} (insert a (insert b ∅)) s₁ := by
  have mem := Multiset.mem_singleton_self (a, i)
  have live : ∀ p ∈ ({(a, i)} : Multiset (Fin ninode × Nat)), (s.disk.dinode sb p.2).type ≠ 0 := by
    intro p there
    obtain rfl := Multiset.mem_singleton.mp there
    exact dir_live dir
  have run := Prog.follow run rfl
  rw [(h.entry a).dev (h.ref_pos mem)] at run
  obtain ⟨j, b, s₁, hj, free, run, disk₁, tree₁, h₁⟩ := ialloc_cases sound tree h live typed run
  have other : j ≠ i := by
    rintro rfl
    exact dir_live dir free
  have new := Multiset.mem_cons_self (b, j) {(a, i)}
  have apart : b ≠ a := by
    rintro rfl
    have number := h₁.inum_eq new
    rw [h₁.inum_eq (Multiset.mem_cons_of_mem mem)] at number
    exact other number.symm
  have made : s₁.disk.dinode sb j = { Dinode.zero with type := type } := by
    rw [disk₁, Disk.dinode_setDinode, if_pos rfl]
  have live₁ : (s₁.disk.dinode sb j).type ≠ 0 := by
    rw [made]
    exact typed
  obtain ⟨s₂, locked, disk₂, h₂⟩ := h₁.ilock_spec new (by simp [apart]) live₁
  have run := Prog.follow run locked
  rw [← disk₂] at live₁ made tree₁ disk₁
  obtain ⟨s₃', s₃, set, updated, disk₃, h₃⟩ := h₂.iupdate_spec new (Finset.mem_insert_self _ _)
    (f := fun node => { node with major := major, minor := minor, nlink := 1 }) live₁
  have run := Prog.follow run set
  have run := Prog.follow run updated
  have pair : (b, j) ::ₘ ({(a, i)} : Multiset (Fin ninode × Nat)) = {(a, i), (b, j)} :=
    Multiset.pair_comm _ _
  rw [pair, Finset.insert_comm] at h₃
  refine ⟨b, j, s₃, run, apart, other, hj, free, ?_, ?_, ?_, ?_, h₃⟩
  · rw [disk₃]
    exact tree₁.setDinode_same sound hj rfl live₁ rfl rfl
  · rw [disk₃, Disk.dinode_setDinode, if_pos rfl, made]
    rfl
  · intro k hk
    rw [disk₃, disk₁, Disk.dinode_setDinode, if_neg hk, Disk.dinode_setDinode, if_neg hk]
  · intro k hk ne c
    rw [disk₃, tree₁.child_setDinode sound hj hk ne, disk₁, tree.child_setDinode sound hj hk ne]

theorem enterName_ne_none {b : Fin ninode} {name : Chars} {q : Option (Fin ninode)}
    (run : enterName sb dev a b name s = some (q, t)) : q = some b := by
  obtain ⟨_, _, _, run⟩ := Prog.bind_eq_some.mp run
  obtain ⟨n, _, _, run⟩ := Prog.bind_eq_some.mp run
  by_cases failed : n < 0
  · rw [if_pos failed] at run
    cases run
  · rw [if_neg failed] at run
    obtain ⟨_, _, _, run⟩ := Prog.bind_eq_some.mp run
    exact (Prog.pure_eq_some.mp run).1.symm

/-- A name is entered: the directory is written, and let go. -/
theorem enterName_spec (sound : sb.Sound) (tree : Tree sb s.disk) {b : Fin ninode} {j : Nat}
    (apart : b ≠ a) (kept : (s.disk.dinode sb i).nlink ≠ 0 ∨ ∃ b, 0 < (base b).ref ∧ (base b).inum = i)
    (h : Holding sb base {(a, i), (b, j)} (insert a (insert b ∅)) s)
    (dir : (s.disk.dinode sb i).type = tDir) {name : Chars}
    (absent : s.disk.child sb i (keyOf name) = none) {q : Option (Fin ninode)}
    (run : enterName sb dev a b name s = some (q, t)) :
    q = some b ∧ Holding sb base {(b, j)} (insert b ∅) t ∧
      Held sb t.disk (s.disk.dinode sb) i (t.disk.dinode sb i) ∧
      Wrote sb s.disk i (s.disk.dinode sb i) (Dirent.sizeof * freeEntry (s.disk.entries sb i))
        (Dirent.named j name).bytes t.disk (t.disk.dinode sb i) := by
  have here := Finset.mem_insert_self a (insert b (∅ : Finset (Fin ninode)))
  have mem := Multiset.mem_cons_self (a, i) {(b, j)}
  have new : (b, j) ∈ (a, i) ::ₘ ({(b, j)} : Multiset (Fin ninode × Nat)) :=
    Multiset.mem_cons_of_mem (Multiset.mem_singleton_self _)
  have run := Prog.follow run rfl
  rw [h.inum_eq new] at run
  obtain ⟨s₁, run, h₁, held, wrote⟩ := h.dirlink_absent sound tree mem here dir absent run
  rw [if_neg (by decide)] at run
  have links : (s₁.disk.dinode sb i).nlink = (s.disk.dinode sb i).nlink := by
    rw [wrote.same]
  obtain ⟨s₂, put, disk, h₂⟩ := h₁.iunlockput_spec here fun _ => by
    rw [links]
    exact kept.imp_right h₁.shared
  have run := Prog.follow run put
  obtain ⟨rfl, rfl⟩ := Prog.pure_eq_some.mp run
  rw [Finset.erase_insert (by simp [apart.symm])] at h₂
  rw [disk]
  exact ⟨rfl, h₂, held, wrote⟩

/-- A new file or device: inode `j` was not in use, and is what create() makes. -/
theorem createNew_file (sound : sb.Sound) (tree : Tree sb s.disk) (kept : Kept sb base s.disk)
    (h : Holding sb base {(a, i)} (insert a ∅) s) (dir : (s.disk.dinode sb i).type = tDir)
    {name : Chars} (absent : s.disk.child sb i (keyOf name) = none) {type major minor : Int16}
    (typed : type ≠ 0) (file : type ≠ tDir) {q : Option (Fin ninode)}
    (run : createNew sb dev a name type major minor s = some (q, t)) :
    ∃ b j, q = some b ∧ j < sb.ninodes ∧ (s.disk.dinode sb j).type = 0 ∧
      t.disk.dinode sb j = newInode type major minor ∧ Holding sb base {(b, j)} (insert b ∅) t := by
  have hi := h.bound (Multiset.mem_singleton_self (a, i))
  obtain ⟨b, j, s₁, run, apart, other, hj, free, tree₁, made, nodes, children, h₁⟩ :=
    createNew_inode sound tree h dir typed run
  rw [Prog.when_neg file] at run
  have run := Prog.follow run rfl
  have parent := nodes i other.symm
  have kept₁ := kept i ⟨hi, dir_live dir⟩
  rw [← parent] at kept₁ dir
  rw [← children i hi other.symm] at absent
  obtain ⟨rfl, h₂, _, wrote⟩ := enterName_spec sound tree₁ apart kept₁ h₁ dir absent run
  exact ⟨b, j, rfl, hj, free, (wrote.nodes j hj other).trans made, h₂⟩

/-! ## create() -/

/-- The directory of the path exists, and has no entry for its last name. -/
def Missing (sb : Superblock) (s : Cached) (cwd : Fin ninode) (path : List UInt8) : Prop :=
  ∃ i c, s.disk.walkParent sb (s.start cwd path) (components path) = some (i, c) ∧
    s.disk.child sb i c = none

/-- create() for a name that is taken, or has no place to be. -/
def Taken (sb : Superblock) (s : Cached) (q : Option (Fin ninode)) (t : Cached) : Prop :=
  t.disk = s.disk ∧ ((q = none ∧ Holding sb s.inode 0 ∅ t) ∨
    ∃ a i, q = some a ∧ Holding sb s.inode {(a, i)} (insert a ∅) t)

/-- create() for a name that is new. -/
def Created (sb : Superblock) (s : Cached) (type major minor : Int16) (q : Option (Fin ninode))
    (t : Cached) : Prop :=
  ∃ b, q = some b ∧ (type ≠ tDir → ∃ j, j < sb.ninodes ∧ (s.disk.dinode sb j).type = 0 ∧
    t.disk.dinode sb j = newInode type major minor ∧ Holding sb s.inode {(b, j)} (insert b ∅) t)

theorem create_spec (sound : sb.Sound) (rest : s.AtRest sb) (used : 0 < (s.inode cwd).ref)
    (clean : 0 ∉ path) {type major minor : Int16} (typed : type ≠ 0) {q : Option (Fin ninode)}
    (run : create sb dev cwd path type major minor s = some (q, t)) :
    (¬ Missing sb s cwd path ∧ Taken sb s q t) ∨
    (Missing sb s cwd path ∧ Created sb s type major minor q t) := by
  obtain ⟨none, name, s₁, run, disk₁, h₁⟩ | ⟨i, a, name, s₁, found, run, disk₁, h₁⟩ :=
    nameiparent_cases rest used clean run
  · obtain ⟨rfl, rfl⟩ := Prog.pure_eq_some.mp run
    refine .inl ⟨?_, disk₁, .inl ⟨rfl, h₁⟩⟩
    rintro ⟨i, c, there, _⟩
    rw [none] at there
    cases there
  have mem := Multiset.mem_singleton_self (a, i)
  have here := Finset.mem_insert_self a (∅ : Finset (Fin ninode))
  have dir := (walkParent_some found).2.2
  obtain ⟨_, _, s₂, run, disk₂, h₂⟩ := h₁.ilock_cases mem run
  have disk₂ := disk₂.trans disk₁
  rw [← disk₂] at dir
  have tree₂ : Tree sb s₂.disk := disk₂ ▸ rest.tree
  have kept₂ : Kept sb s.inode s₂.disk := disk₂ ▸ rest.kept
  obtain ⟨child, search⟩ | ⟨j, child, got⟩ := h₂.dirlookup_spec tree₂ dev mem here dir name
  · have run := Prog.follow run search
    refine .inr ⟨⟨i, keyOf name, found, disk₂ ▸ child⟩, ?_⟩
    obtain ⟨b, _, s₃, rest, _⟩ := createNew_inode sound tree₂ h₂ dir typed run
    obtain ⟨_, _, _, entered⟩ := Prog.bind_eq_some.mp rest
    obtain rfl := enterName_ne_none entered
    refine ⟨b, rfl, fun file => ?_⟩
    obtain ⟨b', j, eq, hj, free, made, h₃⟩ :=
      createNew_file sound tree₂ kept₂ h₂ dir child typed file run
    obtain rfl := Option.some.inj eq
    exact ⟨j, hj, disk₂ ▸ free, made, h₃⟩
  · refine .inl ⟨?_, ?_⟩
    · rintro ⟨i', c, there, none⟩
      rw [found] at there
      obtain ⟨rfl, rfl⟩ := Prod.mk.inj (Option.some.inj there)
      rw [← disk₂, child] at none
      cases none
    obtain ⟨b, s₃, search, disk₃, h₃⟩ | ⟨halts, _⟩ := got
    case inr => exact absurd run fun run => Prog.not_follow run halts
    have run := Prog.follow run search
    have swap : (b, j) ::ₘ ({(a, i)} : Multiset (Fin ninode × Nat)) = (a, i) ::ₘ {(b, j)} :=
      Multiset.pair_comm _ _
    rw [swap] at h₃
    have kept₃ : Kept sb s.inode s₃.disk := disk₃ ▸ kept₂
    obtain ⟨s₄, put, disk₄, h₄⟩ := h₃.iunlockput_spec here (kept₃.reference h₃)
    have run := Prog.follow run put
    rw [Finset.erase_insert (Finset.notMem_empty a)] at h₄
    have mem := Multiset.mem_singleton_self (b, j)
    obtain ⟨_, _, s₅, run, disk₅, h₅⟩ := h₄.ilock_cases mem run
    have run := Prog.follow run rfl
    have disk₅ : s₅.disk = s.disk := ((disk₅.trans disk₄).trans disk₃).trans disk₂
    by_cases old : type = tFile ∧ (s₅.inode b).node.type = tFile
    · rw [if_pos old] at run
      obtain ⟨rfl, rfl⟩ := Prog.pure_eq_some.mp run
      exact ⟨disk₅, .inr ⟨b, j, rfl, h₅⟩⟩
    · rw [if_neg old] at run
      obtain ⟨rfl, disk₆, h₆⟩ := h₅.quits (disk₅ ▸ rest.kept) run
      exact ⟨disk₆.trans disk₅, .inl ⟨rfl, h₆⟩⟩

end Xv6.Sysfile
