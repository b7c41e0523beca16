import Xv6.Sysfile.Create

/-! A call that fails: what it leaves behind. -/

namespace Xv6.Sysfile
open Lib Fs Files
variable {sb : Superblock} {dev : Devsw} {base : Fin ninode → Inode} {s t : Cached}
  {cwd a : Fin ninode} {i : Nat} {path : List UInt8}

/-- The inodes and the contents of all files are what they were, and the call holds
no reference any more. -/
structure Unchanged (sb : Superblock) (s t : Cached) : Prop where
  nodes : ∀ i, t.disk.dinode sb i = s.disk.dinode sb i
  contents : ∀ i, Live sb s.disk i → t.disk.content (t.disk.dinode sb i) =
    s.disk.content (s.disk.dinode sb i)
  holding : Holding sb s.inode 0 ∅ t

theorem Unchanged.of_disk (disk : t.disk = s.disk) (h : Holding sb s.inode 0 ∅ t) :
    Unchanged sb s t :=
  ⟨fun i => by rw [disk], fun i _ => by rw [disk], h⟩

/-! ## link() -/

theorem Kept.retained (kept : Kept sb s.inode s.disk) (h : Holding sb s.inode {(a, i)} ∅ t)
    (nodes : ∀ k, k ≠ i → t.disk.dinode sb k = s.disk.dinode sb k) : Kept sb t.inode t.disk := by
  intro k live
  by_cases here : k = i
  · have mem := Multiset.mem_singleton_self (a, i)
    exact .inr ⟨a, h.ref_pos mem, (h.inum_eq mem).trans here.symm⟩
  · rw [Live, nodes k here] at live
    rw [nodes k here]
    obtain links | ⟨b, used, inum⟩ := kept k live
    · exact .inl links
    · exact .inr ⟨b, h.ref_base used, ((h.entry b).same used).trans inum⟩

/-- The undo of link(): the count of links is what it was. -/
theorem linkBad_spec (sound : sb.Sound) (rest : s.AtRest sb) (live : Live sb s.disk i)
    {up : Dinode} (eq : up = { s.disk.dinode sb i with nlink := (s.disk.dinode sb i).nlink + 1 })
    (disk : t.disk = s.disk.setDinode sb i up) (h : Holding sb s.inode {(a, i)} ∅ t) {n : Int}
    {t' : Cached} (run : linkBad sb a t = some (n, t')) : n = -1 ∧ Unchanged sb s t' := by
  have mem := Multiset.mem_singleton_self (a, i)
  have here := Finset.mem_insert_self a (∅ : Finset (Fin ninode))
  obtain ⟨_, typed, t₁, run, disk₁, h₁⟩ := h.ilock_cases mem run
  rw [← disk₁] at typed disk
  obtain ⟨t₂', t₂, set, updated, disk₂, h₂⟩ := h₁.iupdate_spec mem here
    (f := fun node => { node with nlink := node.nlink - 1 }) typed
  have run := Prog.follow run set
  have run := Prog.follow run updated
  have node : t₁.disk.dinode sb i = up := by
    rw [disk, Disk.dinode_setDinode, if_pos rfl]
  have wf : WellFormed sb t₁.disk := by
    rw [disk, eq]
    exact rest.tree.wellFormed.setDinode_same sound live.1 rfl live.2 rfl rfl
  have nodes (k : Nat) : t₂.disk.dinode sb k = s.disk.dinode sb k := by
    rw [disk₂, node, disk, Disk.dinode_setDinode, Disk.dinode_setDinode]
    by_cases here : k = i
    · rw [if_pos here, eq, here]
      simp
    · rw [if_neg here, if_neg here]
  have contents (k : Nat) (lives : Live sb s.disk k) : t₂.disk.content (t₂.disk.dinode sb k) =
      s.disk.content (s.disk.dinode sb k) := by
    have lives₁ : Live sb t₁.disk k := by
      rw [disk]
      exact lives.setDinode (by rw [eq]; exact live.2)
    calc t₂.disk.content (t₂.disk.dinode sb k)
        = t₁.disk.content (t₁.disk.dinode sb k) := by
          rw [disk₂]
          exact wf.contents_setDinode sound live.1 rfl rfl lives₁.1 lives₁.2
      _ = s.disk.content (s.disk.dinode sb k) := by
          rw [disk, eq]
          exact rest.tree.wellFormed.contents_setDinode sound live.1 rfl rfl lives.1 lives.2
  obtain ⟨t₃, put, disk₃, h₃⟩ := h₂.iunlockput_spec here fun _ => by
    rw [nodes]
    exact (rest.kept i live).imp_right (Holding.shared h₂)
  have run := Prog.follow run put
  obtain ⟨rfl, rfl⟩ := Prog.pure_eq_some.mp run
  rw [Finset.erase_insert (Finset.notMem_empty a)] at h₃
  refine ⟨rfl, fun k => ?_, fun k lives => ?_, h₃⟩
  · rw [disk₃]
    exact nodes k
  · rw [disk₃]
    exact contents k lives

/-- The second half of link(), with a reference to the file and one link more. -/
theorem linkInto_failed (sound : sb.Sound) (rest : s.AtRest sb) (used : 0 < (s.inode cwd).ref)
    (there : 0 < (s.inode a).ref) (clean : 0 ∉ path)
    (run : linkInto sb dev cwd a path s = some (-1, t)) :
    ∃ t₁, linkBad sb a t₁ = some (-1, t) ∧ t₁.disk = s.disk ∧ Holding sb s.inode 0 ∅ t₁ := by
  obtain ⟨_, name, s₁, run, disk₁, h₁⟩ | ⟨j, b, name, s₁, found, run, disk₁, h₁⟩ :=
    nameiparent_cases rest used clean run
  · exact ⟨s₁, run, disk₁, h₁⟩
  have mem := Multiset.mem_singleton_self (b, j)
  have here := Finset.mem_insert_self b (∅ : Finset (Fin ninode))
  obtain ⟨_, _, s₂, run, disk₂, h₂⟩ := h₁.ilock_cases mem run
  have run := Prog.follow run rfl
  have disk₂ := disk₂.trans disk₁
  have dir := (walkParent_some found).2.2
  rw [← disk₂] at dir
  have device : ¬ (s₂.inode b).dev ≠ (s₂.inode a).dev := by
    rw [(h₂.entry b).dev (h₂.ref_pos mem), (h₂.entry a).dev (h₂.ref_base there)]
    exact not_not_intro rfl
  rw [if_neg device] at run
  have tree₂ : Tree sb s₂.disk := disk₂ ▸ rest.tree
  have kept₂ : Kept sb s.inode s₂.disk := disk₂ ▸ rest.kept
  cases child : s₂.disk.child sb j (keyOf name) with
  | none =>
    obtain ⟨s₃, run, _⟩ := h₂.dirlink_absent sound tree₂ mem here dir child run
    rw [if_neg (by decide)] at run
    obtain ⟨_, _, _, run⟩ := Prog.bind_eq_some.mp run
    obtain ⟨_, _, _, run⟩ := Prog.bind_eq_some.mp run
    exact absurd (Prog.pure_eq_some.mp run).1 (by decide)
  | some k =>
    have mine : ∀ c ∈ insert b (∅ : Finset (Fin ninode)), ∃ k, (c, k) ∈
        ({(b, j)} : Multiset (Fin ninode × Nat)) := by
      intro c there
      obtain rfl : c = b := by simpa using there
      exact ⟨j, mem⟩
    obtain ⟨s₃, run, disk₃, h₃⟩ := h₂.dirlink_found tree₂ kept₂ mem here mine dir child run
    rw [if_pos (by decide)] at run
    obtain ⟨s₄, put, disk₄, h₄⟩ := h₃.gives_up (disk₃ ▸ kept₂)
    have run := Prog.follow run put
    exact ⟨s₄, run, (disk₄.trans disk₃).trans disk₂, h₄⟩

theorem sysLink_failed (sound : sb.Sound) (rest : s.AtRest sb) (used : 0 < (s.inode cwd).ref)
    {old new : List UInt8} (clean : 0 ∉ old) (clean' : 0 ∉ new)
    (run : sysLink sb dev cwd old new s = some (-1, t)) : Unchanged sb s t := by
  obtain ⟨_, s₁, run, disk₁, h₁⟩ | ⟨i, a, s₁, _, run, disk₁, h₁⟩ := namei_cases rest used clean run
  · obtain ⟨_, rfl⟩ := Prog.pure_eq_some.mp run
    exact .of_disk disk₁ h₁
  have mem := Multiset.mem_singleton_self (a, i)
  have here := Finset.mem_insert_self a (∅ : Finset (Fin ninode))
  have hi := h₁.bound mem
  obtain ⟨_, live, s₂, run, disk₂, h₂⟩ := h₁.ilock_cases mem run
  rw [disk₁] at disk₂ live
  have run := Prog.follow run rfl
  by_cases dir : (s₂.inode a).node.type = tDir
  · rw [if_pos dir] at run
    obtain ⟨_, disk₃, h₃⟩ := h₂.quits (disk₂ ▸ rest.kept) run
    exact .of_disk (disk₃.trans disk₂) h₃
  rw [if_neg dir] at run
  -- one link more
  obtain ⟨s₃', s₃, set, updated, disk₃, h₃⟩ := h₂.iupdate_spec mem here
    (f := fun node => { node with nlink := node.nlink + 1 }) (by rw [disk₂]; exact live)
  have run := Prog.follow run set
  have run := Prog.follow run updated
  obtain ⟨s₄, unlocked, disk₄, h₄⟩ := h₃.iunlock_spec here
  have run := Prog.follow run unlocked
  rw [Finset.erase_insert (Finset.notMem_empty a)] at h₄
  rw [disk₂] at disk₃
  rw [disk₃] at disk₄
  have rest₄ : s₄.AtRest sb := by
    refine ⟨?_, h₄.rebase ?_, Kept.retained rest.kept h₄ fun k ne => ?_⟩
    · rw [disk₄]
      exact rest.tree.setDinode_same sound hi rfl live rfl rfl
    · intro p there
      obtain rfl := Multiset.mem_singleton.mp there
      rw [disk₄, Disk.dinode_setDinode, if_pos rfl]
      exact live
    · rw [disk₄, Disk.dinode_setDinode, if_neg ne]
  obtain ⟨t₁, run, disk, h⟩ :=
    linkInto_failed sound rest₄ (h₄.ref_base used) (h₄.ref_pos mem) clean' run
  exact (linkBad_spec sound rest ⟨hi, live⟩ rfl (disk.trans disk₄) (h₄.trans h) run).2

/-! ## unlink() -/

/-- isdirempty() looks at the entries behind the first two. -/
theorem isdirempty_eq {d : Disk} {dp : Dinode} {es : List Dirent} (dir : Lists d dp es) :
    isdirempty sb dev dp d = some ((((es.drop 2).find? fun de => decide (de.inum ≠ 0)).isNone, dp), d) := by
  have size := dir.size
  by_cases two : 2 ≤ es.length
  · have enough : es.length - 2 < rounds dp := by
      rw [rounds, size, Nat.mul_div_cancel_left _ (by decide)]
      omega
    have scan := @Lists.scanDir_eq sb dev _ _ _ dir (fun de => decide (de.inum ≠ 0)) _ _ two enough
    have place : UInt32.ofNat (2 * Dirent.sizeof) = .ofNat (Dirent.sizeof * 2) := rfl
    simp only [isdirempty, bind, place, scan, ← List.getElem?_drop, SlotTable.getElem?_findIdx]
    rfl
  · have ends : ¬ UInt32.ofNat (2 * Dirent.sizeof) < dp.size := by
      rw [UInt32.lt_iff_toNat_lt, size]
      have : (UInt32.ofNat (2 * Dirent.sizeof)).toNat = 32 := rfl
      simp only [Dirent.sizeof] at this ⊢
      omega
    rw [List.drop_eq_nil_of_le (by omega)]
    simp only [isdirempty, bind, rounds, scanDir, ends, ↓reduceIte]
    rfl

/-- Inode `i` is a directory with an entry behind the first two. -/
def HasNames (sb : Superblock) (d : Disk) (i : Nat) : Prop :=
  (d.dinode sb i).type = tDir ∧
    (((d.entries sb i).drop 2).find? fun de => decide (de.inum ≠ 0)).isNone = false

instance (sb : Superblock) (d : Disk) (i : Nat) : Decidable (HasNames sb d i) :=
  inferInstanceAs (Decidable (_ ∧ _))

theorem isFull_eq {held : Multiset (Fin ninode × Nat)} {locks : Finset (Fin ninode)}
    (tree : Tree sb s.disk) (h : Holding sb base held locks s) (mem : (a, i) ∈ held)
    (lock : a ∈ locks) : isFull sb dev a s = some (decide (HasNames sb s.disk i), s) := by
  have node := h.node mem lock
  by_cases dir : (s.disk.dinode sb i).type = tDir
  · have empty := @isdirempty_eq sb dev _ _ _ (tree.isDir (h.bound mem) dir).1.lists
    have back : s.set a { s.inode a with node := s.disk.dinode sb i } = s := by
      rw [← node]
      exact s.set_self a
    simp only [isFull, bind, Prog.get, node, dir, ↓reduceIte, onNode, onDisk, Prog.onPart, empty,
      Prog.modify, back, HasNames, true_and]
    cases (((s.disk.entries sb i).drop 2).find? fun de => decide (de.inum ≠ 0)).isNone <;> rfl
  · simp only [isFull, bind, Prog.get, node, dir, ↓reduceIte, HasNames, false_and, decide_false]
    rfl

theorem removeName_zero {b : Fin ninode} {off : UInt32} {n : Int}
    (run : removeName sb dev a b off s = some (n, t)) : n = 0 := by
  obtain ⟨_, _, _, run⟩ := Prog.bind_eq_some.mp run
  obtain ⟨_, _, _, run⟩ := Prog.bind_eq_some.mp run
  obtain ⟨_, _, _, run⟩ := Prog.bind_eq_some.mp run
  obtain ⟨_, _, _, run⟩ := Prog.bind_eq_some.mp run
  obtain ⟨_, _, _, run⟩ := Prog.bind_eq_some.mp run
  obtain ⟨_, _, _, run⟩ := Prog.bind_eq_some.mp run
  obtain ⟨_, _, _, run⟩ := Prog.bind_eq_some.mp run
  exact (Prog.pure_eq_some.mp run).1.symm

theorem sysUnlink_failed (rest : s.AtRest sb) (used : 0 < (s.inode cwd).ref) (clean : 0 ∉ path)
    (run : sysUnlink sb dev cwd path s = some (-1, t)) : Unchanged sb s t := by
  obtain ⟨_, name, s₁, run, disk₁, h₁⟩ | ⟨i, a, name, s₁, found, run, disk₁, h₁⟩ :=
    nameiparent_cases rest used clean run
  · obtain ⟨_, rfl⟩ := Prog.pure_eq_some.mp run
    exact .of_disk disk₁ h₁
  have mem := Multiset.mem_singleton_self (a, i)
  have here := Finset.mem_insert_self a (∅ : Finset (Fin ninode))
  obtain ⟨_, _, s₂, run, disk₂, h₂⟩ := h₁.ilock_cases mem run
  have disk₂ := disk₂.trans disk₁
  have dir := (walkParent_some found).2.2
  rw [← disk₂] at dir
  have tree₂ : Tree sb s₂.disk := disk₂ ▸ rest.tree
  have kept₂ : Kept sb s.inode s₂.disk := disk₂ ▸ rest.kept
  -- the label bad
  have bad (run : (iunlockput sb a >>= fun _ => (pure (-1) : Prog Cached Int)) s₂ = some (-1, t)) :
      Unchanged sb s t := by
    obtain ⟨_, disk₃, h₃⟩ := h₂.quits kept₂ run
    exact .of_disk (disk₃.trans disk₂) h₃
  by_cases dots : namecmp name (charsOf [46]) = 0 ∨ namecmp name (charsOf [46, 46]) = 0
  · rw [if_pos dots] at run
    exact bad run
  rw [if_neg dots] at run
  obtain ⟨_, search⟩ | ⟨j, _, got⟩ := h₂.dirlookup_spec tree₂ dev mem here dir name
  · have run := Prog.follow run search
    exact bad run
  obtain ⟨b, s₃, search, disk₃, h₃⟩ | ⟨halts, _⟩ := got
  case inr => exact absurd run fun run => Prog.not_follow run halts
  have run := Prog.follow run search
  have new := Multiset.mem_cons_self (b, j) {(a, i)}
  have disk₃ := disk₃.trans disk₂
  obtain ⟨apart, _, s₄, run, disk₄, h₄⟩ := h₃.ilock_cases new run
  have disk₄ := disk₄.trans disk₃
  have run := Prog.follow run rfl
  by_cases few : (s₄.inode b).node.nlink < 1
  · rw [if_pos few] at run
    cases run
  rw [if_neg few] at run
  have locked := Finset.mem_insert_self b (insert a (∅ : Finset (Fin ninode)))
  have tree₄ : Tree sb s₄.disk := disk₄ ▸ rest.tree
  have run := Prog.follow run (isFull_eq tree₄ h₄ new locked)
  by_cases full : HasNames sb s₄.disk j
  · rw [decide_eq_true full, if_pos rfl] at run
    have kept₄ : Kept sb s.inode s₄.disk := disk₄ ▸ rest.kept
    obtain ⟨s₅, put, disk₅, h₅⟩ := h₄.iunlockput_spec locked (kept₄.reference h₄)
    have run := Prog.follow run put
    rw [Finset.erase_insert apart] at h₅
    have disk₅ := disk₅.trans disk₄
    obtain ⟨_, disk₆, h₆⟩ := h₅.quits (disk₅ ▸ rest.kept) run
    exact .of_disk (disk₆.trans disk₅) h₆
  · rw [decide_eq_false full, if_neg Bool.false_ne_true] at run
    exact absurd (removeName_zero run) (by decide)

/-! ## mkdir() and mknod() -/

theorem make_failed (sound : sb.Sound) (rest : s.AtRest sb) (used : 0 < (s.inode cwd).ref)
    (clean : 0 ∉ path) {type major minor : Int16} (typed : type ≠ 0)
    (run : make sb dev cwd path type major minor s = some (-1, t)) : Unchanged sb s t := by
  obtain ⟨q, s₁, made, run⟩ := Prog.bind_eq_some.mp run
  cases q with
  | some ip =>
    obtain ⟨_, _, _, run⟩ := Prog.bind_eq_some.mp run
    exact absurd (Prog.pure_eq_some.mp run).1 (by decide)
  | none =>
    obtain ⟨_, rfl⟩ := Prog.pure_eq_some.mp run
    obtain ⟨_, disk, ⟨_, h⟩ | ⟨a, i, some, _⟩⟩ | ⟨_, b, some, _⟩ :=
      create_spec sound rest used clean typed made
    · exact .of_disk disk h
    · cases some
    · cases some

/-! ## open() -/

/-- openInode() of a file that it has to make, and of any other. -/
theorem openInode_spec (sound : sb.Sound) (rest : s.AtRest sb) (used : 0 < (s.inode cwd).ref)
    (clean : 0 ∉ path) {omode : UInt32} {q : Option (Fin ninode)}
    (run : openInode sb dev cwd path omode s = some (q, t)) :
    (¬ (omode &&& oCreate ≠ 0 ∧ Missing sb s cwd path) ∧ Taken sb s q t) ∨
    (omode &&& oCreate ≠ 0 ∧ Missing sb s cwd path ∧ Created sb s tFile 0 0 q t) := by
  unfold openInode at run
  by_cases creates : omode &&& oCreate ≠ 0
  · rw [if_pos creates] at run
    obtain ⟨there, taken⟩ | ⟨missing, created⟩ :=
      create_spec sound rest used clean (by decide) run
    · exact .inl ⟨fun both => there both.2, taken⟩
    · exact .inr ⟨creates, missing, created⟩
  rw [if_neg creates] at run
  refine .inl ⟨fun both => creates both.1, ?_⟩
  obtain ⟨_, s₁, run, disk₁, h₁⟩ | ⟨i, a, s₁, _, run, disk₁, h₁⟩ := namei_cases rest used clean run
  · obtain ⟨rfl, rfl⟩ := Prog.pure_eq_some.mp run
    exact ⟨disk₁, .inl ⟨rfl, h₁⟩⟩
  obtain ⟨_, _, s₂, run, disk₂, h₂⟩ := h₁.ilock_cases (Multiset.mem_singleton_self (a, i)) run
  have disk₂ := disk₂.trans disk₁
  have run := Prog.follow run rfl
  by_cases refused : (s₂.inode a).node.type = tDir ∧ omode ≠ oRdonly
  · rw [if_pos refused] at run
    obtain ⟨rfl, disk₃, h₃⟩ := h₂.quits (disk₂ ▸ rest.kept) run
    exact ⟨disk₃.trans disk₂, .inl ⟨rfl, h₃⟩⟩
  · rw [if_neg refused] at run
    obtain ⟨rfl, rfl⟩ := Prog.pure_eq_some.mp run
    exact ⟨disk₂, .inr ⟨a, i, rfl, h₂⟩⟩

section files
variable {π : Type} {pipeclose : π → Bool → Prog (State π) Unit} {me : Slot} {x y : State π}

/-- There is no file, or no descriptor, to be had. -/
def Exhausted (x : State π) (me : Slot) : Prop :=
  (∀ f, (x.files.file f).ref ≠ 0) ∨ ∀ fd, x.files.ofile me fd ≠ none

/-- The files in use, the descriptors and the current directories are what they were. -/
structure SameFiles (x y : State π) : Prop where
  file : ∀ f, (x.files.file f).ref ≠ 0 → y.files.file f = x.files.file f
  ofile : y.files.ofile = x.files.ofile
  cwd : y.cwd = x.cwd

/-- A file that has not been used is not of any type. -/
theorem fileclose_unused {f : Fin nfile} {u : Unit} (one : (x.files.file f).ref = 1)
    (unused : (x.files.file f).type = .none) (run : fileclose sb pipeclose f x = some (u, y)) :
    y = { x with files := x.files.setFile f { x.files.file f with ref := 0, type := .none } } := by
  obtain ⟨ff, x₁, dropped, run⟩ := Prog.bind_eq_some.mp run
  obtain ⟨files, filed, rfl⟩ := Prog.onPart_eq_some.mp dropped
  obtain ⟨_, more, _⟩ | ⟨rfl, _, rfl⟩ := fileclose_cases filed
  · omega
  · dsimp only at run
    rw [unused] at run
    exact (Prog.pure_eq_some.mp run).2.symm

theorem openFile_none (free : ∀ f, (x.files.file f).ref = 0 → (x.files.file f).type = .none)
    (run : openFile sb pipeclose me x = some (none, y)) :
    Exhausted x me ∧ y.fs = x.fs ∧ SameFiles x y := by
  obtain ⟨f, x₁, allocated, run⟩ := Prog.bind_eq_some.mp run
  obtain ⟨files₁, filed, rfl⟩ := Prog.onPart_eq_some.mp allocated
  obtain ⟨rfl, rfl, full⟩ | ⟨f, rfl, zero, rfl⟩ := filealloc_cases filed
  · obtain ⟨_, rfl⟩ := Prog.pure_eq_some.mp run
    exact ⟨.inl full, rfl, fun _ _ => rfl, rfl, rfl⟩
  obtain ⟨fd, x₂, placed, run⟩ := Prog.bind_eq_some.mp run
  obtain ⟨files₂, filed, rfl⟩ := Prog.onPart_eq_some.mp placed
  obtain ⟨rfl, rfl, full⟩ | ⟨fd, rfl, _, rfl⟩ := fdalloc_cases filed
  case inr => cases (Prog.pure_eq_some.mp run).1
  obtain ⟨_, x₃, closed, run⟩ := Prog.bind_eq_some.mp run
  obtain ⟨_, rfl⟩ := Prog.pure_eq_some.mp run
  have last : (x.files.setFile f { x.files.file f with ref := 1 }).file f =
      { x.files.file f with ref := 1 } := by rw [file_setFile, if_pos rfl]
  obtain rfl := fileclose_unused (by rw [last]) (by rw [last]; exact free f zero) closed
  refine ⟨.inr full, rfl, fun g used => ?_, rfl, rfl⟩
  have other : g ≠ f := by
    rintro rfl
    exact used zero
  rw [file_setFile, if_neg other, file_setFile, if_neg other]

/-- open() makes a file, and then finds no way to hand it out. -/
def Strands (sb : Superblock) (x : State π) (me : Slot) (path : List UInt8) (omode : UInt32) :
    Prop :=
  omode &&& oCreate ≠ 0 ∧ Missing sb x.fs (x.cwd me) path ∧ Exhausted x me

theorem sysOpen_failed (sound : sb.Sound) (rest : x.fs.AtRest sb)
    (used : 0 < (x.fs.inode (x.cwd me)).ref)
    (free : ∀ f, (x.files.file f).ref = 0 → (x.files.file f).type = .none) (clean : 0 ∉ path)
    {omode : UInt32} (run : sysOpen sb dev pipeclose me path omode x = some (-1, y)) :
    SameFiles x y ∧
    ((¬ Strands sb x me path omode ∧ Unchanged sb x.fs y.fs) ∨
     (Strands sb x me path omode ∧ ∃ j, j < sb.ninodes ∧ (x.fs.disk.dinode sb j).type = 0 ∧
       (y.fs.disk.dinode sb j).type ≠ 0)) := by
  have run := Prog.follow run rfl
  obtain ⟨q, x₁, found, run⟩ := Prog.bind_eq_some.mp run
  obtain ⟨s₁, inode, rfl⟩ := Prog.onPart_eq_some.mp found
  have opened := openInode_spec sound rest used clean inode
  cases q with
  | none =>
    obtain ⟨_, rfl⟩ := Prog.pure_eq_some.mp run
    refine ⟨⟨fun _ _ => rfl, rfl, rfl⟩, ?_⟩
    obtain ⟨not, disk, ⟨_, h⟩ | ⟨a, i, some, _⟩⟩ | ⟨_, _, b, some, _⟩ := opened
    · exact .inl ⟨fun strands => not ⟨strands.1, strands.2.1⟩, .of_disk disk h⟩
    · cases some
    · cases some
  | some a =>
    obtain ⟨file, x₂, filed, run⟩ := Prog.bind_eq_some.mp run
    cases file with
    | some p =>
      obtain ⟨_, _, _, run⟩ := Prog.bind_eq_some.mp run
      obtain ⟨_, _, _, run⟩ := Prog.bind_eq_some.mp run
      have fd := (Prog.pure_eq_some.mp run).1
      omega
    | none =>
      obtain ⟨exhausted, fs₂, file, ofile, cwd⟩ := openFile_none (by exact free) filed
      obtain ⟨_, x₃, dropped, run⟩ := Prog.bind_eq_some.mp run
      obtain ⟨_, rfl⟩ := Prog.pure_eq_some.mp run
      obtain ⟨s₃, put, rfl⟩ := Prog.onPart_eq_some.mp dropped
      rw [fs₂] at put
      refine ⟨⟨file, ofile, cwd⟩, ?_⟩
      obtain ⟨not, disk, ⟨none, _⟩ | ⟨b, i, some, h⟩⟩ | ⟨creates, missing, b, some, made⟩ := opened
      · cases none
      · obtain rfl := Option.some.inj some
        obtain ⟨s₃', put', disk', h'⟩ := h.gives_up (disk ▸ rest.kept)
        obtain rfl := (Prod.mk.inj (Option.some.inj (put.symm.trans put'))).2
        exact .inl ⟨fun strands => not ⟨strands.1, strands.2.1⟩, .of_disk (disk'.trans disk) h'⟩
      · obtain rfl := Option.some.inj some
        obtain ⟨j, hj, unused, node, h⟩ := made (by decide)
        have links : (s₁.disk.dinode sb j).nlink ≠ 0 := by
          rw [node]
          decide
        obtain ⟨s₃', put', disk', _⟩ :=
          h.iunlockput_spec (Finset.mem_insert_self a ∅) fun _ => .inl links
        obtain rfl := (Prod.mk.inj (Option.some.inj (put.symm.trans put'))).2
        refine .inr ⟨⟨creates, missing, exhausted⟩, j, hj, unused, ?_⟩
        rw [disk', node]
        decide

/-! ## chdir() -/

theorem sysChdir_failed (rest : x.fs.AtRest sb) (used : 0 < (x.fs.inode (x.cwd me)).ref)
    (clean : 0 ∉ path) (run : sysChdir sb dev me path x = some (-1, y)) :
    SameFiles x y ∧ Unchanged sb x.fs y.fs := by
  have run := Prog.follow run rfl
  obtain ⟨q, x₁, found, run⟩ := Prog.bind_eq_some.mp run
  obtain ⟨s₁, walked, rfl⟩ := Prog.onPart_eq_some.mp found
  have walk : (namei sb dev (x.cwd me) path >>= pure) x.fs = some (q, s₁) :=
    Prog.bind_eq_some.mpr ⟨q, s₁, walked, rfl⟩
  obtain ⟨_, s₂, eq, disk, h⟩ | ⟨i, a, s₂, _, eq, disk, h⟩ := namei_cases rest used clean walk
  · obtain ⟨rfl, rfl⟩ := Prog.pure_eq_some.mp eq
    obtain ⟨_, rfl⟩ := Prog.pure_eq_some.mp run
    exact ⟨⟨fun _ _ => rfl, rfl, rfl⟩, .of_disk disk h⟩
  obtain ⟨rfl, rfl⟩ := Prog.pure_eq_some.mp eq
  obtain ⟨_, x₂, got, run⟩ := Prog.bind_eq_some.mp run
  obtain ⟨s₃, locked, rfl⟩ := Prog.onPart_eq_some.mp got
  have lock : (ilock sb a >>= pure) s₂ = some ((), s₃) :=
    Prog.bind_eq_some.mpr ⟨(), s₃, locked, rfl⟩
  obtain ⟨_, _, s₄, eq, disk₄, h₄⟩ := h.ilock_cases (Multiset.mem_singleton_self (a, i)) lock
  obtain ⟨_, rfl⟩ := Prog.pure_eq_some.mp eq
  have disk₄ := disk₄.trans disk
  have run := Prog.follow run rfl
  split at run
  · obtain ⟨_, x₃, dropped, run⟩ := Prog.bind_eq_some.mp run
    obtain ⟨_, rfl⟩ := Prog.pure_eq_some.mp run
    obtain ⟨s₅, put, rfl⟩ := Prog.onPart_eq_some.mp dropped
    obtain ⟨s₅', put', disk₅, h₅⟩ := h₄.gives_up (disk₄ ▸ rest.kept)
    obtain rfl := (Prod.mk.inj (Option.some.inj (put.symm.trans put'))).2
    exact ⟨⟨fun _ _ => rfl, rfl, rfl⟩, .of_disk (disk₅.trans disk₄) h₅⟩
  · obtain ⟨_, _, _, run⟩ := Prog.bind_eq_some.mp run
    obtain ⟨_, _, _, run⟩ := Prog.bind_eq_some.mp run
    obtain ⟨_, _, _, run⟩ := Prog.bind_eq_some.mp run
    exact absurd (Prog.pure_eq_some.mp run).1 (by decide)

/-! ## Every call -/

/-- The system between calls, with what a call of `me` may rely on. -/
structure Ready (sb : Superblock) (x : State π) (me : Slot) : Prop where
  fs : x.fs.AtRest sb
  cwd : 0 < (x.fs.inode (x.cwd me)).ref
  opened : ∀ fd f, x.files.ofile me fd = some f → (x.files.file f).ref ≠ 0
  unused : ∀ f, (x.files.file f).ref = 0 → (x.files.file f).type = .none

/-- The allocated inodes, their links, the contents of the directories and what
process `me` has open are the same. -/
structure NoTrace (sb : Superblock) (me : Slot) (x y : State π) : Prop where
  allocated : ∀ i, i < sb.ninodes →
    ((y.fs.disk.dinode sb i).type ≠ 0 ↔ (x.fs.disk.dinode sb i).type ≠ 0)
  links : ∀ i, Live sb x.fs.disk i →
    (y.fs.disk.dinode sb i).nlink = (x.fs.disk.dinode sb i).nlink
  directories : ∀ i, i < sb.ninodes → (x.fs.disk.dinode sb i).type = tDir →
    (y.fs.disk.dinode sb i).type = tDir ∧
    y.fs.disk.content (y.fs.disk.dinode sb i) = x.fs.disk.content (x.fs.disk.dinode sb i)
  descriptors : y.files.ofile me = x.files.ofile me
  files : ∀ fd f, x.files.ofile me fd = some f → y.files.file f = x.files.file f
  cwd : y.cwd me = x.cwd me
  here : (y.fs.inode (x.cwd me)).inum = (x.fs.inode (x.cwd me)).inum

theorem Unchanged.noTrace (ready : Ready sb x me) (same : SameFiles x y)
    (h : Unchanged sb x.fs y.fs) : NoTrace sb me x y where
  allocated i _ := by rw [h.nodes]
  links i _ := by rw [h.nodes]
  directories i hi dir := ⟨by rw [h.nodes]; exact dir, h.contents i ⟨hi, dir_live dir⟩⟩
  descriptors := by rw [same.ofile]
  files fd f held := same.file f (ready.opened fd f held)
  cwd := by rw [same.cwd]
  here := (h.holding.entry (x.cwd me)).same ready.cwd

/-- The calls that leave a file behind when they fail. -/
def Call.Strands (sb : Superblock) (x : State π) (me : Slot) : Call → Prop
  | .sysOpen (some path) (some omode) => Sysfile.Strands sb x me path omode
  | _ => False

/-- A call that changes the file system only. -/
theorem onFs_failed {f : Prog Cached Int} (run : onFs f x = some (-1, y))
    (failed : ∀ t, f x.fs = some (-1, t) → Unchanged sb x.fs t) :
    SameFiles x y ∧ Unchanged sb x.fs y.fs := by
  obtain ⟨t, ran, rfl⟩ := Prog.onPart_eq_some.mp run
  exact ⟨⟨fun _ _ => rfl, rfl, rfl⟩, failed t ran⟩

theorem call_failed (sound : sb.Sound) (ready : Ready sb x me) (c : Call)
    (run : call sb dev pipeclose me c x = some (-1, y)) :
    SameFiles x y ∧
    ((¬ c.Strands sb x me ∧ Unchanged sb x.fs y.fs) ∨
     (c.Strands sb x me ∧ ∃ j, j < sb.ninodes ∧ (x.fs.disk.dinode sb j).type = 0 ∧
       (y.fs.disk.dinode sb j).type ≠ 0)) := by
  -- an argument that could not be fetched
  have unfetched (run : (pure (-1) : Prog (State π) Int) x = some (-1, y)) :
      SameFiles x y ∧ Unchanged sb x.fs y.fs := by
    obtain ⟨_, rfl⟩ := Prog.pure_eq_some.mp run
    exact ⟨⟨fun _ _ => rfl, rfl, rfl⟩, .of_disk rfl ready.fs.holding⟩
  have only (h : SameFiles x y ∧ Unchanged sb x.fs y.fs) {P Q : Prop} (not : ¬ P) :
      SameFiles x y ∧ ((¬ P ∧ Unchanged sb x.fs y.fs) ∨ Q) := ⟨h.1, .inl ⟨not, h.2⟩⟩
  cases c with
  | sysOpen path omode =>
    cases path with
    | none => exact only (unfetched run) id
    | some path =>
      cases omode with
      | none => exact only (unfetched run) id
      | some omode => exact sysOpen_failed sound ready.fs ready.cwd ready.unused path.2 run
  | sysLink old new =>
    refine only ?_ id
    cases old with
    | none => exact unfetched run
    | some old =>
      cases new with
      | none => exact unfetched run
      | some new =>
        have run := Prog.follow run rfl
        exact onFs_failed run fun _ => sysLink_failed sound ready.fs ready.cwd old.2 new.2
  | sysUnlink path =>
    refine only ?_ id
    cases path with
    | none => exact unfetched run
    | some path =>
      have run := Prog.follow run rfl
      exact onFs_failed run fun _ => sysUnlink_failed ready.fs ready.cwd path.2
  | sysMkdir path =>
    refine only ?_ id
    cases path with
    | none => exact unfetched run
    | some path =>
      have run := Prog.follow run rfl
      exact onFs_failed run fun _ => make_failed sound ready.fs ready.cwd path.2 (by decide)
  | sysMknod path major minor =>
    refine only ?_ id
    cases path with
    | none => exact unfetched run
    | some path =>
      cases major with
      | none => exact unfetched run
      | some major =>
        cases minor with
        | none => exact unfetched run
        | some minor =>
          have run := Prog.follow run rfl
          exact onFs_failed run fun _ => make_failed sound ready.fs ready.cwd path.2 (by decide)
  | sysChdir path =>
    refine only ?_ id
    cases path with
    | none => exact unfetched run
    | some path => exact sysChdir_failed ready.fs ready.cwd path.2 run

/-- A failed call leaves no trace, except for an open() that makes the file it then
cannot hand out. -/
theorem failed_call_no_trace_iff (sound : sb.Sound) (ready : Ready sb x me) (c : Call)
    (run : call sb dev pipeclose me c x = some (-1, y)) :
    NoTrace sb me x y ↔ ¬ c.Strands sb x me := by
  obtain ⟨same, ⟨not, unchanged⟩ | ⟨strands, j, hj, free, used⟩⟩ := call_failed sound ready c run
  · exact iff_of_true (unchanged.noTrace ready same) not
  · exact iff_of_false (fun none => (none.allocated j hj).mp used free) (not_not_intro strands)

end files

/-- A file system with only the root directory, and no descriptor left. -/
def fullState : State Unit where
  fs := freshCached
  files :=
    { file := fun f => ⟨.none, if f.val = 0 then 16 else 0, true, true, 0⟩
      ofile := fun _ _ => some ⟨0, by decide⟩ }
  cwd _ := firstEntry

theorem ready_fullState (me : Slot) : Ready mkfs fullState me where
  fs := fresh_atRest
  cwd := Nat.one_pos
  opened fd f held := by
    obtain rfl := Option.some.inj held
    decide
  unused f _ := rfl

def noDevices : Devsw := ⟨fun _ => none, fun _ => none⟩

def firstSlot : Slot := ⟨0, by decide⟩

/-- open("a", 0) of a file that does not exist. -/
theorem missing_file_no_trace : ∃ y,
    call mkfs noDevices (fun _ _ => pure ()) firstSlot
      (.sysOpen (some ⟨[97], by decide⟩) (some 0)) fullState = some (-1, y) ∧
    NoTrace mkfs firstSlot fullState y := by
  have fails : (call mkfs noDevices (fun _ _ => pure ()) firstSlot
      (.sysOpen (some ⟨[97], by decide⟩) (some 0)) fullState).map (·.1) = some (-1) := by
    decide +kernel
  obtain ⟨⟨_, y⟩, run, rfl⟩ := Option.map_eq_some_iff.mp fails
  refine ⟨y, run, (failed_call_no_trace_iff mkfs_sound (ready_fullState firstSlot) _ run).mpr ?_⟩
  rintro ⟨creates, _⟩
  exact creates (by decide)

/-- open("a", O_CREATE|O_RDWR) when all descriptors are in use: the file is there
after the call has failed. -/
theorem stranded_file : ∃ y,
    call mkfs noDevices (fun _ _ => pure ()) firstSlot
      (.sysOpen (some ⟨[97], by decide⟩) (some (oCreate ||| oRdwr))) fullState = some (-1, y) ∧
    (fullState.fs.disk.dinode mkfs 2).type = 0 ∧ (y.fs.disk.dinode mkfs 2).type = tFile ∧
    ¬ NoTrace mkfs firstSlot fullState y := by
  have fails : (call mkfs noDevices (fun _ _ => pure ()) firstSlot
      (.sysOpen (some ⟨[97], by decide⟩) (some (oCreate ||| oRdwr))) fullState).map
        (fun r => (r.1, (r.2.fs.disk.dinode mkfs 2).type)) = some (-1, tFile) := by
    decide +kernel
  obtain ⟨⟨_, y⟩, run, eq⟩ := Option.map_eq_some_iff.mp fails
  obtain ⟨rfl, made⟩ := Prod.mk.inj eq
  have free : (fullState.fs.disk.dinode mkfs 2).type = 0 := by decide +kernel
  have hi : 2 < mkfs.ninodes := by decide
  refine ⟨y, run, free, made, fun none => (none.allocated 2 hi).mp ?_ free⟩
  rw [made]
  decide

end Xv6.Sysfile
