import Xv6.Fs.Paths
import Xv6.Fs.Updates

/-! What writes of inodes and of directory entries do to a tree. -/

namespace Xv6.Fs
open Lib
variable {sb : Superblock} {dev : Devsw} {d d' : Disk} {i j : Nat} {v : Dinode}

/-- Directories that have the contents they had, or none. -/
theorem Tree.of_contents (tree : Tree sb d) (wf : WellFormed sb d') (root : Live sb d' rootino)
    (dirs : ∀ k, k < sb.ninodes → (d'.dinode sb k).type = tDir →
      d'.content (d'.dinode sb k) = [] ∨
      (d.dinode sb k).type = tDir ∧ d'.content (d'.dinode sb k) = d.content (d.dinode sb k)) :
    Tree sb d' := by
  refine ⟨wf, root, fun k hk type => ?_⟩
  obtain nil | ⟨old, same⟩ := dirs k hk type
  · exact ⟨[], nil, fun de mem => absurd mem List.not_mem_nil⟩
  · rw [same]
    exact tree.listed k hk old

theorem Live.setDinode (old : Live sb d j) (live : v.type ≠ 0) : Live sb (d.setDinode sb i v) j := by
  refine ⟨old.1, ?_⟩
  rw [Disk.dinode_setDinode]
  split
  · exact live
  · exact old.2

theorem dir_live {ip : Dinode} (type : ip.type = tDir) : ip.type ≠ 0 := by
  rw [type]
  decide

/-- ialloc(): an inode that was not in use is an empty file. -/
theorem Tree.setDinode_new (sound : sb.Sound) (tree : Tree sb d) (hi : i < sb.ninodes)
    (free : (d.dinode sb i).type = 0) (empty : v.Empty) (live : v.type ≠ 0) :
    Tree sb (d.setDinode sb i v) := by
  have wf := tree.wellFormed.setDinode_empty sound hi (.inl free) empty
  refine tree.of_contents wf (tree.root.setDinode live) fun k hk type => ?_
  rw [Disk.dinode_setDinode] at type ⊢
  by_cases here : k = i
  · rw [if_pos here]
    exact .inl (empty.content _)
  · rw [if_neg here] at type ⊢
    exact .inr ⟨type, tree.wellFormed.content_setDinode sound hi v hk (dir_live type)⟩

/-- iupdate() of an inode with the type and the blocks that it had. -/
theorem Tree.setDinode_same (sound : sb.Sound) (tree : Tree sb d) (hi : i < sb.ninodes)
    (type : v.type = (d.dinode sb i).type) (live : v.type ≠ 0)
    (addrs : v.addrs = (d.dinode sb i).addrs) (size : v.size = (d.dinode sb i).size) :
    Tree sb (d.setDinode sb i v) := by
  have wf := tree.wellFormed.setDinode_same sound hi type live addrs size
  refine tree.of_contents wf (tree.root.setDinode live) fun k hk dir => .inr ?_
  have old : (d.dinode sb k).type = tDir := by
    rw [Disk.dinode_setDinode] at dir
    by_cases here : k = i
    · rw [if_pos here, type] at dir
      rw [here, dir]
    · rw [if_neg here] at dir
      exact dir
  exact ⟨old, tree.wellFormed.contents_setDinode sound hi addrs size hk (dir_live old)⟩

/-- A directory with the contents that it had. -/
theorem entries_congr (size : (d'.dinode sb i).size = (d.dinode sb i).size)
    (content : d'.content (d'.dinode sb i) = d.content (d.dinode sb i)) :
    d'.entries sb i = d.entries sb i := by
  rw [Disk.entries, Disk.entries, size, content]

theorem child_congr (type : (d'.dinode sb i).type = (d.dinode sb i).type)
    (size : (d'.dinode sb i).size = (d.dinode sb i).size)
    (content : d'.content (d'.dinode sb i) = d.content (d.dinode sb i)) (c : List UInt8) :
    d'.child sb i c = d.child sb i c := by
  rw [Disk.child, Disk.child, type, entries_congr size content]

/-- The write of an inode is not seen in other directories. -/
theorem Tree.child_setDinode (sound : sb.Sound) (tree : Tree sb d) (hi : i < sb.ninodes)
    (hj : j < sb.ninodes) (other : j ≠ i) (v : Dinode) (c : List UInt8) :
    (d.setDinode sb i v).child sb j c = d.child sb j c := by
  have node : (d.setDinode sb i v).dinode sb j = d.dinode sb j := by
    rw [Disk.dinode_setDinode, if_neg other]
  by_cases type : (d.dinode sb j).type = tDir
  · apply child_congr
    · rw [node]
    · rw [node]
    · rw [node]
      exact tree.wellFormed.content_setDinode sound hi v hj (dir_live type)
  · rw [child_of_not_dir type, child_of_not_dir (by rw [node]; exact type)]

/-! ## ialloc() -/

theorem ialloc_spec {type : Int16} (run : ialloc sb type d = some (j, d')) :
    j < sb.ninodes ∧ (d.dinode sb j).type = 0 ∧
      d' = d.setDinode sb j { Dinode.zero with type := type } := by
  have run := Prog.follow run rfl
  cases found : (List.range' 1 (sb.ninodes - 1)).find? fun i => (d.dinode sb i).type == 0 with
  | none => simp [found] at run
  | some k =>
    simp only [found] at run
    have run := Prog.follow run rfl
    obtain ⟨rfl, rfl⟩ := Prog.pure_eq_some.mp run
    have range := List.mem_range'_1.mp (List.mem_of_find?_eq_some found)
    refine ⟨by omega, ?_, rfl⟩
    simpa using List.find?_some found

theorem empty_zero (type : Int16) : ({ Dinode.zero with type := type } : Dinode).Empty :=
  ⟨fun _ => rfl, rfl⟩

/-! ## dirlink() -/

/-- Without an entry for the name, an entry is written where there is room. -/
theorem Lists.addEntry_eq {dp : Dinode} {es : List Dirent} (dir : Lists d dp es) (name : Chars)
    (inum : Nat) : addEntry sb dev i dp name inum d =
      writeEntry sb dev i dp (.named inum name) (.ofNat (Dirent.sizeof * freeEntry es)) d := by
  have scan := @scan_all sb dev _ _ _ dir fun de => decide (de.inum = 0)
  simp only [addEntry, bind, scan]
  rfl

section links
variable {base : Fin ninode → Inode} {held : Multiset (Fin ninode × Nat)}
  {locks : Finset (Fin ninode)} {s : Cached} {a : Fin ninode} {name : Chars} {inum : Nat}
  {α : Type} {r : α × Cached} {f : Int → Prog Cached α}

/-- What follows dirlink() of a name that is taken. -/
theorem Holding.dirlink_found (h : Holding sb base held locks s) (tree : Tree sb s.disk)
    (kept : Kept sb base s.disk) (mem : (a, i) ∈ held) (lock : a ∈ locks)
    (mine : ∀ b ∈ locks, ∃ k, (b, k) ∈ held) (type : (s.disk.dinode sb i).type = tDir)
    (found : s.disk.child sb i (keyOf name) = some j)
    (run : (Cached.dirlink sb dev a name inum >>= f) s = some r) :
    ∃ t, f (-1) t = some r ∧ t.disk = s.disk ∧ Holding sb base held locks t := by
  obtain ⟨n, t, linked, run⟩ := Prog.bind_eq_some.mp (show _ = some (r.1, r.2) from run)
  obtain ⟨absent, _⟩ | ⟨k, child, got⟩ := h.dirlookup_spec tree dev mem lock type name
  · rw [absent] at found
    cases found
  obtain ⟨b, t₁, search, disk₁, h₁⟩ | ⟨halts, _⟩ := got
  · have linked := Prog.follow linked search
    have kept₁ : Kept sb base t₁.disk := disk₁ ▸ kept
    have shared (locked : b ∈ locks) : 1 < (t₁.inode b).ref := by
      obtain ⟨m, there⟩ := mine b locked
      have one := Holding.count_pos there
      have ref := (h₁.entry b).ref
      have count := Holding.count_cons (b, k) held
      dsimp only at count
      omega
    obtain ⟨t₂, put, disk₂, h₂⟩ := h₁.iput_spec shared (kept₁.reference h₁)
    have linked := Prog.follow linked put
    obtain ⟨rfl, rfl⟩ := Prog.pure_eq_some.mp linked
    exact ⟨t₂, run, disk₂.trans disk₁, h₂⟩
  · exact absurd linked fun linked => Prog.not_follow linked halts

/-- What follows dirlink() of a name that is not taken. -/
theorem Holding.dirlink_absent (sound : sb.Sound) (h : Holding sb base held locks s)
    (tree : Tree sb s.disk) (mem : (a, i) ∈ held) (lock : a ∈ locks)
    (type : (s.disk.dinode sb i).type = tDir) (absent : s.disk.child sb i (keyOf name) = none)
    (run : (Cached.dirlink sb dev a name inum >>= f) s = some r) :
    ∃ t, f 0 t = some r ∧ Holding sb base held locks t ∧
      Held sb t.disk (s.disk.dinode sb) i (t.disk.dinode sb i) ∧
      Wrote sb s.disk i (s.disk.dinode sb i) (Dirent.sizeof * freeEntry (s.disk.entries sb i))
        (Dirent.named inum name).bytes t.disk (t.disk.dinode sb i) := by
  obtain ⟨n, t, linked, run⟩ := Prog.bind_eq_some.mp (show _ = some (r.1, r.2) from run)
  obtain ⟨_, search⟩ | ⟨k, child, _⟩ := h.dirlookup_spec tree dev mem lock type name
  case inr =>
    rw [absent] at child
    cases child
  have linked := Prog.follow linked search
  obtain ⟨_, t₁, wrote, linked⟩ := Prog.bind_eq_some.mp linked
  obtain ⟨rfl, rfl⟩ := Prog.pure_eq_some.mp linked
  obtain ⟨node, did, keep⟩ := h.onNode_spec mem lock wrote
  obtain ⟨dp, d, added, did⟩ := Prog.bind_eq_some.mp did
  obtain ⟨eq, rfl⟩ := Prog.pure_eq_some.mp did
  obtain rfl := (Prod.mk.inj eq).2
  have dir := (tree.isDir (h.bound mem) type).1
  rw [dir.lists.addEntry_eq] at added
  obtain ⟨_, held', written⟩ := dir.writeEntry_wrote sound added
  have le : freeEntry (s.disk.entries sb i) ≤ (s.disk.entries sb i).length := List.findIdx_le_length
  rw [dir.lists.toNat_off le] at written
  have live : dp.type ≠ 0 := by
    rw [written.same]
    exact dir_live type
  obtain rfl := written.stored
  exact ⟨t₁, run, keep rfl live written.nodes, held', written⟩

end links

end Xv6.Fs
