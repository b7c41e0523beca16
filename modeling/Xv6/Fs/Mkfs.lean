import Mathlib.Algebra.GroupWithZero.Nat
import Xv6.Fs.Image
import Xv6.Fs.Updates

/-! The image that mkfs writes for any input files, as the kernel reads it. -/

namespace Xv6.Mkfs
open Lib Fs

/-! ## Inodes that have been handed out -/

/-- The image so far, as a file system of the kernel. -/
structure Stage (img : Image) (d : Disk) : Prop where
  sim : Sim img d
  wellFormed : WellFormed mkfs d
  unused : ∀ j, img.freeinode ≤ j → j < mkfs.ninodes → (d.dinode mkfs j).type = 0
  super : img.block 1 = superblock

/-- Inode `i` is a file of the given type with the given contents. -/
structure Holds (d : Disk) (i : Nat) (type : Int16) (c : List UInt8) : Prop where
  bound : i < mkfs.ninodes
  live : type ≠ 0
  kind : (d.dinode mkfs i).type = type
  content : d.content (d.dinode mkfs i) = c

section
variable {img img' : Image} {d d' : Disk} {i j : Nat} {type t : Int16} {c src : List UInt8}

theorem Holds.size (h : Holds d i type c) : (d.dinode mkfs i).size.toNat = c.length := by
  rw [← length_content d, h.content]

theorem Stage.old (stage : Stage img d) (h : Holds d i type c) : i < img.freeinode := by
  by_contra le
  have zero := stage.unused i (Nat.le_of_not_lt le) h.bound
  rw [h.kind] at zero
  exact h.live zero

theorem empty_newInode (type : Int16) : (newInode type).Empty := ⟨fun _ => rfl, rfl⟩

/-- An inode of type 0 becomes an empty file. -/
theorem wellFormed_newInode (wf : WellFormed mkfs d) (hi : i < mkfs.ninodes)
    (free : (d.dinode mkfs i).type = 0) (type : Int16) :
    WellFormed mkfs (d.setDinode mkfs i (newInode type)) :=
  wf.setDinode_empty mkfs_sound hi (.inl free) (empty_newInode type)

/-- A write of one inode leaves the contents of the others. -/
theorem Holds.setDinode (wf : WellFormed mkfs d) (h : Holds d j t c) (other : j ≠ i)
    (hi : i < mkfs.ninodes) (ip : Dinode) : Holds (d.setDinode mkfs i ip) j t c := by
  have node : (d.setDinode mkfs i ip).dinode mkfs j = d.dinode mkfs j := by
    rw [Disk.dinode_setDinode, if_neg other]
  have live : (d.dinode mkfs j).type ≠ 0 := by
    rw [h.kind]
    exact h.live
  refine ⟨h.bound, h.live, by rw [node, h.kind], ?_⟩
  rw [node, ← h.content]
  exact wf.content_setDinode mkfs_sound hi ip h.bound live

/-- A new inode; everything else is as it was. -/
theorem Stage.ialloc (stage : Stage img d) (room : img.freeinode < mkfs.ninodes)
    (live : type ≠ 0) :
    ∃ img' d', ialloc type img = some (img.freeinode, img') ∧ Stage img' d' ∧
      img'.freeinode = img.freeinode + 1 ∧ img'.freeblock = img.freeblock ∧
      Holds d' img.freeinode type [] ∧ ∀ j t c, Holds d j t c → Holds d' j t c := by
  have free := stage.unused _ (Nat.le_refl _) room
  have sim : Sim { img with freeinode := img.freeinode + 1 } d :=
    ⟨stage.sim.data, stage.sim.map, stage.sim.blank, stage.sim.low, stage.sim.high⟩
  obtain ⟨img', run, sim', inodes, super⟩ := sim.winode room (newInode type)
  have node (j : Nat) := @Disk.dinode_setDinode mkfs d img.freeinode j (newInode type)
  have blocks : img'.freeblock = img.freeblock := by
    have before := stage.sim.free
    have after := sim'.free
    rw [free_congr fun b hb => Disk.used_setDinode mkfs_sound room hb _, before] at after
    have := stage.sim.high
    have := sim'.high
    omega
  refine ⟨img', _, ?_, ⟨sim', wellFormed_newInode stage.wellFormed room free type, ?_,
    super.trans stage.super⟩, inodes, blocks, ⟨room, live, ?_, ?_⟩, ?_⟩
  · exact Prog.bind_eq_some.mpr ⟨img, img, rfl, Prog.bind_eq_some.mpr
      ⟨(), _, rfl, Prog.bind_eq_some.mpr ⟨(), img', run, rfl⟩⟩⟩
  · intro j le hj
    rw [inodes] at le
    have le : img.freeinode + 1 ≤ j := le
    rw [node, if_neg (by omega)]
    exact stage.unused j (by omega) hj
  · rw [node, if_pos rfl]
    rfl
  · rw [node, if_pos rfl]
    rfl
  · intro j t c h
    exact h.setDinode stage.wellFormed (Nat.ne_of_lt (stage.old h)) room _

/-- Bytes at the end of a file; the other files are as they were. -/
theorem Stage.append (stage : Stage img d) (h : Holds d i type c) (file : type ≠ tDev)
    (some : src ≠ []) (small : c.length + src.length ≤ maxfile * bsize)
    (enough : img.freeblock + growth (blocksFor c.length) (blocksFor (c.length + src.length)) ≤ fsSize) :
    ∃ img' d', iappend i src img = Option.some ((), img') ∧ Stage img' d' ∧
      img'.freeinode = img.freeinode ∧
      img'.freeblock = img.freeblock + growth (blocksFor c.length) (blocksFor (c.length + src.length)) ∧
      Holds d' i type (c ++ src) ∧ ∀ j t e, j ≠ i → Holds d j t e → Holds d' j t e := by
  let dev : Devsw := ⟨fun _ => none, fun _ => none⟩
  have wf := stage.wellFormed
  have live : (d.dinode mkfs i).type ≠ 0 := by
    rw [h.kind]
    exact h.live
  have notDev : (d.dinode mkfs i).type ≠ tDev := by
    rw [h.kind]
    exact file
  have held := wf.held h.bound live
  have shape := wf.shape i h.bound live
  have size := h.size
  have limit : maxfile * bsize < 2 ^ 31 := by decide
  have ok : ¬ Refused (d.dinode mkfs i) (d.dinode mkfs i).size.toNat src.length := by
    unfold Refused
    omega
  have more : blocksFor c.length ≤ blocksFor (c.length + src.length) :=
    Nat.div_le_div_right (by omega)
  have grows : growth (blocksFor (d.dinode mkfs i).size.toNat)
      (blocksAfter (d.dinode mkfs i) (d.dinode mkfs i).size.toNat src.length) ≤ d.free mkfs := by
    rw [blocksAfter, size, Nat.max_eq_right more, stage.sim.free]
    omega
  obtain ⟨⟨r, ip'⟩, d', run⟩ := writei_returns mkfs_sound dev held shape ok grows
  obtain ⟨-, held', wrote⟩ := writei_spec mkfs_sound dev held notDev shape rfl (by omega) ok run
  obtain ⟨⟨img', run', sim', inodes, super⟩, free⟩ :=
    stage.sim.iappend dev some held notDev shape (by omega) run
  have type' : (d'.dinode mkfs i).type = type := by
    rw [wrote.stored, wrote.same]
    exact h.kind
  refine ⟨img', d', run', ⟨sim', wrote.wellFormed held' wf, ?_, super.trans stage.super⟩, inodes, ?_,
    ⟨h.bound, h.live, type', ?_⟩, ?_⟩
  · intro j le hj
    rw [inodes] at le
    have other : j ≠ i := Nat.ne_of_gt (Nat.lt_of_lt_of_le (stage.old h) le)
    rw [wrote.nodes j hj other]
    exact stage.unused j le hj
  · rw [size, sim'.free, stage.sim.free] at free
    have := stage.sim.high
    have := sim'.high
    omega
  · rw [wrote.stored, wrote.content, h.content, size, spliced, List.take_length,
      List.drop_eq_nil_of_le (by omega), List.append_nil]
  · intro j t e other h'
    have live' : (d.dinode mkfs j).type ≠ 0 := by
      rw [h'.kind]
      exact h'.live
    refine ⟨h'.bound, h'.live, ?_, ?_⟩
    · rw [wrote.nodes j h'.bound other, h'.kind]
    · rw [wrote.content_other held' wf other h'.bound live', h'.content]

end

/-! ## The files and the root directory -/

/-- The blocks of a file with `n` bytes. -/
def cost (n : Nat) : Nat := growth 0 (blocksFor n)

theorem cost_add (a b : Nat) :
    cost a + growth (blocksFor a) (blocksFor (a + b)) = cost (a + b) :=
  growth_add (Nat.zero_le _) (Nat.div_le_div_right (by omega))

theorem cost_mono {a b : Nat} (h : a ≤ b) : cost a ≤ cost b := by
  obtain ⟨k, rfl⟩ := Nat.exists_eq_add_of_le h
  rw [← cost_add]
  exact Nat.le_add_right _ _

/-- How many blocks are taken when the root directory has `n` entries and the files have
the given lengths. -/
def taken (n : Nat) (lengths : List Nat) : Nat :=
  mkfs.nmeta + cost (Dirent.sizeof * n) + (lengths.map cost).sum

/-- The image with the files `cs` and the entries `es` in the root directory. -/
structure Built (img : Image) (d : Disk) (es : List Dirent) (cs : List (List UInt8)) : Prop where
  stage : Stage img d
  inodes : img.freeinode = cs.length + 2
  root : Holds d rootino tDir (entryBytes es)
  files : ∀ k c, cs[k]? = some c → Holds d (k + 2) tFile c
  blocks : img.freeblock = taken es.length (cs.map List.length)

section
variable {img img' : Image} {d d' : Disk} {es : List Dirent} {cs : List (List UInt8)}

theorem Built.newFile (built : Built img d es cs) (room : cs.length + 2 < mkfs.ninodes) :
    ∃ img' d', ialloc tFile img = some (cs.length + 2, img') ∧ Built img' d' es (cs ++ [[]]) := by
  have inodes := built.inodes
  obtain ⟨img', d', run, stage, inodes', blocks, new, old⟩ :=
    built.stage.ialloc (by omega) (show tFile ≠ 0 by decide)
  rw [inodes] at run new inodes'
  refine ⟨img', d', run, stage, ?_, old _ _ _ built.root, ?_, ?_⟩
  · rw [inodes', List.length_append]
    rfl
  · intro k c there
    rcases Nat.lt_trichotomy k cs.length with lt | rfl | gt
    · rw [List.getElem?_append_left lt] at there
      exact old _ _ _ (built.files k c there)
    · rw [List.getElem?_concat_length] at there
      cases there
      exact new
    · rw [List.getElem?_eq_none (by rw [List.length_append]; exact gt)] at there
      cases there
  · rw [blocks, built.blocks]
    simp [taken, cost, blocksFor, growth, bsize]

/-- An entry at the end of the root directory. -/
theorem Built.link (built : Built img d es cs) (de : Dirent) (few : es.length < mkfs.ninodes)
    (enough : taken (es.length + 1) (cs.map List.length) ≤ fsSize) :
    ∃ img' d', iappend rootino de.bytes img = some ((), img') ∧ Built img' d' (es ++ [de]) cs := by
  have blocks := built.blocks
  have next : Dirent.sizeof * es.length + Dirent.sizeof = Dirent.sizeof * (es.length + 1) := rfl
  have add := cost_add (Dirent.sizeof * es.length) Dirent.sizeof
  rw [next] at add
  unfold taken at blocks enough
  have some : de.bytes ≠ [] := List.ne_nil_of_length_pos (by rw [de.length_bytes]; decide)
  have step := built.stage.append built.root (by decide) some
  rw [length_entryBytes, de.length_bytes, next] at step
  obtain ⟨img', d', run, stage, inodes, blocks', root, old⟩ := step
    (Nat.le_trans (Nat.mul_le_mul_left _ (Nat.succ_le_of_lt few)) (by decide)) (by omega)
  refine ⟨img', d', run, stage, inodes.trans built.inodes, ?_, ?_, ?_⟩
  · rw [entryBytes_append]
    simpa [entryBytes] using root
  · exact fun k c there => old _ _ _ (by simp [rootino]) (built.files k c there)
  · rw [blocks', taken, List.length_append, List.length_singleton]
    omega

/-- Bytes at the end of the last file. -/
theorem Built.extend {c : List UInt8} (built : Built img d es (cs ++ [c])) {src : List UInt8}
    (nonempty : src ≠ []) (small : c.length + src.length ≤ maxfile * bsize)
    (enough : taken es.length ((cs ++ [c ++ src]).map List.length) ≤ fsSize) :
    ∃ img' d', iappend (cs.length + 2) src img = some ((), img') ∧
      Built img' d' es (cs ++ [c ++ src]) := by
  have blocks := built.blocks
  have add := cost_add c.length src.length
  have sums (e : List UInt8) : (((cs ++ [e]).map List.length).map cost).sum =
      ((cs.map List.length).map cost).sum + cost e.length := by simp
  unfold taken at blocks enough
  rw [sums, List.length_append] at enough
  rw [sums] at blocks
  have last := built.files cs.length c List.getElem?_concat_length
  obtain ⟨img', d', run, stage, inodes, blocks', file, old⟩ :=
    built.stage.append last (by decide) nonempty small (by omega)
  refine ⟨img', d', run, stage, ?_, old _ _ _ (by simp [rootino]) built.root, ?_, ?_⟩
  · rw [inodes, built.inodes]
    simp
  · intro k e there
    rcases Nat.lt_trichotomy k cs.length with lt | rfl | gt
    · rw [List.getElem?_append_left lt] at there
      refine old _ _ _ (by omega) (built.files k e ?_)
      rw [List.getElem?_append_left lt]
      exact there
    · rw [List.getElem?_concat_length] at there
      cases there
      exact file
    · rw [List.getElem?_eq_none (by rw [List.length_append]; exact gt)] at there
      cases there
  · rw [blocks', taken, sums, List.length_append]
    omega

/-- All that is read from a file. -/
theorem Built.extendAll {c : List UInt8} {reads : List (List UInt8)}
    (built : Built img d es (cs ++ [c])) (filled : ∀ r ∈ reads, 0 < r.length)
    (small : (c ++ reads.flatten).length ≤ maxfile * bsize)
    (enough : taken es.length ((cs ++ [c ++ reads.flatten]).map List.length) ≤ fsSize) :
    ∃ img' d', Prog.each (iappend (cs.length + 2)) reads img = some ((), img') ∧
      Built img' d' es (cs ++ [c ++ reads.flatten]) := by
  induction reads generalizing img d c with
  | nil => exact ⟨img, d, rfl, by simpa using built⟩
  | cons r reads ih =>
    have whole : c ++ (r :: reads).flatten = c ++ r ++ reads.flatten := by simp
    rw [whole] at small enough ⊢
    have less : taken es.length ((cs ++ [c ++ r]).map List.length) ≤
        taken es.length ((cs ++ [c ++ r ++ reads.flatten]).map List.length) := by
      have := cost_mono (a := (c ++ r).length) (b := (c ++ r ++ reads.flatten).length) (by simp)
      simp only [taken, List.map_append, List.map_cons, List.map_nil, List.sum_append, List.sum_cons,
        List.sum_nil]
      omega
    rw [List.length_append] at small
    obtain ⟨img₁, d₁, run, built₁⟩ := built.extend
      (List.ne_nil_of_length_pos (filled r List.mem_cons_self))
      (by rw [← List.length_append]; omega) (Nat.le_trans less enough)
    obtain ⟨img₂, d₂, run', built₂⟩ := ih built₁
      (fun r' mem => filled r' (List.mem_cons_of_mem r mem)) (by rw [List.length_append]; exact small)
      enough
    exact ⟨img₂, d₂, Prog.bind_eq_some.mpr ⟨(), img₁, run, run'⟩, built₂⟩

/-- The entry of the `n`th file. -/
def entryOf (n : Nat) (f : File) : Dirent := .named (n + 2) (charsOf f.stored)

theorem Built.addFile (built : Built img d es cs) {f : File} (plain : 47 ∉ f.name)
    (room : cs.length + 2 < mkfs.ninodes) (few : es.length < mkfs.ninodes)
    (small : f.bytes.length ≤ maxfile * bsize)
    (enough : taken (es.length + 1) ((cs ++ [f.bytes]).map List.length) ≤ fsSize) :
    ∃ img' d', addFile rootino f img = some ((), img') ∧
      Built img' d' (es ++ [entryOf cs.length f]) (cs ++ [f.bytes]) := by
  have first : taken (es.length + 1) ((cs ++ [[]]).map List.length) ≤ fsSize := by
    refine Nat.le_trans ?_ enough
    have := cost_mono (Nat.zero_le f.bytes.length)
    simp only [taken, List.map_append, List.map_cons, List.map_nil, List.sum_append, List.sum_cons,
      List.sum_nil, List.length_nil]
    omega
  obtain ⟨img₁, d₁, run₁, built₁⟩ := built.newFile room
  obtain ⟨img₂, d₂, run₂, built₂⟩ := built₁.link (entryOf cs.length f) few first
  have enough' : taken (es ++ [entryOf cs.length f]).length
      ((cs ++ [[] ++ f.reads.flatten]).map List.length) ≤ fsSize := by
    rw [List.length_append]
    exact enough
  obtain ⟨img₃, d₃, run₃, built₃⟩ := built₂.extendAll
    (fun r mem => (f.filled r mem).1) small enough'
  refine ⟨img₃, d₃, ?_, built₃⟩
  rw [Mkfs.addFile, if_neg plain]
  exact Prog.bind_eq_some.mpr ⟨_, _, run₁, Prog.bind_eq_some.mpr ⟨(), _, run₂, run₃⟩⟩

/-- The entries of files that are numbered from `n` on. -/
def entriesFrom (n : Nat) : List File → List Dirent
  | [] => []
  | f :: fs => entryOf n f :: entriesFrom (n + 1) fs

theorem Built.addFiles {files : List File} (built : Built img d es cs)
    (plain : ∀ f ∈ files, 47 ∉ f.name) (room : cs.length + 2 + files.length ≤ mkfs.ninodes)
    (few : es.length + files.length ≤ mkfs.ninodes)
    (small : ∀ f ∈ files, f.bytes.length ≤ maxfile * bsize)
    (enough : taken (es.length + files.length)
      ((cs ++ files.map File.bytes).map List.length) ≤ fsSize) :
    ∃ img' d', Prog.each (Mkfs.addFile rootino) files img = some ((), img') ∧
      Built img' d' (es ++ entriesFrom cs.length files) (cs ++ files.map File.bytes) := by
  induction files generalizing img d es cs with
  | nil => exact ⟨img, d, rfl, by simpa [entriesFrom] using built⟩
  | cons f files ih =>
    rw [List.length_cons] at room few enough
    have less : taken (es.length + 1) ((cs ++ [f.bytes]).map List.length) ≤ fsSize := by
      refine Nat.le_trans ?_ enough
      have grows := cost_mono (Nat.mul_le_mul_left Dirent.sizeof
        (show es.length + 1 ≤ es.length + (files.length + 1) by omega))
      simp only [taken, List.map_append, List.map_cons, List.map_nil, List.sum_append, List.sum_cons,
        List.sum_nil]
      omega
    obtain ⟨img₁, d₁, run, built₁⟩ := built.addFile (plain f List.mem_cons_self) (by omega) (by omega)
      (small f List.mem_cons_self) less
    have sizes : (cs ++ [f.bytes]).length = cs.length + 1 ∧
        (es ++ [entryOf cs.length f]).length = es.length + 1 := by simp
    obtain ⟨img₂, d₂, run', built₂⟩ := ih built₁
      (fun g mem => plain g (List.mem_cons_of_mem f mem)) (by omega) (by omega)
      (fun g mem => small g (List.mem_cons_of_mem f mem))
      (by rw [sizes.2, show es.length + 1 + files.length = es.length + (files.length + 1) by omega]
          simpa using enough)
    refine ⟨img₂, d₂, Prog.bind_eq_some.mpr ⟨(), img₁, run, run'⟩, ?_⟩
    rw [sizes.1] at built₂
    simpa [entriesFrom] using built₂

end

end Xv6.Mkfs
