import Xv6.Fs.Mkfs

/-! What the kernel finds in the image: the names of all files in the root directory, and
behind each the bytes that went in. -/

namespace Xv6.Fs
open Lib

/-! ## A directory that begins with given entries -/

/-- The inode is a directory whose first entries are `es`. There may be more room in it,
and its size may be ahead of its blocks. -/
structure Begins (d : Disk) (dp : Dinode) (es : List Dirent) (k : Nat) : Prop where
  type : dp.type = tDir
  shape : Shape d dp k
  blocks : Dirent.sizeof * es.length ≤ k * bsize
  size : Dirent.sizeof * es.length ≤ dp.size.toNat
  bytes : (List.range (Dirent.sizeof * es.length)).map (d.byteAt dp) = entryBytes es

namespace Begins
variable {sb : Superblock} {dev : Devsw} {d : Disk} {dp : Dinode} {es : List Dirent} {k : Nat}

theorem small (dir : Begins d dp es k) : Dirent.sizeof * es.length < 2 ^ 31 := by
  have le := dir.blocks
  have most := Nat.mul_le_mul_right bsize dir.shape.le
  have : maxfile * bsize < 2 ^ 31 := by decide
  omega

theorem toNat_off (dir : Begins d dp es k) {n : Nat} (h : n ≤ es.length) :
    (UInt32.ofNat (Dirent.sizeof * n)).toNat = Dirent.sizeof * n := by
  have small := dir.small
  have le := Nat.mul_le_mul_left Dirent.sizeof h
  rw [UInt32.toNat_ofNat', Nat.mod_eq_of_lt (by omega)]

theorem readi_entry (dir : Begins d dp es k) {n : Nat} {de : Dirent} (h : es[n]? = some de) :
    readi sb dev dp (.ofNat (Dirent.sizeof * n)) (.ofNat Dirent.sizeof) d =
      some ((some de.bytes, dp), d) := by
  have lt := (List.getElem?_eq_some_iff.mp h).1
  have small := dir.small
  have size := dir.size
  have blocks := dir.blocks
  have le : Dirent.sizeof * n + Dirent.sizeof ≤ Dirent.sizeof * es.length :=
    Nat.mul_le_mul_left Dirent.sizeof (Nat.succ_le_of_lt lt)
  have off := dir.toNat_off (Nat.le_of_lt lt)
  have one : (UInt32.ofNat Dirent.sizeof).toNat = Dirent.sizeof := rfl
  have sum : (UInt32.ofNat (Dirent.sizeof * n) + .ofNat Dirent.sizeof).toNat =
      Dirent.sizeof * n + Dirent.sizeof := by
    rw [UInt32.toNat_add, off, one]
    omega
  have past : ¬ (UInt32.ofNat (Dirent.sizeof * n) > dp.size ∨
      UInt32.ofNat (Dirent.sizeof * n) + .ofNat Dirent.sizeof < .ofNat (Dirent.sizeof * n)) := by
    rw [gt_iff_lt, UInt32.lt_iff_toNat_lt, UInt32.lt_iff_toNat_lt, sum, off]
    omega
  have whole : ¬ UInt32.ofNat (Dirent.sizeof * n) + .ofNat Dirent.sizeof > dp.size := by
    rw [gt_iff_lt, UInt32.lt_iff_toNat_lt, sum]
    omega
  have read := @readLoop_eq sb _ _ _ _ _ _ (Nat.le_refl Dirent.sizeof) dir.shape
    (show Dirent.sizeof * n + Dirent.sizeof ≤ k * bsize by omega)
  have bytes : (List.range Dirent.sizeof).map (fun x => d.byteAt dp (Dirent.sizeof * n + x)) =
      de.bytes := by
    rw [← extract_entryBytes h, ← dir.bytes, List.extract_eq_take_drop]
    apply List.ext_getElem
    · simp only [List.length_map, List.length_range, List.length_take, List.length_drop]
      omega
    · intro x hx hx'
      simp
  rw [readi, if_neg (by simp [dir.type, tDir, tDev]), if_neg past]
  refine Prog.bind_eq_some.mpr ⟨(de.bytes, dp), d, ?_, rfl⟩
  rw [if_neg whole, off, one, read, bytes]

/-- The loop reaches an entry among the first that satisfies `stop`. -/
theorem scanDir_found (dir : Begins d dp es k) {stop : Dirent → Bool} {m : Nat} {de : Dirent}
    (here : es[m]? = some de) (found : stop de = true)
    (first : ∀ j e, j < m → es[j]? = some e → stop e = false) {fuel n : Nat} (le : n ≤ m)
    (enough : m - n < fuel) :
    scanDir sb dev stop fuel dp (.ofNat (Dirent.sizeof * n)) d =
      some (((.ofNat (Dirent.sizeof * m), some de), dp), d) := by
  have lt := (List.getElem?_eq_some_iff.mp here).1
  induction fuel generalizing n with
  | zero => omega
  | succ fuel ih =>
    have before : UInt32.ofNat (Dirent.sizeof * n) < dp.size := by
      rw [UInt32.lt_iff_toNat_lt, dir.toNat_off (by omega)]
      have := Nat.mul_le_mul_left Dirent.sizeof (show n + 1 ≤ es.length by omega)
      have := dir.size
      simp only [Dirent.sizeof] at *
      omega
    have there := List.getElem?_eq_getElem (show n < es.length by omega)
    have length := (es[n]).length_bytes
    have back := (es[n]).ofBytes_bytes
    rw [scanDir, if_pos before]
    refine Prog.bind_eq_some.mpr ⟨_, d, dir.readi_entry there, ?_⟩
    simp only [length, ne_eq, not_true_eq_false, ↓reduceIte, back]
    by_cases last : n = m
    · subst last
      obtain rfl : es[n] = de := Option.some.inj (there.symm.trans here)
      simp only [found, ↓reduceIte]
      rfl
    · have next : UInt32.ofNat (Dirent.sizeof * n) + .ofNat Dirent.sizeof =
          .ofNat (Dirent.sizeof * (n + 1)) := by
        rw [Nat.mul_succ, UInt32.ofNat_add]
      rw [first n _ (by omega) there, next]
      exact ih (by omega) (by omega)

/-- dirlookup() finds an entry among the first that has the key of the name. -/
theorem dirlookup_found (dir : Begins d dp es k) {name : Chars} {m : Nat} {de : Dirent}
    (here : es[m]? = some de) (key : de.key = some (keyOf name))
    (first : ∀ j e, j < m → es[j]? = some e → e.key ≠ some (keyOf name)) :
    dirlookup sb dev dp name d =
      some ((some (.ofNat (Dirent.sizeof * m), de.inum), dp), d) := by
  have lt := (List.getElem?_eq_some_iff.mp here).1
  have enough : m - 0 < rounds dp := by
    have size := Nat.div_le_div_right (c := Dirent.sizeof) dir.size
    rw [Nat.mul_div_cancel_left _ (by decide)] at size
    unfold rounds
    omega
  rw [dirlookup, if_neg (by simp [dir.type])]
  refine Prog.bind_eq_some.mpr ⟨_, d, dir.scanDir_found here ?_ ?_ (Nat.zero_le _) enough, rfl⟩
  · exact decide_eq_true ((namecmp_eq_zero_iff name de).mpr key)
  · intro j e less there
    exact decide_eq_false fun hit => first j e less there ((namecmp_eq_zero_iff name e).mp hit)

end Begins

end Xv6.Fs

namespace Xv6.Mkfs
open Lib Fs

/-! ## The image before the first file -/

/-- The zeroed image with the superblock. -/
def startImage : Image := { zeroes with block := Function.update zeroes.block 1 superblock }

def startDisk : Disk :=
  ⟨Function.update startImage.block mkfs.bmapstart (bitmap mkfs.nmeta), []⟩

theorem startImage_block (b : Nat) :
    startImage.block b = if b = 1 then superblock else Bytes.zero :=
  Function.update_apply (fun _ => Bytes.zero) 1 superblock b

theorem startDisk_block (b : Nat) :
    startDisk.block b = if b = mkfs.bmapstart then bitmap mkfs.nmeta else startImage.block b :=
  Function.update_apply startImage.block mkfs.bmapstart (bitmap mkfs.nmeta) b

theorem start_sim : Sim startImage startDisk where
  data b other := by rw [startDisk_block, if_neg other]
  map := by rw [startDisk_block, if_pos rfl]; rfl
  blank b le := by rw [startImage_block, if_neg (one_ne le).symm]
  low := Nat.le_refl _
  high := mkfs_sound.data

theorem start_type {j : Nat} (hj : j < mkfs.ninodes) : (startDisk.dinode mkfs j).type = 0 := by
  obtain ⟨notMap, notSuper, -, -⟩ := iblock_bounds hj
  rw [Disk.dinode, startDisk_block, if_neg notMap, startImage_block, if_neg notSuper]
  simp [dinodeAt, lowShort]

theorem start_stage : Stage startImage startDisk := by
  have none {j p b} : ¬ Refers mkfs startDisk (startDisk.dinode mkfs) j p b :=
    fun refers => refers.2.1 (start_type refers.1)
  refine ⟨start_sim, ⟨⟨fun j p b h => absurd h none, fun j p _ _ b h => absurd h none, ?_⟩,
    fun j hj live => absurd (start_type hj) live⟩, fun j _ hj => start_type hj,
    by rw [startImage_block, if_pos rfl]⟩
  intro b hb
  rw [start_sim.used hb, decide_eq_true_iff]
  exact ⟨.inl, fun h => h.elim id fun ⟨j, p, refers⟩ => absurd refers none⟩

/-- The entries "." and "..". -/
def dots : List Dirent := [.named rootino (charsOf [46]), .named rootino (charsOf [46, 46])]

/-- The root directory with its two entries, and all files. -/
theorem fill_built {files : List File} (plain : ∀ f ∈ files, 47 ∉ f.name)
    (few : files.length ≤ 198) (small : ∀ f ∈ files, f.bytes.length ≤ maxfile * bsize)
    (enough : taken (2 + files.length) ((files.map File.bytes).map List.length) ≤ fsSize) :
    ∃ img₀ img d, wsect 1 superblock zeroes = some ((), startImage) ∧
      ialloc tDir startImage = some (rootino, img₀) ∧
      (do
        iappend rootino (Dirent.named rootino (charsOf [46])).bytes
        iappend rootino (Dirent.named rootino (charsOf [46, 46])).bytes
        Prog.each (addFile rootino) files : Prog Image Unit) img₀ = some ((), img) ∧
      Built img d (dots ++ entriesFrom 0 files) (files.map File.bytes) := by
  obtain ⟨img₀, d₀, run₀, stage₀, inodes, blocks, root, -⟩ :=
    start_stage.ialloc (by decide) (show tDir ≠ 0 by decide)
  have built₀ : Built img₀ d₀ [] [] := by
    refine ⟨stage₀, inodes, root, nofun, ?_⟩
    rw [blocks]
    rfl
  have mono {n : Nat} (le : n ≤ 2 + files.length) : taken n [] ≤ fsSize := by
    refine Nat.le_trans ?_ enough
    have := cost_mono (Nat.mul_le_mul_left Dirent.sizeof le)
    simp only [taken, List.map_nil, List.sum_nil]
    omega
  obtain ⟨img₁, d₁, run₁, built₁⟩ := built₀.link (.named rootino (charsOf [46])) (by decide)
    (mono (by show 1 ≤ _; omega))
  obtain ⟨img₂, d₂, run₂, built₂⟩ := built₁.link (.named rootino (charsOf [46, 46])) (by decide)
    (mono (by show 2 ≤ _; omega))
  have inodesEq : mkfs.ninodes = 200 := rfl
  obtain ⟨img, d, run, built⟩ := built₂.addFiles plain (by rw [inodesEq, List.length_nil]; omega)
    (by show 2 + _ ≤ _; omega) small enough
  exact ⟨img₀, img, d, rfl, run₀, Prog.bind_eq_some.mpr ⟨(), img₁, run₁,
    Prog.bind_eq_some.mpr ⟨(), img₂, run₂, run⟩⟩, built⟩

/-! ## The image as it is left -/

/-- The inode of the root directory with its size rounded up. -/
def roundedRoot (d : Disk) : Dinode :=
  { d.dinode mkfs rootino with
    size := .ofNat (((d.dinode mkfs rootino).size.toNat / bsize + 1) * bsize) }

/-- The image is the disk of the last stage, with the size of the root rounded up. -/
theorem main_run {files : List File} (plain : ∀ f ∈ files, 47 ∉ f.name)
    (few : files.length ≤ 198) (small : ∀ f ∈ files, f.bytes.length ≤ maxfile * bsize)
    (enough : taken (2 + files.length) ((files.map File.bytes).map List.length) ≤ fsSize) :
    ∃ img img' d, main files zeroes = some ((), img) ∧
      Built img' d (dots ++ entriesFrom 0 files) (files.map File.bytes) ∧
      img.block 1 = superblock ∧
      img.block = (d.setDinode mkfs rootino (roundedRoot d)).block := by
  obtain ⟨img₀, img₁, d, super, alloc, run, built⟩ := fill_built plain few small enough
  have sim := built.stage.sim
  obtain ⟨img₂, run₂, sim₂, -, super₂⟩ := sim.winode (i := rootino) (by decide) (roundedRoot d)
  obtain ⟨_, s₁, dot, run⟩ := Prog.bind_eq_some.mp run
  obtain ⟨_, s₂, dotdot, run⟩ := Prog.bind_eq_some.mp run
  have used : img₂.freeblock < bsize * 8 := Nat.lt_of_le_of_lt sim₂.high (by decide)
  refine ⟨{ img₂ with block := Function.update img₂.block mkfs.bmapstart (bitmap img₂.freeblock) },
    img₁, d, ?_, built, ?_, ?_⟩
  · refine Prog.bind_eq_some.mpr ⟨(), _, super, Prog.bind_eq_some.mpr ⟨rootino, _, alloc, ?_⟩⟩
    simp only [ne_eq, not_true_eq_false, ↓reduceIte]
    refine Prog.bind_eq_some.mpr ⟨(), _, dot, Prog.bind_eq_some.mpr ⟨(), _, dotdot,
      Prog.bind_eq_some.mpr ⟨(), _, run, Prog.bind_eq_some.mpr ⟨_, _, sim.rinode (by decide),
        Prog.bind_eq_some.mpr ⟨(), img₂, run₂, Prog.bind_eq_some.mpr ⟨img₂, img₂, rfl, ?_⟩⟩⟩⟩⟩⟩
    rw [balloc, if_pos used]
    rfl
  · show Function.update img₂.block mkfs.bmapstart (bitmap img₂.freeblock) 1 = _
    rw [Function.update_of_ne (by decide), super₂]
    exact built.stage.super
  · funext b
    show Function.update img₂.block mkfs.bmapstart (bitmap img₂.freeblock) b = _
    by_cases map : b = mkfs.bmapstart
    · rw [map, Function.update_self, sim₂.map]
    · rw [Function.update_of_ne map, sim₂.data b map]

section
variable {img : Image} {d : Disk} {es : List Dirent} {cs : List (List UInt8)}

theorem Built.root_live (built : Built img d es cs) : (d.dinode mkfs rootino).type ≠ 0 := by
  rw [built.root.kind]
  exact built.root.live

theorem roundedRoot_size (built : Built img d es cs) (few : es.length ≤ mkfs.ninodes) :
    Dirent.sizeof * es.length ≤ (roundedRoot d).size.toNat := by
  have size := built.root.size
  rw [length_entryBytes] at size
  have most := Nat.mul_le_mul_left Dirent.sizeof few
  have bound : Dirent.sizeof * mkfs.ninodes = 3200 := rfl
  show _ ≤ (UInt32.ofNat (((d.dinode mkfs rootino).size.toNat / bsize + 1) * bsize)).toNat
  rw [UInt32.toNat_ofNat', size]
  generalize Dirent.sizeof * es.length = n at most
  simp only [bsize]
  omega

/-- The root directory as it is left begins with the entries that were written. -/
theorem Built.begins (built : Built img d es cs) (few : es.length ≤ mkfs.ninodes)
    (logged : List Nat) :
    Begins ⟨(d.setDinode mkfs rootino (roundedRoot d)).block, logged⟩ (roundedRoot d) es
      (blocksFor (Dirent.sizeof * es.length)) := by
  have wf := built.stage.wellFormed
  have size := built.root.size
  rw [length_entryBytes] at size
  have live := built.root_live
  have shape := wf.shape rootino (by decide) live
  rw [size] at shape
  have ptr (p : Place) : (d.setDinode mkfs rootino (roundedRoot d)).ptr (roundedRoot d) p =
      d.ptr (d.dinode mkfs rootino) p :=
    (ptr_of_addrs (show (roundedRoot d).addrs = (d.dinode mkfs rootino).addrs from rfl) p).trans
      (wf.owned.ptr_setDinode mkfs_sound (by decide) _ (by decide) live p)
  refine ⟨built.root.kind, shape.congr ptr, le_blocksFor _, roundedRoot_size built few, ?_⟩
  rw [← built.root.content, Disk.content, size]
  apply List.map_congr_left
  intro x hx
  have lt : x / bsize < blocksFor (Dirent.sizeof * es.length) :=
    div_lt_of_lt_mul (Nat.lt_of_lt_of_le (List.mem_range.mp hx) (le_blocksFor _))
  have used := (shape.file _ (Nat.lt_of_lt_of_le lt shape.le)).mpr lt
  have area := (wf.held (by decide) live).ptr_area used
  show (d.setDinode mkfs rootino (roundedRoot d)).byteAt (roundedRoot d) x = _
  rw [Disk.byteAt, Disk.byteAt, Disk.fileBlock, ptr, Disk.block_setDinode mkfs_sound (by decide) area.1]
  rfl

/-- A file is read as it was written, whatever the log has seen. -/
theorem Built.readi (built : Built img d es cs) {k : Nat} {c : List UInt8} (there : cs[k]? = some c)
    (dev : Devsw) (logged : List Nat) (off n : UInt32) :
    let e : Disk := ⟨(d.setDinode mkfs rootino (roundedRoot d)).block, logged⟩
    let ip := e.dinode mkfs (k + 2)
    ip.size.toNat = c.length ∧ readi mkfs dev ip off n e =
      if c.length < off.toNat ∨ 2 ^ 32 ≤ off.toNat + n.toNat then some ((none, ip), e)
      else some ((some (c.extract off.toNat (min (off.toNat + n.toNat) c.length)), ip), e) := by
  have wf := built.stage.wellFormed
  have old := built.files k c there
  have live : (d.dinode mkfs (k + 2)).type ≠ 0 := by
    rw [old.kind]
    exact old.live
  have now := old.setDinode wf (show k + 2 ≠ rootino by simp [rootino]) (by decide) (roundedRoot d)
  have node : (d.setDinode mkfs rootino (roundedRoot d)).dinode mkfs (k + 2) = d.dinode mkfs (k + 2) := by
    rw [Disk.dinode_setDinode, if_neg (by simp [rootino])]
  have shape := (wf.shape (k + 2) old.bound live).congr
    (wf.owned.ptr_setDinode mkfs_sound (show rootino < _ by decide) (roundedRoot d) old.bound live)
  intro e ip
  have file : ip.type ≠ tDev := by
    rw [show ip.type = tFile from now.kind]
    decide
  refine ⟨now.size, ?_⟩
  have size : ip.size.toNat = c.length := now.size
  have content : e.content ip = c := now.content
  have shape : Shape e ip (blocksFor ip.size.toNat) := by
    rw [show ip = _ from node]
    exact shape.congr fun _ => rfl
  rw [readi_eq dev file shape, size, content]

end

/-! ## Names -/

theorem File.stored_text (f : File) : 0 ∉ f.stored := by
  unfold File.stored
  split
  · exact fun mem => f.text (List.mem_of_mem_tail mem)
  · exact f.text

/-- The kernel looks for the name by what is stored of it. -/
theorem File.keyOf_entryName (f : File) : keyOf (charsOf f.entryName) = f.entryName := by
  have text : 0 ∉ f.entryName := fun mem => f.stored_text (List.mem_of_mem_take mem)
  rw [keyOf, upTo_charsOf text, File.entryName, List.take_take, Nat.min_self]

theorem key_entryOf (f : File) {n : Nat} (lt : n < 198) :
    (entryOf n f).key = some f.entryName := by
  rw [entryOf, key_named (by omega) (by omega), keyOf, upTo_charsOf f.stored_text, File.entryName]

theorem getElem?_entriesFrom (n k : Nat) (files : List File) :
    (entriesFrom n files)[k]? = files[k]?.map (entryOf (n + k)) := by
  induction files generalizing n k with
  | nil => rfl
  | cons f files ih =>
    cases k with
    | zero => rfl
    | succ k =>
      rw [entriesFrom, List.getElem?_cons_succ, List.getElem?_cons_succ, ih,
        show n + 1 + k = n + (k + 1) by omega]

theorem length_entriesFrom (n : Nat) (files : List File) :
    (entriesFrom n files).length = files.length := by
  induction files generalizing n with
  | nil => rfl
  | cons f files ih => rw [entriesFrom, List.length_cons, ih, List.length_cons]

theorem getElem?_entries {files : List File} {k : Nat} :
    (dots ++ entriesFrom 0 files)[k + 2]? = files[k]?.map (entryOf k) := by
  rw [List.getElem?_append_right (Nat.le_add_left 2 k), getElem?_entriesFrom]
  simp [dots]

/-- No entry before that of a file has its name. -/
theorem no_earlier_entry {files : List File} (few : files.length ≤ 198)
    (distinct : (files.map File.entryName).Nodup)
    (proper : ∀ f ∈ files, f.entryName ≠ [46] ∧ f.entryName ≠ [46, 46]) {k : Nat} {f : File}
    (there : files[k]? = some f) {j : Nat} {e : Dirent} (lt : j < k + 2)
    (here : (dots ++ entriesFrom 0 files)[j]? = some e) : e.key ≠ some f.entryName := by
  have mem := List.mem_of_getElem? there
  match j with
  | 0 =>
    cases here
    intro same
    rw [show (Dirent.named rootino (charsOf [46])).key = some [46] by decide] at same
    exact (proper f mem).1 (Option.some.inj same).symm
  | 1 =>
    cases here
    intro same
    rw [show (Dirent.named rootino (charsOf [46, 46])).key = some [46, 46] by decide] at same
    exact (proper f mem).2 (Option.some.inj same).symm
  | j + 2 =>
    rw [getElem?_entries] at here
    obtain ⟨g, found, rfl⟩ := Option.map_eq_some_iff.mp here
    have lt' := (List.getElem?_eq_some_iff.mp found).1
    rw [key_entryOf g (by omega)]
    intro same
    have names (n : Nat) : (files.map File.entryName)[n]? = files[n]?.map File.entryName :=
      List.getElem?_map
    have both : (files.map File.entryName)[j]? = (files.map File.entryName)[k]? := by
      rw [names, names, found, there]
      exact same
    have length : k < (files.map File.entryName).length := by
      rw [List.length_map]
      exact (List.getElem?_eq_some_iff.mp there).1
    exact List.nodup_iff_getElem?_ne_getElem?.mp distinct j k (by omega) length both

/-! ## mkfs and the kernel -/

theorem readsb_superblock : readsb superblock = mkfs := by decide +kernel

/-- A name with a slash ends mkfs. -/
theorem each_halts {α : Type} {f : α → Prog Image Unit} {a : α} {l : List α} (mem : a ∈ l)
    (halts : ∀ img, f a img = none) (img : Image) : Prog.each f l img = none := by
  induction l generalizing img with
  | nil => cases mem
  | cons b l ih =>
    cases result : Prog.each f (b :: l) img with
    | none => rfl
    | some r =>
      obtain ⟨_, img', head, rest⟩ := Prog.bind_eq_some.mp result
      rcases List.mem_cons.mp mem with rfl | later
      · rw [halts] at head
        cases head
      · rw [ih later] at rest
        cases rest

theorem plain_of_main {files : List File} {img : Image} (run : main files zeroes = some ((), img)) :
    ∀ f ∈ files, 47 ∉ f.name := by
  intro f mem slash
  obtain ⟨_, _, -, run⟩ := Prog.bind_eq_some.mp run
  obtain ⟨root, _, -, run⟩ := Prog.bind_eq_some.mp run
  by_cases here : root ≠ rootino
  · simp only [if_pos here] at run
    cases run
  · simp only [if_neg here] at run
    obtain ⟨_, _, -, run⟩ := Prog.bind_eq_some.mp run
    obtain ⟨_, _, -, run⟩ := Prog.bind_eq_some.mp run
    obtain ⟨_, _, added, -⟩ := Prog.bind_eq_some.mp run
    rw [each_halts mem fun img => by rw [addFile, if_pos slash]; rfl] at added
    cases added

/-- The kernel finds the file in the image: dirlookup() of its name in the root directory
gives an inode of its length, and readi() of that inode gives its bytes. -/
def Finds (dev : Devsw) (d : Disk) (f : File) : Prop :=
  let root := d.dinode mkfs rootino
  ∃ off inum, dirlookup mkfs dev root (charsOf f.entryName) d = some ((some (off, inum), root), d) ∧
    let ip := d.dinode mkfs inum.toNat
    ip.size.toNat = f.bytes.length ∧ ∀ off n, readi mkfs dev ip off n d =
      if f.bytes.length < off.toNat ∨ 2 ^ 32 ≤ off.toNat + n.toNat then some ((none, ip), d)
      else some ((some (f.bytes.extract off.toNat
        (min (off.toNat + n.toNat) f.bytes.length)), ip), d)

theorem Built.finds {img : Image} {d : Disk} {files : List File}
    (built : Built img d (dots ++ entriesFrom 0 files) (files.map File.bytes))
    (few : files.length ≤ 198) (distinct : (files.map File.entryName).Nodup)
    (proper : ∀ f ∈ files, f.entryName ≠ [46] ∧ f.entryName ≠ [46, 46]) (dev : Devsw)
    (logged : List Nat) {f : File} (mem : f ∈ files) :
    Finds dev ⟨(d.setDinode mkfs rootino (roundedRoot d)).block, logged⟩ f := by
  obtain ⟨k, there⟩ := List.mem_iff_getElem?.mp mem
  have lt := (List.getElem?_eq_some_iff.mp there).1
  have root : Disk.dinode mkfs ⟨(d.setDinode mkfs rootino (roundedRoot d)).block, logged⟩ rootino =
      roundedRoot d := by
    show (d.setDinode mkfs rootino (roundedRoot d)).dinode mkfs rootino = _
    rw [Disk.dinode_setDinode, if_pos rfl]
  have entries : (dots ++ entriesFrom 0 files).length ≤ mkfs.ninodes := by
    rw [List.length_append, length_entriesFrom]
    show 2 + files.length ≤ 200
    omega
  have entry : (dots ++ entriesFrom 0 files)[k + 2]? = some (entryOf k f) := by
    rw [getElem?_entries, there]
    rfl
  have key : (entryOf k f).key = some (keyOf (charsOf f.entryName)) := by
    rw [f.keyOf_entryName, key_entryOf f (by omega)]
  have search := @Begins.dirlookup_found mkfs dev _ _ _ _ (built.begins entries logged) _ _ _ entry key
    (fun j e less here => by
      rw [f.keyOf_entryName]
      exact no_earlier_entry few distinct proper there less here)
  have inum : (entryOf k f).inum.toNat = k + 2 := by
    show (UInt16.ofNat (k + 2)).toNat = k + 2
    rw [UInt16.toNat_ofNat']
    omega
  have content : (files.map File.bytes)[k]? = some f.bytes := by
    rw [List.getElem?_map, there]
    rfl
  unfold Finds
  rw [root]
  refine ⟨_, _, search, ?_⟩
  rw [inum]
  exact ⟨(built.readi content dev logged 0 0).1, fun off n =>
    (built.readi content dev logged off n).2⟩

/-- mkfs writes an image for any files that fit and have no slash in their names, and in
every image it writes the kernel finds the superblock and all files. -/
theorem kernel_reads_image (files : List File) (few : files.length ≤ 198)
    (distinct : (files.map File.entryName).Nodup)
    (proper : ∀ f ∈ files, f.entryName ≠ [46] ∧ f.entryName ≠ [46, 46])
    (small : ∀ f ∈ files, f.bytes.length ≤ maxfile * bsize)
    (fits : taken (2 + files.length) ((files.map File.bytes).map List.length) ≤ fsSize)
    (dev : Devsw) :
    ((∀ f ∈ files, 47 ∉ f.name) → ∃ img, main files zeroes = some ((), img)) ∧
    ∀ img, main files zeroes = some ((), img) →
      readsb (img.block 1) = mkfs ∧ ∀ f ∈ files, Finds dev img.disk f := by
  constructor
  · intro plain
    obtain ⟨img, _, _, run, -⟩ := main_run plain few small fits
    exact ⟨img, run⟩
  · intro img run
    obtain ⟨img', _, d, run', built, super, block⟩ := main_run (plain_of_main run) few small fits
    obtain rfl : img' = img := by
      rw [run] at run'
      exact (Prod.mk.inj (Option.some.inj run')).2.symm
    refine ⟨by rw [super, readsb_superblock], fun f mem => ?_⟩
    rw [Image.disk, block]
    exact built.finds few distinct proper dev [] mem

/-- `mkfs fs.img _a`, with three bytes in `_a` -/
theorem kernel_reads_small_file :
    let a : File := ⟨[95, 97], by decide, [[1, 2, 3]], by decide⟩
    ∃ img, main [a] zeroes = some ((), img) ∧ Finds ⟨fun _ => none, fun _ => none⟩ img.disk a := by
  intro a
  obtain ⟨runs, finds⟩ := kernel_reads_image [a] (by decide) (by decide) (by decide) (by decide)
    (by decide) ⟨fun _ => none, fun _ => none⟩
  obtain ⟨img, run⟩ := runs (by decide)
  exact ⟨img, run, (finds img run).2 a (List.mem_singleton.mpr rfl)⟩

end Xv6.Mkfs
