import Xv6.Fs.Names

/-! dirlookup() and dirlink(): a directory is a finite map from names to inode
numbers. -/

namespace Xv6.Fs
open Lib
variable (sb : Superblock) (dev : Devsw)

/-- The loop over the entries of a directory from `off` on: the offset of the
first one that satisfies `stop`, with the entry, or the offset behind the last.
Each round but the last moves on by an entry. -/
def scanDir (stop : Dirent → Bool) : Nat → Dinode → UInt32 →
    Prog Disk ((UInt32 × Option Dirent) × Dinode)
  | 0, _, _ => .halt
  | fuel + 1, dp, off =>
    if off < dp.size then do
      let (r, dp) ← readi sb dev dp off (.ofNat Dirent.sizeof)
      match r with
      | none => .halt
      | some l =>
        if l.length ≠ Dirent.sizeof then .halt
        else if stop (.ofBytes l) then return ((off, some (.ofBytes l)), dp)
        else scanDir stop fuel dp (off + .ofNat Dirent.sizeof)
    else return ((off, none), dp)

/-- Rounds that are enough for a directory that is a list of entries. -/
def rounds (dp : Dinode) : Nat := dp.size.toNat / Dirent.sizeof + 1

/-- Look for a directory entry in a directory: its offset, and the inode number
that iget() is called with. -/
def dirlookup (dp : Dinode) (name : Chars) : Prog Disk (Option (UInt32 × UInt16) × Dinode) :=
  if dp.type ≠ tDir then .halt -- dirlookup not DIR
  else do
    let ((off, de), dp) ← scanDir sb dev
      (fun de => decide (de.inum ≠ 0 ∧ namecmp name de.chars = 0)) (rounds dp) dp 0
    return (de.map fun de => (off, de.inum), dp)

/-- Write `de` at `off`, as a whole or not at all. -/
def writeEntry (dinum : Nat) (dp : Dinode) (de : Dirent) (off : UInt32) : Prog Disk Dinode := do
  let (r, dp) ← writei sb dev dinum dp de.bytes off
  if r ≠ Dirent.sizeof then .halt else return dp

/-- Write a new directory entry (name, inum) into the directory dp. The inode
that dirlookup() found is dropped again before it has been read from disk. -/
def dirlink (dinum : Nat) (dp : Dinode) (name : Chars) (inum : Nat) : Prog Disk (Int × Dinode) := do
  -- Check that name is not present.
  let (found, dp) ← dirlookup sb dev dp name
  if found.isSome then return (-1, dp)
  else do
    -- Look for an empty dirent.
    let ((off, _), dp) ← scanDir sb dev (fun de => decide (de.inum = 0)) (rounds dp) dp 0
    let dp ← writeEntry sb dev dinum dp (.named inum name) off
    return (0, dp)

/-- sys_unlink() overwrites the entry that dirlookup() found. -/
def zeroEntry (dinum : Nat) (dp : Dinode) (off : UInt32) : Prog Disk Dinode :=
  writeEntry sb dev dinum dp .zero off

/-! ## A directory as a list of entries -/

variable {sb dev} {d d' : Disk} {i : Nat} {dp dp' : Dinode} {es es' : List Dirent}

/-- The inode `dp` is a directory with the entries `es`. -/
structure Lists (d : Disk) (dp : Dinode) (es : List Dirent) : Prop where
  type : dp.type = tDir
  shape : Shape d dp (blocksFor dp.size.toNat)
  content : d.content dp = entryBytes es

namespace Lists

theorem size (dir : Lists d dp es) : dp.size.toNat = Dirent.sizeof * es.length := by
  rw [← length_entryBytes, ← dir.content, length_content]

theorem size_le (dir : Lists d dp es) : dp.size.toNat ≤ maxfile * bsize :=
  (blocksFor_le_iff _ _).mp dir.shape.le

theorem small (dir : Lists d dp es) : Dirent.sizeof * es.length < 2 ^ 31 := by
  rw [← dir.size]
  exact Nat.lt_of_le_of_lt dir.size_le (by decide)

/-- The offset of entry `n`. -/
theorem toNat_off (dir : Lists d dp es) {n : Nat} (h : n ≤ es.length) :
    (UInt32.ofNat (Dirent.sizeof * n)).toNat = Dirent.sizeof * n := by
  have small := dir.small
  have le := Nat.mul_le_mul_left Dirent.sizeof h
  rw [UInt32.toNat_ofNat', Nat.mod_eq_of_lt (by omega)]

theorem readi_entry (dir : Lists d dp es) {n : Nat} {de : Dirent} (h : es[n]? = some de) :
    readi sb dev dp (.ofNat (Dirent.sizeof * n)) (.ofNat Dirent.sizeof) d =
      some ((some de.bytes, dp), d) := by
  have lt := (List.getElem?_eq_some_iff.mp h).1
  have small := dir.small
  have size := dir.size
  have le : Dirent.sizeof * n + Dirent.sizeof ≤ Dirent.sizeof * es.length :=
    Nat.mul_le_mul_left Dirent.sizeof (Nat.succ_le_of_lt lt)
  have one : (UInt32.ofNat Dirent.sizeof).toNat = Dirent.sizeof := rfl
  rw [readi_eq dev (by simp [dir.type, tDir, tDev]) dir.shape, dir.toNat_off (Nat.le_of_lt lt), one,
    if_neg (by omega), Nat.min_eq_left (by omega), dir.content, extract_entryBytes h]

/-- The loop stops at the first entry that satisfies `stop`. -/
theorem scanDir_eq (dir : Lists d dp es) (stop : Dirent → Bool) {fuel n : Nat}
    (le : n ≤ es.length) (enough : es.length - n < fuel) :
    let m := n + (es.drop n).findIdx stop
    scanDir sb dev stop fuel dp (.ofNat (Dirent.sizeof * n)) d =
      some (((.ofNat (Dirent.sizeof * m), es[m]?), dp), d) := by
  induction fuel generalizing n with
  | zero => omega
  | succ fuel ih =>
    rw [scanDir]
    have before : UInt32.ofNat (Dirent.sizeof * n) < dp.size ↔ n < es.length := by
      rw [UInt32.lt_iff_toNat_lt, dir.toNat_off le, dir.size]
      exact Nat.mul_lt_mul_left (by decide)
    simp only [before]
    by_cases more : n < es.length
    · have there := List.getElem?_eq_getElem more
      have read := @readi_entry sb dev _ _ _ dir _ _ there
      have rest : es.drop n = es[n] :: es.drop (n + 1) := List.drop_eq_getElem_cons more
      have length := (es[n]).length_bytes
      have back := (es[n]).ofBytes_bytes
      rw [if_pos more, rest, List.findIdx_cons]
      refine Prog.bind_eq_some.mpr ⟨_, d, read, ?_⟩
      simp only [length, ne_eq, not_true_eq_false, ↓reduceIte, back]
      cases stop es[n] with
      | true => simp [there]
      | false =>
        have next : UInt32.ofNat (Dirent.sizeof * n) + .ofNat Dirent.sizeof =
            .ofNat (Dirent.sizeof * (n + 1)) := by
          rw [Nat.mul_succ, UInt32.ofNat_add]
        have index : n + 1 + (es.drop (n + 1)).findIdx stop =
            n + ((es.drop (n + 1)).findIdx stop + 1) := by omega
        simp only [Bool.false_eq_true, ↓reduceIte, next, cond_false]
        rw [ih more (by omega), index]
    · have last : n = es.length := by omega
      subst last
      simp

theorem scan_all (dir : Lists d dp es) (stop : Dirent → Bool) :
    scanDir sb dev stop (rounds dp) dp 0 d =
      some (((.ofNat (Dirent.sizeof * es.findIdx stop), es.find? stop), dp), d) := by
  have enough : es.length - 0 < rounds dp := by
    rw [rounds, dir.size, Nat.mul_div_cancel_left _ (by decide)]
    omega
  have scan := @scanDir_eq sb dev _ _ _ dir stop _ _ (Nat.zero_le _) enough
  simpa [SlotTable.getElem?_findIdx] using scan

/-- dirlookup() finds the entry with the key of the name. -/
theorem dirlookup_eq (dir : Lists d dp es) (name : Chars) :
    dirlookup sb dev dp name d = some (((SlotTable.lookup Dirent.key es (keyOf name)).map fun de =>
      (.ofNat (Dirent.sizeof * es.findIdx fun de => de.key = some (keyOf name)), de.inum), dp), d) := by
  have stop : (fun de : Dirent => decide (de.inum ≠ 0 ∧ namecmp name de.chars = 0)) =
      fun de => decide (de.key = some (keyOf name)) := by
    funext de
    exact decide_eq_decide.mpr (namecmp_eq_zero_iff name de)
  rw [dirlookup, if_neg (by simp [dir.type]), stop]
  exact Prog.bind_eq_some.mpr ⟨_, d, dir.scan_all _, rfl⟩

end Lists

/-! ## Writing an entry -/

/-- Inode `i` is a directory with the entries `es`, in a well-formed file system. -/
structure IsDir (sb : Superblock) (d : Disk) (i : Nat) (es : List Dirent) : Prop where
  wellFormed : WellFormed sb d
  bound : i < sb.ninodes
  type : (d.dinode sb i).type = tDir
  content : d.content (d.dinode sb i) = entryBytes es

namespace IsDir

theorem live (dir : IsDir sb d i es) : (d.dinode sb i).type ≠ 0 := by simp [dir.type, tDir]

theorem lists (dir : IsDir sb d i es) : Lists d (d.dinode sb i) es :=
  ⟨dir.type, dir.wellFormed.shape i dir.bound dir.live, dir.content⟩

/-- Entry `n` may be written: it exists, or there is room for it at the end. -/
def Room (es : List Dirent) (n : Nat) : Prop :=
  n < es.length ∨ n = es.length ∧ Dirent.sizeof * es.length < maxfile * bsize

theorem Room.le {n : Nat} (room : Room es n) : n ≤ es.length := by
  obtain lt | ⟨eq, _⟩ := room
  · exact Nat.le_of_lt lt
  · exact Nat.le_of_eq eq

theorem not_refused (dir : IsDir sb d i es) {n : Nat} (room : Room es n) (de : Dirent) :
    ¬ Refused (d.dinode sb i) (UInt32.ofNat (Dirent.sizeof * n)).toNat de.bytes.length := by
  rw [dir.lists.toNat_off room.le, de.length_bytes]
  have size := dir.lists.size
  have bound := dir.lists.size_le
  have limit : maxfile * bsize = Dirent.sizeof * 4480 := by decide
  have small : maxfile * bsize < 2 ^ 32 - Dirent.sizeof := by decide
  have le := Nat.mul_le_mul_left Dirent.sizeof room.le
  have fits : Dirent.sizeof * n + Dirent.sizeof ≤ maxfile * bsize := by
    obtain lt | ⟨rfl, lt⟩ := room
    · have := Nat.mul_le_mul_left Dirent.sizeof (Nat.succ_le_of_lt lt)
      rw [Nat.mul_succ] at this
      omega
    · rw [limit] at lt ⊢
      have := Nat.lt_of_mul_lt_mul_left lt
      simp only [Dirent.sizeof]
      omega
  unfold Refused
  omega

/-- An entry that has been written: writei() did not refuse. -/
theorem writeEntry_wrote (sound : sb.Sound) (dir : IsDir sb d i es) {de : Dirent} {off : UInt32}
    (h : writeEntry sb dev i (d.dinode sb i) de off d = some (dp', d')) :
    ¬ Refused (d.dinode sb i) off.toNat Dirent.sizeof ∧ Held sb d' (d.dinode sb) i dp' ∧
      Wrote sb d i (d.dinode sb i) off.toNat de.bytes d' dp' := by
  obtain ⟨⟨r, ip'⟩, d₁, wrote, ends⟩ := Prog.bind_eq_some.mp h
  have file : (d.dinode sb i).type ≠ tDev := by simp [dir.type, tDir, tDev]
  have short : de.bytes.length < 2 ^ 32 := by
    rw [de.length_bytes]
    decide
  by_cases refused : Refused (d.dinode sb i) off.toNat de.bytes.length
  · rw [writei_refused dev file short refused] at wrote
    obtain ⟨eq, rfl⟩ := Prod.mk.inj (Option.some.inj wrote)
    obtain ⟨rfl, rfl⟩ := Prod.mk.inj eq
    cases ends
  · obtain ⟨rfl, held, wrote⟩ := writei_spec sound dev (dir.wellFormed.held dir.bound dir.live) file
      dir.lists.shape rfl short refused wrote
    simp only [de.length_bytes, ne_eq, not_true_eq_false, ↓reduceIte, Prog.pure_eq_some] at ends
    obtain ⟨rfl, rfl⟩ := ends
    rw [de.length_bytes] at refused
    exact ⟨refused, held, wrote⟩

theorem writeEntry_spec (sound : sb.Sound) (dir : IsDir sb d i es) {n : Nat} (room : Room es n)
    {de : Dirent} (h : writeEntry sb dev i (d.dinode sb i) de (.ofNat (Dirent.sizeof * n)) d =
      some (dp', d')) :
    d'.dinode sb i = dp' ∧ IsDir sb d' i (SlotTable.put es n de) := by
  obtain ⟨_, held, wrote⟩ := dir.writeEntry_wrote sound h
  have off := dir.lists.toNat_off room.le
  refine ⟨wrote.stored, wrote.wellFormed held dir.wellFormed, dir.bound, ?_, ?_⟩
  · rw [wrote.stored, wrote.same]
    exact dir.type
  · rw [wrote.stored, wrote.content, dir.content, off, spliced_entryBytes]

/-- The blocks that have to be free to write entry `n`. -/
def blocksNeeded (es : List Dirent) (n : Nat) : Nat :=
  growth (blocksFor (Dirent.sizeof * es.length))
    (blocksFor (Dirent.sizeof * max es.length (n + 1)))

theorem blocksNeeded_old {n : Nat} (h : n < es.length) : blocksNeeded es n = 0 := by
  rw [blocksNeeded, Nat.max_eq_left h, growth, if_neg (by omega), Nat.sub_self]

theorem writeEntry_returns (sound : sb.Sound) (dir : IsDir sb d i es) {n : Nat} (room : Room es n)
    {de : Dirent} (enough : blocksNeeded es n ≤ d.free sb) :
    (writeEntry sb dev i (d.dinode sb i) de (.ofNat (Dirent.sizeof * n))).Returns d := by
  have held := dir.wellFormed.held dir.bound dir.live
  have blocks : blocksAfter (d.dinode sb i) (UInt32.ofNat (Dirent.sizeof * n)).toNat
      de.bytes.length = blocksFor (Dirent.sizeof * max es.length (n + 1)) := by
    rw [blocksAfter, dir.lists.toNat_off room.le, de.length_bytes, dir.lists.size, ← Nat.mul_succ]
    simp only [blocksFor, Dirent.sizeof, bsize]
    omega
  have grows : growth (blocksFor (d.dinode sb i).size.toNat)
      (blocksAfter (d.dinode sb i) (UInt32.ofNat (Dirent.sizeof * n)).toNat de.bytes.length) ≤
      d.free sb := by
    rw [blocks, dir.lists.size]
    exact enough
  apply Prog.Returns.bind (writei_returns sound dev held dir.lists.shape
    (dir.not_refused room de) grows)
  rintro ⟨r, ip'⟩ d' wrote
  obtain ⟨rfl, _⟩ := writei_spec sound dev held (by simp [dir.type, tDir, tDev])
    dir.lists.shape rfl (by rw [de.length_bytes]; decide) (dir.not_refused room de) wrote
  simp only [de.length_bytes, ne_eq, not_true_eq_false, ↓reduceIte]
  exact .pure _ _

end IsDir

/-! ## dirlink() -/

/-- The entry that dirlink() writes to: the first that is free, or the end. -/
def freeEntry (es : List Dirent) : Nat := es.findIdx fun de => de.inum = 0

theorem key_eq_none_iff (de : Dirent) : de.key = none ↔ de.inum = 0 := by
  simp [Dirent.key]

theorem free_freeEntry (es : List Dirent) : SlotTable.Free Dirent.key es (freeEntry es) := by
  have le : freeEntry es ≤ es.length := List.findIdx_le_length
  obtain lt | eq := Nat.lt_or_eq_of_le le
  · refine .inr ⟨es[freeEntry es], List.getElem?_eq_getElem lt, ?_⟩
    have free := List.findIdx_getElem (w := lt)
    exact (key_eq_none_iff _).mpr (of_decide_eq_true free)
  · exact .inl eq

theorem Lists.dirlink_found (dir : Lists d dp es) (name : Chars) (inum : Nat)
    (found : (SlotTable.lookup Dirent.key es (keyOf name)).isSome = true) :
    dirlink sb dev i dp name inum d = some ((-1, dp), d) := by
  refine Prog.bind_eq_some.mpr ⟨_, d, dir.dirlookup_eq name, ?_⟩
  simp [found]

/-- Without an entry for the name, dirlink() comes down to writing one. -/
theorem Lists.dirlink_eq (dir : Lists d dp es) (name : Chars) (inum : Nat)
    (absent : SlotTable.lookup Dirent.key es (keyOf name) = none) :
    dirlink sb dev i dp name inum d = (do
      let dp ← writeEntry sb dev i dp (.named inum name) (.ofNat (Dirent.sizeof * freeEntry es))
      return (0, dp) : Prog Disk (Int × Dinode)) d := by
  have search := @dirlookup_eq sb dev _ _ _ dir name
  have scan := @scan_all sb dev _ _ _ dir fun de => decide (de.inum = 0)
  rw [absent] at search
  simp only [dirlink, bind, search, Option.map_none, Option.isSome_none, Bool.false_eq_true,
    ↓reduceIte, scan]
  rfl

/-! ## A directory is a map -/

/-- What dirlookup() finds for a name; the outer `none` is for a panic. -/
def inumOf (sb : Superblock) (dev : Devsw) (d : Disk) (dp : Dinode) (name : Chars) :
    Option (Option UInt16) :=
  (dirlookup sb dev dp name d).map fun r => r.1.1.map Prod.snd

theorem Lists.inumOf_eq (dir : Lists d dp es) (name : Chars) :
    inumOf sb dev d dp name =
      some ((SlotTable.lookup Dirent.key es (keyOf name)).map Dirent.inum) := by
  rw [inumOf, dir.dirlookup_eq, Option.map_some, Option.map_map]
  rfl

/-- The directory has distinct names and gives `r` for the names with the key of
`name`, and for all others what it gave before. -/
def Updated (sb : Superblock) (dev : Devsw) (d : Disk) (i : Nat) (name : Chars)
    (r : Option UInt16) (d' : Disk) (dp' : Dinode) : Prop :=
  d'.dinode sb i = dp' ∧ (∃ es, IsDir sb d' i es ∧ SlotTable.Distinct Dirent.key es) ∧
  ∀ m, inumOf sb dev d' dp' m =
    if keyOf m = keyOf name then some r else inumOf sb dev d (d.dinode sb i) m

theorem room_freeEntry (dir : IsDir sb d i es)
    (h : (∃ de ∈ es, de.inum = 0) ∨ (d.dinode sb i).size.toNat < maxfile * bsize) :
    IsDir.Room es (freeEntry es) := by
  have le : freeEntry es ≤ es.length := List.findIdx_le_length
  obtain lt | eq := Nat.lt_or_eq_of_le le
  · exact .inl lt
  · obtain ⟨de, mem, free⟩ | small := h
    · exact .inl (List.findIdx_lt_length_of_exists ⟨de, mem, decide_eq_true free⟩)
    · exact .inr ⟨eq, dir.lists.size ▸ small⟩

theorem IsDir.dirlink_spec (sound : sb.Sound) (dir : IsDir sb d i es)
    (distinct : SlotTable.Distinct Dirent.key es) {name : Chars} {inum : Nat} (pos : inum ≠ 0)
    (lt : inum < 2 ^ 16) (absent : SlotTable.lookup Dirent.key es (keyOf name) = none)
    (room : IsDir.Room es (freeEntry es)) {r : Int}
    (h : dirlink sb dev i (d.dinode sb i) name inum d = some ((r, dp'), d')) :
    r = 0 ∧ Updated sb dev d i name (some (.ofNat inum)) d' dp' := by
  rw [dir.lists.dirlink_eq name inum absent] at h
  obtain ⟨dp₁, d₁, wrote, ends⟩ := Prog.bind_eq_some.mp h
  simp only [Prog.pure_eq_some, Prod.mk.injEq] at ends
  obtain ⟨⟨rfl, rfl⟩, rfl⟩ := ends
  obtain ⟨rfl, dir'⟩ := dir.writeEntry_spec sound room wrote
  have key := key_named pos lt name
  have free := free_freeEntry es
  refine ⟨rfl, rfl, ⟨_, dir', SlotTable.distinct_put_free distinct free key absent⟩, fun m => ?_⟩
  rw [dir'.lists.inumOf_eq, dir.lists.inumOf_eq,
    SlotTable.lookup_put_free free key absent]
  split <;> rfl

theorem IsDir.zeroEntry_spec (sound : sb.Sound) (dir : IsDir sb d i es)
    (distinct : SlotTable.Distinct Dirent.key es) {name : Chars} {de : Dirent}
    (found : SlotTable.lookup Dirent.key es (keyOf name) = some de) :
    ∃ dp' d', zeroEntry sb dev i (d.dinode sb i)
      (.ofNat (Dirent.sizeof * es.findIdx fun de => de.key = some (keyOf name))) d =
        some (dp', d') ∧ Updated sb dev d i name none d' dp' := by
  have there := (SlotTable.getElem?_findIdx es _).trans found
  have named := SlotTable.key_of_lookup found
  have lt := (List.getElem?_eq_some_iff.mp there).1
  have room : IsDir.Room es _ := .inl lt
  have enough := (IsDir.blocksNeeded_old lt).trans_le (Nat.zero_le (d.free sb))
  obtain ⟨dp', d', wrote⟩ : (writeEntry sb dev i (d.dinode sb i) .zero _).Returns d :=
    dir.writeEntry_returns sound room enough
  obtain ⟨stored, dir'⟩ := dir.writeEntry_spec sound room wrote
  refine ⟨dp', d', wrote, stored,
    ⟨_, dir', SlotTable.distinct_put_hole distinct there key_zero⟩, fun m => ?_⟩
  have lists' := dir'.lists
  rw [stored] at lists'
  rw [lists'.inumOf_eq, dir.lists.inumOf_eq,
    SlotTable.lookup_put_hole distinct there named key_zero]
  split <;> rfl

/-- For a directory with distinct names, and any name: dirlookup() returns;
dirlink() returns -1 and changes nothing if dirlookup() finds an entry, and
otherwise adds one, as soon as the blocks it may need are free; and zeroing the
entry that dirlookup() finds removes that name alone. -/
theorem directory_is_map (sound : sb.Sound) (dev : Devsw) (dir : IsDir sb d i es)
    (distinct : SlotTable.Distinct Dirent.key es) (name : Chars) {inum : Nat} (pos : inum ≠ 0)
    (lt : inum < 2 ^ 16) :
    let dp := d.dinode sb i
    ∃ found, dirlookup sb dev dp name d = some ((found, dp), d) ∧
    (found ≠ none → dirlink sb dev i dp name inum d = some ((-1, dp), d)) ∧
    (found = none → (∃ de ∈ es, de.inum = 0) ∨ dp.size.toNat < maxfile * bsize →
      (IsDir.blocksNeeded es (freeEntry es) ≤ d.free sb →
        (dirlink sb dev i dp name inum).Returns d) ∧
      ∀ r dp' d', dirlink sb dev i dp name inum d = some ((r, dp'), d') →
        r = 0 ∧ Updated sb dev d i name (some (.ofNat inum)) d' dp') ∧
    ∀ off v, found = some (off, v) → ∃ dp' d',
      zeroEntry sb dev i dp off d = some (dp', d') ∧ Updated sb dev d i name none d' dp' := by
  intro dp
  have lists := dir.lists
  refine ⟨_, lists.dirlookup_eq name, ?_, ?_, ?_⟩
  · intro found
    apply lists.dirlink_found
    rwa [ne_eq, Option.map_eq_none_iff, ← ne_eq, Option.ne_none_iff_isSome] at found
  · intro none enough
    have absent := Option.map_eq_none_iff.mp none
    have room := room_freeEntry dir enough
    refine ⟨fun free => ?_, fun r dp' d' => dir.dirlink_spec sound distinct pos lt absent room⟩
    obtain ⟨dp', d', wrote⟩ := dir.writeEntry_returns sound room free
    refine ⟨(0, dp'), d', ?_⟩
    rw [lists.dirlink_eq name inum absent]
    exact Prog.bind_eq_some.mpr ⟨dp', d', wrote, rfl⟩
  · intro off v found
    obtain ⟨de, there, eq⟩ := Option.map_eq_some_iff.mp found
    obtain ⟨rfl, rfl⟩ := Prod.mk.inj eq
    exact dir.zeroEntry_spec sound distinct there

/-! The root directory that mkfs makes. -/

def rootEntries : List Dirent :=
  ⟨1, fun j => charsOf [46] j.val⟩ :: ⟨1, fun j => charsOf [46, 46] j.val⟩ ::
    List.replicate 30 .zero

theorem root_isDir : IsDir mkfs (freshDisk mkfs) rootino rootEntries := by
  have root : (freshDisk mkfs).dinode mkfs rootino = rootInode mkfs :=
    (mkfs_roomy.dinode_fresh mkfs_roomy.root).trans (if_pos rfl)
  refine ⟨mkfs_roomy.fresh_wellFormed, mkfs_roomy.root, by rw [root]; rfl, ?_⟩
  have bytes : (List.range 512).map rootBlock.byte = entryBytes rootEntries := by decide +kernel
  rw [root, ← bytes]
  apply List.map_congr_left
  intro x hx
  have lt : x < 512 := List.mem_range.mp hx
  have block : x / bsize = 0 := Nat.div_eq_of_lt lt
  have offset : x % bsize = x := Nat.mod_eq_of_lt lt
  have data : (freshDisk mkfs).block mkfs.nmeta = rootBlock :=
    Disk.block_setDinode (d := blankDisk mkfs) mkfs_sound mkfs_roomy.root (Nat.le_refl _)
      (rootInode mkfs)
  rw [Disk.byteAt, block, offset, Disk.fileBlock, mkfs_roomy.ptr_root, if_pos rfl, data]

/-- A file "a" is linked into the root directory. -/
theorem root_links_a :
    let dev : Devsw := ⟨fun _ => none, fun _ => none⟩
    let d := freshDisk mkfs
    ∃ dp' d', dirlink mkfs dev rootino (d.dinode mkfs rootino) (charsOf [97]) 2 d =
        some ((0, dp'), d') ∧
      inumOf mkfs dev d' dp' (charsOf [97]) = some (some 2) ∧
      inumOf mkfs dev d' dp' (charsOf [46]) = some (some 1) := by
  intro dev d
  obtain ⟨found, search, _, adds, _⟩ := directory_is_map mkfs_sound dev root_isDir
    (by decide +kernel) (charsOf [97]) (by decide : 2 ≠ 0) (by decide)
  have absent : found = none := by
    have looked := search.symm.trans (root_isDir.lists.dirlookup_eq (charsOf [97]))
    have none : SlotTable.lookup Dirent.key rootEntries (keyOf (charsOf [97])) = none :=
      SlotTable.lookup_eq_none_iff.mpr (by decide +kernel)
    rw [none] at looked
    exact (Prod.mk.inj (Prod.mk.inj (Option.some.inj looked)).1).1
  obtain ⟨returns, effect⟩ := adds absent (.inl ⟨.zero, by simp [rootEntries], rfl⟩)
  have free : freeEntry rootEntries = 2 := by decide +kernel
  obtain ⟨⟨r, dp'⟩, d', run⟩ := returns
    (by rw [free, IsDir.blocksNeeded_old (by decide)]; exact Nat.zero_le _)
  obtain ⟨rfl, _, _, lookups⟩ := effect r dp' d' run
  refine ⟨dp', d', run, ?_, ?_⟩
  · rw [lookups, if_pos rfl]
    rfl
  · rw [lookups, if_neg (by decide), root_isDir.lists.inumOf_eq]
    decide +kernel

end Xv6.Fs
