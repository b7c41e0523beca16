import Xv6.Vm.UserMemory

/-! exec.c: a program file as bytes, and the memory that its segments make. -/

namespace Xv6.Vm
open Lib

/-! ## The file -/

/-- What readi() delivers; a read that starts behind the end, or whose end is
not a number, delivers nothing. -/
def readFile (file : List UInt8) (off n : UInt32) : List UInt8 :=
  if off.toNat > file.length ∨ off + n < off then [] else (file.drop off.toNat).take n.toNat

/-- The 16-bit number at an offset. -/
def half (bytes : List UInt8) (off : Nat) : Nat :=
  (bytes.getD off 0).toNat + 256 * (bytes.getD (off + 1) 0).toNat

/-- The 32-bit number at an offset. -/
def word (bytes : List UInt8) (off : Nat) : UInt32 :=
  wordOf (bytes.getD off 0) (bytes.getD (off + 1) 0) (bytes.getD (off + 2) 0) (bytes.getD (off + 3) 0)

/-- A `struct proghdr` of the file, if it can be read as a whole. -/
def proghdrAt (file : List UInt8) (off : UInt32) : Option Proghdr :=
  let ph := readFile file off 32
  if ph.length = 32 then
    some ⟨word ph 0, word ph 4, word ph 8, word ph 16, word ph 20⟩
  else
    none

/-- The file as exec() sees it, by the fields of its `struct elfhdr`; `none` if
that cannot be read as a whole. -/
def Program.ofFile (file : List UInt8) : Option Program :=
  let elf := readFile file 0 52
  if elf.length < 52 then
    none
  else
    some {
      magic := word elf 0
      entry := word elf 24
      phdrs := (List.range (half elf 44)).map fun i =>
        proghdrAt file (word elf 28 + UInt32.ofNat (32 * i))
      read := readFile file }

/-- The segment has the byte for the address. -/
def Proghdr.Covers (ph : Proghdr) (a : Nat) : Prop :=
  ph.type = elfProgLoad ∧ ph.vaddr.toNat ≤ a ∧ a < ph.vaddr.toNat + ph.filesz.toNat

/-- Each segment's bytes are in memory, but for those that a later segment
covers. -/
def SegmentsIn (f : Nat → Option UInt8) (file : List UInt8) (phs : List (Option Proghdr)) : Prop :=
  ∀ before ph after, phs = before ++ some ph :: after → ∀ j, ph.Covers (ph.vaddr.toNat + j) →
    (∀ ph', some ph' ∈ after → ¬ ph'.Covers (ph.vaddr.toNat + j)) →
    ph.off.toNat + j < file.length ∧ f (ph.vaddr.toNat + j) = file[ph.off.toNat + j]?

/-- Where the last of the segments ends. -/
def segmentsEnd : List (Option Proghdr) → UInt32 → UInt32
  | [], sz => sz
  | none :: phs, sz => segmentsEnd phs sz
  | some ph :: phs, sz =>
    if ph.type = elfProgLoad then segmentsEnd phs (max sz (ph.vaddr + ph.memsz))
    else segmentsEnd phs sz

section read
variable {file : List UInt8} {off n : UInt32}

theorem readFile_length_le (file : List UInt8) (off n : UInt32) : (readFile file off n).length ≤ n.toNat := by
  unfold readFile
  split
  · exact Nat.zero_le _
  · exact List.length_take_le ..

/-- A whole read lies in the file. -/
theorem readFile_whole (some : 0 < n.toNat) (whole : (readFile file off n).length = n.toNat) :
    off.toNat + n.toNat ≤ file.length ∧ readFile file off n = (file.drop off.toNat).take n.toNat := by
  unfold readFile at whole ⊢
  by_cases bad : off.toNat > file.length ∨ off + n < off
  · rw [if_pos bad, List.length_nil] at whole
    omega
  · rw [if_neg bad] at whole ⊢
    rw [List.length_take, List.length_drop] at whole
    exact ⟨by omega, rfl⟩

end read

/-! ## loaduvm() -/

section loading
variable {k : Symbols} {m m' : Machine} {R T : Multiset Addr} {dir sz : Addr} {file : List UInt8}
  {prog : Program}

/-- One turn of loaduvm(). -/
theorem loadLoop_turn (prog : Program) (offset : UInt32) (fuel : Nat) {addr filesz i : UInt32}
    {page : Addr}     (more : i < filesz) (at_page : leaf m.mem dir (pageOf (addr + i)) = some page) :
    let n := if filesz - i < 4096 then filesz - i else 4096
    let bytes := (prog.read (offset + i) n).take n.toNat
    loadLoop prog dir addr offset filesz (fuel + 1) i m =
      if bytes.length = n.toNat then
        loadLoop prog dir addr offset filesz fuel (i + 4096)
          (m.write page ((m.mem page).splice 0 bytes))
      else some (false, m.write page ((m.mem page).splice 0 bytes)) := by
  intro n bytes
  obtain ⟨t, there⟩ : ∃ t, table m.mem dir (pageOf (addr + i) / 1024) = some t := by
    apply Option.ne_none_iff_exists'.mp
    intro absent
    rw [leaf, pte_of_none absent, entry_zero] at at_page
    cases at_page
  have word := pte_of_table there
  have present : pte m.mem dir (pageOf (addr + i)) &&& pteP ≠ 0 := by
    intro zero
    rw [leaf, entry_eq_none_iff.mpr zero] at at_page
    cases at_page
  rw [leaf, entry, if_pos present, Option.some.injEq, word] at at_page
  rw [loadLoop, if_pos more]
  simp only [bind, walkpgdir_find, there, Option.map_some, Prog.get, at_page, Prog.modify]
  by_cases whole : bytes.length = n.toNat
  · rw [if_pos whole, if_pos whole]
  · rw [if_neg whole, if_neg whole]
    rfl

/-- loaduvm() puts the bytes of the file where they belong, if the file has
them. -/
theorem loadLoop_exact (offset i : UInt32) {addr filesz : UInt32} {fuel : Nat} (reads : prog.read = readFile file)
    (length : file.length < 4294967296) (space : Space k m dir R T)
    (present : ∀ n, 4096 * n < sz.toNat → leaf m.mem dir n ≠ none) (small : sz.toNat ≤ 2147483648)
    (fits : addr.toNat + filesz.toNat ≤ sz.toNat) (aligned : addr.toNat % 4096 = 0)
    (turn : i.toNat % 4096 = 0) (wraps : i < filesz → offset.toNat + i.toNat < 4294967296)
    (some : 0 < fuel) (enough : filesz.toNat + 4096 ≤ i.toNat + 4096 * fuel) :
    ∃ ok m' f, loadLoop prog dir addr offset filesz fuel i m = .some (ok, m') ∧
      Stored k m m' dir R T f ∧ (ok = true →
        (i < filesz → offset.toNat + filesz.toNat ≤ file.length) ∧
        Stored k m m' dir R T (overlay (userByte m.mem dir) (addr.toNat + i.toNat)
          ((file.drop (offset.toNat + i.toNat)).take (filesz.toNat - i.toNat)))) := by
  induction fuel generalizing m i with
  | zero => omega
  | succ fuel ih =>
    by_cases more : i < filesz
    · have below := UInt32.lt_iff_toNat_lt.mp more
      have at_addr : (addr + i).toNat = addr.toNat + i.toNat := toNat_add_page (by omega)
      have user : pageOf (addr + i) < userPages := by
        unfold pageOf userPages
        omega
      obtain ⟨page, at_page⟩ := Option.ne_none_iff_exists'.mp
        (present (pageOf (addr + i)) (by unfold pageOf; omega))
      have run := loadLoop_turn prog offset fuel more at_page
      generalize count : (if filesz - i < 4096 then filesz - i else 4096 : UInt32) = n at run
      have pageful : (4096 : UInt32).toNat = 4096 := rfl
      have left : (filesz - i).toNat = filesz.toNat - i.toNat :=
        UInt32.toNat_sub_of_le _ _ (UInt32.le_of_lt more)
      have part : n.toNat = min (filesz.toNat - i.toNat) 4096 := by
        rw [← count]
        by_cases few : filesz - i < 4096
        · have lt := UInt32.lt_iff_toNat_lt.mp few
          rw [if_pos few]
          omega
        · have ge := UInt32.le_iff_toNat_le.mp (UInt32.not_lt.mp few)
          rw [if_neg few]
          omega
      have start : (offset + i).toNat = offset.toNat + i.toNat := toNat_add_page (wraps more)
      dsimp only at run
      rw [reads, List.take_of_length_le (readFile_length_le ..)] at run
      have stored := write_bytes 0 (readFile file (offset + i) n) space.split space.nodup
        user at_page (by have := readFile_length_le file (offset + i) n; omega)
      have here : 4096 * pageOf (addr + i) + 0 = addr.toNat + i.toNat := by
        unfold pageOf
        omega
      rw [here] at stored
      by_cases whole : (readFile file (offset + i) n).length = n.toNat
      · rw [if_pos whole] at run
        obtain ⟨inside, bytes⟩ := readFile_whole (by omega) whole
        have next : (i + 4096).toNat = i.toNat + 4096 := toNat_next (by omega)
        obtain ⟨ok, m', f, rest, stored', result⟩ := ih (i := i + 4096) (space.of_keeps stored.toKeeps)
          (by rw [stored.leaves]; exact present) (by omega)
          (by rw [UInt32.lt_iff_toNat_lt]; omega) (by omega) (by omega)
        refine ⟨ok, m', f, run.trans rest, stored.trans stored', ?_⟩
        intro done
        obtain ⟨further, bytes'⟩ := result done
        constructor
        · intro _
          by_cases again : i + 4096 < filesz
          · exact further again
          · have last := UInt32.le_iff_toNat_le.mp (UInt32.not_lt.mp again)
            omega
        · have both := stored.overlay bytes'
          by_cases again : i + 4096 < filesz
          · have lt := UInt32.lt_iff_toNat_lt.mp again
            have full : n.toNat = 4096 := by omega
            have length₁ : (readFile file (offset + i) n).length = 4096 := by rw [whole, full]
            have lo : addr.toNat + (i + 4096).toNat =
                addr.toNat + i.toNat + (readFile file (offset + i) n).length := by omega
            have joined : readFile file (offset + i) n ++
                (file.drop (offset.toNat + (i + 4096).toNat)).take (filesz.toNat - (i + 4096).toNat) =
                (file.drop (offset.toNat + i.toNat)).take (filesz.toNat - i.toNat) := by
              have more' : filesz.toNat - i.toNat = 4096 + (filesz.toNat - (i.toNat + 4096)) := by omega
              rw [bytes, start, full, next, ← Nat.add_assoc, more']
              generalize offset.toNat + i.toNat = x
              rw [← List.drop_drop, ← List.take_add]
            rwa [lo, overlay_append, joined] at both
          · have last := UInt32.le_iff_toNat_le.mp (UInt32.not_lt.mp again)
            have nothing : filesz.toNat - (i + 4096).toNat = 0 := by omega
            have all : n.toNat = filesz.toNat - i.toNat := by omega
            rwa [nothing, List.take_zero, overlay_nil, bytes, start, all] at both
      · rw [if_neg whole] at run
        exact ⟨false, _, _, run, stored, fun no => absurd no Bool.false_ne_true⟩
    · have past := UInt32.le_iff_toNat_le.mp (UInt32.not_lt.mp more)
      refine ⟨true, m, _, ?_, .refl space.split, fun _ => ⟨fun yes => absurd yes more, ?_⟩⟩
      · rw [loadLoop, if_neg more]
        rfl
      · rw [Nat.sub_eq_zero_of_le past, List.take_zero, overlay_nil]
        exact .refl space.split

theorem loaduvm_exact (offset : UInt32) {addr filesz : UInt32} (reads : prog.read = readFile file)
    (length : file.length < 4294967296) (space : Space k m dir R T)
    (present : ∀ n, 4096 * n < sz.toNat → leaf m.mem dir n ≠ none) (small : sz.toNat ≤ 2147483648)
    (fits : addr.toNat + filesz.toNat ≤ sz.toNat) (aligned : addr % 4096 = 0) :
    ∃ ok m' f, loaduvm prog dir addr offset filesz m = some (ok, m') ∧
      Stored k m m' dir R T f ∧ (ok = true →
        (0 < filesz.toNat → offset.toNat + filesz.toNat ≤ file.length) ∧
        Stored k m m' dir R T (overlay (userByte m.mem dir) addr.toNat
          ((file.drop offset.toNat).take filesz.toNat))) := by
  have page : (4096 : UInt32).toNat = 4096 := rfl
  have start : addr.toNat % 4096 = 0 := by
    have low := congrArg UInt32.toNat aligned
    rwa [UInt32.toNat_mod, page] at low
  obtain ⟨ok, m', f, run, stored, result⟩ := loadLoop_exact offset 0 reads length space present small fits start rfl
    (fun _ => by rw [UInt32.toNat_zero]; exact offset.toNat_lt) (by decide : 0 < 1048576)
    (by rw [UInt32.toNat_zero]; omega)
  refine ⟨ok, m', f, ?_, stored, ?_⟩
  · rw [loaduvm, if_neg (not_not.mpr aligned)]
    exact run
  · intro done
    obtain ⟨whole, bytes⟩ := result done
    rw [UInt32.toNat_zero, Nat.add_zero, Nat.add_zero, Nat.sub_zero] at bytes
    refine ⟨fun pos => whole ?_, bytes⟩
    rw [UInt32.lt_iff_toNat_lt]
    exact pos

/-! ## The loop over the program headers -/

/-- A space while segments are loaded: the user pages are those below `sz`, all
of them the user's to use. -/
structure Loading (mem : Addr → Page) (dir sz : Addr) : Prop extends Half mem dir where
  small : sz < kernbase
  present : Present mem dir (pageCount sz)
  usable : ∀ n, n < pageCount sz → pte mem dir n &&& pteU ≠ 0
  hole : ∀ i, 568 ≤ i → i < 1016 → table mem dir i = none

theorem Loading.congr {mem mem' : Addr → Page} (loading : Loading mem dir sz)
    (tables : table mem' dir = table mem dir) (ptes : pte mem' dir = pte mem dir) :
    Loading mem' dir sz := by
  refine ⟨loading.toHalf.keep ?_ ?_, loading.small, ?_, ?_, ?_⟩
  · rw [tables]
    exact fun _ _ at_i => at_i
  · rw [ptes]
    exact fun _ _ => rfl
  · intro n user
    rw [leaf, ptes]
    exact loading.present n user
  · rw [ptes]
    exact loading.usable
  · rw [tables]
    exact loading.hole

theorem Fresh.loading (fresh : Fresh m.mem dir) : Loading m.mem dir 0 where
  toHalf := fresh.half
  small := by decide
  present := by
    intro n user
    rw [fresh.only.no_user n user]
    exact ⟨fun no => absurd rfl no, fun no => absurd no (Nat.not_lt_zero _)⟩
  usable := fun n no => absurd no (Nat.not_lt_zero n)
  hole := by
    intro i low high
    by_contra there
    obtain ⟨t, at_i⟩ := Option.ne_none_iff_exists'.mp there
    have piece := fresh.only.tables i t at_i
    unfold KernelPiece at piece
    omega

/-- A page mapped with PTE_U has it. -/
theorem or_user (e : UInt32) : (e ||| (pteW ||| pteU) ||| pteP) &&& pteU ≠ 0 := by
  have bit : ((e ||| (pteW ||| pteU) ||| pteP) &&& pteU).toNat.testBit 2 = true := by
    have user : (pteW ||| pteU).toNat.testBit 2 = true := by decide
    have mask : pteU.toNat.testBit 2 = true := by decide
    rw [UInt32.toNat_and, Nat.testBit_and, UInt32.toNat_or, Nat.testBit_or, UInt32.toNat_or,
      Nat.testBit_or, user, mask, Bool.or_true, Bool.true_or, Bool.and_true]
  intro zero
  rw [zero] at bit
  cases bit

theorem pte_of_userPage {mem : Addr → Page} {n : Nat} {e : UInt32} {x : Page}
    (at_n : userPage mem dir n = some (e, x)) : pte mem dir n = e := by
  obtain ⟨q, _, here⟩ := Option.map_eq_some_iff.mp at_n
  exact (Prod.mk.injEq .. ▸ here).1

theorem Loading.grown {sz' : Addr} (loading : Loading m.mem dir sz)
    (grown : Grown k m m' dir R T (pageCount sz) (pageCount sz')) (small : sz' < kernbase)
    (order : sz ≤ sz') : Loading m'.mem dir sz' := by
  have base : kernbase.toNat = 2147483648 := rfl
  have below := UInt32.lt_iff_toNat_lt.mp small
  have le := UInt32.le_iff_toNat_le.mp order
  have pages : pageCount sz ≤ pageCount sz' := by
    unfold pageCount
    omega
  refine ⟨loading.toHalf.keep grown.tables grown.kernel, small,
    grown.present loading.present pages, ?_,
    fun i low high => by rw [grown.upper i (by omega), loading.hole i low high]⟩
  intro n lt
  have user : n < userPages := by
    unfold pageCount at lt
    unfold userPages
    omega
  by_cases old : n < pageCount sz
  · obtain ⟨q, at_n⟩ := Option.ne_none_iff_exists'.mp ((loading.present n user).mpr old)
    have same := grown.below n old user
    rw [userPage_of_leaf at_n] at same
    rw [pte_of_userPage same]
    exact loading.usable n old
  · obtain ⟨v, _, at_n⟩ := grown.fresh n (by omega) lt
    rw [pte_of_userPage at_n]
    exact or_user _

/-- allocuvm() as exec() calls it, with a new size that may be smaller. -/
theorem Loading.allocuvm (loading : Loading m.mem dir sz) (space : Space k m dir R T) (newsz : Addr) :
    ∃ r m', Vm.allocuvm k dir sz newsz m = some (r, m') ∧ Keeps k m m' dir R T ∧
      (r = 0 ∨ (Loading m'.mem dir r ∧ sz ≤ r ∧ newsz ≤ r ∧ (r = sz ∨ r = newsz) ∧
        ∀ n, n < pageCount sz → userPage m'.mem dir n = userPage m.mem dir n)) := by
  by_cases large : newsz ≥ kernbase
  · refine ⟨0, m, ?_, .refl space.split, .inl rfl⟩
    rw [Vm.allocuvm, if_pos large]
    rfl
  by_cases less : newsz < sz
  · refine ⟨sz, m, ?_, .refl space.split, .inr ⟨loading, UInt32.le_refl _, UInt32.le_of_lt less,
      .inl rfl, fun _ _ => rfl⟩⟩
    rw [Vm.allocuvm, if_neg large, if_pos less]
    rfl
  have order := UInt32.not_lt.mp less
  have small := UInt32.not_le.mp large
  obtain ⟨r, m', run, ⟨rfl, grown, _⟩ | ⟨rfl, grown, _⟩⟩ :=
    allocuvm_exact space order small loading.present
  · refine ⟨r, m', run, grown.toKeeps, .inr ⟨loading.grown grown small order, order, UInt32.le_refl _,
      .inr rfl, ?_⟩⟩
    intro n lt
    apply grown.below n lt
    have base : kernbase.toNat = 2147483648 := rfl
    have below := UInt32.lt_iff_toNat_lt.mp loading.small
    unfold pageCount at lt
    unfold userPages
    omega
  · exact ⟨0, m', run, grown.toKeeps, .inl rfl⟩

theorem SegmentsIn.congr {f g : Nat → Option UInt8} {phs : List (Option Proghdr)}
    (segments : SegmentsIn f file phs)
    (same : ∀ ph a, some ph ∈ phs → ph.Covers a → g a = f a) : SegmentsIn g file phs := by
  rintro before ph after rfl j covers outside
  obtain ⟨inside, bytes⟩ := segments before ph after rfl j covers outside
  refine ⟨inside, ?_⟩
  rw [same ph _ (by simp) covers, bytes]

theorem SegmentsIn.cons {f : Nat → Option UInt8} {ph : Option Proghdr} {phs : List (Option Proghdr)}
    (rest : SegmentsIn f file phs)
    (first : ∀ p, ph = some p → ∀ j, p.Covers (p.vaddr.toNat + j) →
      (∀ ph', some ph' ∈ phs → ¬ ph'.Covers (p.vaddr.toNat + j)) →
      p.off.toNat + j < file.length ∧ f (p.vaddr.toNat + j) = file[p.off.toNat + j]?) :
    SegmentsIn f file (ph :: phs) := by
  intro before p after eq
  cases before with
  | nil =>
    rw [List.nil_append, List.cons.injEq] at eq
    obtain ⟨here, rfl⟩ := eq
    exact first p here
  | cons b before =>
    rw [List.cons_append, List.cons.injEq] at eq
    exact rest before p after eq.2

/-- exec() goes through the headers without a panic, and if it comes to the end
the segments are in memory. -/
theorem loadSegments_exact (phs : List (Option Proghdr)) (reads : prog.read = readFile file)
    (length : file.length < 4294967296) (space : Space k m dir R T) (loading : Loading m.mem dir sz) :
    ∃ r m', loadSegments k prog dir phs sz m = some (r, m') ∧ Keeps k m m' dir R T ∧
      ∀ sz', r = some sz' → sz' = segmentsEnd phs sz ∧ Loading m'.mem dir sz' ∧ sz ≤ sz' ∧
        (∀ a, a < 4096 * pageCount sz → (∀ ph, some ph ∈ phs → ¬ ph.Covers a) →
          userByte m'.mem dir a = userByte m.mem dir a) ∧
        SegmentsIn (userByte m'.mem dir) file phs ∧
        ∀ ph a, some ph ∈ phs → ph.Covers a → a < sz'.toNat := by
  induction phs generalizing m sz with
  | nil =>
    refine ⟨some sz, m, rfl, .refl space.split, ?_⟩
    rintro sz' ⟨⟩
    refine ⟨rfl, loading, UInt32.le_refl _, fun _ _ _ => rfl, ?_, fun ph _ mem => absurd mem (by simp)⟩
    intro before ph after eq
    exact absurd eq (by simp)
  | cons head phs ih =>
    -- every `goto bad` leaves the space in order
    have bad {m₁ : Machine} (keeps : Keeps k m m₁ dir R T)
        (run : loadSegments k prog dir (head :: phs) sz m = some (none, m₁)) :
        ∃ r m', loadSegments k prog dir (head :: phs) sz m = some (r, m') ∧ Keeps k m m' dir R T ∧
          ∀ sz', r = some sz' → sz' = segmentsEnd (head :: phs) sz ∧ Loading m'.mem dir sz' ∧ sz ≤ sz' ∧
            (∀ a, a < 4096 * pageCount sz → (∀ ph, some ph ∈ head :: phs → ¬ ph.Covers a) →
              userByte m'.mem dir a = userByte m.mem dir a) ∧
            SegmentsIn (userByte m'.mem dir) file (head :: phs) ∧
            ∀ ph a, some ph ∈ head :: phs → ph.Covers a → a < sz'.toNat :=
      ⟨none, m₁, run, keeps, fun _ no => by cases no⟩
    cases head with
    | none => exact bad (.refl space.split) rfl
    | some ph =>
    by_cases other : ph.type ≠ elfProgLoad
    · obtain ⟨r, m', run, keeps, result⟩ := ih space loading
      refine ⟨r, m', by rw [loadSegments, if_pos other, run], keeps, ?_⟩
      intro sz' done
      obtain ⟨size, loading', order, same, segments, within⟩ := result sz' done
      refine ⟨by rw [segmentsEnd, if_neg other, size], loading', order, ?_, segments.cons ?_, ?_⟩
      · intro a lt outside
        exact same a lt fun ph' mem => outside ph' (List.mem_cons_of_mem _ mem)
      · rintro p ⟨⟩ j covers
        exact absurd covers.1 other
      · intro p a mem covers
        rw [List.mem_cons, Option.some.injEq] at mem
        obtain rfl | mem := mem
        · exact absurd covers.1 other
        · exact within p a mem covers
    by_cases short : ph.memsz < ph.filesz
    · exact bad (.refl space.split) (by rw [loadSegments, if_neg other, if_pos short]; rfl)
    by_cases wraps : ph.vaddr + ph.memsz < ph.vaddr
    · exact bad (.refl space.split)
        (by rw [loadSegments, if_neg other, if_neg short, if_pos wraps]; rfl)
    obtain ⟨sz₁, m₁, grown, keeps₁, result₁⟩ := loading.allocuvm space (ph.vaddr + ph.memsz)
    by_cases zero : sz₁ = 0
    · apply bad keeps₁
      rw [loadSegments, if_neg other, if_neg short, if_neg wraps]
      simp only [bind, grown, zero, ↓reduceIte]
      rfl
    by_cases ragged : ph.vaddr % 4096 ≠ 0
    · apply bad keeps₁
      rw [loadSegments, if_neg other, if_neg short, if_neg wraps]
      simp only [bind, grown, zero, ragged, ↓reduceIte, ne_eq, not_false_eq_true]
      rfl
    obtain ⟨loading₁, order₁, covers₁, which, same₁⟩ := result₁.resolve_left zero
    have base : kernbase.toNat = 2147483648 := rfl
    have small₁ := UInt32.lt_iff_toNat_lt.mp loading₁.small
    have small := UInt32.lt_iff_toNat_lt.mp loading.small
    have fits : ph.vaddr.toNat + ph.filesz.toNat ≤ sz₁.toNat := by
      have vaddr := ph.vaddr.toNat_lt
      have memsz := ph.memsz.toNat_lt
      rw [UInt32.lt_iff_toNat_lt] at short
      rw [UInt32.lt_iff_toNat_lt, UInt32.toNat_add] at wraps
      rw [UInt32.le_iff_toNat_le, UInt32.toNat_add] at covers₁
      omega
    have mapped (n : Nat) (lt : 4096 * n < sz₁.toNat) : leaf m₁.mem dir n ≠ none := by
      apply (loading₁.present n (by unfold userPages; omega)).mpr
      unfold pageCount
      omega
    obtain ⟨ok, m₂, f, loaded, stored, result₂⟩ := loaduvm_exact ph.off reads length
      (space.of_keeps keeps₁) mapped (by omega) fits (not_not.mp ragged)
    have keeps₂ := keeps₁.trans stored.toKeeps
    cases ok with
    | false =>
      apply bad keeps₂
      rw [loadSegments, if_neg other, if_neg short, if_neg wraps]
      simp only [bind, grown, zero, ragged, ↓reduceIte, loaded]
      rfl
    | true =>
    obtain ⟨inside, bytes⟩ := result₂ rfl
    have loading₂ := loading₁.congr stored.same stored.ptes
    obtain ⟨r, m', run, keeps', result⟩ := ih (space.of_keeps keeps₂) loading₂
    refine ⟨r, m', ?_, keeps₂.trans keeps', ?_⟩
    · rw [loadSegments, if_neg other, if_neg short, if_neg wraps]
      simp only [bind, grown, zero, ragged, ↓reduceIte, loaded]
      exact run
    intro sz' done
    obtain ⟨end_, loading', order, same, segments, within⟩ := result sz' done
    have le₁ := UInt32.le_iff_toNat_le.mp order₁
    have le := UInt32.le_iff_toNat_le.mp order
    have larger : max sz (ph.vaddr + ph.memsz) = sz₁ := by
      by_cases less : sz ≤ ph.vaddr + ph.memsz
      · rw [show max sz (ph.vaddr + ph.memsz) = ph.vaddr + ph.memsz from if_pos less]
        obtain rfl | rfl := which
        · exact UInt32.le_antisymm covers₁ less
        · rfl
      · rw [show max sz (ph.vaddr + ph.memsz) = sz from if_neg less]
        obtain rfl | rfl := which
        · rfl
        · exact absurd order₁ less
    have size : ((file.drop ph.off.toNat).take ph.filesz.toNat).length ≤ ph.filesz.toNat :=
      List.length_take_le ..
    refine ⟨by rw [segmentsEnd, if_pos (not_not.mp other), larger, end_], loading',
      UInt32.le_trans order₁ order, ?_, segments.cons ?_, ?_⟩
    · intro a lt outside
      have here := outside ph (List.mem_cons_self ..)
      rw [same a (by unfold pageCount at lt ⊢; omega)
        (fun ph' mem => outside ph' (List.mem_cons_of_mem _ mem)),
        bytes.bytes a (by unfold pageCount at lt; omega), overlay_outside, userByte, userByte,
        same₁ (a / 4096) (by omega)]
      by_contra covered
      exact here ⟨not_not.mp other, by omega, by omega⟩
    · rintro p ⟨⟩ j covers outside
      obtain ⟨_, _, lt⟩ := covers
      have whole := inside (by omega)
      refine ⟨by omega, ?_⟩
      have within : ((file.drop ph.off.toNat).take ph.filesz.toNat).length = ph.filesz.toNat := by
        rw [List.length_take, List.length_drop]
        omega
      rw [same _ (by unfold pageCount; omega) outside, bytes.bytes _ (by omega), overlay,
        if_pos ⟨by omega, by omega⟩, Nat.add_sub_cancel_left, List.getElem?_take_of_lt (by omega),
        List.getElem?_drop]
    · intro p a mem covers
      rw [List.mem_cons, Option.some.injEq] at mem
      obtain rfl | mem := mem
      · have := covers.2.2
        omega
      · exact within p a mem covers

end loading
end Xv6.Vm
