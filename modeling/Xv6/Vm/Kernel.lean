import Mathlib.Order.Interval.Finset.Nat
import Xv6.Vm.Tables

/-! setupkvm(): the kernel part of an address space, and what it costs. -/

namespace Xv6.Vm
open Lib

structure Kmap where
  virt : Addr
  physStart : Addr
  physEnd : Addr
  perm : UInt32

/-- The kernel's mappings, which are present in every page table. -/
def kmap (k : Symbols) : List Kmap :=
  [⟨kernbase, 0, extmem, pteW⟩, -- I/O space
   ⟨kernlink, v2p kernlink, v2p k.data, 0⟩, -- kern text+rodata
   ⟨k.data, v2p k.data, phystop, pteW⟩, -- kern data+memory
   ⟨devspace, devspace, 0, pteW⟩] -- more devices

/-- The loop of setupkvm() over `kmap`. -/
def mapKernel (pgdir : Addr) : List Kmap → Prog Machine Bool
  | [] => pure true
  | e :: es => do
    if ← mappages pgdir e.virt (e.physEnd - e.physStart) e.physStart e.perm then
      mapKernel pgdir es
    else
      pure false

/-- Set up the kernel part of a page table. -/
def setupkvm (k : Symbols) : Prog Machine Addr := do
  let pgdir ← kalloc
  if pgdir = 0 then
    pure 0
  else do
    .modify fun m => m.write pgdir Bytes.zero
    if p2v phystop > devspace then
      .halt -- PHYSTOP too high
    else if ← mapKernel pgdir (kmap k) then
      pure pgdir
    else
      pure 0

/-! ## The kernel part -/

/-- The 4 MB pieces with kernel mappings: those of physical memory and those of
the devices. -/
def KernelPiece (i : Nat) : Prop := (512 ≤ i ∧ i < 568) ∨ (1016 ≤ i ∧ i < 1024)

/-- Nothing but kernel mappings, which user code cannot use. -/
structure KernelOnly (mem : Addr → Page) (dir : Addr) : Prop where
  tables : ∀ i t, table mem dir i = some t → KernelPiece i
  leaves : ∀ n q, leaf mem dir n = some q → pte mem dir n &&& pteU = 0

theorem KernelOnly.no_user {mem : Addr → Page} {dir : Addr} (only : KernelOnly mem dir) (n : Nat)
    (user : n < userPages) : leaf mem dir n = none := by
  cases at_n : table mem dir (n / 1024) with
  | none => rw [leaf, pte_of_none at_n, entry_zero]
  | some t =>
    have piece := only.tables _ t at_n
    unfold KernelPiece at piece
    unfold userPages at user
    omega

theorem or_no_user {pa perm : UInt32} (aligned : Aligned pa) (kernel : perm &&& pteU = 0) :
    (pa ||| perm ||| pteP) &&& pteU = 0 := by
  have bit (a : UInt32) : (a &&& pteU).toNat = (a.toNat.testBit 2).toNat * 4 := by
    rw [UInt32.toNat_and]
    exact Nat.and_two_pow a.toNat 2
  have low : pa.toNat.testBit 2 = false := by
    have whole : pa.toNat = 2 ^ 12 * (pa.toNat / 4096) := by
      have : pa.toNat % 4096 = 0 := aligned
      omega
    rw [whole, Nat.testBit_two_pow_mul]
    simp
  have clear : perm.toNat.testBit 2 = false := by
    have zero := bit perm
    rw [kernel] at zero
    cases at_2 : perm.toNat.testBit 2 with
    | false => rfl
    | true =>
      rw [at_2] at zero
      cases zero
  apply UInt32.toNat.inj
  rw [bit, UInt32.toNat_or, UInt32.toNat_or, Nat.testBit_or, Nat.testBit_or, low, clear]
  rfl

section loops
variable {k : Symbols} {m m' : Machine} {R T : Multiset Addr} {dir a pa : Addr} {perm : UInt32}

/-- What a loop over kernel mappings leaves behind. -/
structure Mapped (k : Symbols) (m m' : Machine) (R T : Multiset Addr) (dir : Addr) (ok : Bool) :
    Prop where
  split : Split k m' (pages m'.mem dir + R) T
  frame : ∀ p ∈ R, m'.mem p = m.mem p
  only : KernelOnly m'.mem dir
  grows : ∀ i, table m.mem dir i ≠ none → table m'.mem dir i ≠ none
  failed : ok = false → T = pages m'.mem dir + R ∧ ∃ i, KernelPiece i ∧ table m'.mem dir i = none

theorem Mapped.trans {m₁ m₂ : Machine} {ok : Bool} (first : Mapped k m m₁ R T dir true)
    (rest : Mapped k m₁ m₂ R T dir ok) : Mapped k m m₂ R T dir ok where
  split := rest.split
  frame p other := (rest.frame p other).trans (first.frame p other)
  only := rest.only
  grows i present := rest.grows i (first.grows i present)
  failed := rest.failed

theorem mapPage_mapped (split : Split k m (pages m.mem dir + R) T) (nodup : T.Nodup)
    (only : KernelOnly m.mem dir) (piece : KernelPiece (pageOf a / 1024)) (aligned : Aligned pa)
    (kernel : perm &&& pteU = 0) {ok : Bool} (run : mapPage dir a pa perm m = some (ok, m')) :
    Mapped k m m' R T dir ok ∧ (ok = true → table m'.mem dir (pageOf a / 1024) ≠ none) := by
  have high : userPages ≤ pageOf a := by
    unfold KernelPiece at piece
    unfold userPages
    omega
  obtain ⟨rfl, rfl, absent, all⟩ | ⟨rfl, ⟨_, ⟨t, tables⟩, ptes, _⟩, split', frame⟩ :=
    mapPage_kernel split nodup high run
  · refine ⟨⟨split, fun _ _ => rfl, only, fun _ h => h, fun _ => ⟨all, _, piece, absent⟩⟩, ?_⟩
    intro no
    cases no
  · refine ⟨⟨split', frame, ⟨?_, ?_⟩, ?_, fun no => nomatch no⟩, ?_⟩
    · intro i t' at_i
      by_cases here : i = pageOf a / 1024
      · rw [here]
        exact piece
      · rw [tables.new, Function.update_of_ne here] at at_i
        exact only.tables i t' at_i
    · intro n q at_n
      rw [leaf, ptes] at at_n
      rw [ptes]
      by_cases here : n = pageOf a
      · rw [here, Function.update_self]
        exact or_no_user aligned kernel
      · rw [Function.update_of_ne here] at at_n ⊢
        exact only.leaves n q at_n
    · intro i present
      obtain ⟨t', at_i⟩ := Option.ne_none_iff_exists'.mp present
      rw [tables.keeps i t' at_i]
      exact Option.some_ne_none t'
    · intro _
      rw [tables.here]
      exact Option.some_ne_none t

theorem aligned_add {a : Addr} (aligned : Aligned a) : Aligned (a + 4096) := by
  have low : a.toNat % 4096 = 0 := aligned
  have one : (4096 : UInt32).toNat = 4096 := rfl
  unfold Aligned pgsize
  rw [UInt32.toNat_add, one]
  omega

/-- The loop makes the tables for the pieces it goes through. -/
theorem mapLoop_mapped {c : Nat} (split : Split k m (pages m.mem dir + R) T) (nodup : T.Nodup)
    (only : KernelOnly m.mem dir) (room : a.toNat + 4096 * c < 4294967296)
    (piece : ∀ n, pageOf a ≤ n → n ≤ pageOf a + c → KernelPiece (n / 1024)) (aligned : Aligned pa)
    (kernel : perm &&& pteU = 0) {ok : Bool} (run : mapLoop dir perm c a pa m = some (ok, m')) :
    Mapped k m m' R T dir ok ∧
      (ok = true → ∀ n, pageOf a ≤ n → n ≤ pageOf a + c → table m'.mem dir (n / 1024) ≠ none) := by
  induction c generalizing m a pa with
  | zero =>
    obtain ⟨mapped, present⟩ := mapPage_mapped split nodup only
      (piece _ (Nat.le_refl _) (Nat.le_refl _)) aligned kernel run
    refine ⟨mapped, ?_⟩
    intro done n low high
    obtain rfl : n = pageOf a := Nat.le_antisymm high low
    exact present done
  | succ c ih =>
    simp only [mapLoop, Prog.bind_eq_some] at run
    obtain ⟨ok₁, m₁, turn, run⟩ := run
    obtain ⟨mapped, present⟩ := mapPage_mapped split nodup only
      (piece _ (Nat.le_refl _) (Nat.le_add_right _ _)) aligned kernel turn
    cases ok₁ with
    | false =>
      obtain ⟨rfl, rfl⟩ := Prog.pure_eq_some.mp run
      exact ⟨mapped, by rintro ⟨⟩⟩
    | true =>
      have add : (a + 4096).toNat = a.toNat + 4096 := by
        have one : (4096 : UInt32).toNat = 4096 := rfl
        rw [UInt32.toNat_add, one]
        omega
      have next : pageOf (a + 4096) = pageOf a + 1 := by
        unfold pageOf
        rw [add]
        omega
      obtain ⟨rest, made⟩ := ih mapped.split mapped.only (by omega)
        (fun n low high => piece n (by omega) (by omega)) (aligned_add aligned) run
      refine ⟨mapped.trans rest, ?_⟩
      intro done n low high
      by_cases first : n = pageOf a
      · rw [first]
        exact rest.grows _ (present rfl)
      · exact made done n (by omega) (by omega)

/-- The turns that mappages() takes for a range that does not go round the end
of memory. -/
theorem mappages_eq {va size : Addr} (start : Aligned va) (some : 0 < size.toNat)
    (fits : va.toNat + size.toNat ≤ 4294967296) (dir pa : Addr) (perm : UInt32) :
    mappages dir va size pa perm =
      mapLoop dir perm ((va.toNat + size.toNat - 1) / 4096 - va.toNat / 4096) va pa := by
  have low : va.toNat % 4096 = 0 := start
  have one : (1 : UInt32).toNat = 1 := rfl
  have page : (4096 : UInt32).toNat = 4096 := rfl
  have bound := size.toNat_lt
  have first : pgrounddown va = va := by
    apply UInt32.toNat.inj
    rw [toNat_pgrounddown, pageOf]
    omega
  have final : (va + size - 1).toNat = va.toNat + size.toNat - 1 := by
    rw [UInt32.toNat_sub, UInt32.toNat_add, one]
    omega
  have last : (pgrounddown (va + size - 1)).toNat =
      4096 * ((va.toNat + size.toNat - 1) / 4096) := by
    rw [toNat_pgrounddown, pageOf, final]
  have count : ((pgrounddown (va + size - 1) - va) / 4096).toNat =
      (va.toNat + size.toNat - 1) / 4096 - va.toNat / 4096 := by
    have le : va ≤ pgrounddown (va + size - 1) := by
      rw [UInt32.le_iff_toNat_le, last]
      omega
    rw [UInt32.toNat_div, UInt32.toNat_sub_of_le _ _ le, last, page]
    omega
  simp only [mappages, first, count]

theorem mappages_mapped {va size : Addr} (split : Split k m (pages m.mem dir + R) T)
    (nodup : T.Nodup) (only : KernelOnly m.mem dir) (start : Aligned va) (some : 0 < size.toNat)
    (fits : va.toNat + size.toNat ≤ 4294967296)
    (piece : ∀ n, va.toNat ≤ 4096 * n → 4096 * n < va.toNat + size.toNat → KernelPiece (n / 1024))
    (aligned : Aligned pa) (kernel : perm &&& pteU = 0) {ok : Bool}
    (run : mappages dir va size pa perm m = .some (ok, m')) :
    Mapped k m m' R T dir ok ∧ (ok = true →
      ∀ n, va.toNat ≤ 4096 * n → 4096 * n < va.toNat + size.toNat →
        table m'.mem dir (n / 1024) ≠ none) := by
  have low : va.toNat % 4096 = 0 := start
  rw [mappages_eq start some fits] at run
  have here : pageOf va = va.toNat / 4096 := rfl
  obtain ⟨mapped, made⟩ := mapLoop_mapped split nodup only (by omega)
    (fun n ge le => piece n (by omega) (by omega)) aligned kernel run
  refine ⟨mapped, ?_⟩
  intro done n ge lt
  exact made done n (by omega) (by omega)

end loops

/-! ## The table of mappings -/

def Kmap.size (e : Kmap) : Nat := (e.physEnd - e.physStart).toNat

/-- The page starts in the range. -/
def Kmap.Covers (e : Kmap) (n : Nat) : Prop := e.virt.toNat ≤ 4096 * n ∧ 4096 * n < e.virt.toNat + e.size

structure Kmap.Sound (e : Kmap) : Prop where
  virt : Aligned e.virt
  phys : Aligned e.physStart
  some : 0 < e.size
  fits : e.virt.toNat + e.size ≤ 4294967296
  kernel : e.perm &&& pteU = 0
  piece : ∀ n, e.Covers n → KernelPiece (n / 1024)

theorem Symbols.toNat_data (k : Symbols) : 2148532224 < k.data.toNat ∧ k.data.toNat < 2382364672 ∧
    (v2p k.data).toNat = k.data.toNat - 2147483648 := by
  have lt := k.kernlink_lt
  have le := k.data_le
  have lt' := k.kend_lt
  rw [UInt32.lt_iff_toNat_lt] at lt lt'
  rw [UInt32.le_iff_toNat_le] at le
  have base : kernbase.toNat = 2147483648 := rfl
  have link : kernlink.toNat = 2148532224 := rfl
  have top : (p2v phystop).toNat = 2382364672 := rfl
  refine ⟨by omega, by omega, ?_⟩
  rw [v2p, UInt32.toNat_sub_of_le, base]
  rw [UInt32.le_iff_toNat_le]
  omega

theorem text_size (k : Symbols) :
    Kmap.size ⟨kernlink, v2p kernlink, v2p k.data, 0⟩ = k.data.toNat - 2148532224 := by
  obtain ⟨above, _, phys⟩ := k.toNat_data
  have start : (v2p kernlink).toNat = 1048576 := rfl
  have le : v2p kernlink ≤ v2p k.data := by
    rw [UInt32.le_iff_toNat_le]
    omega
  rw [Kmap.size, UInt32.toNat_sub_of_le _ _ le, phys, start]
  omega

theorem data_size (k : Symbols) :
    Kmap.size ⟨k.data, v2p k.data, phystop, pteW⟩ = 2382364672 - k.data.toNat := by
  obtain ⟨above, below, phys⟩ := k.toNat_data
  have stop : phystop.toNat = 234881024 := rfl
  have le : v2p k.data ≤ phystop := by
    rw [UInt32.le_iff_toNat_le]
    omega
  rw [Kmap.size, UInt32.toNat_sub_of_le _ _ le, phys, stop]
  omega

theorem kmap_sound (k : Symbols) : ∀ e ∈ kmap k, e.Sound := by
  obtain ⟨above, below, phys⟩ := k.toNat_data
  have low : k.data.toNat % 4096 = 0 := k.data_aligned
  simp only [kmap, List.forall_mem_cons, List.not_mem_nil, false_implies, implies_true, and_true]
  refine ⟨?_, ?_, ?_, ?_⟩
  · have size : Kmap.size ⟨kernbase, 0, extmem, pteW⟩ = 1048576 := rfl
    have start : kernbase.toNat = 2147483648 := rfl
    refine ⟨by decide, by decide, by omega, by dsimp only; omega, by decide, ?_⟩
    rintro n ⟨ge, lt⟩
    unfold KernelPiece
    dsimp only at ge lt
    omega
  · have size := text_size k
    have start : kernlink.toNat = 2148532224 := rfl
    refine ⟨(by decide : Aligned kernlink), (by decide : Aligned (v2p kernlink)), by omega,
      by dsimp only; omega, (by decide : (0 : UInt32) &&& pteU = 0), ?_⟩
    rintro n ⟨ge, lt⟩
    unfold KernelPiece
    dsimp only at ge lt
    omega
  · have size := data_size k
    refine ⟨k.data_aligned, ?_, by omega, by dsimp only; omega,
      (by decide : pteW &&& pteU = 0), ?_⟩
    · unfold Aligned pgsize
      dsimp only
      omega
    · rintro n ⟨ge, lt⟩
      unfold KernelPiece
      dsimp only at ge lt
      omega
  · have size : Kmap.size ⟨devspace, devspace, 0, pteW⟩ = 33554432 := rfl
    have start : devspace.toNat = 4261412864 := rfl
    refine ⟨by decide, by decide, by omega, by dsimp only; omega, by decide, ?_⟩
    rintro n ⟨ge, lt⟩
    unfold KernelPiece
    dsimp only at ge lt
    omega

/-- Each piece starts with a page of one of the four ranges. -/
theorem kmap_covers (k : Symbols) {i : Nat} (piece : KernelPiece i) :
    ∃ e ∈ kmap k, e.Covers (1024 * i) := by
  obtain ⟨above, below, _⟩ := k.toNat_data
  have text := text_size k
  have data := data_size k
  have io : Kmap.size ⟨kernbase, 0, extmem, pteW⟩ = 1048576 := rfl
  have devices : Kmap.size ⟨devspace, devspace, 0, pteW⟩ = 33554432 := rfl
  have base : kernbase.toNat = 2147483648 := rfl
  have link : kernlink.toNat = 2148532224 := rfl
  have dev : devspace.toNat = 4261412864 := rfl
  unfold KernelPiece at piece
  by_cases high : 1016 ≤ i
  · refine ⟨⟨devspace, devspace, 0, pteW⟩, by simp [kmap], ?_, ?_⟩
    · dsimp only
      omega
    · dsimp only
      omega
  by_cases first : 1024 * i < 524544
  · refine ⟨⟨kernbase, 0, extmem, pteW⟩, by simp [kmap], ?_, ?_⟩
    · dsimp only
      omega
    · dsimp only
      omega
  by_cases code : 4096 * (1024 * i) < k.data.toNat
  · refine ⟨⟨kernlink, v2p kernlink, v2p k.data, 0⟩, by simp [kmap], ?_, ?_⟩
    · dsimp only
      omega
    · dsimp only
      omega
  · refine ⟨⟨k.data, v2p k.data, phystop, pteW⟩, by simp [kmap], ?_, ?_⟩
    · dsimp only
      omega
    · dsimp only
      omega

section setup
variable {k : Symbols} {m m' : Machine} {R T : Multiset Addr} {dir : Addr}

theorem mapKernel_mapped {es : List Kmap} (sound : ∀ e ∈ es, e.Sound)
    (split : Split k m (pages m.mem dir + R) T) (nodup : T.Nodup) (only : KernelOnly m.mem dir)
    {ok : Bool} (run : mapKernel dir es m = some (ok, m')) :
    Mapped k m m' R T dir ok ∧
      (ok = true → ∀ e ∈ es, ∀ n, e.Covers n → table m'.mem dir (n / 1024) ≠ none) := by
  induction es generalizing m with
  | nil =>
    obtain ⟨rfl, rfl⟩ := Prog.pure_eq_some.mp run
    exact ⟨⟨split, fun _ _ => rfl, only, fun _ h => h, fun no => nomatch no⟩,
      fun _ _ mem => nomatch mem⟩
  | cons e es ih =>
    rw [mapKernel, Prog.bind_eq_some] at run
    obtain ⟨ok₁, m₁, run₁, run⟩ := run
    have here := sound e (List.mem_cons_self ..)
    obtain ⟨mapped, made⟩ := mappages_mapped split nodup only here.virt here.some here.fits
      (fun n ge lt => here.piece n ⟨ge, lt⟩) here.phys here.kernel run₁
    cases ok₁ with
    | false =>
      obtain ⟨rfl, rfl⟩ := Prog.pure_eq_some.mp run
      exact ⟨mapped, fun no => nomatch no⟩
    | true =>
      obtain ⟨rest, others⟩ := ih (fun e' mem => sound e' (List.mem_cons_of_mem _ mem))
        mapped.split mapped.only run
      refine ⟨mapped.trans rest, ?_⟩
      intro done e' mem n covers
      rw [List.mem_cons] at mem
      obtain rfl | mem := mem
      · exact rest.grows _ (made rfl n covers.1 covers.2)
      · exact others done e' mem n covers

/-- The pieces in order. -/
def kernelPieces : Finset Nat := Finset.Ico 512 568 ∪ Finset.Ico 1016 1024

theorem mem_kernelPieces {i : Nat} : i ∈ kernelPieces ↔ KernelPiece i := by
  simp [kernelPieces, KernelPiece]

theorem card_kernelPieces : kernelPieces.card = 64 := by
  have apart : Disjoint (Finset.Ico 512 568) (Finset.Ico 1016 1024) := by
    rw [Finset.disjoint_left]
    intro i low high
    rw [Finset.mem_Ico] at low high
    omega
  rw [kernelPieces, Finset.card_union_of_disjoint apart, Nat.card_Ico, Nat.card_Ico]

/-- Without user pages a space costs its directory and its tables. -/
theorem card_pages (only : KernelOnly m.mem dir) : (pages m.mem dir).card =
    1 + (kernelPieces.filter fun i => (table m.mem dir i).isSome = true).card := by
  have tables : (Finset.range 1024).filter (fun i => (table m.mem dir i).isSome = true) =
      kernelPieces.filter fun i => (table m.mem dir i).isSome = true := by
    ext i
    simp only [Finset.mem_filter, Finset.mem_range, mem_kernelPieces]
    constructor
    · rintro ⟨_, present⟩
      obtain ⟨t, at_i⟩ := Option.isSome_iff_exists.mp present
      exact ⟨only.tables i t at_i, present⟩
    · rintro ⟨piece, present⟩
      refine ⟨?_, present⟩
      unfold KernelPiece at piece
      omega
  rw [pages, Multiset.card_cons, Multiset.card_add, Holdings.card, tables,
    Holdings.none only.no_user, Multiset.card_zero, Nat.add_zero, Nat.add_comm]

/-- An address space as setupkvm() returns it. -/
structure Fresh (mem : Addr → Page) (dir : Addr) : Prop where
  only : KernelOnly mem dir
  complete : ∀ i, KernelPiece i → table mem dir i ≠ none

/-- The kernel part of an address space is there, out of the user's reach. -/
structure Half (mem : Addr → Page) (dir : Addr) : Prop where
  complete : ∀ i, KernelPiece i → table mem dir i ≠ none
  hidden : ∀ n q, userPages ≤ n → leaf mem dir n = some q → pte mem dir n &&& pteU = 0

theorem Fresh.half (fresh : Fresh m.mem dir) : Half m.mem dir where
  complete := fresh.complete
  hidden := fun n q _ at_n => fresh.only.leaves n q at_n

theorem Half.keep {mem mem' : Addr → Page} (half : Half mem dir)
    (tables : ∀ i t, table mem dir i = some t → table mem' dir i = some t)
    (kernel : ∀ n, userPages ≤ n → pte mem' dir n = pte mem dir n) : Half mem' dir where
  complete i piece := by
    obtain ⟨t, at_i⟩ := Option.ne_none_iff_exists'.mp (half.complete i piece)
    rw [tables i t at_i]
    exact Option.some_ne_none t
  hidden n q high at_n := by
    rw [leaf, kernel n high] at at_n
    rw [kernel n high]
    exact half.hidden n q high at_n

theorem Fresh.card (fresh : Fresh m.mem dir) : (pages m.mem dir).card = 65 := by
  have all : kernelPieces.filter (fun i => (table m.mem dir i).isSome = true) = kernelPieces := by
    apply Finset.filter_true_of_mem
    intro i mem
    exact Option.isSome_iff_ne_none.mpr (fresh.complete i (mem_kernelPieces.mp mem))
  rw [card_pages fresh.only, all, card_kernelPieces]

/-- setupkvm() takes 65 pages, or fails when there are not so many, and then the
pages it took are gone. -/
theorem setupkvm_spec (split : Split k m R T) (nodup : T.Nodup) {v : Addr}
    (run : setupkvm k m = some (v, m')) :
    (∀ p ∈ R, m'.mem p = m.mem p) ∧
    ((v = 0 ∧ ∃ L, L.card ≤ 64 ∧ Split k m' (L + R) T ∧ T = L + R) ∨
     (v ≠ 0 ∧ Split k m' (pages m'.mem v + R) T ∧ Fresh m'.mem v)) := by
  rw [setupkvm, Prog.bind_eq_some] at run
  obtain ⟨dir, m₁, got, run⟩ := run
  obtain ⟨rfl, rfl, all⟩ | ⟨nonzero, valid, mem, split'⟩ := split.kalloc got
  · rw [if_pos rfl] at run
    obtain ⟨rfl, rfl⟩ := Prog.pure_eq_some.mp run
    refine ⟨fun _ _ => rfl, .inl ⟨rfl, 0, Nat.zero_le _, ?_, ?_⟩⟩
    · rwa [Multiset.zero_add]
    · rwa [Multiset.zero_add]
  rw [if_neg nonzero, Prog.bind_eq_some] at run
  obtain ⟨_, m₂, cleared, run⟩ := run
  obtain rfl := Prog.modify_eq_some.mp cleared
  rw [if_neg (by decide), Prog.bind_eq_some] at run
  obtain ⟨ok, m₃, mapped, run⟩ := run
  have empty (i : Nat) : table (m₁.write dir Bytes.zero).mem dir i = none := by
    rw [table, Machine.write_self, Bytes.word_zero, entry_zero]
  have bare (n : Nat) : leaf (m₁.write dir Bytes.zero).mem dir n = none := by
    rw [leaf, pte_of_none (empty _), entry_zero]
  have only : KernelOnly (m₁.write dir Bytes.zero).mem dir := by
    refine ⟨?_, ?_⟩
    · intro i t at_i
      rw [empty] at at_i
      cases at_i
    · intro n q at_n
      rw [bare] at at_n
      cases at_n
  have alone : pages (m₁.write dir Bytes.zero).mem dir = {dir} := by
    rw [pages, Holdings.none fun i _ => empty i, Holdings.none fun n _ => bare n]
    rfl
  have start : Split k (m₁.write dir Bytes.zero) (pages (m₁.write dir Bytes.zero).mem dir + R) T := by
    rw [alone, Multiset.singleton_add]
    exact split'.write nodup (Multiset.mem_cons_self ..) _
  obtain ⟨result, made⟩ := mapKernel_mapped (kmap_sound k) start nodup only mapped
  have frame (p : Addr) (other : p ∈ R) : m₃.mem p = m.mem p := by
    have ne : p ≠ dir := by
      rintro rfl
      exact (Multiset.nodup_cons.mp (split'.nodup nodup)).1 other
    rw [result.frame p other, Machine.write_other _ ne, mem]
  cases ok with
  | false =>
    obtain ⟨rfl, rfl⟩ := Prog.pure_eq_some.mp run
    obtain ⟨all, i, piece, absent⟩ := result.failed rfl
    refine ⟨frame, .inl ⟨rfl, _, ?_, result.split, all⟩⟩
    have fewer : (kernelPieces.filter fun i => (table m₃.mem dir i).isSome = true) ⊂ kernelPieces := by
      apply Finset.filter_ssubset.mpr
      refine ⟨i, mem_kernelPieces.mpr piece, ?_⟩
      rw [absent]
      simp
    have less := Finset.card_lt_card fewer
    rw [card_kernelPieces] at less
    rw [card_pages result.only]
    omega
  | true =>
    obtain ⟨rfl, rfl⟩ := Prog.pure_eq_some.mp run
    refine ⟨frame, .inr ⟨nonzero, result.split, result.only, ?_⟩⟩
    intro i piece
    obtain ⟨e, mem, covers⟩ := kmap_covers k piece
    have present := made rfl e mem _ covers
    rwa [Nat.mul_div_cancel_left i (by decide)] at present

end setup
end Xv6.Vm
