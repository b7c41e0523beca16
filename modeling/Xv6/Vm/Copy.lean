import Xv6.Vm.Grow

/-! vm.c: the copy of an address space for a child, and where it loses pages
when memory runs out. -/

namespace Xv6.Vm
open Lib

/-- The loop of copyuvm(). -/
def copyLoop (k : Symbols) (pgdir d sz : Addr) : Nat → Addr → Prog Machine Addr
  | 0, _ => .halt
  | fuel + 1, i =>
    if i < sz then do
      match ← walkpgdir pgdir i false with
      | none => .halt -- copyuvm: pte should exist
      | some (pgtab, j) => do
        let m ← .get
        let e := (m.mem pgtab).word j
        if e &&& pteP = 0 then
          .halt -- copyuvm: page not present
        else do
          let mem ← kalloc
          if mem = 0 then do
            freevm k d
            pure 0
          else do
            .modify fun m => m.write mem (m.mem (p2v (pteAddr e)))
            if ← mappages d i 4096 (v2p mem) (pteFlags e) then
              copyLoop k pgdir d sz fuel (i + 4096)
            else do
              freevm k d
              pure 0
    else
      pure d

/-- Given a parent's page table, create a copy of it for a child. -/
def copyuvm (k : Symbols) (pgdir sz : Addr) : Prog Machine Addr := do
  let d ← setupkvm k
  if d = 0 then
    pure 0
  else
    copyLoop k pgdir d sz 1048576 0

section grow
variable {k : Symbols} {m m' : Machine} {R T : Multiset Addr} {dir : Addr}

/-- The space has the first `i` user pages, and tables for them. -/
structure Filled (mem : Addr → Page) (dir : Addr) (i : Nat) : Prop extends Half mem dir where
  tables : ∀ j, ¬ KernelPiece j → (table mem dir j ≠ none ↔ 1024 * j < i)
  leaves : ∀ n, n < userPages → (leaf mem dir n ≠ none ↔ n < i)

theorem Fresh.filled (fresh : Fresh m.mem dir) : Filled m.mem dir 0 where
  toHalf := fresh.half
  tables := by
    intro j other
    refine ⟨?_, fun lt => absurd lt (Nat.not_lt_zero _)⟩
    intro present
    obtain ⟨t, at_j⟩ := Option.ne_none_iff_exists'.mp present
    exact absurd (fresh.only.tables j t at_j) other
  leaves := by
    intro n user
    refine ⟨?_, fun lt => absurd lt (Nat.not_lt_zero _)⟩
    intro present
    exact absurd (fresh.only.no_user n user) present

/-- The next page is mapped. -/
theorem Filled.next {mem mem' : Addr → Page} {i : Nat} {e : UInt32} (filled : Filled mem dir i)
    (user : i < userPages) (gained : Gained mem mem' dir i e) (present : entry e ≠ none) :
    Filled mem' dir (i + 1) := by
  obtain ⟨_, ⟨t, holds⟩, ptes, _⟩ := gained
  have half : Half mem' dir := by
    apply filled.toHalf.keep holds.keeps
    intro n kernel
    rw [ptes, Function.update_of_ne (by omega)]
  refine ⟨half, ?_, ?_⟩
  · intro j other
    by_cases here : j = i / 1024
    · have now : table mem' dir j ≠ none := by
        rw [here, holds.here]
        exact Option.some_ne_none t
      refine ⟨fun _ => by omega, fun _ => now⟩
    · rw [holds.new, Function.update_of_ne here, filled.tables j other]
      omega
  · intro n low
    rw [leaf, ptes]
    by_cases here : n = i
    · rw [here, Function.update_self]
      exact ⟨fun _ => Nat.lt_succ_self i, fun _ => present⟩
    · rw [Function.update_of_ne here, ← leaf, filled.leaves n low]
      omega

theorem Filled.card {mem : Addr → Page} {i : Nat} (filled : Filled mem dir i)
    (user : i ≤ userPages) : (pages mem dir).card = 65 + i + (i + 1023) / 1024 := by
  have below : i ≤ 524288 := user
  have tables : (Finset.range 1024).filter (fun j => (table mem dir j).isSome = true) =
      kernelPieces ∪ Finset.range ((i + 1023) / 1024) := by
    ext j
    rw [Finset.mem_filter, Finset.mem_union, mem_kernelPieces, Finset.mem_range, Finset.mem_range,
      Option.isSome_iff_ne_none]
    by_cases piece : KernelPiece j
    · have there := filled.complete j piece
      have bound : j < 1024 := by
        unfold KernelPiece at piece
        omega
      exact ⟨fun _ => .inl piece, fun _ => ⟨bound, there⟩⟩
    · rw [filled.tables j piece]
      constructor
      · rintro ⟨_, lt⟩
        exact .inr (by omega)
      · rintro (no | lt)
        · exact absurd no piece
        · exact ⟨by omega, by omega⟩
  have apart : Disjoint kernelPieces (Finset.range ((i + 1023) / 1024)) := by
    rw [Finset.disjoint_left]
    intro j piece lt
    rw [mem_kernelPieces, KernelPiece] at piece
    rw [Finset.mem_range] at lt
    omega
  have leaves : (Finset.range userPages).filter (fun n => (leaf mem dir n).isSome = true) =
      Finset.range i := by
    ext n
    rw [Finset.mem_filter, Finset.mem_range, Finset.mem_range, Option.isSome_iff_ne_none]
    constructor
    · rintro ⟨low, there⟩
      exact (filled.leaves n low).mp there
    · intro lt
      have low : n < userPages := Nat.lt_of_lt_of_le lt user
      exact ⟨low, (filled.leaves n low).mpr lt⟩
  rw [pages, Multiset.card_cons, Multiset.card_add, Holdings.card, Holdings.card, tables, leaves,
    Finset.card_union_of_disjoint apart, card_kernelPieces, Finset.card_range, Finset.card_range]
  omega

theorem pteFlags_lt (e : UInt32) : (pteFlags e).toNat < 4096 := by
  have mask : (0xFFF : UInt32).toNat = 2 ^ 12 - 1 := rfl
  rw [pteFlags, UInt32.toNat_and, mask, Nat.and_two_pow_sub_one_eq_mod]
  exact Nat.mod_lt _ (by decide)

/-- With `f` pages to begin with, copyuvm() runs out of memory where it gives
everything back: at its first page, or at a page to copy to. If it runs out at
a page table, the pages it took for that are gone. -/
def Undone (f : Nat) : Prop := f = 0 ∨ (65 ≤ f ∧ (f - 65) % 1025 ≠ 1)

def pageCount (sz : Addr) : Nat := (sz.toNat + 4095) / 4096

/-- The pages of a copy: a directory, 64 tables of the kernel, the user pages
and the tables for them. -/
def copyCost (sz : Addr) : Nat := 65 + pageCount sz + (pageCount sz + 1023) / 1024

theorem copyLoop_spec {pgdir sz a r : Addr} {fuel f : Nat}
    (split : Split k m (pages m.mem dir + R) T) (nodup : T.Nodup)
    (count : T.card = f + R.card) (small : sz.toNat ≤ 2147483648) (aligned : Aligned a)
    (reached : a.toNat < sz.toNat + 4096) (filled : Filled m.mem dir (pageOf a))
    (run : copyLoop k pgdir dir sz fuel a m = some (r, m')) :
    (∀ p ∈ R, m'.mem p = m.mem p) ∧
    ((r = dir ∧ Split k m' (pages m'.mem dir + R) T ∧ Filled m'.mem dir (pageCount sz)) ∨
     (r = 0 ∧ f < copyCost sz ∧ ∃ L, Split k m' (L + R) T ∧ (L = 0 ↔ Undone f))) := by
  have low : a.toNat % 4096 = 0 := aligned
  induction fuel generalizing m a with
  | zero => cases run
  | succ fuel ih =>
    by_cases more : a < sz
    · have below := UInt32.lt_iff_toNat_lt.mp more
      have user : pageOf a < userPages := by
        unfold pageOf userPages
        omega
      have size := filled.card (Nat.le_of_lt user)
      have further : pageOf a < pageCount sz := by
        unfold pageOf pageCount
        omega
      rw [copyLoop, if_pos more, Prog.bind_eq_some] at run
      obtain ⟨w, m₁, walked, run⟩ := run
      rw [walkpgdir_find, Option.some.injEq, Prod.mk.injEq] at walked
      obtain ⟨rfl, rfl⟩ := walked
      cases at_a : table m.mem pgdir (pageOf a / 1024) with
      | none =>
        rw [at_a] at run
        cases run
      | some t =>
      rw [at_a, Option.map_some, Prog.bind_eq_some] at run
      obtain ⟨_, _, same, run⟩ := run
      obtain ⟨rfl, rfl⟩ := Prog.get_eq_some.mp same
      by_cases absent : (m.mem t).word (pageOf a % 1024) &&& pteP = 0
      · rw [if_pos absent] at run
        cases run
      rw [if_neg absent, Prog.bind_eq_some] at run
      obtain ⟨v, m₁, got, run⟩ := run
      obtain ⟨rfl, rfl, all⟩ | ⟨nonzero, valid, mem, split₁⟩ := split.kalloc got
      · rw [if_pos rfl, Prog.bind_eq_some] at run
        obtain ⟨_, m₂, freed, run⟩ := run
        obtain ⟨rfl, rfl⟩ := Prog.pure_eq_some.mp run
        obtain ⟨split₂, frame⟩ := freevm_spec split nodup freed
        have total : f = 65 + pageOf a + (pageOf a + 1023) / 1024 := by
          rw [all, Multiset.card_add, size] at count
          omega
        refine ⟨frame, .inr ⟨rfl, by unfold copyCost; omega, 0, by rwa [Multiset.zero_add], ?_⟩⟩
        refine ⟨fun _ => .inr ⟨by omega, by omega⟩, fun _ => rfl⟩
      · rw [if_neg nonzero, Prog.bind_eq_some] at run
        obtain ⟨_, m₂, copied, run⟩ := run
        obtain rfl := Prog.modify_eq_some.mp copied
        rw [Prog.bind_eq_some] at run
        obtain ⟨ok, m₃, mapped, run⟩ := run
        rw [mappages_one aligned] at mapped
        rw [← mem] at split₁ filled
        obtain ⟨rfl, rfl, no_table, same, all, split₃, _, _⟩ | ⟨rfl, keeps, gained, _⟩ :=
          take_page split₁ nodup valid user (pteFlags_lt _) mapped
        · rw [if_neg (by decide), Prog.bind_eq_some] at run
          obtain ⟨_, m₄, freed, run⟩ := run
          obtain ⟨rfl, rfl⟩ := Prog.pure_eq_some.mp run
          obtain ⟨split₄, frame⟩ := freevm_spec split₃ nodup freed
          have start : pageOf a % 1024 = 0 := by
            have piece : ¬ KernelPiece (pageOf a / 1024) := by
              unfold KernelPiece
              unfold userPages at user
              omega
            by_contra started
            exact (filled.tables _ piece).mpr (by omega) no_table
          have total : f = 66 + pageOf a + (pageOf a + 1023) / 1024 := by
            rw [all, Multiset.card_add, Multiset.card_cons, mem, size] at count
            omega
          refine ⟨?_, .inr ⟨rfl, by unfold copyCost; omega, {v}, by rwa [Multiset.singleton_add], ?_⟩⟩
          · intro p other
            have ne : p ≠ v := by
              rintro rfl
              exact (Multiset.nodup_cons.mp (split₄.nodup nodup)).1 other
            rw [frame p (Multiset.mem_cons_of_mem other), Machine.write_other _ ne, mem]
          · refine ⟨fun no => absurd no (Multiset.singleton_ne_zero v), ?_⟩
            rintro (zero | ⟨_, other⟩)
            · omega
            · omega
        · rw [if_pos rfl] at run
          have page : (4096 : UInt32).toNat = 4096 := rfl
          have sum : (a + 4096).toNat = a.toNat + 4096 := by
            rw [toNat_add_page, page]
            rw [page]
            omega
          have next : pageOf (a + 4096) = pageOf a + 1 := by
            unfold pageOf
            omega
          have present : entry (v2p v ||| pteFlags ((m.mem t).word (pageOf a % 1024)) ||| pteP) ≠
              none := by
            rw [entry_or valid.v2p_aligned (pteFlags_lt _)]
            exact Option.some_ne_none v
          obtain ⟨frame, result⟩ := ih keeps.split (aligned_add aligned) (by omega)
            (next ▸ filled.next user gained present) run (by omega)
          refine ⟨?_, result⟩
          intro p other
          rw [frame p other, keeps.frame p other, mem]
    · rw [copyLoop, if_neg more] at run
      obtain ⟨rfl, rfl⟩ := Prog.pure_eq_some.mp run
      have last : pageOf a = pageCount sz := by
        have reached' := UInt32.le_iff_toNat_le.mp (UInt32.not_lt.mp more)
        unfold pageOf pageCount
        omega
      exact ⟨fun _ _ => rfl, .inl ⟨rfl, split, last ▸ filled⟩⟩

/-- copyuvm() makes a space, or fails and leaks exactly if it runs out of memory
at a page table. -/
theorem copyuvm_spec {pgdir sz r : Addr} {f : Nat} (split : Split k m R T) (nodup : T.Nodup)
    (count : T.card = f + R.card) (small : sz.toNat ≤ 2147483648)
    (run : copyuvm k pgdir sz m = some (r, m')) :
    (∀ p ∈ R, m'.mem p = m.mem p) ∧
    ((r ≠ 0 ∧ copyCost sz ≤ f ∧ Split k m' (pages m'.mem r + R) T ∧
        Filled m'.mem r (pageCount sz)) ∨
     (r = 0 ∧ f < copyCost sz ∧ ∃ L, Split k m' (L + R) T ∧ (L = 0 ↔ Undone f))) := by
  rw [copyuvm, Prog.bind_eq_some] at run
  obtain ⟨d, m₁, made, run⟩ := run
  obtain ⟨frame, ⟨rfl, L, few, split₁, all⟩ | ⟨nonzero, split₁, fresh⟩⟩ :=
    setupkvm_spec split nodup made
  · rw [if_pos rfl] at run
    obtain ⟨rfl, rfl⟩ := Prog.pure_eq_some.mp run
    have total : f = L.card := by
      rw [all, Multiset.card_add] at count
      omega
    refine ⟨frame, .inr ⟨rfl, by unfold copyCost; omega, L, split₁, ?_⟩⟩
    rw [Undone, total, Multiset.card_eq_zero]
    refine ⟨.inl, ?_⟩
    rintro (none | ⟨many, _⟩)
    · exact none
    · omega
  · rw [if_neg nonzero] at run
    have zero : pageOf 0 = 0 := by decide
    have within : pageCount sz ≤ userPages := by
      unfold pageCount userPages
      omega
    obtain ⟨frame', result⟩ := copyLoop_spec split₁ nodup count small (by decide)
      (by rw [UInt32.toNat_zero]; omega) (zero ▸ fresh.filled) run
    refine ⟨fun p other => (frame' p other).trans (frame p other), ?_⟩
    obtain ⟨rfl, split', filled⟩ | ⟨rfl, few, L, split', leak⟩ := result
    · refine .inl ⟨nonzero, ?_, split', filled⟩
      have room := Multiset.card_le_card split'.le
      rw [Multiset.card_add, filled.card within, count] at room
      unfold copyCost
      omega
    · exact .inr ⟨rfl, few, L, split', leak⟩

end grow
end Xv6.Vm
