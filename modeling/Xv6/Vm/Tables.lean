import Xv6.Lib.Holdings
import Xv6.Vm.Machine

/-! vm.c: page directories and page tables, as the pages that hold them. -/

namespace Xv6.Vm
open Lib

def pteP : UInt32 := 1

def pteW : UInt32 := 2

def pteU : UInt32 := 4

def pteAddr (e : UInt32) : Addr := e &&& (0xFFFFF000 : UInt32)

def pteFlags (e : UInt32) : UInt32 := e &&& (0xFFF : UInt32)

def pdx (va : Addr) : Nat := ((va >>> 22) &&& (0x3FF : UInt32)).toNat

def ptx (va : Addr) : Nat := ((va >>> 12) &&& (0x3FF : UInt32)).toNat

def pgrounddown (a : Addr) : Addr := a &&& (0xFFFFF000 : UInt32)

def pgroundup (a : Addr) : Addr := (a + 4095) &&& (0xFFFFF000 : UInt32)

/-- Store to word `i` of a page. -/
def Machine.store (m : Machine) (p : Addr) (i : Nat) (w : UInt32) : Machine :=
  m.write p ((m.mem p).setWord i w)

/-- The entry for `va`, given as its table and the index there. -/
def walkpgdir (pgdir va : Addr) (alloc : Bool) : Prog Machine (Option (Addr × Nat)) := do
  let m ← .get
  let pde := (m.mem pgdir).word (pdx va)
  if pde &&& pteP ≠ 0 then
    pure (some (p2v (pteAddr pde), ptx va))
  else if alloc = false then
    pure none
  else do
    let pgtab ← kalloc
    if pgtab = 0 then
      pure none
    else do
      .modify fun m => m.write pgtab Bytes.zero
      .modify fun m => m.store pgdir (pdx va) (v2p pgtab ||| pteP ||| pteW ||| pteU)
      pure (some (pgtab, ptx va))

/-- One turn of the loop of mappages(). -/
def mapPage (pgdir a pa : Addr) (perm : UInt32) : Prog Machine Bool := do
  match ← walkpgdir pgdir a true with
  | none => pure false
  | some (pgtab, j) => do
    let m ← .get
    if (m.mem pgtab).word j &&& pteP ≠ 0 then
      .halt -- remap
    else do
      .modify fun m => m.store pgtab j (pa ||| perm ||| pteP)
      pure true

/-- The loop of mappages(), with `n` more pages to go after this one. -/
def mapLoop (pgdir : Addr) (perm : UInt32) : Nat → Addr → Addr → Prog Machine Bool
  | 0, a, pa => mapPage pgdir a pa perm
  | n + 1, a, pa => do
    if ← mapPage pgdir a pa perm then
      mapLoop pgdir perm n (a + 4096) (pa + 4096)
    else
      pure false

/-- Create entries for the pages from `va` on. The loop ends at `a == last`,
after as many turns as there are pages from `a` to `last`. -/
def mappages (pgdir va size pa : Addr) (perm : UInt32) : Prog Machine Bool :=
  let a := pgrounddown va
  let last := pgrounddown (va + size - 1)
  mapLoop pgdir perm ((last - a) / 4096).toNat a pa

/-! ## Page numbers -/

/-- The page an address lies in. -/
def pageOf (va : Addr) : Nat := va.toNat / 4096

/-- Clearing the low `k` bits. -/
theorem and_high_mask {x k : Nat} (bound : x < 2 ^ 32) (le : k ≤ 32) :
    x &&& 2 ^ k * (2 ^ (32 - k) - 1) = 2 ^ k * (x / 2 ^ k) := by
  have high (i : Nat) (set : x.testBit i = true) : i < 32 := by
    by_contra ge
    have small : x < 2 ^ i :=
      Nat.lt_of_lt_of_le bound (Nat.pow_le_pow_right (by decide) (Nat.le_of_not_lt ge))
    rw [Nat.testBit_lt_two_pow small] at set
    cases set
  apply Nat.eq_of_testBit_eq
  intro i
  rw [Nat.testBit_and, Nat.testBit_two_pow_mul, Nat.testBit_two_pow_mul,
    Nat.testBit_two_pow_sub_one, Nat.testBit_div_two_pow]
  by_cases low : k ≤ i
  · cases bit : x.testBit i with
    | false => simp [low, bit]
    | true =>
      have small := high i bit
      simp [low, bit]
      omega
  · simp [low]

theorem toNat_pgrounddown (a : Addr) : (pgrounddown a).toNat = 4096 * pageOf a := by
  rw [pgrounddown, UInt32.toNat_and]
  exact and_high_mask (k := 12) a.toNat_lt (by decide)

theorem pageOf_lt (va : Addr) : pageOf va < 1048576 := by
  have bound := va.toNat_lt
  unfold pageOf
  omega

theorem pdx_eq (va : Addr) : pdx va = pageOf va / 1024 := by
  have bound := va.toNat_lt
  have mask : (1023 : Nat) = 2 ^ 10 - 1 := rfl
  simp only [pdx, UInt32.toNat_and, UInt32.toNat_shiftRight, UInt32.reduceToNat, Nat.reduceMod,
    Nat.shiftRight_eq_div_pow, pageOf]
  rw [mask, Nat.and_two_pow_sub_one_eq_mod]
  omega

theorem ptx_eq (va : Addr) : ptx va = pageOf va % 1024 := by
  have mask : (1023 : Nat) = 2 ^ 10 - 1 := rfl
  simp only [ptx, UInt32.toNat_and, UInt32.toNat_shiftRight, UInt32.reduceToNat, Nat.reduceMod,
    Nat.shiftRight_eq_div_pow, pageOf]
  rw [mask, Nat.and_two_pow_sub_one_eq_mod]

/-! ## Entries -/

/-- The page a present entry refers to. -/
def entry (e : UInt32) : Option Addr := if e &&& pteP ≠ 0 then some (p2v (pteAddr e)) else none

@[simp] theorem entry_zero : entry 0 = none := by decide

theorem entry_eq_none_iff {e : UInt32} : entry e = none ↔ e &&& pteP = 0 := by
  unfold entry
  by_cases present : e &&& pteP = 0
  · simp [present]
  · simp [present]

/-- Flags do not reach the address. -/
theorem pteAddr_or {pa f : UInt32} (aligned : Aligned pa) (small : f.toNat < 4096) :
    pteAddr (pa ||| f) = pa := by
  have low : pa.toNat % 4096 = 0 := aligned
  have sum : (pa ||| f).toNat = pa.toNat + f.toNat := by
    have add := Nat.two_pow_add_eq_or_of_lt (i := 12) small (pa.toNat / 4096)
    have whole : 2 ^ 12 * (pa.toNat / 4096) = pa.toNat := by omega
    rw [whole] at add
    rw [UInt32.toNat_or, add]
  apply UInt32.toNat.inj
  rw [show pteAddr (pa ||| f) = pgrounddown (pa ||| f) from rfl, toNat_pgrounddown, pageOf, sum]
  omega

theorem or_present (e : UInt32) : (e ||| pteP) &&& pteP ≠ 0 := by
  have bit : ((e ||| pteP) &&& pteP).toNat.testBit 0 = true := by
    simp [UInt32.toNat_and, UInt32.toNat_or, pteP]
  intro zero
  rw [zero] at bit
  cases bit

theorem or_lt {f g : UInt32} (hf : f.toNat < 4096) (hg : g.toNat < 4096) :
    (f ||| g).toNat < 4096 := by
  rw [UInt32.toNat_or]
  exact Nat.or_lt_two_pow (n := 12) hf hg

/-- An entry made for a page refers to that page. -/
theorem entry_or {v perm : UInt32} (aligned : Aligned (v2p v)) (small : perm.toNat < 4096) :
    entry (v2p v ||| perm ||| pteP) = some v := by
  rw [entry, if_pos (or_present _), UInt32.or_assoc, pteAddr_or aligned (or_lt small (by decide)),
    p2v_v2p]

/-! ## Address spaces -/

section views
variable (mem : Addr → Page) (dir : Addr)

/-- The page table for the `i`th 4 MB. -/
def table (i : Nat) : Option Addr := entry ((mem dir).word i)

/-- The entry for page `n`, 0 if there is no table for it. -/
def pte (n : Nat) : UInt32 :=
  match table mem dir (n / 1024) with
  | some t => (mem t).word (n % 1024)
  | none => 0

/-- The page at page `n`. -/
def leaf (n : Nat) : Option Addr := entry (pte mem dir n)

/-- Page `n` as the user has it: its entry and its bytes. -/
def userPage (n : Nat) : Option (UInt32 × Page) :=
  (leaf mem dir n).map fun q => (pte mem dir n, mem q)

end views

/-- The pages below KERNBASE. -/
def userPages : Nat := 524288

/-- What belongs to an address space: the directory, the tables and the user
pages. -/
def pages (mem : Addr → Page) (dir : Addr) : Multiset Addr :=
  dir ::ₘ (holdings (table mem dir) 1024 + holdings (leaf mem dir) userPages)

section views
variable {mem mem' : Addr → Page} {dir t q : Addr} {i j n : Nat}

theorem table_ge (ge : 1024 ≤ i) : table mem dir i = none := by
  have outside : ¬ 4 * i + 3 < pgsize := by
    unfold pgsize
    omega
  simp [table, Bytes.word, outside]

theorem pte_of_table (at_i : table mem dir (n / 1024) = some t) :
    pte mem dir n = (mem t).word (n % 1024) := by
  simp [pte, at_i]

theorem pte_of_none (at_i : table mem dir (n / 1024) = none) : pte mem dir n = 0 := by
  simp [pte, at_i]

theorem table_congr (same : mem' dir = mem dir) : table mem' dir = table mem dir := by
  funext i
  rw [table, table, same]

/-- A space depends on its directory and its tables. -/
theorem pte_congr (same : mem' dir = mem dir)
    (tables : ∀ i t, table mem dir i = some t → mem' t = mem t) : pte mem' dir = pte mem dir := by
  funext n
  cases at_i : table mem dir (n / 1024) with
  | none => rw [pte_of_none at_i, pte_of_none ((congrFun (table_congr same) _).trans at_i)]
  | some t =>
    rw [pte_of_table at_i, pte_of_table ((congrFun (table_congr same) _).trans at_i),
      tables _ t at_i]

theorem userPage_eq_none : userPage mem dir n = none ↔ leaf mem dir n = none := Option.map_eq_none_iff

theorem userPage_of_leaf (at_n : leaf mem dir n = some q) :
    userPage mem dir n = some (pte mem dir n, mem q) := by
  rw [userPage, at_n, Option.map_some]

theorem userPage_congr (same : pte mem' dir n = pte mem dir n)
    (bytes : ∀ q, leaf mem dir n = some q → mem' q = mem q) :
    userPage mem' dir n = userPage mem dir n := by
  have leaves : leaf mem' dir n = leaf mem dir n := by rw [leaf, leaf, same]
  cases at_n : leaf mem dir n with
  | none => rw [userPage_eq_none.mpr at_n, userPage_eq_none.mpr (leaves.trans at_n)]
  | some q =>
    rw [userPage_of_leaf at_n, userPage_of_leaf (leaves.trans at_n), same, bytes q at_n]

theorem pages_congr (tables : table mem' dir = table mem dir) (ptes : pte mem' dir = pte mem dir) :
    pages mem' dir = pages mem dir := by
  have leaves : leaf mem' dir = leaf mem dir := by
    funext n
    rw [leaf, leaf, ptes]
  rw [pages, pages, tables, leaves]

/-- The pages of a space are all different. -/
structure Distinct (mem : Addr → Page) (dir : Addr) : Prop where
  table_ne : ∀ i t, table mem dir i = some t → t ≠ dir
  table_inj : ∀ i i' t, table mem dir i = some t → table mem dir i' = some t → i = i'
  leaf_ne : ∀ n q, n < userPages → leaf mem dir n = some q → q ≠ dir
  leaf_ne_table : ∀ n q i, n < userPages → leaf mem dir n = some q → table mem dir i ≠ some q
  leaf_inj : ∀ n n' q, n < userPages → n' < userPages → leaf mem dir n = some q →
    leaf mem dir n' = some q → n = n'

theorem mem_pages : q ∈ pages mem dir ↔
    q = dir ∨ (∃ i, table mem dir i = some q) ∨ ∃ n, n < userPages ∧ leaf mem dir n = some q := by
  have tables : (∃ i, i < 1024 ∧ table mem dir i = some q) ↔ ∃ i, table mem dir i = some q := by
    constructor
    · rintro ⟨i, _, at_i⟩
      exact ⟨i, at_i⟩
    · rintro ⟨i, at_i⟩
      refine ⟨i, ?_, at_i⟩
      by_contra ge
      rw [table_ge (Nat.le_of_not_lt ge)] at at_i
      cases at_i
  rw [pages, Multiset.mem_cons, Multiset.mem_add, Holdings.mem_iff, Holdings.mem_iff, tables]

theorem distinct (nodup : (pages mem dir).Nodup) : Distinct mem dir := by
  have below (i : Nat) (t : Addr) (at_i : table mem dir i = some t) : i < 1024 := by
    by_contra ge
    rw [table_ge (Nat.le_of_not_lt ge)] at at_i
    cases at_i
  rw [pages, Multiset.nodup_cons, Multiset.nodup_add, Multiset.mem_add, Holdings.mem_iff,
    Holdings.mem_iff, not_or] at nodup
  obtain ⟨apart, tables, leaves, disjoint⟩ := nodup
  constructor
  case table_ne =>
    rintro i t at_i rfl
    exact apart.1 ⟨i, below i t at_i, at_i⟩
  case table_inj =>
    intro i i' t at_i at_i'
    exact Holdings.place_eq tables (below i t at_i) (below i' t at_i') at_i at_i'
  case leaf_ne =>
    rintro n q user at_n rfl
    exact apart.2 ⟨n, user, at_n⟩
  case leaf_ne_table =>
    intro n q i user at_n at_i
    have held : q ∈ holdings (table mem dir) 1024 := Holdings.mem_iff.mpr ⟨i, below i q at_i, at_i⟩
    exact Multiset.disjoint_left.mp disjoint held (Holdings.mem_iff.mpr ⟨n, user, at_n⟩)
  case leaf_inj =>
    intro n n' q user user' at_n at_n'
    exact Holdings.place_eq leaves user user' at_n at_n'

/-- A space depends on its own pages only. -/
theorem space_frame (same : ∀ q ∈ pages mem dir, mem' q = mem q) :
    table mem' dir = table mem dir ∧ pte mem' dir = pte mem dir := by
  have root := same dir (mem_pages.mpr (.inl rfl))
  refine ⟨table_congr root, pte_congr root ?_⟩
  intro i t at_i
  exact same t (mem_pages.mpr (.inr (.inl ⟨i, at_i⟩)))

theorem pages_frame (same : ∀ q ∈ pages mem dir, mem' q = mem q) :
    pages mem' dir = pages mem dir :=
  pages_congr (space_frame same).1 (space_frame same).2

end views

/-! ## Changes to a space -/

section changes
variable {m m' : Machine} {k : Symbols} {R T : Multiset Addr} {dir t q va : Addr} {i n : Nat}

theorem store_self (m : Machine) (p : Addr) (i : Nat) (w : UInt32) :
    (m.store p i w).mem p = (m.mem p).setWord i w := Machine.write_self ..

theorem store_other (m : Machine) {p q : Addr} (ne : q ≠ p) (i : Nat) (w : UInt32) :
    (m.store p i w).mem q = m.mem q := Machine.write_other _ ne _

/-- A store to an entry of a table changes that entry of the space. -/
theorem store_entry (apart : Distinct m.mem dir) (at_i : table m.mem dir (n / 1024) = some t)
    (w : UInt32) : table (m.store t (n % 1024) w).mem dir = table m.mem dir ∧
      pte (m.store t (n % 1024) w).mem dir = Function.update (pte m.mem dir) n w := by
  have same : (m.store t (n % 1024) w).mem dir = m.mem dir :=
    store_other _ (apart.table_ne _ t at_i).symm ..
  have tables := table_congr same
  refine ⟨tables, ?_⟩
  funext n'
  by_cases there : n' / 1024 = n / 1024
  · have at_n' : table m.mem dir (n' / 1024) = some t := by rw [there, at_i]
    rw [pte_of_table ((congrFun tables _).trans at_n'), store_self]
    by_cases here : n' = n
    · have inside : 4 * (n % 1024) + 3 < pgsize := by
        unfold pgsize
        omega
      rw [here, Function.update_self, Bytes.word_setWord_self _ inside]
    · have other : n' % 1024 ≠ n % 1024 := by omega
      rw [Function.update_of_ne here, Bytes.word_setWord_of_ne _ other, pte_of_table at_n']
  · have other : n' ≠ n := by
      rintro rfl
      exact there rfl
    rw [Function.update_of_ne other]
    cases at_n' : table m.mem dir (n' / 1024) with
    | none => rw [pte_of_none at_n', pte_of_none ((congrFun tables _).trans at_n')]
    | some t' =>
      have elsewhere : t' ≠ t := by
        rintro rfl
        exact there (apart.table_inj _ _ _ at_n' at_i)
      rw [pte_of_table at_n', pte_of_table ((congrFun tables _).trans at_n'),
        store_other _ elsewhere]

/-- A new table is empty. -/
theorem add_table (apart : Distinct m.mem dir) (aligned : Aligned (v2p t)) (fresh : t ≠ dir)
    (unused : ∀ i, table m.mem dir i ≠ some t) (below : i < 1024)
    (absent : table m.mem dir i = none) :
    let m' := (m.write t Bytes.zero).store dir i (v2p t ||| pteP ||| pteW ||| pteU)
    table m'.mem dir = Function.update (table m.mem dir) i (some t) ∧
      pte m'.mem dir = pte m.mem dir := by
  intro m'
  have inside : 4 * i + 3 < pgsize := by
    unfold pgsize
    omega
  have self : m'.mem dir = (m.mem dir).setWord i (v2p t ||| pteP ||| pteW ||| pteU) := by
    rw [store_self, Machine.write_other _ fresh.symm]
  have made : entry (v2p t ||| pteP ||| pteW ||| pteU) = some t := by
    have flags : v2p t ||| pteP ||| pteW ||| pteU = v2p t ||| (pteW ||| pteU) ||| pteP := by
      simp only [UInt32.or_assoc]
      rfl
    rw [flags]
    exact entry_or aligned (by decide)
  have tables : table m'.mem dir = Function.update (table m.mem dir) i (some t) := by
    funext i'
    by_cases here : i' = i
    · rw [here, Function.update_self, table, self, Bytes.word_setWord_self _ inside, made]
    · rw [Function.update_of_ne here, table, self, Bytes.word_setWord_of_ne _ here, table]
  refine ⟨tables, ?_⟩
  funext n
  by_cases here : n / 1024 = i
  · have at_n : table m'.mem dir (n / 1024) = some t := by
      rw [tables, here, Function.update_self]
    rw [pte_of_table at_n, store_other _ fresh, Machine.write_self, Bytes.word_zero,
      pte_of_none (here ▸ absent)]
  · have at_n : table m'.mem dir (n / 1024) = table m.mem dir (n / 1024) := by
      rw [tables, Function.update_of_ne here]
    cases old : table m.mem dir (n / 1024) with
    | none => rw [pte_of_none old, pte_of_none (at_n.trans old)]
    | some t' =>
      have ne : t' ≠ t := by
        rintro rfl
        exact unused _ old
      rw [pte_of_table old, pte_of_table (at_n.trans old), store_other _ (apart.table_ne _ _ old),
        Machine.write_other _ ne]

theorem pages_add_table {mem mem' : Addr → Page} (below : i < 1024)
    (absent : table mem dir i = none)
    (tables : table mem' dir = Function.update (table mem dir) i (some t))
    (ptes : pte mem' dir = pte mem dir) : pages mem' dir = t ::ₘ pages mem dir := by
  have leaves : leaf mem' dir = leaf mem dir := by
    funext n
    rw [leaf, leaf, ptes]
  rw [pages, pages, tables, leaves, Holdings.put below absent, Multiset.cons_add,
    Multiset.cons_swap]

/-- The space now has table `t` at `i`, which was there or is new. -/
structure Holds (mem mem' : Addr → Page) (dir : Addr) (i : Nat) (t : Addr) : Prop where
  old : table mem dir i = none ∨ table mem dir i = some t
  new : table mem' dir = Function.update (table mem dir) i (some t)

theorem Holds.here {mem mem' : Addr → Page} (holds : Holds mem mem' dir i t) :
    table mem' dir i = some t := by
  rw [holds.new, Function.update_self]

theorem Holds.keeps {mem mem' : Addr → Page} (holds : Holds mem mem' dir i t) (j : Nat) (t' : Addr)
    (at_j : table mem dir j = some t') : table mem' dir j = some t' := by
  by_cases here : j = i
  · obtain absent | present := holds.old
    · rw [here, absent] at at_j
      cases at_j
    · rw [here, holds.here, ← present, ← here, at_j]
  · rw [holds.new, Function.update_of_ne here, at_j]

/-- walkpgdir() returns the entry, making the table if there is none, or fails
because no page is free. -/
theorem walkpgdir_alloc (split : Split k m (pages m.mem dir + R) T) (nodup : T.Nodup)
    {r : Option (Addr × Nat)} (run : walkpgdir dir va true m = some (r, m')) :
    (r = none ∧ m' = m ∧ table m.mem dir (pageOf va / 1024) = none ∧ T = pages m.mem dir + R) ∨
    ∃ t, r = some (t, pageOf va % 1024) ∧ Split k m' (pages m'.mem dir + R) T ∧
      (∀ p ∈ pages m.mem dir + R, p ≠ dir → m'.mem p = m.mem p) ∧ Holds m.mem m'.mem dir (pageOf va / 1024) t ∧
      pte m'.mem dir = pte m.mem dir := by
  simp only [walkpgdir, pdx_eq, ptx_eq, Prog.bind_eq_some, Prog.get_eq_some] at run
  obtain ⟨_, _, ⟨rfl, rfl⟩, run⟩ := run
  generalize at_va : table m.mem dir (pageOf va / 1024) = old
  cases old with
  | some t =>
    have present : (m.mem dir).word (pageOf va / 1024) &&& pteP ≠ 0 := by
      intro zero
      rw [table, entry_eq_none_iff.mpr zero] at at_va
      cases at_va
    have here : p2v (pteAddr ((m.mem dir).word (pageOf va / 1024))) = t := by
      rw [table, entry, if_pos present] at at_va
      exact Option.some.inj at_va
    rw [if_pos present, Prog.pure_eq_some, here] at run
    obtain ⟨rfl, rfl⟩ := run
    refine .inr ⟨t, rfl, split, fun _ _ _ => rfl, ⟨.inr at_va, ?_⟩, rfl⟩
    rw [← at_va, Function.update_eq_self]
  | none =>
    have absent : ¬ (m.mem dir).word (pageOf va / 1024) &&& pteP ≠ 0 := by
      rw [not_not]
      exact entry_eq_none_iff.mp at_va
    rw [if_neg absent, if_neg (by decide)] at run
    simp only [Prog.bind_eq_some] at run
    obtain ⟨t, m₁, got, run⟩ := run
    obtain ⟨rfl, rfl, all⟩ | ⟨nonzero, valid, mem, split'⟩ := split.kalloc got
    · rw [if_pos rfl, Prog.pure_eq_some] at run
      obtain ⟨rfl, rfl⟩ := run
      exact .inl ⟨rfl, rfl, rfl, all⟩
    · rw [if_neg nonzero] at run
      simp only [Prog.bind_eq_some, Prog.modify_eq_some, Prog.pure_eq_some] at run
      obtain ⟨_, _, rfl, _, _, rfl, rfl, rfl⟩ := run
      have below : pageOf va / 1024 < 1024 := by
        have := pageOf_lt va
        omega
      have parts := Multiset.nodup_cons.mp (split'.nodup nodup)
      have apart : Distinct m.mem dir := distinct (Multiset.nodup_add.mp parts.2).1
      have fresh : t ∉ pages m.mem dir := fun mine => parts.1 (Multiset.mem_add.mpr (.inl mine))
      rw [mem_pages, not_or, not_or] at fresh
      rw [← mem] at apart at_va fresh
      obtain ⟨tables, ptes⟩ := add_table apart valid.v2p_aligned fresh.1
        (fun i at_i => fresh.2.1 ⟨i, at_i⟩) below at_va
      rw [mem] at at_va
      rw [mem] at tables ptes
      refine .inr ⟨t, rfl, ?_, ?_, ⟨.inl at_va, tables⟩, ptes⟩
      · rw [pages_add_table below at_va tables ptes, Multiset.cons_add]
        have root : dir ∈ t ::ₘ (pages m.mem dir + R) :=
          Multiset.mem_cons_of_mem (Multiset.mem_add.mpr (.inl (mem_pages.mpr (.inl rfl))))
        exact (split'.write nodup (Multiset.mem_cons_self ..) _).write nodup root _
      · intro p held ne'
        have ne : p ≠ t := by
          rintro rfl
          exact parts.1 held
        rw [store_other _ ne', Machine.write_other _ ne, mem]

theorem walkpgdir_find (m : Machine) (dir va : Addr) : walkpgdir dir va false m =
    some ((table m.mem dir (pageOf va / 1024)).map fun t => (t, pageOf va % 1024), m) := by
  unfold walkpgdir
  rw [Prog.bind_eq_some]
  refine ⟨m, m, rfl, ?_⟩
  simp only [pdx_eq, ptx_eq, table, entry]
  by_cases present : (m.mem dir).word (pageOf va / 1024) &&& pteP ≠ 0
  · rw [if_pos present, if_pos present]
    rfl
  · rw [if_neg present, if_neg present]
    rfl

/-- A page is mapped by a store to its entry, which was not in use. Only the
directory and a table are written. -/
theorem mapPage_cases (split : Split k m (pages m.mem dir + R) T) (nodup : T.Nodup)
    {pa perm : UInt32} {ok : Bool} (run : mapPage dir va pa perm m = some (ok, m')) :
    (ok = false ∧ m' = m ∧ table m.mem dir (pageOf va / 1024) = none ∧
      T = pages m.mem dir + R) ∨
    (ok = true ∧ leaf m.mem dir (pageOf va) = none ∧ ∃ t m₁, Split k m₁ (pages m₁.mem dir + R) T ∧
      Holds m.mem m₁.mem dir (pageOf va / 1024) t ∧ pte m₁.mem dir = pte m.mem dir ∧
      m' = m₁.store t (pageOf va % 1024) (pa ||| perm ||| pteP) ∧
      (∀ p ∈ R, m'.mem p = m.mem p) ∧
      ∀ n q, n < userPages → leaf m.mem dir n = some q → m'.mem q = m.mem q) := by
  unfold mapPage at run
  rw [Prog.bind_eq_some] at run
  obtain ⟨r, m₁, walked, run⟩ := run
  obtain ⟨rfl, rfl, absent, all⟩ | ⟨t, rfl, split', frame, tables, ptes⟩ :=
    walkpgdir_alloc split nodup walked
  · obtain ⟨rfl, rfl⟩ := Prog.pure_eq_some.mp run
    exact .inl ⟨rfl, rfl, absent, all⟩
  · simp only [Prog.bind_eq_some, Prog.get_eq_some] at run
    obtain ⟨_, _, ⟨rfl, rfl⟩, run⟩ := run
    by_cases present : (m₁.mem t).word (pageOf va % 1024) &&& pteP ≠ 0
    · rw [if_pos present] at run
      cases run
    · rw [if_neg present] at run
      simp only [Prog.bind_eq_some, Prog.modify_eq_some, Prog.pure_eq_some] at run
      obtain ⟨_, _, rfl, rfl, rfl⟩ := run
      have before := Multiset.nodup_add.mp (split.nodup nodup)
      have after := Multiset.nodup_add.mp (split'.nodup nodup)
      refine .inr ⟨rfl, ?_, t, m₁, split', tables, ptes, rfl, ?_, ?_⟩
      · rw [leaf, ← ptes, pte_of_table tables.here]
        exact entry_eq_none_iff.mpr (not_not.mp present)
      · intro p other
        have root : p ≠ dir := by
          rintro rfl
          exact Multiset.disjoint_left.mp before.2.2 (mem_pages.mpr (.inl rfl)) other
        have ne : p ≠ t := by
          rintro rfl
          have mine : p ∈ pages m₁.mem dir := mem_pages.mpr (.inr (.inl ⟨_, tables.here⟩))
          exact Multiset.disjoint_left.mp after.2.2 mine other
        rw [store_other _ ne, frame p (Multiset.mem_add.mpr (.inr other)) root]
      · intro n q user at_n
        have root := (distinct before.1).leaf_ne n q user at_n
        have ne : q ≠ t := by
          rintro rfl
          have now : leaf m₁.mem dir n = some q := by rw [leaf, ptes, ← leaf, at_n]
          exact (distinct after.1).leaf_ne_table n q _ user now tables.here
        have mine : q ∈ pages m.mem dir := mem_pages.mpr (.inr (.inr ⟨n, user, at_n⟩))
        rw [store_other _ ne, frame q (Multiset.mem_add.mpr (.inl mine)) root]

/-- The space after a page was mapped at `n`. -/
structure Gained (mem mem' : Addr → Page) (dir : Addr) (n : Nat) (e : UInt32) : Prop where
  unused : leaf mem dir n = none
  tables : ∃ t, Holds mem mem' dir (n / 1024) t
  ptes : pte mem' dir = Function.update (pte mem dir) n e
  bytes : ∀ n q, n < userPages → leaf mem dir n = some q → mem' q = mem q

/-- The kernel's own pages belong to no space. -/
theorem mapPage_kernel (split : Split k m (pages m.mem dir + R) T) (nodup : T.Nodup)
    (kernel : userPages ≤ pageOf va) {pa perm : UInt32} {ok : Bool}
    (run : mapPage dir va pa perm m = some (ok, m')) :
    (ok = false ∧ m' = m ∧ table m.mem dir (pageOf va / 1024) = none ∧
      T = pages m.mem dir + R) ∨
    (ok = true ∧ Gained m.mem m'.mem dir (pageOf va) (pa ||| perm ||| pteP) ∧
      Split k m' (pages m'.mem dir + R) T ∧ ∀ p ∈ R, m'.mem p = m.mem p) := by
  obtain failed | ⟨rfl, unused, t, m₁, split', tables, ptes, rfl, frame, bytes⟩ :=
    mapPage_cases split nodup run
  · exact .inl failed
  have at_va := tables.here
  obtain ⟨tables', ptes'⟩ := store_entry (distinct (Multiset.nodup_add.mp (split'.nodup nodup)).1)
    at_va (pa ||| perm ||| pteP)
  have mine : t ∈ pages m₁.mem dir := mem_pages.mpr (.inr (.inl ⟨_, at_va⟩))
  refine .inr ⟨rfl, ⟨unused, ⟨t, tables.old, tables'.trans tables.new⟩, by rw [ptes', ptes], bytes⟩,
    ?_, frame⟩
  have same : pages (m₁.store t (pageOf va % 1024) (pa ||| perm ||| pteP)).mem dir =
      pages m₁.mem dir := by
    rw [pages, pages, tables']
    congr 2
    apply Holdings.congr
    intro n user
    have other : n ≠ pageOf va := Nat.ne_of_lt (Nat.lt_of_lt_of_le user kernel)
    rw [leaf, leaf, ptes', Function.update_of_ne other]
  rw [same]
  exact split'.write nodup (Multiset.mem_add.mpr (.inl mine)) _

/-- A user page goes over to the space it is mapped in. -/
theorem mapPage_user (split : Split k m (pages m.mem dir + q ::ₘ R) T) (nodup : T.Nodup)
    (user : pageOf va < userPages) (aligned : Aligned (v2p q)) {perm : UInt32}
    (small : perm.toNat < 4096) {ok : Bool} (run : mapPage dir va (v2p q) perm m = some (ok, m')) :
    (ok = false ∧ m' = m ∧ table m.mem dir (pageOf va / 1024) = none ∧
      T = pages m.mem dir + q ::ₘ R) ∨
    (ok = true ∧ Gained m.mem m'.mem dir (pageOf va) (v2p q ||| perm ||| pteP) ∧
      Split k m' (pages m'.mem dir + R) T ∧ ∀ p ∈ q ::ₘ R, m'.mem p = m.mem p) := by
  obtain failed | ⟨rfl, unused, t, m₁, split', tables, ptes, rfl, frame, bytes⟩ :=
    mapPage_cases split nodup run
  · exact .inl failed
  have at_va := tables.here
  obtain ⟨tables', ptes'⟩ := store_entry (distinct (Multiset.nodup_add.mp (split'.nodup nodup)).1)
    at_va (v2p q ||| perm ||| pteP)
  have mine : t ∈ pages m₁.mem dir := mem_pages.mpr (.inr (.inl ⟨_, at_va⟩))
  refine .inr ⟨rfl, ⟨unused, ⟨t, tables.old, tables'.trans tables.new⟩, by rw [ptes', ptes], bytes⟩,
    ?_, frame⟩
  have leaves : leaf (m₁.store t (pageOf va % 1024) (v2p q ||| perm ||| pteP)).mem dir =
      Function.update (leaf m₁.mem dir) (pageOf va) (some q) := by
    funext n
    by_cases here : n = pageOf va
    · rw [here, leaf, ptes', Function.update_self, Function.update_self, entry_or aligned small]
    · rw [Function.update_of_ne here, leaf, ptes', Function.update_of_ne here, leaf]
  have unused' : leaf m₁.mem dir (pageOf va) = none := by
    rw [leaf, ptes]
    exact unused
  have gained : pages (m₁.store t (pageOf va % 1024) (v2p q ||| perm ||| pteP)).mem dir =
      q ::ₘ pages m₁.mem dir := by
    rw [pages, pages, tables', leaves, Holdings.put user unused', Multiset.add_cons,
      Multiset.cons_swap]
  rw [gained, Multiset.cons_add, ← Multiset.add_cons]
  exact split'.write nodup (Multiset.mem_add.mpr (.inl mine)) _

/-- A page that is neither the directory nor a table can hold anything. -/
theorem view_write {p : Addr} (root : p ≠ dir) (leafs : ∀ i, table m.mem dir i ≠ some p) (x : Page) :
    table (m.write p x).mem dir = table m.mem dir ∧ pte (m.write p x).mem dir = pte m.mem dir := by
  have same := Machine.write_other m root.symm x
  refine ⟨table_congr same, pte_congr same ?_⟩
  intro i t at_i
  apply Machine.write_other
  rintro rfl
  exact leafs i at_i

theorem mappages_one {a pa : Addr} (aligned : Aligned a) (dir : Addr) (perm : UInt32) :
    mappages dir a 4096 pa perm = mapPage dir a pa perm := by
  have low : a.toNat % 4096 = 0 := aligned
  have bound := a.toNat_lt
  have page : (4096 : UInt32).toNat = 4096 := rfl
  have one : (1 : UInt32).toNat = 1 := rfl
  have first : pgrounddown a = a := by
    apply UInt32.toNat.inj
    rw [toNat_pgrounddown, pageOf]
    omega
  have last : pgrounddown (a + 4096 - 1) = a := by
    apply UInt32.toNat.inj
    rw [toNat_pgrounddown, pageOf, UInt32.toNat_sub, UInt32.toNat_add, page, one]
    omega
  have none : ((a - a) / 4096).toNat = 0 := by
    rw [UInt32.sub_self]
    rfl
  simp only [mappages, first, last, none, mapLoop]

end changes
end Xv6.Vm
