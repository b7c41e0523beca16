import Mathlib.Data.Multiset.UnionInter
import Mathlib.Data.Nat.Bitwise
import Xv6.Lib.Bytes
import Xv6.Lib.Prog

/-! kalloc.c: physical memory by pages, and the list of free pages, which runs
through the pages themselves. Pages go by the kernel's address of them. -/

namespace Xv6.Vm
open Lib

abbrev Addr := UInt32

def pgsize : Nat := 4096

abbrev Page := Bytes pgsize

def kernbase : Addr := 0x80000000

def extmem : Addr := 0x100000

def phystop : Addr := 0xE000000

def devspace : Addr := 0xFE000000

def kernlink : Addr := kernbase + extmem

def v2p (a : Addr) : Addr := a - kernbase

def p2v (a : Addr) : Addr := a + kernbase

@[simp] theorem p2v_v2p (a : Addr) : p2v (v2p a) = a := UInt32.sub_add_cancel ..

def Aligned (a : Addr) : Prop := a.toNat % pgsize = 0

instance (a : Addr) : Decidable (Aligned a) := inferInstanceAs (Decidable (_ = _))

/-- What kernel.ld defines: the data segment starts a page, and behind it ends
the kernel. -/
structure Symbols where
  data : Addr
  kend : Addr
  data_aligned : Aligned data
  kernlink_lt : kernlink < data
  data_le : data ≤ kend
  kend_lt : kend < p2v phystop

structure Machine where
  mem : Addr → Page
  /-- kmem.freelist -/
  freelist : Addr
  /-- Not part of the code: a page was freed that was on the list already. -/
  twice : Bool

/-- The list leads to the page. -/
def reaches (mem : Addr → Page) (v : Addr) : Nat → Addr → Bool
  | 0, _ => false
  | fuel + 1, a => a != 0 && (a == v || reaches mem v fuel ((mem a).word 0))

def Machine.isFree (m : Machine) (v : Addr) : Bool := reaches m.mem v 1048576 m.freelist

def Machine.write (m : Machine) (p : Addr) (v : Page) : Machine :=
  { m with mem := Function.update m.mem p v }

theorem Machine.write_self (m : Machine) (p : Addr) (v : Page) : (m.write p v).mem p = v :=
  Function.update_self ..

theorem Machine.write_other (m : Machine) {p q : Addr} (ne : q ≠ p) (v : Page) :
    (m.write p v).mem q = m.mem q := Function.update_of_ne ne ..

/-! ## The allocator -/

/-- What kfree() requires of a page. -/
def Symbols.Valid (k : Symbols) (v : Addr) : Prop := Aligned v ∧ k.kend ≤ v ∧ v2p v < phystop

instance (k : Symbols) (v : Addr) : Decidable (k.Valid v) := inferInstanceAs (Decidable (_ ∧ _))

def kfree (k : Symbols) (v : Addr) : Prog Machine Unit :=
  if k.Valid v then
    -- the page is filled with junk, and its first word is the link
    .modify fun m => { m.write v (Bytes.setWord (fun _ => 1) 0 m.freelist) with
      freelist := v, twice := m.twice || m.isFree v }
  else .halt

/-- The first free page, or 0. -/
def kalloc : Prog Machine Addr := do
  let m ← .get
  let r := m.freelist
  if r ≠ 0 then
    .modify fun m => { m with freelist := (m.mem r).word 0 }
  pure r

/-! ## The free list -/

/-- The pages that follow each other from `a` on. -/
def Chain (mem : Addr → Page) : Addr → List Addr → Prop
  | a, [] => a = 0
  | a, v :: l => a = v ∧ Chain mem ((mem v).word 0) l

theorem Chain.congr {mem mem' : Addr → Page} {l : List Addr} (same : ∀ v ∈ l, mem' v = mem v)
    {a : Addr} (chain : Chain mem a l) : Chain mem' a l := by
  induction l generalizing a with
  | nil => exact chain
  | cons v l ih =>
    refine ⟨chain.1, ?_⟩
    rw [same v (List.mem_cons_self ..)]
    exact ih (fun x hx => same x (List.mem_cons_of_mem _ hx)) chain.2

theorem Chain.mem_of_reaches {mem : Addr → Page} {l : List Addr} {a v : Addr} {fuel : Nat}
    (chain : Chain mem a l) (free : reaches mem v fuel a = true) : v ∈ l := by
  induction l generalizing a fuel with
  | nil =>
    have zero : a = 0 := chain
    cases fuel with
    | zero => cases free
    | succ fuel => simp [reaches, zero] at free
  | cons x l ih =>
    obtain ⟨rfl, rest⟩ := chain
    cases fuel with
    | zero => cases free
    | succ fuel =>
      simp only [reaches, Bool.and_eq_true, Bool.or_eq_true, beq_iff_eq] at free
      obtain ⟨_, rfl | further⟩ := free
      · exact List.mem_cons_self ..
      · exact List.mem_cons_of_mem _ (ih rest further)

structure FreeList (k : Symbols) (m : Machine) (F : List Addr) : Prop where
  chain : Chain m.mem m.freelist F
  valid : ∀ v ∈ F, k.Valid v
  once : m.twice = false

theorem Symbols.Valid.ne_zero {k : Symbols} {v : Addr} (h : k.Valid v) : v ≠ 0 := by
  rintro rfl
  have first := k.kernlink_lt
  have behind := k.data_le
  have here : k.kend ≤ 0 := h.2.1
  rw [UInt32.lt_iff_toNat_lt] at first
  rw [UInt32.le_iff_toNat_le] at behind here
  have start : kernlink.toNat = 2148532224 := rfl
  have zero : (0 : UInt32).toNat = 0 := rfl
  omega

theorem Symbols.Valid.v2p_aligned {k : Symbols} {v : Addr} (h : k.Valid v) : Aligned (v2p v) := by
  have aligned : v.toNat % 4096 = 0 := h.1
  have bound := v.toNat_lt
  have base : kernbase.toNat = 2147483648 := rfl
  unfold Aligned v2p pgsize
  rw [UInt32.toNat_sub, base]
  omega

/-- All the pages there are, `T`, are on the free list or among `S`. -/
def Split (k : Symbols) (m : Machine) (S T : Multiset Addr) : Prop :=
  ∃ F, FreeList k m F ∧ (F : Multiset Addr) + S = T

namespace Split
variable {k : Symbols} {m m' : Machine} {S T : Multiset Addr} {v : Addr}

theorem le (split : Split k m S T) : S ≤ T := by
  obtain ⟨F, _, rfl⟩ := split
  exact Multiset.le_add_left ..

theorem nodup (split : Split k m S T) (nodup : T.Nodup) : S.Nodup := Multiset.nodup_of_le split.le nodup

/-- The free list does not depend on pages that are not on it. -/
theorem congr (split : Split k m S T) (nodup : T.Nodup) (list : m'.freelist = m.freelist)
    (once : m'.twice = m.twice) (same : ∀ p, p ∉ S → m'.mem p = m.mem p) : Split k m' S T := by
  obtain ⟨F, free, rfl⟩ := split
  have apart := (Multiset.nodup_add.mp nodup).2.2
  refine ⟨F, ⟨?_, free.valid, once.trans free.once⟩, rfl⟩
  rw [list]
  apply free.chain.congr
  intro v hv
  exact same v (Multiset.disjoint_left.mp apart (Multiset.mem_coe.mpr hv))

theorem write (split : Split k m S T) (nodup : T.Nodup) {p : Addr} (mine : p ∈ S) (x : Page) :
    Split k (m.write p x) S T := by
  have list : (m.write p x).freelist = m.freelist := rfl
  apply split.congr nodup list rfl
  intro q hq
  apply Machine.write_other
  rintro rfl
  exact hq mine

/-- kalloc() returns a page that nobody has, or 0 if the list is empty. -/
theorem kalloc (split : Split k m S T) (run : kalloc m = some (v, m')) :
    (v = 0 ∧ m' = m ∧ T = S) ∨
    (v ≠ 0 ∧ k.Valid v ∧ m'.mem = m.mem ∧ Split k m' (v ::ₘ S) T) := by
  obtain ⟨F, free, rfl⟩ := split
  cases F with
  | nil =>
    have zero : m.freelist = 0 := free.chain
    simp only [Vm.kalloc, zero, bind, pure, Prog.get, ne_eq, not_true_eq_false, ↓reduceIte,
      Option.some.injEq, Prod.mk.injEq] at run
    exact .inl ⟨run.1.symm, run.2.symm, Multiset.zero_add _⟩
  | cons x F =>
    obtain ⟨first, rest⟩ := free.chain
    have valid := free.valid x (List.mem_cons_self ..)
    have nonzero : m.freelist ≠ 0 := by
      rw [first]
      exact valid.ne_zero
    simp only [Vm.kalloc, bind, pure, Prog.get, Prog.modify, ne_eq, nonzero, not_false_eq_true, ↓reduceIte,
      Option.some.injEq, Prod.mk.injEq] at run
    obtain ⟨rfl, rfl⟩ := run
    rw [first] at nonzero ⊢
    refine .inr ⟨nonzero, valid, rfl, F, ⟨rest, ?_, free.once⟩, ?_⟩
    · intro v hv
      exact free.valid v (List.mem_cons_of_mem _ hv)
    · rw [Multiset.add_cons, ← Multiset.cons_coe, Multiset.cons_add]

/-- kfree() puts a page back. -/
theorem kfree (split : Split k m (v ::ₘ S) T) (nodup : T.Nodup)
    (run : kfree k v m = some ((), m')) :
    Split k m' S T ∧ ∀ p, p ≠ v → m'.mem p = m.mem p := by
  obtain ⟨F, free, rfl⟩ := split
  unfold Vm.kfree at run
  by_cases valid : k.Valid v
  · rw [if_pos valid] at run
    obtain rfl := Prog.modify_eq_some.mp run
    have apart := (Multiset.nodup_add.mp nodup).2.2
    have fresh : v ∉ F := by
      intro mem
      exact Multiset.disjoint_left.mp apart (Multiset.mem_coe.mpr mem) (Multiset.mem_cons_self ..)
    refine ⟨⟨v :: F, ⟨⟨rfl, ?_⟩, ?_, ?_⟩, ?_⟩, ?_⟩
    · have link : ((Machine.write m v (Bytes.setWord (fun _ => 1) 0 m.freelist)).mem v).word 0 =
          m.freelist := by
        rw [Machine.write_self]
        exact Bytes.word_setWord_self _ (by decide) _
      change Chain _ (((Machine.write m v (Bytes.setWord (fun _ => 1) 0 m.freelist)).mem v).word 0) F
      rw [link]
      apply free.chain.congr
      intro p hp
      apply Function.update_of_ne
      rintro rfl
      exact fresh hp
    · intro p hp
      rw [List.mem_cons] at hp
      obtain rfl | hp := hp
      · exact valid
      · exact free.valid p hp
    · have away : m.isFree v = false := by
        rw [Bool.eq_false_iff]
        intro listed
        exact fresh (free.chain.mem_of_reaches listed)
      change (m.twice || m.isFree v) = false
      rw [free.once, away]
      rfl
    · rw [Multiset.add_cons, ← Multiset.cons_coe, Multiset.cons_add]
    · intro p ne
      exact Function.update_of_ne ne ..
  · rw [if_neg valid] at run
    cases run

end Split
end Xv6.Vm
