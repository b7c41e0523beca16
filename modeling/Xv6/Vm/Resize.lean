import Mathlib.Tactic.Abel
import Xv6.Vm.Boot
import Xv6.Vm.Processes

/-! Growing and shrinking a space, exactly: deallocuvm(), allocuvm() and the
growproc() that calls them. -/

namespace Xv6.Vm
open Lib

section ranges
variable {k : Symbols} {m m' : Machine} {R T : Multiset Addr} {dir : Addr} {n : Nat}

theorem leaf_of_userPage {mem mem' : Addr → Page}
    (same : userPage mem' dir n = userPage mem dir n) : leaf mem' dir n = leaf mem dir n := by
  cases at_n : leaf mem dir n with
  | none => rwa [userPage_eq_none.mpr at_n, userPage_eq_none] at same
  | some q =>
    cases at_n' : leaf mem' dir n with
    | none =>
      rw [userPage_eq_none.mpr at_n', userPage_of_leaf at_n] at same
      cases same
    | some q' =>
      rw [userPage_of_leaf at_n, userPage_of_leaf at_n', Option.some.injEq, Prod.mk.injEq] at same
      rw [← at_n, ← at_n', leaf, leaf, same.1]

/-- The user pages between the sizes. -/
def between (mem : Addr → Page) (dir oldsz newsz : Addr) (n : Nat) : Option Addr :=
  if newsz.toNat ≤ 4096 * n ∧ 4096 * n < oldsz.toNat then leaf mem dir n else none

/-- deallocuvm() puts each page it removes on the free list, once. -/
theorem deallocuvm_frees {oldsz newsz r : Addr} (space : Space k m dir R T)
    (small : oldsz.toNat ≤ 2147483648) (run : deallocuvm k dir oldsz newsz m = some (r, m'))
    (edited : Edited k m m' dir R T fun n =>
      if newsz.toNat ≤ 4096 * n ∧ 4096 * n < oldsz.toNat then none else userPage m.mem dir n) :
    ∃ F F', FreeList k m F ∧ FreeList k m' F' ∧
      (F' : Multiset Addr) = F + holdings (between m.mem dir oldsz newsz) userPages := by
  obtain ⟨_, _, tables, _⟩ := deallocuvm_spec space.split space.nodup small run
  obtain ⟨F, free, total⟩ := space.split
  obtain ⟨F', free', total'⟩ := edited.split
  have leaves : holdings (leaf m.mem dir) userPages =
      holdings (leaf m'.mem dir) userPages + holdings (between m.mem dir oldsz newsz) userPages := by
    apply Holdings.split
    intro n user
    have now := edited.user n user
    by_cases inside : newsz.toNat ≤ 4096 * n ∧ 4096 * n < oldsz.toNat
    · rw [if_pos inside, userPage_eq_none] at now
      exact .inr ⟨now, if_pos inside⟩
    · rw [if_neg inside] at now
      exact .inl ⟨leaf_of_userPage now, if_neg inside⟩
  refine ⟨F, F', free, free', ?_⟩
  apply add_right_cancel (b := pages m'.mem dir + R)
  rw [total', ← total, pages, pages, leaves, tables, ← Multiset.singleton_add,
    ← Multiset.singleton_add]
  abel

theorem pageCount_min (s newsz : Addr) :
    pageCount (min s newsz) = min (pageCount s) (pageCount newsz) := by
  have le (a b : Addr) : a ≤ b → pageCount a ≤ pageCount b := by
    intro order
    rw [UInt32.le_iff_toNat_le] at order
    unfold pageCount
    omega
  by_cases order : s ≤ newsz
  · rw [show min s newsz = s from if_pos order, Nat.min_eq_left (le _ _ order)]
  · rw [show min s newsz = newsz from if_neg order,
      Nat.min_eq_right (le _ _ (UInt32.le_of_lt (UInt32.not_le.mp order)))]

/-- A page that allocuvm() maps is clear, and belonged to nobody. -/
theorem Grown.fresh_page {old new : Nat} (grown : Grown k m m' dir R T old new)
    (space : Space k m dir R T) (present : Present m.mem dir old) (ge : old ≤ n) (lt : n < new)
    (user : n < userPages) :
    ∃ v, leaf m'.mem dir n = some v ∧ m'.mem v = Bytes.zero ∧ v ∉ pages m.mem dir + R := by
  obtain ⟨_, _, at_n⟩ := grown.fresh n ge lt
  obtain ⟨v, leaf_n⟩ : ∃ v, leaf m'.mem dir n = some v := by
    apply Option.ne_none_iff_exists'.mp
    intro absent
    rw [userPage_eq_none.mpr absent] at at_n
    cases at_n
  rw [userPage_of_leaf leaf_n, Option.some.injEq, Prod.mk.injEq] at at_n
  refine ⟨v, leaf_n, at_n.2, ?_⟩
  have apart := (space.of_keeps grown.toKeeps).distinct
  rw [Multiset.mem_add, mem_pages, not_or, not_or, not_or]
  refine ⟨⟨apart.leaf_ne n v user leaf_n, ?_, ?_⟩, ?_⟩
  · rintro ⟨i, at_i⟩
    exact apart.leaf_ne_table n v i user leaf_n (grown.tables i v at_i)
  · rintro ⟨n', user', at_n'⟩
    have below : n' < old := by
      apply (present n' user').mp
      rw [at_n']
      exact Option.some_ne_none v
    have still : leaf m'.mem dir n' = some v := by
      rw [leaf_of_userPage (grown.below n' below user'), at_n']
    have same := apart.leaf_inj n n' v user user' leaf_n still
    omega
  · intro other
    have mine : v ∈ pages m'.mem dir := mem_pages.mpr (.inr (.inr ⟨n, user, leaf_n⟩))
    exact Multiset.disjoint_left.mp
      (Multiset.nodup_add.mp (grown.split.nodup space.nodup)).2.2 mine other

/-- deallocuvm() and allocuvm() on a space whose user pages are those below `s`:
the one takes away exactly the pages from the new size on, the other adds
exactly the pages up to the new size, or none if memory runs out. -/
theorem ranges_exact {s : Addr} (space : Space k m dir R T)
    (present : Present m.mem dir (pageCount s)) :
    (∀ oldsz newsz : Addr, oldsz ≤ kernbase → newsz < oldsz → s ≤ oldsz →
      ∃ m', deallocuvm k dir oldsz newsz m = some (newsz, m') ∧ Space k m' dir R T ∧
        Present m'.mem dir (pageCount (min s newsz)) ∧
        (∀ n, n < pageCount (min s newsz) → userPage m'.mem dir n = userPage m.mem dir n) ∧
        ∃ F F', FreeList k m F ∧ FreeList k m' F' ∧
          (F' : Multiset Addr) = F + holdings (between m.mem dir oldsz newsz) userPages) ∧
    ∀ newsz : Addr, s ≤ newsz → newsz < kernbase →
      ∃ r m', allocuvm k dir s newsz m = some (r, m') ∧ Space k m' dir R T ∧
        (∀ n, n < pageCount s → userPage m'.mem dir n = userPage m.mem dir n) ∧
        ((r = newsz ∧ Present m'.mem dir (pageCount newsz) ∧
          ∀ n, pageCount s ≤ n → n < pageCount newsz → ∃ v, leaf m'.mem dir n = some v ∧
            m'.mem v = Bytes.zero ∧ v ∉ pages m.mem dir + R) ∨
         (r = 0 ∧ Present m'.mem dir (pageCount s) ∧
          ∃ F, FreeList k m F ∧ F.length < 2 * (pageCount newsz - pageCount s))) := by
  have base : kernbase.toNat = 2147483648 := rfl
  have within {a : Addr} (le : a ≤ kernbase) : pageCount a ≤ userPages := by
    rw [UInt32.le_iff_toNat_le] at le
    unfold pageCount userPages
    omega
  constructor
  · intro oldsz newsz small less order
    have top := UInt32.le_iff_toNat_le.mp small
    have lt := UInt32.lt_iff_toNat_lt.mp less
    have le := UInt32.le_iff_toNat_le.mp order
    obtain ⟨m', run, edited⟩ := deallocuvm_exact space (show oldsz.toNat ≤ 2147483648 by omega) present newsz
    rw [if_neg (UInt32.not_le.mpr less)] at run
    have kept (n : Nat) (user : n < userPages) (lt : n < pageCount newsz) :
        userPage m'.mem dir n = userPage m.mem dir n := by
      rw [edited.user n user, if_neg]
      unfold pageCount at lt
      omega
    refine ⟨m', run, space.of_keeps edited.toKeeps, ?_, ?_,
      deallocuvm_frees space (by omega) run edited⟩
    · intro n user
      rw [pageCount_min]
      by_cases below : n < pageCount newsz
      · rw [leaf_of_userPage (kept n user below), present n user]
        omega
      · have gone : leaf m'.mem dir n = none := by
          rw [← userPage_eq_none, edited.user n user]
          by_cases inside : newsz.toNat ≤ 4096 * n ∧ 4096 * n < oldsz.toNat
          · rw [if_pos inside]
          · rw [if_neg inside, userPage_eq_none]
            apply present.none_of_le user
            unfold pageCount at below ⊢
            omega
        rw [gone]
        exact ⟨fun no => absurd rfl no, fun yes => absurd yes (by omega)⟩
    · intro n below
      rw [pageCount_min] at below
      have user := within (UInt32.le_trans order small)
      exact kept n (by omega) (by omega)
  · intro newsz order small
    have user := within (UInt32.le_of_lt small)
    have grows : pageCount s ≤ pageCount newsz := by
      have le := UInt32.le_iff_toNat_le.mp order
      unfold pageCount
      omega
    obtain ⟨r, m', run, ⟨rfl, grown, _⟩ | ⟨rfl, grown, out⟩⟩ :=
      allocuvm_exact space order small present
    · refine ⟨r, m', run, space.of_keeps grown.toKeeps, fun n lt => grown.below n lt (by omega),
        .inl ⟨rfl, grown.present present grows, ?_⟩⟩
      intro n ge lt
      exact grown.fresh_page space present ge lt (by omega)
    · obtain ⟨F, free, total⟩ := space.split
      refine ⟨0, m', run, space.of_keeps grown.toKeeps, fun n lt => grown.below n lt (by omega),
        .inr ⟨rfl, grown.present present (Nat.le_refl _), F, free, ?_⟩⟩
      rw [← total, Multiset.card_add, Multiset.card_add, Multiset.coe_card] at out
      omega

/-- A space of one page is emptied, and grown to 5000 bytes. -/
theorem one_page_ranges : ∃ m dir T, Space smallKernel m dir 0 T ∧
    Present m.mem dir (pageCount 4096) ∧
    (∃ m', deallocuvm smallKernel dir 4096 0 m = some (0, m') ∧ Present m'.mem dir 0) ∧
    ∃ r m', allocuvm smallKernel dir 4096 5000 m = some (r, m') ∧
      (r = 5000 ∧ Present m'.mem dir 2 ∨ r = 0 ∧ Present m'.mem dir 1) := by
  obtain ⟨m₀, T, _, pool, size⟩ := pool_kinit2
  have one : pageCount 4096 = 1 := by decide
  have two : pageCount 5000 = 2 := by decide
  have none : pageCount (min 4096 0) = 0 := by decide
  obtain ⟨dir, _, m, _, _, space, _, present, _⟩ := pool.make_space (by decide : 4096 < kernbase)
    (by rw [one, size]; decide)
  obtain ⟨shrinks, grows⟩ := ranges_exact space present
  obtain ⟨m', run, _, left, _⟩ := shrinks 4096 0 (by decide) (by decide) (by decide)
  obtain ⟨r, m'', run', _, _, result⟩ := grows 5000 (by decide) (by decide)
  refine ⟨m, dir, T, space, present, ⟨m', run, none ▸ left⟩, r, m'', run', ?_⟩
  obtain ⟨rfl, there, _⟩ | ⟨rfl, there, _⟩ := result
  · exact .inl ⟨rfl, two ▸ there⟩
  · exact .inr ⟨rfl, one ▸ there⟩

end ranges

/-! ## growproc() -/

section growproc
variable {k : Symbols} {s s' : State} {R T : Multiset Addr} {me : Slot}

/-- What growproc() is to do: either it returns 0 and the process has `n` bytes
more, with the pages for them and the old contents, or it returns -1 and nothing
has changed. -/
def Resized (s s' : State) (me : Slot) (n r : Int32) : Prop :=
  let dir := (s.proc me).pgdir
  let sz := (s.proc me).sz
  let sz' := (s'.proc me).sz
  (s'.proc me).pgdir = dir ∧
  ((r = 0 ∧ 0 ≤ (sz.toNat : Int) + n.toInt ∧ (sz.toNat : Int) + n.toInt < kernbase.toNat ∧
    (sz'.toNat : Int) = sz.toNat + n.toInt ∧ Present s'.machine.mem dir (pageCount sz') ∧
    (∀ p, p < min (pageCount sz) (pageCount sz') →
      userPage s'.machine.mem dir p = userPage s.machine.mem dir p) ∧
    ∀ p, pageCount sz ≤ p → p < pageCount sz' →
      ∃ e, userPage s'.machine.mem dir p = some (e, Bytes.zero)) ∨
   (r = -1 ∧ sz' = sz ∧
    ∀ p, p < userPages → userPage s'.machine.mem dir p = userPage s.machine.mem dir p))

/-- growproc() in terms of the size that it gets. -/
theorem growproc_eq {n : Int32} {sz : UInt32} {m : Machine}
    (run : resize k (s.proc me).pgdir (s.proc me).sz n s.machine = some (sz, m)) :
    growproc k me n s = some (if n ≠ 0 ∧ sz = 0 then (-1, { s with machine := m })
      else (0, { s with machine := m }.setProc me { s.proc me with sz := sz })) := by
  have part : onMachine (resize k (s.proc me).pgdir (s.proc me).sz n) s =
      some (sz, { s with machine := m }) := Prog.onPart_eq_some.mpr ⟨m, run, rfl⟩
  by_cases failed : n ≠ 0 ∧ sz = 0
  · simp only [growproc, bind, Prog.get, part, failed, ne_eq, not_false_eq_true, and_self, ↓reduceIte]
    rfl
  · simp only [growproc, bind, Prog.get, part, failed, ↓reduceIte]
    rfl

theorem Resized.of_size {n : Int32} {m : Machine} {sz : UInt32}
    (sum : (sz.toNat : Int) = (s.proc me).sz.toNat + n.toInt) (small : sz.toNat < kernbase.toNat)
    (present : Present m.mem (s.proc me).pgdir (pageCount sz))
    (kept : ∀ p, p < min (pageCount (s.proc me).sz) (pageCount sz) →
      userPage m.mem (s.proc me).pgdir p = userPage s.machine.mem (s.proc me).pgdir p)
    (fresh : ∀ p, pageCount (s.proc me).sz ≤ p → p < pageCount sz →
      ∃ e, userPage m.mem (s.proc me).pgdir p = some (e, Bytes.zero)) :
    Resized s ({ s with machine := m }.setProc me { s.proc me with sz := sz }) me n 0 := by
  unfold Resized
  rw [State.setProc_self]
  exact ⟨rfl, .inl ⟨rfl, by omega, by omega, sum, present, kept, fresh⟩⟩

theorem growproc_grows {n : Int32} (space : Space k s.machine (s.proc me).pgdir R T)
    (present : Present s.machine.mem (s.proc me).pgdir (pageCount (s.proc me).sz))
    (small : (s.proc me).sz < kernbase) (more : 0 < n.toInt) :
    ∃ r s', growproc k me n s = some (r, s') ∧ Resized s s' me n r := by
  have base : kernbase.toNat = 2147483648 := rfl
  have below := UInt32.lt_iff_toNat_lt.mp small
  have bound := n.toInt_lt
  have sum := toNat_add_signed (s.proc me).sz n
  have positive : n > 0 := Int32.lt_iff_toInt_lt.mpr more
  have nonzero : n ≠ 0 := by
    rintro rfl
    exact absurd more (by decide)
  have call : resize k (s.proc me).pgdir (s.proc me).sz n =
      allocuvm k (s.proc me).pgdir (s.proc me).sz ((s.proc me).sz + n.toUInt32) := if_pos positive
  by_cases large : (s.proc me).sz + n.toUInt32 ≥ kernbase
  · have run : resize k (s.proc me).pgdir (s.proc me).sz n s.machine = some (0, s.machine) := by
      rw [call, allocuvm, if_pos large]
      rfl
    refine ⟨-1, s, ?_, rfl, .inr ⟨rfl, rfl, fun _ _ => rfl⟩⟩
    rw [growproc_eq run, if_pos ⟨nonzero, rfl⟩]
  · have lt := UInt32.not_le.mp large
    have top := UInt32.lt_iff_toNat_lt.mp lt
    have order : (s.proc me).sz ≤ (s.proc me).sz + n.toUInt32 := by
      rw [UInt32.le_iff_toNat_le]
      omega
    obtain ⟨r, m', run, result⟩ := allocuvm_exact space order lt present
    rw [← call] at run
    obtain ⟨rfl, grown, _⟩ | ⟨rfl, grown, _⟩ := result
    · have some : ¬ (n ≠ 0 ∧ (s.proc me).sz + n.toUInt32 = 0) := by
        rintro ⟨_, zero⟩
        rw [zero] at sum
        have none : (0 : UInt32).toNat = 0 := rfl
        omega
      refine ⟨0, _, by rw [growproc_eq run, if_neg some], ?_⟩
      have pages : pageCount (s.proc me).sz ≤ pageCount ((s.proc me).sz + n.toUInt32) := by
        have le := UInt32.le_iff_toNat_le.mp order
        unfold pageCount
        omega
      have user : pageCount ((s.proc me).sz + n.toUInt32) ≤ userPages := by
        unfold pageCount userPages
        omega
      refine .of_size (by omega) (by omega) (grown.present present pages) ?_ ?_
      · intro p lt
        exact grown.below p (by omega) (by omega)
      · intro p ge lt
        obtain ⟨v, _, at_p⟩ := grown.fresh p ge lt
        exact ⟨_, at_p⟩
    · refine ⟨-1, _, by rw [growproc_eq run, if_pos ⟨nonzero, rfl⟩], ?_⟩
      refine ⟨rfl, .inr ⟨rfl, rfl, ?_⟩⟩
      intro p user
      by_cases old : p < pageCount (s.proc me).sz
      · exact grown.below p old user
      · rw [userPage_eq_none.mpr (grown.above p (by omega) (by omega) user),
          userPage_eq_none.mpr (present.none_of_le user (by omega))]

/-- What deallocuvm() makes of a size that is not larger. -/
theorem resize_shrinks {n : Int32} (space : Space k s.machine (s.proc me).pgdir R T)
    (present : Present s.machine.mem (s.proc me).pgdir (pageCount (s.proc me).sz))
    (small : (s.proc me).sz < kernbase) (less : n.toInt < 0)
    (whole : 0 ≤ ((s.proc me).sz.toNat : Int) + n.toInt) :
    ∃ m', resize k (s.proc me).pgdir (s.proc me).sz n s.machine =
        some ((s.proc me).sz + n.toUInt32, m') ∧
      Present m'.mem (s.proc me).pgdir (pageCount ((s.proc me).sz + n.toUInt32)) ∧
      ∀ p, p < pageCount ((s.proc me).sz + n.toUInt32) →
        userPage m'.mem (s.proc me).pgdir p = userPage s.machine.mem (s.proc me).pgdir p := by
  have base : kernbase.toNat = 2147483648 := rfl
  have below := UInt32.lt_iff_toNat_lt.mp small
  have sum := toNat_add_signed (s.proc me).sz n
  have lower : (s.proc me).sz + n.toUInt32 < (s.proc me).sz := by
    rw [UInt32.lt_iff_toNat_lt]
    omega
  have order := UInt32.lt_iff_toNat_lt.mp lower
  have call : resize k (s.proc me).pgdir (s.proc me).sz n =
      deallocuvm k (s.proc me).pgdir (s.proc me).sz ((s.proc me).sz + n.toUInt32) := by
    have negative : n < 0 := Int32.lt_iff_toInt_lt.mpr less
    have not : ¬ n > 0 := fun positive => by
      have := Int32.lt_iff_toInt_lt.mp positive
      have zero : (0 : Int32).toInt = 0 := rfl
      omega
    rw [resize, if_neg not, if_pos negative]
  obtain ⟨m', run, edited⟩ := deallocuvm_exact space (Nat.le_of_lt below) present
    ((s.proc me).sz + n.toUInt32)
  rw [if_neg (UInt32.not_le.mpr lower), ← call] at run
  have user : pageCount ((s.proc me).sz + n.toUInt32) ≤ userPages := by
    unfold pageCount userPages
    omega
  have kept (p : Nat) (lt : p < pageCount ((s.proc me).sz + n.toUInt32)) :
      userPage m'.mem (s.proc me).pgdir p = userPage s.machine.mem (s.proc me).pgdir p := by
    rw [edited.user p (by omega), if_neg]
    unfold pageCount at lt
    omega
  refine ⟨m', run, ?_, kept⟩
  intro p low
  by_cases lt : p < pageCount ((s.proc me).sz + n.toUInt32)
  · rw [leaf_of_userPage (kept p lt), present p low]
    unfold pageCount at lt ⊢
    omega
  · have gone : leaf m'.mem (s.proc me).pgdir p = none := by
      rw [← userPage_eq_none, edited.user p low]
      by_cases inside : ((s.proc me).sz + n.toUInt32).toNat ≤ 4096 * p ∧
          4096 * p < (s.proc me).sz.toNat
      · rw [if_pos inside]
      · rw [if_neg inside, userPage_eq_none]
        apply present.none_of_le low
        unfold pageCount at lt ⊢
        omega
    rw [gone]
    exact ⟨fun no => absurd rfl no, fun yes => absurd yes lt⟩

theorem growproc_keeps (present : Present s.machine.mem (s.proc me).pgdir (pageCount (s.proc me).sz))
    (small : (s.proc me).sz < kernbase) :
    ∃ r s', growproc k me 0 s = some (r, s') ∧ Resized s s' me 0 r := by
  have below := UInt32.lt_iff_toNat_lt.mp small
  have none : (0 : Int32).toInt = 0 := rfl
  have run : resize k (s.proc me).pgdir (s.proc me).sz 0 s.machine =
      some ((s.proc me).sz, s.machine) := rfl
  refine ⟨0, _, by rw [growproc_eq run, if_neg (fun no => no.1 rfl)], ?_⟩
  refine .of_size (by rw [none, Int.add_zero]) below present (fun _ _ => rfl) ?_
  intro p ge lt
  exact absurd lt (Nat.not_lt.mpr ge)

theorem growproc_shrinks {n : Int32} (space : Space k s.machine (s.proc me).pgdir R T)
    (present : Present s.machine.mem (s.proc me).pgdir (pageCount (s.proc me).sz))
    (small : (s.proc me).sz < kernbase) (less : n.toInt < 0)
    (left : 0 < ((s.proc me).sz.toNat : Int) + n.toInt) :
    ∃ r s', growproc k me n s = some (r, s') ∧ Resized s s' me n r := by
  have base : kernbase.toNat = 2147483648 := rfl
  have below := UInt32.lt_iff_toNat_lt.mp small
  have sum := toNat_add_signed (s.proc me).sz n
  obtain ⟨m', run, present', kept⟩ := resize_shrinks space present small less (by omega)
  have some : ¬ (n ≠ 0 ∧ (s.proc me).sz + n.toUInt32 = 0) := by
    rintro ⟨_, zero⟩
    rw [zero] at sum
    have none : (0 : UInt32).toNat = 0 := rfl
    omega
  refine ⟨0, _, by rw [growproc_eq run, if_neg some], ?_⟩
  refine .of_size (by omega) (by omega) present' (fun p lt => kept p (by omega)) ?_
  intro p ge lt
  have fewer : pageCount ((s.proc me).sz + n.toUInt32) ≤ pageCount (s.proc me).sz := by
    unfold pageCount
    omega
  omega

/-- Shrinking to nothing frees every page, and then deallocuvm()'s size of 0 is
taken for a failure. -/
theorem growproc_empties {n : Int32} (space : Space k s.machine (s.proc me).pgdir R T)
    (present : Present s.machine.mem (s.proc me).pgdir (pageCount (s.proc me).sz))
    (small : (s.proc me).sz < kernbase) (less : n.toInt < 0)
    (nothing : ((s.proc me).sz.toNat : Int) + n.toInt = 0) :
    ∃ s', growproc k me n s = some (-1, s') ∧ s'.proc = s.proc ∧
      Present s'.machine.mem (s.proc me).pgdir 0 := by
  have sum := toNat_add_signed (s.proc me).sz n
  obtain ⟨m', run, present', _⟩ := resize_shrinks space present small less (by omega)
  have zero : (s.proc me).sz + n.toUInt32 = 0 := by
    apply UInt32.toNat.inj
    have none : (0 : UInt32).toNat = 0 := rfl
    omega
  have nonzero : n ≠ 0 := by
    rintro rfl
    exact absurd less (by decide)
  rw [zero] at run present'
  refine ⟨{ s with machine := m' }, ?_, rfl, present'⟩
  rw [growproc_eq run, if_pos ⟨nonzero, rfl⟩]

/-- Below nothing the sum wraps round, and deallocuvm() sees nothing to do. -/
theorem growproc_wraps {n : Int32} (small : (s.proc me).sz < kernbase)
    (below : ((s.proc me).sz.toNat : Int) + n.toInt < 0) :
    growproc k me n s = some (if (s.proc me).sz = 0 then -1 else 0, s) := by
  have base : kernbase.toNat = 2147483648 := rfl
  have lt := UInt32.lt_iff_toNat_lt.mp small
  have sum := toNat_add_signed (s.proc me).sz n
  have bound := n.le_toInt
  have above : (s.proc me).sz + n.toUInt32 ≥ (s.proc me).sz := by
    rw [ge_iff_le, UInt32.le_iff_toNat_le]
    omega
  have negative : n < 0 := by
    have zero : (0 : Int32).toInt = 0 := rfl
    rw [Int32.lt_iff_toInt_lt]
    omega
  have nonzero : n ≠ 0 := by
    rintro rfl
    exact absurd negative (by decide)
  have run : resize k (s.proc me).pgdir (s.proc me).sz n s.machine =
      some ((s.proc me).sz, s.machine) := by
    have not : ¬ n > 0 := Int32.not_lt.mpr (Int32.le_of_lt negative)
    rw [resize, if_neg not, if_pos negative, deallocuvm, if_pos above]
    rfl
  rw [growproc_eq run]
  by_cases zero : (s.proc me).sz = 0
  · rw [if_pos ⟨nonzero, zero⟩, if_pos zero]
  · rw [if_neg (fun both => zero both.2), if_neg zero]
    have same : s.setProc me (s.proc me) = s := by simp [State.setProc]
    exact congrArg (fun t => some ((0 : Int32), t)) same

/-- A process with memory has a first page. -/
theorem first_page (present : Present s.machine.mem (s.proc me).pgdir (pageCount (s.proc me).sz))
    (some : (s.proc me).sz ≠ 0)
    (same : ∀ p, p < userPages → userPage s'.machine.mem (s.proc me).pgdir p =
      userPage s.machine.mem (s.proc me).pgdir p) : leaf s'.machine.mem (s.proc me).pgdir 0 ≠ none := by
  rw [leaf_of_userPage (same 0 (by decide))]
  apply (present 0 (by decide)).mpr
  have nonzero : (s.proc me).sz.toNat ≠ 0 := fun zero => some (UInt32.toNat.inj zero)
  unfold pageCount
  omega

/-- growproc() keeps its promise unless a process is to shrink to nothing or
below. -/
theorem growproc_all_or_nothing_iff (space : Space k s.machine (s.proc me).pgdir R T)
    (present : Present s.machine.mem (s.proc me).pgdir (pageCount (s.proc me).sz))
    (small : (s.proc me).sz < kernbase) (n : Int32) :
    ∃ r s', growproc k me n s = some (r, s') ∧ (Resized s s' me n r ↔
      0 ≤ n.toInt ∨ (s.proc me).sz = 0 ∨ 0 < ((s.proc me).sz.toNat : Int) + n.toInt) := by
  have none : (0 : UInt32).toNat = 0 := rfl
  by_cases more : 0 ≤ n.toInt
  · have result : ∃ r s', growproc k me n s = some (r, s') ∧ Resized s s' me n r := by
      by_cases zero : n.toInt = 0
      · obtain rfl : n = 0 := Int32.toInt_inj.mp zero
        exact growproc_keeps present small
      · exact growproc_grows space present small (by omega)
    obtain ⟨r, s', run, resized⟩ := result
    exact ⟨r, s', run, fun _ => .inl more, fun _ => resized⟩
  by_cases left : 0 < ((s.proc me).sz.toNat : Int) + n.toInt
  · obtain ⟨r, s', run, resized⟩ := growproc_shrinks space present small (by omega) left
    exact ⟨r, s', run, fun _ => .inr (.inr left), fun _ => resized⟩
  by_cases below : ((s.proc me).sz.toNat : Int) + n.toInt < 0
  · have run := growproc_wraps (k := k) small below
    by_cases empty : (s.proc me).sz = 0
    · rw [if_pos empty] at run
      exact ⟨-1, s, run, fun _ => .inr (.inl empty),
        fun _ => ⟨rfl, .inr ⟨rfl, rfl, fun _ _ => rfl⟩⟩⟩
    · rw [if_neg empty] at run
      refine ⟨0, s, run, ?_, ?_⟩
      · rintro ⟨_, ⟨_, whole, _⟩ | ⟨failed, _⟩⟩
        · omega
        · exact absurd failed (by decide)
      · rintro (yes | yes | yes)
        · exact absurd yes more
        · exact absurd yes empty
        · exact absurd yes left
  · have some : (s.proc me).sz ≠ 0 := by
      intro zero
      rw [zero] at below left
      omega
    obtain ⟨s', run, _, bare⟩ := growproc_empties (n := n) space present small (by omega) (by omega)
    refine ⟨-1, s', run, ?_, ?_⟩
    · rintro ⟨_, ⟨done, _⟩ | ⟨_, _, same⟩⟩
      · exact absurd done (by decide)
      · exact absurd (bare.none_of_le (by decide) (Nat.zero_le 0)) (first_page present some same)
    · rintro (yes | yes | yes)
      · exact absurd yes more
      · exact absurd yes some
      · exact absurd yes left

end growproc

/-- A process of one page. -/
theorem one_page_process : ∃ (s : State) (me : Slot) (T : Multiset Addr),
    Space smallKernel s.machine (s.proc me).pgdir 0 T ∧
    Present s.machine.mem (s.proc me).pgdir (pageCount (s.proc me).sz) ∧ (s.proc me).sz = 4096 := by
  obtain ⟨m₀, T, _, pool, size⟩ := pool_kinit2
  have one : pageCount 4096 = 1 := by decide
  obtain ⟨dir, _, m, _, _, space, _, present, _⟩ := pool.make_space (by decide : 4096 < kernbase)
    (by rw [one, size]; decide)
  let me : Slot := ⟨0, by decide⟩
  let s := (blank m).setProc me { (blank m).proc me with state := .running, pgdir := dir, sz := 4096 }
  have mine : s.proc me = { (blank m).proc me with state := .running, pgdir := dir, sz := 4096 } :=
    State.setProc_self ..
  refine ⟨s, me, T, ?_, ?_, ?_⟩
  · rw [mine]
    exact space
  · rw [mine]
    exact present
  · rw [mine]

theorem one_page_grown : ∃ (s : State) (me : Slot) (T : Multiset Addr),
    Space smallKernel s.machine (s.proc me).pgdir 0 T ∧ (s.proc me).sz = 4096 ∧
    ∃ r s', growproc smallKernel me 100 s = some (r, s') ∧ Resized s s' me 100 r := by
  obtain ⟨s, me, T, space, present, size⟩ := one_page_process
  obtain ⟨r, s', run, resized⟩ := growproc_all_or_nothing_iff space present (by rw [size]; decide) 100
  exact ⟨s, me, T, space, size, r, s', run, resized.mpr (.inl (by decide))⟩

/-- `sbrk(-4096)` in a process of one page fails, with the page gone. -/
theorem shrink_to_nothing_fails : ∃ (s s' : State) (me : Slot) (T : Multiset Addr),
    Space smallKernel s.machine (s.proc me).pgdir 0 T ∧
    Present s.machine.mem (s.proc me).pgdir (pageCount (s.proc me).sz) ∧ (s.proc me).sz = 4096 ∧
    growproc smallKernel me (-4096) s = some (-1, s') ∧ (s'.proc me).sz = 4096 ∧
    leaf s.machine.mem (s.proc me).pgdir 0 ≠ none ∧ leaf s'.machine.mem (s.proc me).pgdir 0 = none ∧
    ¬ Resized s s' me (-4096) (-1) := by
  obtain ⟨s, me, T, space, present, size⟩ := one_page_process
  have whole : (4096 : UInt32).toNat = 4096 := rfl
  have taken : (-4096 : Int32).toInt = -4096 := by decide
  have some : (s.proc me).sz ≠ 0 := by
    rw [size]
    decide
  obtain ⟨s', run, procs, bare⟩ := growproc_empties (n := -4096) space present (by rw [size]; decide)
    (by decide) (by rw [size, whole, taken]; rfl)
  have gone := bare.none_of_le (n := 0) (by decide) (Nat.zero_le 0)
  refine ⟨s, s', me, T, space, present, size, run, by rw [procs, size],
    first_page present some fun _ _ => rfl, gone, ?_⟩
  rintro ⟨_, ⟨done, _⟩ | ⟨_, _, same⟩⟩
  · exact absurd done (by decide)
  · exact absurd gone (first_page present some same)

end Xv6.Vm
