import Xv6.Vm.Kernel

/-! vm.c: giving user pages and whole address spaces back. -/

namespace Xv6.Vm
open Lib

/-- Free the page of an entry, if it has one. -/
def freeEntry (k : Symbols) (pgtab : Addr) (j : Nat) : Prog Machine Unit := do
  let m ← .get
  let e := (m.mem pgtab).word j
  if e &&& pteP ≠ 0 then
    if pteAddr e = 0 then
      .halt -- kfree
    else do
      kfree k (p2v (pteAddr e))
      .modify fun m => m.store pgtab j 0
  else
    pure ()

/-- The loop of deallocuvm(). There are 2^20 pages; a loop that goes on longer
never ends. -/
def deallocLoop (k : Symbols) (pgdir oldsz : Addr) : Nat → Addr → Prog Machine Unit
  | 0, _ => .halt
  | fuel + 1, a =>
    if a < oldsz then do
      match ← walkpgdir pgdir a false with
      | none => deallocLoop k pgdir oldsz fuel (a + 1023 * 4096 + 4096)
      | some (pgtab, j) => do
        freeEntry k pgtab j
        deallocLoop k pgdir oldsz fuel (a + 4096)
    else
      pure ()

/-- Deallocate user pages to bring the process size from `oldsz` to `newsz`. -/
def deallocuvm (k : Symbols) (pgdir oldsz newsz : Addr) : Prog Machine Addr :=
  if newsz ≥ oldsz then
    pure oldsz
  else do
    deallocLoop k pgdir oldsz 1048576 (pgroundup newsz)
    pure newsz

/-- A turn of the second loop of freevm(), over the entries of the directory. -/
def freeTable (k : Symbols) (pgdir : Addr) (i : Nat) : Prog Machine Unit := do
  let m ← .get
  let e := (m.mem pgdir).word i
  if e &&& pteP ≠ 0 then
    kfree k (p2v (pteAddr e))
  else
    pure ()

/-- Free a page table and all the pages in the user part. -/
def freevm (k : Symbols) (pgdir : Addr) : Prog Machine Unit :=
  if pgdir = 0 then
    .halt -- freevm: no pgdir
  else do
    let _ ← deallocuvm k pgdir kernbase 0
    Prog.each (freeTable k pgdir) (List.range 1024)
    kfree k pgdir

/-! ## What is freed -/

section free
variable {k : Symbols} {m m' : Machine} {R T : Multiset Addr} {dir t : Addr} {n : Nat}

/-- An operation on one space: all pages are accounted for as before, the other
pages are left alone, and the directory stays. -/
structure Keeps (k : Symbols) (m m' : Machine) (dir : Addr) (R T : Multiset Addr) : Prop where
  split : Split k m' (pages m'.mem dir + R) T
  frame : ∀ p ∈ R, m'.mem p = m.mem p
  tables : ∀ i t, table m.mem dir i = some t → table m'.mem dir i = some t

theorem Keeps.trans {m₁ m₂ : Machine} (first : Keeps k m m₁ dir R T)
    (rest : Keeps k m₁ m₂ dir R T) : Keeps k m m₂ dir R T where
  split := rest.split
  frame p other := (rest.frame p other).trans (first.frame p other)
  tables i t at_i := rest.tables i t (first.tables i t at_i)

theorem Keeps.refl (split : Split k m (pages m.mem dir + R) T) : Keeps k m m dir R T :=
  ⟨split, fun _ _ => rfl, fun _ _ h => h⟩

theorem freeEntry_spec (split : Split k m (pages m.mem dir + R) T) (nodup : T.Nodup)
    (user : n < userPages) (at_n : table m.mem dir (n / 1024) = some t)
    (run : freeEntry k t (n % 1024) m = some ((), m')) :
    Keeps k m m' dir R T ∧ table m'.mem dir = table m.mem dir ∧
      (∃ e, entry e = none ∧ pte m'.mem dir = Function.update (pte m.mem dir) n e) ∧
      ∀ n' p, n' < userPages → n' ≠ n → leaf m.mem dir n' = some p → m'.mem p = m.mem p := by
  simp only [freeEntry, Prog.bind_eq_some, Prog.get_eq_some] at run
  obtain ⟨_, _, ⟨rfl, rfl⟩, run⟩ := run
  have word := pte_of_table at_n
  by_cases present : (m.mem t).word (n % 1024) &&& pteP ≠ 0
  · rw [if_pos present] at run
    by_cases zero : pteAddr ((m.mem t).word (n % 1024)) = 0
    · rw [if_pos zero] at run
      cases run
    rw [if_neg zero, Prog.bind_eq_some] at run
    obtain ⟨_, m₁, freed, run⟩ := run
    obtain rfl := Prog.modify_eq_some.mp run
    generalize here : p2v (pteAddr ((m.mem t).word (n % 1024))) = q at freed
    have at_q : leaf m.mem dir n = some q := by
      rw [leaf, word, entry, if_pos present, here]
    have apart := distinct (Multiset.nodup_add.mp (split.nodup nodup)).1
    -- the page leaves the space, then goes to the list
    have without : pages m.mem dir =
        q ::ₘ (dir ::ₘ (holdings (table m.mem dir) 1024 +
          holdings (Function.update (leaf m.mem dir) n none) userPages)) := by
      rw [pages, Holdings.take user at_q, Multiset.add_cons, Multiset.cons_swap]
    rw [without, Multiset.cons_add] at split
    obtain ⟨split₁, others⟩ := split.kfree nodup freed
    have ne : t ≠ q := by
      rintro rfl
      exact apart.leaf_ne_table n t (n / 1024) user at_q at_n
    have ne' : dir ≠ q := (apart.leaf_ne n q user at_q).symm
    have tables₁ : table m₁.mem dir = table m.mem dir := table_congr (others dir ne')
    have ptes₁ : pte m₁.mem dir = pte m.mem dir := by
      apply pte_congr (others dir ne')
      intro i t' at_i
      apply others
      rintro rfl
      exact apart.leaf_ne_table n t' i user at_q at_i
    have same₁ : pages m₁.mem dir = pages m.mem dir := pages_congr tables₁ ptes₁
    have apart₁ : Distinct m₁.mem dir := by
      apply distinct
      rw [same₁, without]
      exact Multiset.nodup_of_le (Multiset.le_add_right _ _)
        (by rw [Multiset.cons_add]; exact split.nodup nodup)
    obtain ⟨tables₂, ptes₂⟩ := store_entry apart₁ (tables₁ ▸ at_n) 0
    have leaves : leaf (m₁.store t (n % 1024) 0).mem dir =
        Function.update (leaf m.mem dir) n none := by
      funext n'
      rw [leaf, ptes₂, ptes₁]
      by_cases same : n' = n
      · rw [same, Function.update_self, Function.update_self, entry_zero]
      · rw [Function.update_of_ne same, Function.update_of_ne same, leaf]
    have left : pages (m₁.store t (n % 1024) 0).mem dir =
        dir ::ₘ (holdings (table m.mem dir) 1024 +
          holdings (Function.update (leaf m.mem dir) n none) userPages) := by
      rw [pages, tables₂, tables₁, leaves]
    have mine : t ∈ dir ::ₘ (holdings (table m.mem dir) 1024 +
        holdings (Function.update (leaf m.mem dir) n none) userPages) + R := by
      have held : t ∈ pages m.mem dir := mem_pages.mpr (.inr (.inl ⟨_, at_n⟩))
      rw [without, Multiset.mem_cons] at held
      exact Multiset.mem_add.mpr (.inl (held.resolve_left ne))
    refine ⟨⟨?_, ?_, ?_⟩, tables₂.trans tables₁, ⟨0, entry_zero, by rw [ptes₂, ptes₁]⟩, ?_⟩
    · rw [left]
      exact split₁.write nodup mine _
    · intro p other
      have p_ne_q : p ≠ q := by
        rintro rfl
        exact (Multiset.nodup_cons.mp (split.nodup nodup)).1 (Multiset.mem_add.mpr (.inr other))
      have p_ne_t : p ≠ t := by
        rintro rfl
        have parts := Multiset.nodup_add.mp (Multiset.nodup_cons.mp (split.nodup nodup)).2
        have held : p ∈ pages m.mem dir := mem_pages.mpr (.inr (.inl ⟨_, at_n⟩))
        rw [without, Multiset.mem_cons] at held
        exact Multiset.disjoint_left.mp parts.2.2 (held.resolve_left p_ne_q) other
      rw [store_other _ p_ne_t, others p p_ne_q]
    · intro i t' at_i
      rw [tables₂, tables₁]
      exact at_i
    · intro n' p user' other at_p
      have p_ne_q : p ≠ q := by
        rintro rfl
        exact other (apart.leaf_inj n' n p user' user at_p at_q)
      have p_ne_t : p ≠ t := by
        rintro rfl
        exact apart.leaf_ne_table n' p _ user' at_p at_n
      rw [store_other _ p_ne_t, others p p_ne_q]
  · rw [if_neg present] at run
    obtain ⟨_, rfl⟩ := Prog.pure_eq_some.mp run
    refine ⟨.refl split, rfl, ⟨pte m.mem dir n, ?_, (Function.update_eq_self n _).symm⟩,
      fun _ _ _ _ _ => rfl⟩
    rw [word]
    exact entry_eq_none_iff.mpr (not_not.mp present)

theorem toNat_add_page {a b : Addr} (room : a.toNat + b.toNat < 4294967296) :
    (a + b).toNat = a.toNat + b.toNat := by
  rw [UInt32.toNat_add]
  exact Nat.mod_eq_of_lt room

/-- One turn of the loop of deallocuvm(). -/
theorem deallocLoop_turn {oldsz a : Addr} {fuel : Nat} (split : Split k m (pages m.mem dir + R) T)
    (nodup : T.Nodup) (small : oldsz.toNat ≤ 2147483648) (aligned : Aligned a) (more : a < oldsz)
    (run : deallocLoop k dir oldsz (fuel + 1) a m = some ((), m')) :
    (∃ a', Aligned a' ∧ pageOf a' = pageOf a + 1024 ∧ table m.mem dir (pageOf a / 1024) = none ∧
      deallocLoop k dir oldsz fuel a' m = some ((), m')) ∨
    ∃ a' m₁ e, Aligned a' ∧ pageOf a' = pageOf a + 1 ∧ table m.mem dir (pageOf a / 1024) ≠ none ∧
      Keeps k m m₁ dir R T ∧ table m₁.mem dir = table m.mem dir ∧ entry e = none ∧
      pte m₁.mem dir = Function.update (pte m.mem dir) (pageOf a) e ∧
      (∀ n p, n < userPages → n ≠ pageOf a → leaf m.mem dir n = some p → m₁.mem p = m.mem p) ∧
      deallocLoop k dir oldsz fuel a' m₁ = some ((), m') := by
  have low : a.toNat % 4096 = 0 := aligned
  have below := UInt32.lt_iff_toNat_lt.mp more
  have user : pageOf a < userPages := by
    unfold pageOf userPages
    omega
  rw [deallocLoop, if_pos more, Prog.bind_eq_some] at run
  obtain ⟨r, m₁, walked, run⟩ := run
  rw [walkpgdir_find, Option.some.injEq, Prod.mk.injEq] at walked
  obtain ⟨rfl, rfl⟩ := walked
  cases at_a : table m.mem dir (pageOf a / 1024) with
  | none =>
    rw [at_a] at run
    have step : (1023 * 4096 : UInt32).toNat = 4190208 := rfl
    have page : (4096 : UInt32).toNat = 4096 := rfl
    have sum : (a + 1023 * 4096 + 4096).toNat = a.toNat + 4194304 := by
      rw [toNat_add_page, toNat_add_page, step, page]
      · rw [step]
        omega
      · rw [toNat_add_page, step, page]
        · omega
        · rw [step]
          omega
    refine .inl ⟨_, ?_, ?_, rfl, run⟩
    · unfold Aligned pgsize
      omega
    · unfold pageOf
      omega
  | some t =>
    rw [at_a, Option.map_some, Prog.bind_eq_some] at run
    obtain ⟨_, m₂, freed, run⟩ := run
    obtain ⟨keeps, tables, ⟨e, empty, ptes⟩, bytes⟩ := freeEntry_spec split nodup user at_a freed
    have page : (4096 : UInt32).toNat = 4096 := rfl
    have sum : (a + 4096).toNat = a.toNat + 4096 := by
      rw [toNat_add_page, page]
      rw [page]
      omega
    refine .inr ⟨_, m₂, e, aligned_add aligned, ?_, Option.some_ne_none t, keeps, tables, empty,
      ptes, bytes, run⟩
    unfold pageOf
    omega

/-- The loop empties entries at pages from `a` to `oldsz`. -/
theorem deallocLoop_spec {oldsz a : Addr} {fuel : Nat} (split : Split k m (pages m.mem dir + R) T)
    (nodup : T.Nodup) (small : oldsz.toNat ≤ 2147483648) (aligned : Aligned a)
    (run : deallocLoop k dir oldsz fuel a m = some ((), m')) :
    Keeps k m m' dir R T ∧ table m'.mem dir = table m.mem dir ∧
      ∀ n, pte m'.mem dir n = pte m.mem dir n ∨
        (leaf m'.mem dir n = none ∧ pageOf a ≤ n ∧ 4096 * n < oldsz.toNat) := by
  induction fuel generalizing m a with
  | zero => cases run
  | succ fuel ih =>
    by_cases more : a < oldsz
    · obtain ⟨a', aligned', next, _, run⟩ | ⟨a', m₁, e, aligned', next, _, keeps, tables, empty,
        ptes, _, run⟩ := deallocLoop_turn split nodup small aligned more run
      · obtain ⟨rest, tables, ptes⟩ := ih split aligned' run
        refine ⟨rest, tables, ?_⟩
        intro n
        obtain same | ⟨empty, ge, lt⟩ := ptes n
        · exact .inl same
        · exact .inr ⟨empty, by omega, lt⟩
      · obtain ⟨rest, tables', ptes'⟩ := ih keeps.split aligned' run
        refine ⟨keeps.trans rest, tables'.trans tables, ?_⟩
        intro n
        obtain same | ⟨empty', ge, lt⟩ := ptes' n
        · by_cases here : n = pageOf a
          · right
            have low : a.toNat % 4096 = 0 := aligned
            have below := UInt32.lt_iff_toNat_lt.mp more
            refine ⟨?_, Nat.le_of_eq here.symm, ?_⟩
            · rw [leaf, same, ptes, here, Function.update_self, empty]
            · unfold pageOf at here
              omega
          · left
            rw [same, ptes, Function.update_of_ne here]
        · exact .inr ⟨empty', by omega, lt⟩
    · rw [deallocLoop, if_neg more] at run
      obtain ⟨_, rfl⟩ := Prog.pure_eq_some.mp run
      exact ⟨.refl split, rfl, fun n => .inl rfl⟩

/-- The loop steps over a whole piece when it finds no table, so it misses
nothing as long as it finds that out at the start of a piece. -/
theorem deallocLoop_clears {oldsz a : Addr} {fuel : Nat} (split : Split k m (pages m.mem dir + R) T)
    (nodup : T.Nodup) (small : oldsz.toNat ≤ 2147483648) (aligned : Aligned a)
    (before : ∀ n, n < pageOf a → leaf m.mem dir n = none)
    (start : pageOf a % 1024 = 0 ∨ table m.mem dir (pageOf a / 1024) ≠ none)
    (run : deallocLoop k dir oldsz fuel a m = some ((), m')) :
    ∀ n, 4096 * n < oldsz.toNat → leaf m'.mem dir n = none := by
  induction fuel generalizing m a with
  | zero => cases run
  | succ fuel ih =>
    by_cases more : a < oldsz
    · obtain ⟨a', aligned', next, absent, run⟩ | ⟨a', m₁, e, aligned', next, present, keeps, tables,
        empty, ptes, _, run⟩ := deallocLoop_turn split nodup small aligned more run
      · have whole : pageOf a % 1024 = 0 := start.resolve_right (not_not.mpr absent)
        apply ih split aligned' _ (.inl (by omega)) run
        intro n lt
        by_cases old : n < pageOf a
        · exact before n old
        · have piece : n / 1024 = pageOf a / 1024 := by omega
          rw [leaf, pte_of_none (piece ▸ absent), entry_zero]
      · apply ih keeps.split aligned' _ _ run
        · intro n lt
          rw [leaf, ptes]
          by_cases here : n = pageOf a
          · rw [here, Function.update_self, empty]
          · rw [Function.update_of_ne here]
            exact before n (by omega)
        · rw [tables]
          by_cases last : pageOf a' % 1024 = 0
          · exact .inl last
          · have piece : pageOf a' / 1024 = pageOf a / 1024 := by omega
            exact .inr (piece ▸ present)
    · rw [deallocLoop, if_neg more] at run
      obtain ⟨_, rfl⟩ := Prog.pure_eq_some.mp run
      intro n lt
      apply before
      rw [UInt32.lt_iff_toNat_lt] at more
      have low : a.toNat % 4096 = 0 := aligned
      unfold pageOf
      omega

theorem toNat_pgroundup {a : Addr} (room : a.toNat + 4095 < 4294967296) :
    (pgroundup a).toNat = 4096 * ((a.toNat + 4095) / 4096) := by
  have page : (4095 : UInt32).toNat = 4095 := rfl
  rw [show pgroundup a = pgrounddown (a + 4095) from rfl, toNat_pgrounddown, pageOf,
    toNat_add_page (by rw [page]; exact room), page]

theorem aligned_pgroundup (a : Addr) : Aligned (pgroundup a) := by
  have low := toNat_pgrounddown (a + 4095)
  unfold Aligned pgsize
  rw [show pgroundup a = pgrounddown (a + 4095) from rfl]
  omega

theorem deallocuvm_spec {oldsz newsz r : Addr} (split : Split k m (pages m.mem dir + R) T)
    (nodup : T.Nodup) (small : oldsz.toNat ≤ 2147483648)
    (run : deallocuvm k dir oldsz newsz m = some (r, m')) :
    r = (if newsz ≥ oldsz then oldsz else newsz) ∧ Keeps k m m' dir R T ∧
      table m'.mem dir = table m.mem dir ∧
      ∀ n, pte m'.mem dir n = pte m.mem dir n ∨
        (leaf m'.mem dir n = none ∧ newsz.toNat ≤ 4096 * n ∧ 4096 * n < oldsz.toNat) := by
  unfold deallocuvm at run
  by_cases nothing : newsz ≥ oldsz
  · rw [if_pos nothing] at run
    obtain ⟨rfl, rfl⟩ := Prog.pure_eq_some.mp run
    rw [if_pos nothing]
    exact ⟨rfl, .refl split, rfl, fun n => .inl rfl⟩
  · rw [if_neg nothing, Prog.bind_eq_some] at run
    obtain ⟨_, m₁, loop, run⟩ := run
    obtain ⟨rfl, rfl⟩ := Prog.pure_eq_some.mp run
    have less := UInt32.lt_iff_toNat_lt.mp (UInt32.not_le.mp nothing)
    have first := toNat_pgroundup (a := newsz) (by omega)
    obtain ⟨keeps, tables, ptes⟩ := deallocLoop_spec split nodup small (aligned_pgroundup _) loop
    refine ⟨(if_neg nothing).symm, keeps, tables, ?_⟩
    intro n
    obtain same | ⟨empty, ge, lt⟩ := ptes n
    · exact .inl same
    · refine .inr ⟨empty, ?_, lt⟩
      unfold pageOf at ge
      omega

/-- A table is freed; the directory that lists it stays. -/
theorem freeTable_spec {i : Nat} {is : List Nat}
    (split : Split k m (((i :: is).filterMap (table m.mem dir) : Multiset Addr) + dir ::ₘ R) T)
    (nodup : T.Nodup) (run : freeTable k dir i m = some ((), m')) :
    Split k m' ((is.filterMap (table m'.mem dir) : Multiset Addr) + dir ::ₘ R) T ∧
      ∀ p ∈ dir ::ₘ R, m'.mem p = m.mem p := by
  simp only [freeTable, Prog.bind_eq_some, Prog.get_eq_some] at run
  obtain ⟨_, _, ⟨rfl, rfl⟩, freed⟩ := run
  by_cases present : (m.mem dir).word i &&& pteP ≠ 0
  · rw [if_pos present] at freed
    have at_i : table m.mem dir i = some (p2v (pteAddr ((m.mem dir).word i))) := by
      rw [table, entry, if_pos present]
    rw [List.filterMap_cons_some at_i, ← Multiset.cons_coe, Multiset.cons_add] at split
    obtain ⟨split₁, others⟩ := split.kfree nodup freed
    have fresh := (Multiset.nodup_cons.mp (split.nodup nodup)).1
    rw [Multiset.mem_add, not_or] at fresh
    have frame (p : Addr) (hp : p ∈ dir ::ₘ R) : m'.mem p = m.mem p := by
      apply others
      rintro rfl
      exact fresh.2 hp
    rw [table_congr (frame dir (Multiset.mem_cons_self ..))]
    exact ⟨split₁, frame⟩
  · rw [if_neg present] at freed
    obtain ⟨_, rfl⟩ := Prog.pure_eq_some.mp freed
    have at_i : table m.mem dir i = none := entry_eq_none_iff.mpr (not_not.mp present)
    rw [List.filterMap_cons_none at_i] at split
    exact ⟨split, fun _ _ => rfl⟩

/-- The tables are freed one by one. -/
theorem freeTable_each {is : List Nat}
    (split : Split k m ((is.filterMap (table m.mem dir) : Multiset Addr) + dir ::ₘ R) T)
    (nodup : T.Nodup) (run : Prog.each (freeTable k dir) is m = some ((), m')) :
    Split k m' (dir ::ₘ R) T ∧ ∀ p ∈ dir ::ₘ R, m'.mem p = m.mem p := by
  induction is generalizing m with
  | nil =>
    obtain ⟨_, rfl⟩ := Prog.pure_eq_some.mp run
    rw [List.filterMap_nil, Multiset.coe_nil, Multiset.zero_add] at split
    exact ⟨split, fun _ _ => rfl⟩
  | cons i is ih =>
    rw [Prog.each, Prog.bind_eq_some] at run
    obtain ⟨_, m₁, freed, run⟩ := run
    obtain ⟨split₁, frame⟩ := freeTable_spec split nodup freed
    obtain ⟨rest, frame'⟩ := ih split₁ run
    exact ⟨rest, fun p hp => (frame' p hp).trans (frame p hp)⟩

/-- freevm() empties the user part, and leaves the tables to its second loop. -/
theorem emptied_spec (split : Split k m (pages m.mem dir + R) T) (nodup : T.Nodup) {r : Addr}
    (run : deallocuvm k dir kernbase 0 m = some (r, m')) :
    Split k m' (((List.range 1024).filterMap (table m'.mem dir) : Multiset Addr) + dir ::ₘ R) T ∧
      ∀ p ∈ R, m'.mem p = m.mem p := by
  have base : kernbase.toNat = 2147483648 := rfl
  obtain ⟨_, keeps, _, _⟩ := deallocuvm_spec split nodup (Nat.le_of_eq base) run
  have bare : ∀ n, n < userPages → leaf m'.mem dir n = none := by
    rw [deallocuvm, if_neg (by decide), Prog.bind_eq_some] at run
    obtain ⟨_, m₃, loop, last⟩ := run
    obtain ⟨_, rfl⟩ := Prog.pure_eq_some.mp last
    have first : pageOf (pgroundup 0) = 0 := by decide
    have cleared := deallocLoop_clears split nodup (Nat.le_of_eq base) (by decide)
      (fun n lt => absurd lt (by rw [first]; exact Nat.not_lt_zero n)) (.inl (by rw [first])) loop
    intro n user
    apply cleared
    unfold userPages at user
    omega
  have left : pages m'.mem dir + R =
      ((List.range 1024).filterMap (table m'.mem dir) : Multiset Addr) + dir ::ₘ R := by
    rw [pages, Holdings.none bare, Multiset.add_zero, Holdings.eq_filterMap, Multiset.cons_add,
      Multiset.add_cons]
  exact ⟨left ▸ keeps.split, keeps.frame⟩

/-- freevm() frees what belongs to the space, all of it. -/
theorem freevm_spec (split : Split k m (pages m.mem dir + R) T) (nodup : T.Nodup)
    (run : freevm k dir m = some ((), m')) :
    Split k m' R T ∧ ∀ p ∈ R, m'.mem p = m.mem p := by
  unfold freevm at run
  by_cases zero : dir = 0
  · rw [if_pos zero] at run
    cases run
  rw [if_neg zero, Prog.bind_eq_some] at run
  obtain ⟨_, m₁, emptied, run⟩ := run
  rw [Prog.bind_eq_some] at run
  obtain ⟨_, m₂, tables, run⟩ := run
  obtain ⟨split₁, frame₁⟩ := emptied_spec split nodup emptied
  obtain ⟨split₂, frame⟩ := freeTable_each split₁ nodup tables
  obtain ⟨split₃, others⟩ := split₂.kfree nodup run
  refine ⟨split₃, ?_⟩
  intro p other
  have ne : p ≠ dir := by
    rintro rfl
    exact (Multiset.nodup_cons.mp (split₂.nodup nodup)).1 other
  rw [others p ne, frame p (Multiset.mem_cons_of_mem other), frame₁ p other]

end free
end Xv6.Vm
