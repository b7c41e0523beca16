import Xv6.Vm.Copy

/-! Address spaces in good order: the functions of vm.c return on them, and
change the user pages they are meant to change. -/

namespace Xv6.Vm
open Lib

/-- The pages of a space, the rest `R` and the free pages are all there are,
each of them once and each a page that kfree() takes. -/
structure Space (k : Symbols) (m : Machine) (dir : Addr) (R T : Multiset Addr) : Prop where
  split : Split k m (pages m.mem dir + R) T
  nodup : T.Nodup
  valid : ∀ q ∈ T, k.Valid q

section space
variable {k : Symbols} {m m' : Machine} {R T : Multiset Addr} {dir : Addr} {n : Nat}

namespace Space

theorem of_keeps (space : Space k m dir R T) (keeps : Keeps k m m' dir R T) : Space k m' dir R T :=
  ⟨keeps.split, space.nodup, space.valid⟩

theorem distinct (space : Space k m dir R T) : Distinct m.mem dir :=
  Vm.distinct (Multiset.nodup_add.mp (space.split.nodup space.nodup)).1

theorem held_valid (space : Space k m dir R T) {q : Addr} (held : q ∈ pages m.mem dir) : k.Valid q :=
  space.valid q (Multiset.mem_of_le space.split.le (Multiset.mem_add.mpr (.inl held)))

theorem leaf_valid (space : Space k m dir R T) {q : Addr} (user : n < userPages)
    (at_n : leaf m.mem dir n = some q) : k.Valid q :=
  space.held_valid (mem_pages.mpr (.inr (.inr ⟨n, user, at_n⟩)))

end Space

/-! ## Calls that return -/

theorem kalloc_returns (m : Machine) : kalloc.Returns m := by
  unfold kalloc
  refine .bind (.get m) ?_
  rintro _ _ ⟨⟩
  by_cases free : m.freelist ≠ 0
  · simp only [free, ne_eq, not_false_eq_true, ↓reduceIte]
    exact .bind (.modify _ _) fun _ _ _ => .pure _ _
  · simp only [free, ↓reduceIte]
    exact .pure _ _

theorem kfree_returns {v : Addr} (valid : k.Valid v) (m : Machine) : (kfree k v).Returns m := by
  rw [kfree, if_pos valid]
  exact .modify _ _

theorem walkpgdir_returns (dir va : Addr) (m : Machine) : (walkpgdir dir va true).Returns m := by
  unfold walkpgdir
  refine .bind (.get m) ?_
  rintro _ _ ⟨⟩
  by_cases present : (m.mem dir).word (pdx va) &&& pteP ≠ 0
  · simp only [present, ne_eq, not_false_eq_true, ↓reduceIte]
    exact .pure _ _
  · simp only [present, ↓reduceIte, Bool.true_eq_false]
    refine .bind (kalloc_returns m) ?_
    intro pgtab m₁ _
    by_cases out : pgtab = 0
    · rw [if_pos out]
      exact .pure _ _
    · rw [if_neg out]
      exact .bind (.modify _ _) fun _ _ _ => .bind (.modify _ _) fun _ _ _ => .pure _ _

/-- mappages() panics only at an entry that is in use. -/
theorem mapPage_returns {va : Addr} (pa : Addr) (perm : UInt32) (split : Split k m (pages m.mem dir + R) T)
    (nodup : T.Nodup) (unused : leaf m.mem dir (pageOf va) = none) :
    (mapPage dir va pa perm).Returns m := by
  unfold mapPage
  refine .bind (walkpgdir_returns dir va m) ?_
  intro r m₁ walked
  obtain ⟨rfl, _⟩ | ⟨t, rfl, _, _, tables, ptes⟩ := walkpgdir_alloc split nodup walked
  · exact .pure _ _
  · refine .bind (.get m₁) ?_
    rintro _ _ ⟨⟩
    have absent : (m₁.mem t).word (pageOf va % 1024) &&& pteP = 0 := by
      rw [leaf, ← ptes, pte_of_table tables.here] at unused
      exact entry_eq_none_iff.mp unused
    simp only [absent, ne_eq, not_true_eq_false, ↓reduceIte]
    exact .bind (.modify _ _) fun _ _ _ => .pure _ _

/-- A page kfree() takes is not at physical address 0. -/
theorem Symbols.Valid.phys_ne_zero {e : UInt32} (valid : k.Valid (p2v (pteAddr e))) :
    pteAddr e ≠ 0 := by
  intro zero
  have first := k.kernlink_lt
  have behind := k.data_le
  have here : k.kend ≤ p2v 0 := zero ▸ valid.2.1
  rw [UInt32.lt_iff_toNat_lt] at first
  rw [UInt32.le_iff_toNat_le] at behind here
  have start : kernlink.toNat = 2148532224 := rfl
  have base : (p2v 0).toNat = 2147483648 := rfl
  omega

theorem freeEntry_returns {t : Addr} (space : Space k m dir R T) (user : n < userPages)
    (at_n : table m.mem dir (n / 1024) = some t) : (freeEntry k t (n % 1024)).Returns m := by
  unfold freeEntry
  refine .bind (.get m) ?_
  rintro _ _ ⟨⟩
  by_cases present : (m.mem t).word (n % 1024) &&& pteP ≠ 0
  · have at_q : leaf m.mem dir n = some (p2v (pteAddr ((m.mem t).word (n % 1024)))) := by
      rw [leaf, pte_of_table at_n, entry, if_pos present]
    have valid := space.leaf_valid user at_q
    simp only [present, not_false_eq_true, ↓reduceIte, valid.phys_ne_zero, ne_eq]
    exact .bind (kfree_returns valid m) fun _ _ _ => .modify _ _
  · simp only [present, ↓reduceIte]
    exact .pure _ _

/-! ## deallocuvm() -/

theorem toNat_next {a : Addr} (room : a.toNat + 4096 < 4294967296) :
    (a + 4096).toNat = a.toNat + 4096 := toNat_add_page room

theorem pageOf_next {a : Addr} (room : a.toNat + 4096 < 4294967296) :
    pageOf (a + 4096) = pageOf a + 1 := by
  unfold pageOf
  rw [toNat_next room]
  omega

theorem pageOf_jump {a : Addr} (room : a.toNat < 2147483648) :
    pageOf (a + 1023 * 4096 + 4096) = pageOf a + 1024 := by
  have step : (1023 * 4096 : UInt32).toNat = 4190208 := rfl
  have page : (4096 : UInt32).toNat = 4096 := rfl
  have first : (a + 1023 * 4096).toNat = a.toNat + 4190208 := by
    rw [toNat_add_page (by rw [step]; omega), step]
  unfold pageOf
  rw [toNat_add_page (by rw [first, page]; omega), first, page]
  omega

theorem aligned_jump {a : Addr} (aligned : Aligned a) : Aligned (a + 1023 * 4096 + 4096) := by
  have low : a.toNat % 4096 = 0 := aligned
  have step : (1023 * 4096 : UInt32).toNat = 4190208 := rfl
  apply aligned_add
  unfold Aligned pgsize
  rw [UInt32.toNat_add, step]
  omega

theorem pageOf_lt_pageCount {a sz : Addr} (aligned : Aligned a) (lt : a < sz) :
    pageOf a < pageCount sz := by
  have low : a.toNat % 4096 = 0 := aligned
  have below := UInt32.lt_iff_toNat_lt.mp lt
  unfold pageOf pageCount
  omega

/-- Every turn of the loop leads at least to the next page. -/
theorem deallocLoop_returns {oldsz a : Addr} {fuel : Nat} (space : Space k m dir R T)
    (small : oldsz.toNat ≤ 2147483648) (aligned : Aligned a) (some : 0 < fuel)
    (enough : pageCount oldsz < pageOf a + fuel) : (deallocLoop k dir oldsz fuel a).Returns m := by
  induction fuel generalizing m a with
  | zero => omega
  | succ fuel ih =>
    unfold deallocLoop
    by_cases more : a < oldsz
    · have below := UInt32.lt_iff_toNat_lt.mp more
      have further := pageOf_lt_pageCount aligned more
      have user : pageOf a < userPages := by
        unfold pageOf userPages
        omega
      rw [if_pos more]
      refine .bind ⟨_, _, walkpgdir_find m dir a⟩ ?_
      intro r m₁ walked
      rw [walkpgdir_find, Option.some.injEq, Prod.mk.injEq] at walked
      obtain ⟨rfl, rfl⟩ := walked
      cases at_a : table m.mem dir (pageOf a / 1024) with
      | none =>
        have next := pageOf_jump (a := a) (by omega)
        have aligned' := aligned_jump aligned
        exact ih space aligned' (by omega) (by omega)
      | some t =>
        have next := pageOf_next (a := a) (by omega)
        refine .bind (freeEntry_returns space user at_a) ?_
        intro _ m₂ freed
        obtain ⟨keeps, _⟩ := freeEntry_spec space.split space.nodup user at_a freed
        exact ih (space.of_keeps keeps) (aligned_add aligned) (by omega) (by omega)
    · rw [if_neg more]
      exact .pure _ _

/-- If the user pages from `a` on have no gaps, a missing table means that there
are no more of them, so the loop misses none. -/
theorem deallocLoop_sees {oldsz a : Addr} {fuel : Nat} (split : Split k m (pages m.mem dir + R) T)
    (nodup : T.Nodup) (small : oldsz.toNat ≤ 2147483648) (aligned : Aligned a)
    (gapless : ∀ n n', pageOf a ≤ n' → n' ≤ n → n < userPages → leaf m.mem dir n ≠ none →
      leaf m.mem dir n' ≠ none)
    (run : deallocLoop k dir oldsz fuel a m = some ((), m')) (n : Nat) (user : n < userPages) :
    userPage m'.mem dir n =
      if pageOf a ≤ n ∧ 4096 * n < oldsz.toNat then none else userPage m.mem dir n := by
  have low : a.toNat % 4096 = 0 := aligned
  induction fuel generalizing m a with
  | zero => cases run
  | succ fuel ih =>
    by_cases more : a < oldsz
    · have below := UInt32.lt_iff_toNat_lt.mp more
      obtain ⟨a', aligned', next, absent, run⟩ | ⟨a', m₁, e, aligned', next, _, keeps, _, empty, ptes,
        bytes, run⟩ := deallocLoop_turn split nodup small aligned more run
      · have first : leaf m.mem dir (pageOf a) = none := by rw [leaf, pte_of_none absent, entry_zero]
        have rest (n : Nat) (ge : pageOf a ≤ n) (user : n < userPages) : leaf m.mem dir n = none := by
          by_contra present
          exact gapless n (pageOf a) (Nat.le_refl _) ge user present first
        have further := ih split aligned'
          (fun n n' ge le user present => absurd (rest n (by omega) user) present) run aligned'
        rw [further]
        by_cases skipped : pageOf a ≤ n
        · rw [userPage_eq_none.mpr (rest n skipped user), ite_self, ite_self]
        · rw [if_neg (by omega), if_neg (by omega)]
      · have leaves (n' : Nat) (ne : n' ≠ pageOf a) : leaf m₁.mem dir n' = leaf m.mem dir n' := by
          rw [leaf, ptes, Function.update_of_ne ne, leaf]
        have further := ih keeps.split aligned' ?_ run aligned'
        · rw [further]
          by_cases here : n = pageOf a
          · have gone : leaf m₁.mem dir n = none := by
              rw [here, leaf, ptes, Function.update_self, empty]
            have inside : 4096 * n < oldsz.toNat := by
              unfold pageOf at here
              omega
            rw [userPage_eq_none.mpr gone, ite_self, if_pos ⟨Nat.le_of_eq here.symm, inside⟩]
          · have same : userPage m₁.mem dir n = userPage m.mem dir n := by
              apply userPage_congr
              · rw [ptes, Function.update_of_ne here]
              · intro q at_q
                exact bytes n q user here at_q
            rw [same]
            congr 1
            rw [eq_iff_iff]
            omega
        · intro n n' ge le user' present
          rw [leaves n (by omega)] at present
          rw [leaves n' (by omega)]
          exact gapless n n' (by omega) le user' present
    · rw [deallocLoop, if_neg more] at run
      obtain ⟨_, rfl⟩ := Prog.pure_eq_some.mp run
      have past := UInt32.le_iff_toNat_le.mp (UInt32.not_lt.mp more)
      have outside : ¬ (pageOf a ≤ n ∧ 4096 * n < oldsz.toNat) := by
        unfold pageOf
        omega
      rw [if_neg outside]

/-- Exactly the first `c` user pages are present. -/
def Present (mem : Addr → Page) (dir : Addr) (c : Nat) : Prop :=
  ∀ n, n < userPages → (leaf mem dir n ≠ none ↔ n < c)

theorem Present.none_of_le {mem : Addr → Page} {c : Nat} (present : Present mem dir c)
    (user : n < userPages) (ge : c ≤ n) : leaf mem dir n = none := by
  by_contra there
  exact absurd ((present n user).mp there) (Nat.not_lt.mpr ge)

/-- An operation on one space that leaves the kernel part alone and makes the
user pages what `view` says. -/
structure Edited (k : Symbols) (m m' : Machine) (dir : Addr) (R T : Multiset Addr)
    (view : Nat → Option (UInt32 × Page)) : Prop extends Keeps k m m' dir R T where
  kernel : ∀ n, userPages ≤ n → pte m'.mem dir n = pte m.mem dir n
  upper : ∀ i, 512 ≤ i → table m'.mem dir i = table m.mem dir i
  user : ∀ n, n < userPages → userPage m'.mem dir n = view n

/-- The loop of deallocuvm() takes the user pages of a range away. -/
theorem deallocuvm_exact {oldsz : Addr} {c : Nat} (space : Space k m dir R T)
    (small : oldsz.toNat ≤ 2147483648) (present : Present m.mem dir c) (newsz : Addr) :
    ∃ m', deallocuvm k dir oldsz newsz m = some (if newsz ≥ oldsz then oldsz else newsz, m') ∧
      Edited k m m' dir R T fun n =>
        if newsz.toNat ≤ 4096 * n ∧ 4096 * n < oldsz.toNat then none else userPage m.mem dir n := by
  by_cases nothing : newsz ≥ oldsz
  · have order := UInt32.le_iff_toNat_le.mp nothing
    refine ⟨m, ?_, .refl space.split, fun _ _ => rfl, fun _ _ => rfl, ?_⟩
    · rw [deallocuvm, if_pos nothing, if_pos nothing]
      rfl
    · intro n _
      rw [if_neg (by omega)]
  · have less := UInt32.lt_iff_toNat_lt.mp (UInt32.not_le.mp nothing)
    have first := toNat_pgroundup (a := newsz) (by omega)
    obtain ⟨_, m', loop⟩ := deallocLoop_returns space small (aligned_pgroundup newsz)
      (by decide : 0 < 1048576) (by unfold pageCount; omega)
    have run : deallocuvm k dir oldsz newsz m =
        some (if newsz ≥ oldsz then oldsz else newsz, m') := by
      rw [deallocuvm, if_neg nothing, if_neg nothing]
      exact Prog.bind_eq_some.mpr ⟨(), m', loop, rfl⟩
    obtain ⟨_, keeps, tables, ptes⟩ := deallocuvm_spec space.split space.nodup small run
    refine ⟨m', run, keeps, ?_, fun i _ => by rw [tables], ?_⟩
    · intro n kernel
      obtain same | ⟨_, _, below⟩ := ptes n
      · exact same
      · unfold userPages at kernel
        omega
    · intro n user
      have seen := deallocLoop_sees space.split space.nodup small (aligned_pgroundup newsz)
        (fun n n' _ le user there => (present n' (by omega)).mpr
          (Nat.lt_of_le_of_lt le ((present n user).mp there))) loop n user
      rw [seen]
      congr 1
      rw [eq_iff_iff]
      unfold pageOf
      omega

/-! ## allocuvm() -/

/-- A space depends on its own pages. -/
theorem view_congr {mem mem' : Addr → Page} (same : ∀ p ∈ pages mem dir, mem' p = mem p) :
    table mem' dir = table mem dir ∧ pte mem' dir = pte mem dir ∧
      ∀ n, n < userPages → userPage mem' dir n = userPage mem dir n := by
  have root := same dir (mem_pages.mpr (.inl rfl))
  have ptes := pte_congr root fun i t at_i => same t (mem_pages.mpr (.inr (.inl ⟨i, at_i⟩)))
  refine ⟨table_congr root, ptes, ?_⟩
  intro n user
  apply userPage_congr (congrFun ptes n)
  intro q at_n
  exact same q (mem_pages.mpr (.inr (.inr ⟨n, user, at_n⟩)))

/-- The user pages after page `n` was mapped. -/
theorem Gained.user {mem mem' : Addr → Page} {e : UInt32} {v : Addr} {x : Page}
    (gained : Gained mem mem' dir n e) (made : entry e = some v) (filled : mem' v = x) (n' : Nat)
    (user : n' < userPages) :
    userPage mem' dir n' = if n' = n then some (e, x) else userPage mem dir n' := by
  by_cases here : n' = n
  · have at_n : pte mem' dir n' = e := by rw [gained.ptes, here, Function.update_self]
    have leaf_n : leaf mem' dir n' = some v := by rw [leaf, at_n, made]
    rw [if_pos here, userPage_of_leaf leaf_n, at_n, filled]
  · rw [if_neg here]
    apply userPage_congr
    · rw [gained.ptes, Function.update_of_ne here]
    · intro q at_n
      exact gained.bytes n' q user at_n

/-- A page is mapped at the cost of itself and at most one table. -/
theorem Gained.card_le {mem mem' : Addr → Page} {e : UInt32} (gained : Gained mem mem' dir n e)
    (user : n < userPages) : (pages mem' dir).card ≤ (pages mem dir).card + 2 := by
  obtain ⟨t, holds⟩ := gained.tables
  have piece : n / 1024 < 1024 := by
    unfold userPages at user
    omega
  have tables := Holdings.change (f := table mem dir) (g := table mem' dir) piece
    fun j ne => by rw [holds.new, Function.update_of_ne ne]
  have leaves := Holdings.change (f := leaf mem dir) (g := leaf mem' dir) user
    fun j ne => by rw [leaf, gained.ptes, Function.update_of_ne ne, leaf]
  have one (x : Option Addr) : (x.toList : Multiset Addr).card ≤ 1 := by cases x <;> simp
  have more := one (table mem' dir (n / 1024))
  have more' := one (leaf mem' dir n)
  replace tables := congrArg Multiset.card tables
  replace leaves := congrArg Multiset.card leaves
  simp only [Multiset.card_add] at tables leaves
  simp only [pages, Multiset.card_cons, Multiset.card_add]
  omega

/-- A turn of the loop of allocuvm() maps a cleared page, or gives back what the
turns before have mapped. -/
theorem allocLoop_turn (oldsz : Addr) {newsz a : Addr} (fuel : Nat) (space : Space k m dir R T)
    (small : newsz.toNat < 2147483648) (aligned : Aligned a) (more : a < newsz)
    (present : Present m.mem dir (pageOf a)) :
    (∃ m₁, allocLoop k dir oldsz newsz (fuel + 1) a m = allocLoop k dir oldsz newsz fuel (a + 4096) m₁ ∧
      (pages m₁.mem dir).card ≤ (pages m.mem dir).card + 2 ∧
      ∃ v, k.Valid v ∧ Edited k m m₁ dir R T fun n =>
        if n = pageOf a then some (v2p v ||| (pteW ||| pteU) ||| pteP, Bytes.zero)
        else userPage m.mem dir n) ∨
    ∃ m', allocLoop k dir oldsz newsz (fuel + 1) a m = some (0, m') ∧
      T.card ≤ (pages m.mem dir).card + R.card + 1 ∧ Edited k m m' dir R T fun n =>
        if oldsz.toNat ≤ 4096 * n ∧ 4096 * n < newsz.toNat then none else userPage m.mem dir n := by
  have below := UInt32.lt_iff_toNat_lt.mp more
  have user : pageOf a < userPages := by
    unfold pageOf userPages
    omega
  have unused := present.none_of_le user (Nat.le_refl _)
  obtain ⟨v, m₁, got⟩ := kalloc_returns m
  rw [allocLoop, if_pos more]
  simp only [bind, got]
  obtain ⟨rfl, rfl, all⟩ | ⟨nonzero, valid, mem, split₁⟩ := space.split.kalloc got
  · obtain ⟨m₂, undone, edited⟩ := deallocuvm_exact space (Nat.le_of_lt small) present oldsz
    refine .inr ⟨m₂, ?_, ?_, edited⟩
    · simp only [↓reduceIte, undone]
      rfl
    · rw [all, Multiset.card_add]
      exact Nat.le_succ _
  · rw [← mem] at split₁ unused present
    have fresh := (Multiset.nodup_cons.mp (split₁.nodup space.nodup)).1
    have apart (p : Addr) (held : p ∈ pages m₁.mem dir + R) : p ≠ v := by
      rintro rfl
      exact fresh held
    have clear (p : Addr) (held : p ∈ pages m₁.mem dir) :
        (m₁.write v Bytes.zero).mem p = m₁.mem p :=
      Machine.write_other _ (apart p (Multiset.mem_add.mpr (.inl held))) _
    obtain ⟨tables₂, ptes₂, users₂⟩ := view_congr clear
    have split₂ : Split k (m₁.write v Bytes.zero)
        (pages (m₁.write v Bytes.zero).mem dir + v ::ₘ R) T := by
      rw [pages_congr tables₂ ptes₂, Multiset.add_cons]
      exact split₁.write space.nodup (Multiset.mem_cons_self ..) _
    have unused₂ : leaf (m₁.write v Bytes.zero).mem dir (pageOf a) = none := by
      rw [leaf, ptes₂]
      exact unused
    obtain ⟨ok, m₃, mapped⟩ := mapPage_returns (v2p v) (pteW ||| pteU) split₂
      space.nodup unused₂
    rw [mappages_one aligned]
    simp only [nonzero, ↓reduceIte, Prog.modify, mapped]
    obtain ⟨rfl, rfl, _, _, all, _⟩ | ⟨rfl, keeps, gained, filled⟩ :=
      take_page split₁ space.nodup valid user (by decide) mapped
    · have space₂ : Space k (m₁.write v Bytes.zero) dir (v ::ₘ R) T :=
        ⟨split₂, space.nodup, space.valid⟩
      have present₂ : Present (m₁.write v Bytes.zero).mem dir (pageOf a) := by
        intro n user
        rw [leaf, ptes₂]
        exact present n user
      obtain ⟨m₄, undone, edited⟩ := deallocuvm_exact space₂ (Nat.le_of_lt small) present₂ oldsz
      obtain ⟨_, m₅, freed⟩ := kfree_returns valid m₄
      have split₄ := edited.split
      rw [Multiset.add_cons] at split₄
      obtain ⟨split₅, others⟩ := split₄.kfree space.nodup freed
      have fresh₄ := (Multiset.nodup_cons.mp (split₄.nodup space.nodup)).1
      have same₅ (p : Addr) (held : p ∈ pages m₄.mem dir) : m₅.mem p = m₄.mem p := by
        apply others
        rintro rfl
        exact fresh₄ (Multiset.mem_add.mpr (.inl held))
      obtain ⟨tables₅, ptes₅, users₅⟩ := view_congr same₅
      refine .inr ⟨m₅, ?_, ?_, ⟨?_, ?_, ?_⟩, ?_, ?_, ?_⟩
      · simp only [Bool.false_eq_true, ↓reduceIte, undone, freed]
        rfl
      · rw [all, mem, Multiset.card_add, Multiset.card_cons]
        omega
      · rw [pages_congr tables₅ ptes₅]
        exact split₅
      · intro p other
        have ne := apart p (Multiset.mem_add.mpr (.inr other))
        rw [others p ne, edited.frame p (Multiset.mem_cons_of_mem other), Machine.write_other _ ne, mem]
      · intro i t at_i
        rw [tables₅]
        apply edited.tables
        rw [tables₂, mem]
        exact at_i
      · intro n kernel
        rw [ptes₅, edited.kernel n kernel, ptes₂, mem]
      · intro i high
        rw [tables₅, edited.upper i high, tables₂, mem]
      · intro n user
        rw [users₅ n user, edited.user n user, users₂ n user, mem]
    · refine .inl ⟨m₃, rfl, ?_, v, valid, ⟨keeps.split, ?_, ?_⟩, ?_, ?_, ?_⟩
      · rw [← mem]
        exact gained.card_le user
      · intro p other
        rw [keeps.frame p other, mem]
      · intro i t at_i
        exact keeps.tables i t (mem ▸ at_i)
      · intro n kernel
        rw [gained.ptes, Function.update_of_ne (by omega), mem]
      · intro i high
        obtain ⟨t, holds⟩ := gained.tables
        unfold userPages at user
        rw [holds.new, Function.update_of_ne (by omega), mem]
      · intro n user
        rw [gained.user (entry_or valid.v2p_aligned (by decide)) filled n user, mem]

/-- The space went from `old` pages to `new` pages, and the pages in between are
clear. -/
structure Grown (k : Symbols) (m m' : Machine) (dir : Addr) (R T : Multiset Addr) (old new : Nat) :
    Prop extends Keeps k m m' dir R T where
  kernel : ∀ n, userPages ≤ n → pte m'.mem dir n = pte m.mem dir n
  upper : ∀ i, 512 ≤ i → table m'.mem dir i = table m.mem dir i
  below : ∀ n, n < old → n < userPages → userPage m'.mem dir n = userPage m.mem dir n
  fresh : ∀ n, old ≤ n → n < new →
    ∃ v, k.Valid v ∧ userPage m'.mem dir n = some (v2p v ||| (pteW ||| pteU) ||| pteP, Bytes.zero)
  above : ∀ n, old ≤ n → new ≤ n → n < userPages → leaf m'.mem dir n = none

theorem Grown.present {old new : Nat} (grown : Grown k m m' dir R T old new)
    (present : Present m.mem dir old) (order : old ≤ new) : Present m'.mem dir new := by
  intro n user
  rw [ne_eq, ← userPage_eq_none]
  by_cases first : n < old
  · rw [grown.below n first user, userPage_eq_none]
    refine ⟨fun _ => by omega, fun _ => (present n user).mpr first⟩
  by_cases second : n < new
  · obtain ⟨v, _, at_n⟩ := grown.fresh n (by omega) second
    rw [at_n]
    exact ⟨fun _ => second, fun _ => Option.some_ne_none _⟩
  · rw [userPage_eq_none.mpr (grown.above n (by omega) (by omega) user)]
    exact ⟨fun no => absurd rfl no, fun yes => absurd yes second⟩

theorem allocLoop_exact (oldsz newsz : Addr) {a : Addr} {fuel : Nat} (space : Space k m dir R T)
    (small : newsz.toNat < 2147483648) (aligned : Aligned a) (begun : pageCount oldsz ≤ pageOf a)
    (within : pageOf a ≤ max (pageCount oldsz) (pageCount newsz))
    (present : Present m.mem dir (pageOf a)) (some : 0 < fuel)
    (enough : pageCount newsz < pageOf a + fuel) :
    ∃ r m', allocLoop k dir oldsz newsz fuel a m = .some (r, m') ∧
      ((r = newsz ∧ Grown k m m' dir R T (pageOf a) (pageCount newsz) ∧
        (pages m'.mem dir).card ≤ (pages m.mem dir).card + 2 * (pageCount newsz - pageOf a)) ∨
       (r = 0 ∧ Grown k m m' dir R T (pageCount oldsz) (pageCount oldsz) ∧
        T.card < (pages m.mem dir).card + R.card + 2 * (pageCount newsz - pageOf a))) := by
  have low : a.toNat % 4096 = 0 := aligned
  induction fuel generalizing m a with
  | zero => omega
  | succ fuel ih =>
    by_cases more : a < newsz
    · have below := UInt32.lt_iff_toNat_lt.mp more
      have further := pageOf_lt_pageCount aligned more
      have next := pageOf_next (a := a) (by omega)
      have user : pageOf a < userPages := by
        unfold pageOf userPages
        omega
      obtain ⟨m₁, run, cost, v, valid, edited⟩ | ⟨m', run, out, edited⟩ :=
        allocLoop_turn oldsz fuel space small aligned more present
      · have present₁ : Present m₁.mem dir (pageOf (a + 4096)) := by
          intro n user
          rw [ne_eq, ← userPage_eq_none, edited.user n user, next]
          by_cases here : n = pageOf a
          · rw [if_pos here]
            exact ⟨fun _ => by omega, fun _ => Option.some_ne_none _⟩
          · rw [if_neg here, userPage_eq_none]
            exact (present n user).trans (by omega)
        obtain ⟨r, m', rest, result⟩ := ih (space.of_keeps edited.toKeeps) (aligned_add aligned)
          (by omega) (by omega) present₁ (by omega) (by omega) (aligned_add aligned)
        refine ⟨r, m', run.trans rest, ?_⟩
        obtain ⟨rfl, grown, total⟩ | ⟨rfl, grown, out⟩ := result
        · rw [next] at grown
          refine .inl ⟨rfl, ⟨edited.toKeeps.trans grown.toKeeps, ?_, ?_, ?_, ?_, ?_⟩, by omega⟩
          · intro n kernel
            rw [grown.kernel n kernel, edited.kernel n kernel]
          · intro i high
            rw [grown.upper i high, edited.upper i high]
          · intro n lt user
            rw [grown.below n (by omega) user, edited.user n user, if_neg (by omega)]
          · intro n ge lt
            by_cases here : n = pageOf a
            · refine ⟨v, valid, ?_⟩
              rw [grown.below n (by omega) (by omega), edited.user n (by omega), if_pos here]
            · exact grown.fresh n (by omega) lt
          · intro n ge ge' user
            exact grown.above n (by omega) ge' user
        · refine .inr ⟨rfl, ⟨edited.toKeeps.trans grown.toKeeps, ?_, ?_, ?_, grown.fresh, grown.above⟩,
            by omega⟩
          · intro n kernel
            rw [grown.kernel n kernel, edited.kernel n kernel]
          · intro i high
            rw [grown.upper i high, edited.upper i high]
          · intro n lt user
            rw [grown.below n lt user, edited.user n user, if_neg (by omega)]
      · refine ⟨0, m', run, .inr ⟨rfl, ⟨edited.toKeeps, edited.kernel, edited.upper, ?_, fun n ge lt => ?_, ?_⟩,
          by omega⟩⟩
        · intro n lt user
          rw [edited.user n user, if_neg (by unfold pageCount at lt; omega)]
        · omega
        · intro n ge _ user
          rw [← userPage_eq_none, edited.user n user]
          by_cases taken : oldsz.toNat ≤ 4096 * n ∧ 4096 * n < newsz.toNat
          · rw [if_pos taken]
          · rw [if_neg taken, userPage_eq_none]
            apply present.none_of_le user
            unfold pageCount at ge further within
            omega
    · have past := UInt32.le_iff_toNat_le.mp (UInt32.not_lt.mp more)
      refine ⟨newsz, m, ?_, .inl ⟨rfl,
        ⟨.refl space.split, fun _ _ => rfl, fun _ _ => rfl, fun _ _ _ => rfl, ?_, ?_⟩, Nat.le_add_right _ _⟩⟩
      · rw [allocLoop, if_neg more]
        rfl
      · intro n ge lt
        unfold pageOf at ge
        unfold pageCount at lt
        omega
      · intro n ge _ user
        exact present.none_of_le user ge

/-- allocuvm() maps all the pages that are missing, or runs out of memory and
leaves the user pages as they are. -/
theorem allocuvm_exact {oldsz newsz : Addr} (space : Space k m dir R T) (order : oldsz ≤ newsz)
    (small : newsz < kernbase) (present : Present m.mem dir (pageCount oldsz)) :
    ∃ r m', allocuvm k dir oldsz newsz m = some (r, m') ∧
      ((r = newsz ∧ Grown k m m' dir R T (pageCount oldsz) (pageCount newsz) ∧
        (pages m'.mem dir).card ≤ (pages m.mem dir).card + 2 * (pageCount newsz - pageCount oldsz)) ∨
       (r = 0 ∧ Grown k m m' dir R T (pageCount oldsz) (pageCount oldsz) ∧
        T.card < (pages m.mem dir).card + R.card + 2 * (pageCount newsz - pageCount oldsz))) := by
  have base : kernbase.toNat = 2147483648 := rfl
  have below := UInt32.lt_iff_toNat_lt.mp small
  have le := UInt32.le_iff_toNat_le.mp order
  have start : pageOf (pgroundup oldsz) = pageCount oldsz := by
    have first := toNat_pgroundup (a := oldsz) (by omega)
    unfold pageOf pageCount
    omega
  rw [allocuvm, if_neg (UInt32.not_le.mpr small), if_neg (UInt32.not_lt.mpr order)]
  have result := allocLoop_exact oldsz newsz space (by omega)
    (aligned_pgroundup oldsz)
    (Nat.le_of_eq start.symm) (start ▸ Nat.le_max_left _ _) (start.symm ▸ present)
    (by decide : 0 < 1048576) (by unfold pageCount; omega)
  rwa [start] at result

end space
end Xv6.Vm
