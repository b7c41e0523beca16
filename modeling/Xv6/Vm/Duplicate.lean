import Xv6.Vm.Boot

/-! copyuvm() makes the child's memory the same as the parent's. -/

namespace Xv6.Vm
open Lib

/-- The flags of an entry that is put together from an address and flags. -/
theorem pteFlags_or {pa f : UInt32} (aligned : Aligned pa) (small : f.toNat < 4096) :
    pteFlags (pa ||| f) = f := by
  have low : pa.toNat % 4096 = 0 := aligned
  have mask : (0xFFF : UInt32).toNat = 2 ^ 12 - 1 := rfl
  have sum : (pa ||| f).toNat = pa.toNat + f.toNat := by
    have add := Nat.two_pow_add_eq_or_of_lt (i := 12) small (pa.toNat / 4096)
    have whole : 2 ^ 12 * (pa.toNat / 4096) = pa.toNat := by omega
    rw [whole] at add
    rw [UInt32.toNat_or, add]
  apply UInt32.toNat.inj
  rw [pteFlags, UInt32.toNat_and, mask, Nat.and_two_pow_sub_one_eq_mod, sum]
  omega

/-- The flags of a present entry have PTE_P. -/
theorem pteFlags_present {e : UInt32} (present : e &&& pteP ≠ 0) : pteFlags e ||| pteP = pteFlags e := by
  have bit : e.toNat.testBit 0 = true := by
    by_contra set
    have clear : e.toNat.testBit 0 = false := by simpa using set
    have one : pteP.toNat = 2 ^ 0 := rfl
    apply present
    apply UInt32.toNat.inj
    rw [UInt32.toNat_and, one, Nat.and_two_pow, clear]
    rfl
  have mask : (0xFFF : UInt32).toNat = 2 ^ 12 - 1 := rfl
  have one : pteP.toNat = 2 ^ 0 := rfl
  apply UInt32.toNat.inj
  apply Nat.eq_of_testBit_eq
  intro i
  rw [UInt32.toNat_or, Nat.testBit_or, one, Nat.testBit_two_pow]
  by_cases zero : 0 = i
  · subst zero
    rw [pteFlags, UInt32.toNat_and, Nat.testBit_and, bit, mask]
    rfl
  · simp [zero]

section copy
variable {k : Symbols} {m m' : Machine} {R T : Multiset Addr} {d pgdir sz a : Addr} {fuel : Nat}

/-- A turn of the loop of copyuvm() copies a page, or gives the child up. -/
theorem copyLoop_turn (fuel : Nat) {e : UInt32} {x : Page} (space : Space k m d R T)
    (small : sz.toNat ≤ 2147483648) (aligned : Aligned a) (more : a < sz)
    (source : userPage m.mem pgdir (pageOf a) = some (e, x))
    (unused : leaf m.mem d (pageOf a) = none) :
    (∃ m₁ v, copyLoop k pgdir d sz (fuel + 1) a m = copyLoop k pgdir d sz fuel (a + 4096) m₁ ∧
      k.Valid v ∧ Keeps k m m₁ d R T ∧
      Gained m.mem m₁.mem d (pageOf a) (v2p v ||| pteFlags e ||| pteP) ∧ m₁.mem v = x) ∨
    ∃ m', copyLoop k pgdir d sz (fuel + 1) a m = some (0, m') := by
  have below := UInt32.lt_iff_toNat_lt.mp more
  have user : pageOf a < userPages := by
    unfold pageOf userPages
    omega
  cases at_a : table m.mem pgdir (pageOf a / 1024) with
  | none =>
    have absent : leaf m.mem pgdir (pageOf a) = none := by rw [leaf, pte_of_none at_a, entry_zero]
    rw [userPage_eq_none.mpr absent] at source
    cases source
  | some t =>
  have word := pte_of_table at_a
  obtain ⟨q, at_q⟩ : ∃ q, leaf m.mem pgdir (pageOf a) = some q := by
    apply Option.ne_none_iff_exists'.mp
    intro absent
    rw [userPage_eq_none.mpr absent] at source
    cases source
  rw [userPage_of_leaf at_q, Option.some.injEq, Prod.mk.injEq, word] at source
  obtain ⟨rfl, rfl⟩ := source
  have present : (m.mem t).word (pageOf a % 1024) &&& pteP ≠ 0 := by
    intro zero
    rw [leaf, word, entry_eq_none_iff.mpr zero] at at_q
    cases at_q
  have here : p2v (pteAddr ((m.mem t).word (pageOf a % 1024))) = q := by
    rw [leaf, word, entry, if_pos present] at at_q
    exact Option.some.inj at_q
  obtain ⟨v, m₁, got⟩ := kalloc_returns m
  rw [copyLoop, if_pos more]
  simp only [bind, walkpgdir_find, at_a, Option.map_some, Prog.get, present, ↓reduceIte, got, here]
  obtain ⟨rfl, rfl, _⟩ | ⟨nonzero, valid, mem, split₁⟩ := space.split.kalloc got
  · obtain ⟨_, m₂, freed⟩ := freevm_returns space
    refine .inr ⟨m₂, ?_⟩
    simp only [↓reduceIte, freed]
    rfl
  · rw [← mem] at split₁ unused
    have fresh := (Multiset.nodup_cons.mp (split₁.nodup space.nodup)).1
    have clear (p : Addr) (held : p ∈ pages m₁.mem d) :
        (m₁.write v (m₁.mem q)).mem p = m₁.mem p := by
      apply Machine.write_other
      rintro rfl
      exact fresh (Multiset.mem_add.mpr (.inl held))
    obtain ⟨tables₂, ptes₂, _⟩ := view_congr clear
    have split₂ : Split k (m₁.write v (m₁.mem q))
        (pages (m₁.write v (m₁.mem q)).mem d + v ::ₘ R) T := by
      rw [pages_congr tables₂ ptes₂, Multiset.add_cons]
      exact split₁.write space.nodup (Multiset.mem_cons_self ..) _
    have unused₂ : leaf (m₁.write v (m₁.mem q)).mem d (pageOf a) = none := by
      rw [leaf, ptes₂]
      exact unused
    obtain ⟨ok, m₃, mapped⟩ := mapPage_returns (v2p v)
      (pteFlags ((m.mem t).word (pageOf a % 1024))) split₂ space.nodup unused₂
    rw [mappages_one aligned]
    simp only [nonzero, ↓reduceIte, Prog.modify, mapped]
    obtain ⟨rfl, rfl, _⟩ | ⟨rfl, keeps, gained, filled⟩ :=
      take_page split₁ space.nodup valid user (pteFlags_lt _) mapped
    · have space₂ : Space k (m₁.write v (m₁.mem q)) d (v ::ₘ R) T :=
        ⟨split₂, space.nodup, space.valid⟩
      obtain ⟨_, m₄, freed⟩ := freevm_returns space₂
      refine .inr ⟨m₄, ?_⟩
      simp only [Bool.false_eq_true, ↓reduceIte, freed]
      rfl
    · rw [mem] at gained
      refine .inl ⟨m₃, v, rfl, valid, ⟨keeps.split, ?_, ?_⟩, gained, ?_⟩
      · intro p other
        rw [keeps.frame p other, mem]
      · intro i t' at_i
        exact keeps.tables i t' (mem ▸ at_i)
      · rw [filled, mem]

/-- Page `n` of the child is a copy of the parent's. -/
def Copied (mem : Addr → Page) (pgdir d : Addr) (n : Nat) : Prop :=
  ∃ e e' x, userPage mem pgdir n = some (e, x) ∧ userPage mem d n = some (e', x) ∧
    pteFlags e' = pteFlags e

theorem copyLoop_exact (pgdir sz a : Addr) (space : Space k m d R T) (small : sz.toNat ≤ 2147483648)
    (aligned : Aligned a) (reached : a.toNat < sz.toNat + 4096)
    (parent : ∀ p ∈ pages m.mem pgdir, p ∈ R)
    (full : ∀ n, n < pageCount sz → leaf m.mem pgdir n ≠ none)
    (present : Present m.mem d (pageOf a)) (begun : ∀ n, n < pageOf a → Copied m.mem pgdir d n)
    (some : 0 < fuel) (enough : pageCount sz < pageOf a + fuel) :
    ∃ r m', copyLoop k pgdir d sz fuel a m = .some (r, m') ∧
      (r = 0 ∨ (r = d ∧ Present m'.mem d (pageCount sz) ∧
        ∀ n, n < pageCount sz → Copied m'.mem pgdir d n)) := by
  have low : a.toNat % 4096 = 0 := aligned
  induction fuel generalizing m a with
  | zero => omega
  | succ fuel ih =>
    by_cases more : a < sz
    · have below := UInt32.lt_iff_toNat_lt.mp more
      have further := pageOf_lt_pageCount aligned more
      have fits : a.toNat + 4096 < 4294967296 := by omega
      have add := toNat_next fits
      have next := pageOf_next fits
      have user : pageOf a < userPages := by
        unfold pageOf userPages
        omega
      obtain ⟨q, at_q⟩ := Option.ne_none_iff_exists'.mp (full _ further)
      have source := userPage_of_leaf at_q
      obtain ⟨m₁, v, run, valid, keeps, gained, filled⟩ | ⟨m', run⟩ := copyLoop_turn fuel
        space small aligned more source (present.none_of_le user (Nat.le_refl _))
      · obtain ⟨tables, ptes, users⟩ := view_congr fun p held => keeps.frame p (parent p held)
        have made := entry_or valid.v2p_aligned (pteFlags_lt (pte m.mem pgdir (pageOf a)))
        have now := gained.user made filled
        have present₁ : Present m₁.mem d (pageOf (a + 4096)) := by
          intro n user
          rw [ne_eq, ← userPage_eq_none, now n user, next]
          by_cases here : n = pageOf a
          · rw [if_pos here]
            exact ⟨fun _ => by omega, fun _ => Option.some_ne_none _⟩
          · rw [if_neg here, userPage_eq_none]
            exact (present n user).trans (by omega)
        have begun₁ (n : Nat) (lt : n < pageOf (a + 4096)) : Copied m₁.mem pgdir d n := by
          have user' : n < userPages := by omega
          rw [Copied, users n user', now n user']
          by_cases here : n = pageOf a
          · rw [if_pos here, here]
            refine ⟨_, _, _, source, rfl, ?_⟩
            have there : pte m.mem pgdir (pageOf a) &&& pteP ≠ 0 := by
              intro zero
              rw [leaf, entry_eq_none_iff.mpr zero] at at_q
              cases at_q
            rw [UInt32.or_assoc, pteFlags_present there,
              pteFlags_or valid.v2p_aligned (pteFlags_lt _)]
          · rw [if_neg here]
            exact begun n (by omega)
        obtain ⟨r, m', rest, result⟩ := ih (a + 4096) (space.of_keeps keeps) (aligned_add aligned)
          (by omega) (by rwa [pages_congr tables ptes]) (fun n lt => by rw [leaf, ptes]; exact full n lt)
          present₁ begun₁ (by omega) (by omega) (aligned_add aligned)
        exact ⟨r, m', run.trans rest, result⟩
      · exact ⟨0, m', run, .inl rfl⟩
    · have past := UInt32.le_iff_toNat_le.mp (UInt32.not_lt.mp more)
      have last : pageOf a = pageCount sz := by
        unfold pageOf pageCount
        omega
      refine ⟨d, m, ?_, .inr ⟨rfl, last ▸ present, last ▸ begun⟩⟩
      rw [copyLoop, if_neg more]
      rfl

/-- What the child has: every page below the size as the parent has it, on pages
of its own, and nothing above. -/
structure Duplicate (mem mem' : Addr → Page) (pgdir d : Addr) (c : Nat) : Prop where
  same : ∀ n, n < c → ∃ e e' x q, userPage mem pgdir n = some (e, x) ∧
    userPage mem' d n = some (e', x) ∧ pteFlags e' = pteFlags e ∧ leaf mem' d n = some q ∧
    ∀ n', n' < userPages → leaf mem pgdir n' ≠ some q
  above : ∀ n, n < userPages → c ≤ n → leaf mem' d n = none

/-- The address space is the same: tables, entries, and the bytes of its pages. -/
structure Unaltered (mem mem' : Addr → Page) (dir : Addr) : Prop where
  tables : table mem' dir = table mem dir
  entries : pte mem' dir = pte mem dir
  users : ∀ n, n < userPages → userPage mem' dir n = userPage mem dir n

/-- copyuvm() returns, leaves the parent as it is, and if it does not run out of
memory the child has a copy of every page. -/
theorem copyuvm_duplicates (space : Space k m pgdir R T) (small : sz < kernbase)
    (full : ∀ n, n < pageCount sz → leaf m.mem pgdir n ≠ none) :
    ∃ d m', copyuvm k pgdir sz m = some (d, m') ∧ Unaltered m.mem m'.mem pgdir ∧
      (d ≠ 0 → Duplicate m.mem m'.mem pgdir d (pageCount sz)) := by
  have base : kernbase.toNat = 2147483648 := rfl
  have below := UInt32.lt_iff_toNat_lt.mp small
  have zero : pageOf 0 = 0 := by decide
  obtain ⟨d, m₁, made⟩ := setupkvm_returns space.split space.nodup
  obtain ⟨frame, ⟨rfl, _⟩ | ⟨nonzero, split₁, fresh⟩⟩ :=
    setupkvm_spec space.split space.nodup made
  · obtain ⟨tables, entries, users⟩ := view_congr fun p held =>
      frame p (Multiset.mem_add.mpr (.inl held))
    refine ⟨0, m₁, ?_, ⟨tables, entries, users⟩, fun no => absurd rfl no⟩
    rw [copyuvm, Prog.bind_eq_some]
    exact ⟨_, _, made, rfl⟩
  · have mine (p : Addr) (held : p ∈ pages m.mem pgdir) : p ∈ pages m.mem pgdir + R :=
      Multiset.mem_add.mpr (.inl held)
    obtain ⟨tables₁, ptes₁, users₁⟩ := view_congr fun p held => frame p (mine p held)
    have space₁ : Space k m₁ d (pages m.mem pgdir + R) T := ⟨split₁, space.nodup, space.valid⟩
    have present₁ : Present m₁.mem d 0 := by
      intro n user
      rw [fresh.only.no_user n user]
      exact ⟨fun no => absurd rfl no, fun no => absurd no (Nat.not_lt_zero _)⟩
    obtain ⟨r, m', loop, result⟩ := copyLoop_exact pgdir sz 0 space₁ (by omega) (by decide) (by rw [UInt32.toNat_zero]; omega)
      (by rw [pages_congr tables₁ ptes₁]; exact mine)
      (fun n lt => by rw [leaf, ptes₁]; exact full n lt) (zero ▸ present₁)
      (fun n lt => absurd (zero ▸ lt) (Nat.not_lt_zero n)) (by decide : 0 < 1048576)
      (by unfold pageCount; omega)
    have run : copyuvm k pgdir sz m = some (r, m') := by
      rw [copyuvm, Prog.bind_eq_some]
      refine ⟨d, m₁, made, ?_⟩
      rw [if_neg nonzero]
      exact loop
    have count : T.card = (T.card - (pages m.mem pgdir + R).card) + (pages m.mem pgdir + R).card :=
      (Nat.sub_add_cancel (Multiset.card_le_card space.split.le)).symm
    obtain ⟨frame', outcome⟩ := copyuvm_spec space.split space.nodup count (by omega) run
    obtain ⟨tables, entries, users⟩ := view_congr fun p held => frame' p (mine p held)
    refine ⟨r, m', run, ⟨tables, entries, users⟩, ?_⟩
    intro done
    obtain failed | ⟨rfl, present, copied⟩ := result
    · exact absurd failed done
    obtain ⟨_, _, split', _⟩ | ⟨failed, _⟩ := outcome
    · refine ⟨?_, fun n user ge => present.none_of_le user ge⟩
      intro n lt
      have user : n < userPages := by
        unfold pageCount at lt
        unfold userPages
        omega
      obtain ⟨e, e', x, at_n, at_n', flags⟩ := copied n lt
      rw [users n user] at at_n
      obtain ⟨q, leaf_n⟩ := Option.ne_none_iff_exists'.mp ((present n user).mpr lt)
      refine ⟨e, e', x, q, at_n, at_n', flags, leaf_n, ?_⟩
      intro n' user' taken
      have own : q ∈ pages m'.mem r := mem_pages.mpr (.inr (.inr ⟨n, user, leaf_n⟩))
      have other : q ∈ pages m.mem pgdir + R :=
        mine q (mem_pages.mpr (.inr (.inr ⟨n', user', taken⟩)))
      exact Multiset.disjoint_left.mp (Multiset.nodup_add.mp (split'.nodup space.nodup)).2.2 own other
    · exact absurd failed done

end copy

/-- A parent of 5000 bytes, whose second page is not full. -/
theorem odd_size_duplicated : ∃ m m' pgdir d T, Space smallKernel m pgdir 0 T ∧
    (∀ n, n < pageCount 5000 → leaf m.mem pgdir n ≠ none) ∧
    copyuvm smallKernel pgdir 5000 m = some (d, m') ∧ d ≠ 0 ∧
    Duplicate m.mem m'.mem pgdir d (pageCount 5000) := by
  obtain ⟨m₀, T, _, pool, size⟩ := pool_kinit2
  have two : pageCount 5000 = 2 := by decide
  obtain ⟨pgdir, _, m, _, _, space, _, present, cost⟩ := pool.make_space (by decide : 5000 < kernbase)
    (by rw [two, size]; decide)
  have full (n : Nat) (lt : n < pageCount 5000) : leaf m.mem pgdir n ≠ none :=
    (present n (Nat.lt_of_lt_of_le lt (by decide))).mpr lt
  obtain ⟨d, m', run, _, same⟩ := copyuvm_duplicates space (by decide) full
  have count : T.card = (T.card - (pages m.mem pgdir + 0).card) + (pages m.mem pgdir + 0).card :=
    (Nat.sub_add_cancel (Multiset.card_le_card space.split.le)).symm
  obtain ⟨_, ⟨made, _⟩ | ⟨_, few, _⟩⟩ := copyuvm_spec space.split space.nodup count (by decide) run
  · exact ⟨m, m', pgdir, d, T, space, full, run, made, same made⟩
  · rw [two] at cost
    rw [copyCost, two, Multiset.add_zero, size] at few
    omega

end Xv6.Vm
