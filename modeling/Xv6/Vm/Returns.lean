import Xv6.Vm.Space

/-! setupkvm(), freevm() and copyuvm() return, whatever memory there is. -/

namespace Xv6.Vm
open Lib

section returns
variable {k : Symbols} {m m' : Machine} {R T : Multiset Addr} {dir a pa : Addr} {perm : UInt32}

/-! ## setupkvm() -/

/-- The loop goes upwards, so it finds no entry in use if there is none from its
first page on. -/
theorem mapLoop_returns (perm : UInt32) {c : Nat} (pa : Addr) (split : Split k m (pages m.mem dir + R) T) (nodup : T.Nodup)
    (room : a.toNat + 4096 * c < 4294967296) (kernel : userPages ≤ pageOf a)
    (above : ∀ n, pageOf a ≤ n → leaf m.mem dir n = none) :
    ∃ ok m', mapLoop dir perm c a pa m = some (ok, m') ∧ Split k m' (pages m'.mem dir + R) T ∧
      ∀ n, pageOf a + c < n → leaf m'.mem dir n = none := by
  induction c generalizing m a pa with
  | zero =>
    obtain ⟨ok, m₁, run⟩ := mapPage_returns pa perm split nodup
      (above _ (Nat.le_refl _))
    refine ⟨ok, m₁, run, ?_⟩
    obtain ⟨_, rfl, _⟩ | ⟨_, gained, split', _⟩ := mapPage_kernel split nodup kernel run
    · exact ⟨split, fun n lt => above n (by omega)⟩
    · refine ⟨split', ?_⟩
      intro n lt
      rw [leaf, gained.ptes, Function.update_of_ne (by omega)]
      exact above n (by omega)
  | succ c ih =>
    obtain ⟨ok, m₁, run⟩ := mapPage_returns pa perm split nodup
      (above _ (Nat.le_refl _))
    obtain ⟨rfl, rfl, _⟩ | ⟨rfl, gained, split', _⟩ := mapPage_kernel split nodup kernel run
    · refine ⟨false, m₁, ?_, split, fun n lt => above n (by omega)⟩
      rw [mapLoop, Prog.bind_eq_some]
      exact ⟨_, _, run, rfl⟩
    · have fits : a.toNat + 4096 < 4294967296 := by
        rw [Nat.mul_add] at room
        exact Nat.lt_of_le_of_lt (Nat.add_le_add_left (Nat.le_add_left _ _) _) room
      have add := toNat_next fits
      have next := pageOf_next fits
      have above' (n : Nat) (le : pageOf (a + 4096) ≤ n) : leaf m₁.mem dir n = none := by
        rw [leaf, gained.ptes, Function.update_of_ne (by omega)]
        exact above n (by omega)
      obtain ⟨ok', m', rest, split'', empty⟩ := ih (pa + 4096) split' (by omega)
        (by omega) above'
      refine ⟨ok', m', ?_, split'', fun n lt => empty n (by omega)⟩
      rw [mapLoop, Prog.bind_eq_some]
      exact ⟨_, _, run, rest⟩

/-- The ranges of the kernel follow each other. -/
theorem kmap_ordered (k : Symbols) :
    (kmap k).Pairwise fun e e' => e.virt.toNat + e.size ≤ e'.virt.toNat := by
  obtain ⟨above, below, _⟩ := k.toNat_data
  have io : Kmap.size ⟨kernbase, 0, extmem, pteW⟩ = 1048576 := rfl
  have text := text_size k
  have data := data_size k
  have base : kernbase.toNat = 2147483648 := rfl
  have link : kernlink.toNat = 2148532224 := rfl
  have dev : devspace.toNat = 4261412864 := rfl
  simp only [kmap, List.pairwise_cons, List.forall_mem_cons, List.not_mem_nil, false_implies,
    implies_true, and_true, List.Pairwise.nil, io, text, data]
  omega

theorem mapKernel_returns {es : List Kmap} (lo : Nat) (sound : ∀ e ∈ es, e.Sound)
    (ordered : es.Pairwise fun e e' => e.virt.toNat + e.size ≤ e'.virt.toNat)
    (split : Split k m (pages m.mem dir + R) T) (nodup : T.Nodup)
    (start : ∀ e ∈ es, lo ≤ pageOf e.virt) (above : ∀ n, lo ≤ n → leaf m.mem dir n = none) :
    (mapKernel dir es).Returns m := by
  induction es generalizing m lo with
  | nil => exact .pure _ _
  | cons e es ih =>
    have here := sound e (List.mem_cons_self ..)
    have first := start e (List.mem_cons_self ..)
    have low : e.virt.toNat % 4096 = 0 := here.virt
    have some := here.some
    have fits := here.fits
    have kernel : userPages ≤ pageOf e.virt := by
      have piece := here.piece (pageOf e.virt) ⟨by unfold pageOf; omega, by unfold pageOf; omega⟩
      unfold KernelPiece at piece
      unfold userPages
      omega
    rw [Kmap.size] at some fits
    obtain ⟨ok, m₁, run, split₁, empty⟩ := mapLoop_returns e.perm e.physStart
      (c := (e.virt.toNat + (e.physEnd - e.physStart).toNat - 1) / 4096 - e.virt.toNat / 4096)
      split nodup (by omega) kernel fun n le => above n (by omega)
    rw [mapKernel]
    refine .bind ⟨ok, m₁, ?_⟩ ?_
    · rw [mappages_eq here.virt some fits]
      exact run
    · intro ok' m₂ run'
      rw [mappages_eq here.virt some fits, run, Option.some.injEq, Prod.mk.injEq] at run'
      obtain ⟨rfl, rfl⟩ := run'
      cases ok with
      | false => exact .pure _ _
      | true =>
        apply ih ((e.virt.toNat + e.size - 1) / 4096 + 1) (fun e' mem => sound e' (List.mem_cons_of_mem _ mem))
          (List.pairwise_cons.mp ordered).2 split₁
        · intro e' mem
          have apart := (List.pairwise_cons.mp ordered).1 e' mem
          have low' : e'.virt.toNat % 4096 = 0 := (sound e' (List.mem_cons_of_mem _ mem)).virt
          rw [Kmap.size] at apart ⊢
          unfold pageOf
          omega
        · intro n le
          apply empty
          rw [Kmap.size] at le
          unfold pageOf
          omega

theorem setupkvm_returns (split : Split k m R T) (nodup : T.Nodup) : (setupkvm k).Returns m := by
  unfold setupkvm
  refine .bind (kalloc_returns m) ?_
  intro dir m₁ got
  obtain ⟨rfl, _⟩ | ⟨nonzero, _, _, split'⟩ := split.kalloc got
  · rw [if_pos rfl]
    exact .pure _ _
  rw [if_neg nonzero]
  refine .bind (.modify _ _) ?_
  intro _ m₂ cleared
  obtain rfl := Prog.modify_eq_some.mp cleared
  rw [if_neg (by decide)]
  have empty (i : Nat) : table (m₁.write dir Bytes.zero).mem dir i = none := by
    rw [table, Machine.write_self, Bytes.word_zero, entry_zero]
  have bare (n : Nat) : leaf (m₁.write dir Bytes.zero).mem dir n = none := by
    rw [leaf, pte_of_none (empty _), entry_zero]
  have alone : pages (m₁.write dir Bytes.zero).mem dir = {dir} := by
    rw [pages, Holdings.none fun i _ => empty i, Holdings.none fun n _ => bare n]
    rfl
  have start : Split k (m₁.write dir Bytes.zero) (pages (m₁.write dir Bytes.zero).mem dir + R) T := by
    rw [alone, Multiset.singleton_add]
    exact split'.write nodup (Multiset.mem_cons_self ..) _
  refine .bind (mapKernel_returns 0 (kmap_sound k) (kmap_ordered k) start nodup
    (fun _ _ => Nat.zero_le _) fun n _ => bare n) ?_
  intro ok m₃ _
  cases ok with
  | false => exact .pure _ _
  | true => exact .pure _ _

/-! ## freevm() -/

theorem freeTable_returns {is : List Nat} (valid : ∀ q ∈ T, k.Valid q)
    (split : Split k m ((is.filterMap (table m.mem dir) : Multiset Addr) + dir ::ₘ R) T)
    (nodup : T.Nodup) : (Prog.each (freeTable k dir) is).Returns m := by
  induction is generalizing m with
  | nil => exact .pure _ _
  | cons i is ih =>
    have one : (freeTable k dir i).Returns m := by
      unfold freeTable
      refine .bind (.get m) ?_
      rintro _ _ ⟨⟩
      by_cases present : (m.mem dir).word i &&& pteP ≠ 0
      · have at_i : table m.mem dir i = some (p2v (pteAddr ((m.mem dir).word i))) := by
          rw [table, entry, if_pos present]
        rw [List.filterMap_cons_some at_i, ← Multiset.cons_coe, Multiset.cons_add] at split
        have mine := valid _ (Multiset.mem_of_le split.le (Multiset.mem_cons_self ..))
        simp only [present, ne_eq, not_false_eq_true, ↓reduceIte]
        exact kfree_returns mine m
      · simp only [present, ↓reduceIte]
        exact .pure _ _
    refine .bind one ?_
    intro _ m₁ freed
    exact ih (freeTable_spec split nodup freed).1

theorem freevm_returns (space : Space k m dir R T) : (freevm k dir).Returns m := by
  have mine : k.Valid dir := space.held_valid (mem_pages.mpr (.inl rfl))
  have base : kernbase.toNat = 2147483648 := rfl
  have emptied : (deallocuvm k dir kernbase 0).Returns m := by
    rw [deallocuvm, if_neg (by decide)]
    refine .bind ?_ fun _ _ _ => .pure _ _
    exact deallocLoop_returns space (Nat.le_of_eq base) (aligned_pgroundup 0) (by decide) (by decide)
  rw [freevm, if_neg mine.ne_zero]
  refine .bind emptied ?_
  intro _ m₁ run
  have split₁ := (emptied_spec space.split space.nodup run).1
  refine .bind (freeTable_returns space.valid split₁ space.nodup) ?_
  intro _ m₂ _
  exact kfree_returns mine m₂

end returns
end Xv6.Vm
