import Xv6.Lib.Overlay
import Xv6.Vm.Exec
import Xv6.Vm.Returns

/-! User memory by addresses, and what the kernel stores there: the copies of
copyout() to the stack of a new program. -/

namespace Xv6.Vm
open Lib

/-- The byte at a user address. -/
def userByte (mem : Addr → Page) (dir : Addr) (a : Nat) : Option UInt8 :=
  (userPage mem dir (a / 4096)).map fun v => v.2.byte (a % 4096)

theorem userByte_of_leaf {mem : Addr → Page} {dir q : Addr} {a : Nat}
    (there : leaf mem dir (a / 4096) = some q) :
    userByte mem dir a = some ((mem q).byte (a % 4096)) := by
  rw [userByte, userPage_of_leaf there]
  rfl

/-- Bytes of user pages were stored, and nothing else of the space has changed.
The user memory is now `f`. -/
structure Stored (k : Symbols) (m m' : Machine) (dir : Addr) (R T : Multiset Addr)
    (f : Nat → Option UInt8) : Prop extends Keeps k m m' dir R T where
  same : table m'.mem dir = table m.mem dir
  ptes : pte m'.mem dir = pte m.mem dir
  bytes : ∀ a, a < 2147483648 → userByte m'.mem dir a = f a

section stores
variable {k : Symbols} {m m' m₁ : Machine} {R T : Multiset Addr} {dir cur sz va : Addr} {n : Nat}
  {f g : Nat → Option UInt8}

theorem Stored.refl (split : Split k m (pages m.mem dir + R) T) :
    Stored k m m dir R T (userByte m.mem dir) :=
  ⟨.refl split, rfl, rfl, fun _ _ => rfl⟩

theorem Stored.trans (first : Stored k m m₁ dir R T f) (rest : Stored k m₁ m' dir R T g) :
    Stored k m m' dir R T g :=
  ⟨first.toKeeps.trans rest.toKeeps, rest.same.trans first.same, rest.ptes.trans first.ptes,
    rest.bytes⟩

/-- A later stretch on top of the first. -/
theorem Stored.overlay {lo : Nat} {xs : List UInt8} (first : Stored k m m₁ dir R T f)
    (rest : Stored k m₁ m' dir R T (Lib.overlay (userByte m₁.mem dir) lo xs)) :
    Stored k m m' dir R T (Lib.overlay f lo xs) := by
  refine ⟨first.toKeeps.trans rest.toKeeps, rest.same.trans first.same, rest.ptes.trans first.ptes, ?_⟩
  intro a low
  rw [rest.bytes a low, Lib.overlay, Lib.overlay, first.bytes a low]

theorem Stored.leaves (stored : Stored k m m' dir R T f) : leaf m'.mem dir = leaf m.mem dir := by
  funext n
  rw [leaf, leaf, stored.ptes]

/-- A store of bytes within one user page. -/
theorem write_bytes {q : Addr} (off : Nat) (xs : List UInt8)
    (split : Split k m (pages m.mem dir + R) T) (nodup : T.Nodup) (user : n < userPages)
    (at_n : leaf m.mem dir n = some q) (fits : off + xs.length ≤ 4096) :
    Stored k m (m.write q ((m.mem q).splice off xs)) dir R T
      (overlay (userByte m.mem dir) (4096 * n + off) xs) := by
  obtain ⟨keeps, tables, ptes⟩ := write_leaf split nodup user at_n ((m.mem q).splice off xs)
  have apart := distinct (Multiset.nodup_add.mp (split.nodup nodup)).1
  refine ⟨keeps, tables, ptes, ?_⟩
  intro a low
  have page : a / 4096 < userPages := by
    unfold userPages
    omega
  by_cases here : a / 4096 = n
  · have now : leaf (m.write q ((m.mem q).splice off xs)).mem dir (a / 4096) = some q := by
      rw [leaf, ptes, ← leaf, here, at_n]
    have page_fits : off + xs.length ≤ pgsize := fits
    rw [userByte_of_leaf now, Machine.write_self, Bytes.byte_splice (m.mem q) page_fits]
    unfold overlay
    by_cases inside : 4096 * n + off ≤ a ∧ a < 4096 * n + off + xs.length
    · have index : a % 4096 - off = a - (4096 * n + off) := by omega
      have lt : a - (4096 * n + off) < xs.length := by omega
      rw [if_pos inside, if_pos (by omega), index, List.getD_eq_getElem?_getD,
        List.getElem?_eq_getElem lt, Option.getD_some]
    · rw [if_neg inside, userByte_of_leaf (here.symm ▸ at_n)]
      by_cases after : off ≤ a % 4096
      · rw [if_pos after, List.getD_eq_getElem?_getD, List.getElem?_eq_none (by omega),
          Option.getD_none]
      · rw [if_neg after]
  · rw [overlay_outside (by omega), userByte, userByte]
    congr 1
    apply userPage_congr
    · rw [ptes]
    · intro p at_p
      apply Machine.write_other
      rintro rfl
      exact here (apart.leaf_inj _ n p page user at_p at_n)

/-! ## Turns of copyout() -/

/-- Where there is a table, uva2ka() goes by the entry. -/
theorem uva2ka_table {uva : Addr} (there : table m.mem dir (pageOf uva / 1024) ≠ none) :
    uva2ka cur dir uva m = some (if pte m.mem dir (pageOf uva) &&& pteP = 0 then 0
      else if pte m.mem dir (pageOf uva) &&& pteU = 0 then 0
      else p2v (pteAddr (pte m.mem dir (pageOf uva))), m) := by
  obtain ⟨t, there⟩ := Option.ne_none_iff_exists'.mp there
  rw [pte_of_table there]
  simp only [uva2ka, bind, Prog.get, walkpgdir_find, there, Option.map_some, pure]
  by_cases absent : (m.mem t).word (pageOf uva % 1024) &&& pteP = 0
  · simp only [absent, ↓reduceIte]
  by_cases hidden : (m.mem t).word (pageOf uva % 1024) &&& pteU = 0
  · simp only [absent, hidden, ↓reduceIte]
  · simp only [absent, hidden, ↓reduceIte]

/-- Where there is none, it goes by the word at address 0 of the caller. -/
theorem uva2ka_hole {uva page : Addr} (absent : table m.mem dir (pageOf uva / 1024) = none)
    (null : leaf m.mem cur 0 = some page) :
    uva2ka cur dir uva m = some (if (m.mem page).word 0 &&& pteP = 0 then 0
      else if (m.mem page).word 0 &&& pteU = 0 then 0
      else p2v (pteAddr ((m.mem page).word 0)), m) := by
  simp only [uva2ka, bind, Prog.get, walkpgdir_find, absent, Option.map_none, nullWord, null, pure]
  by_cases clear : (m.mem page).word 0 &&& pteP = 0
  · simp only [clear, ↓reduceIte]
  by_cases hidden : (m.mem page).word 0 &&& pteU = 0
  · simp only [clear, hidden, ↓reduceIte]
  · simp only [clear, hidden, ↓reduceIte]

theorem toNat_within (va : Addr) : (va - pgrounddown va).toNat = va.toNat % 4096 := by
  have start := toNat_pgrounddown va
  rw [UInt32.toNat_sub_of_le, start, pageOf]
  · omega
  · rw [UInt32.le_iff_toNat_le, start, pageOf]
    omega

/-- The page that uva2ka() finds is written to. -/
theorem copyoutLoop_found {q : Addr} {bytes : List UInt8} {fuel : Nat} (more : bytes ≠ [])
    (found : uva2ka cur dir (pgrounddown va) m = some (q, m)) (nonzero : q ≠ 0) :
    copyoutLoop cur dir (fuel + 1) va bytes m =
      copyoutLoop cur dir fuel (pgrounddown va + 4096)
        (bytes.drop (min (4096 - va.toNat % 4096) bytes.length))
        (m.write q ((m.mem q).splice (va.toNat % 4096)
          (bytes.take (min (4096 - va.toNat % 4096) bytes.length)))) := by
  simp only [copyoutLoop, more, ↓reduceIte, bind, found, nonzero, toNat_within, Prog.modify]

/-- It does so for a page that the user can use. -/
theorem uva2ka_page {q : Addr} (at_va : leaf m.mem dir (pageOf va) = some q)
    (usable : pte m.mem dir (pageOf va) &&& pteU ≠ 0) :
    uva2ka cur dir (pgrounddown va) m = some (q, m) := by
  have there : table m.mem dir (pageOf va / 1024) ≠ none := by
    intro absent
    rw [leaf, pte_of_none absent, entry_zero] at at_va
    cases at_va
  have present : pte m.mem dir (pageOf va) &&& pteP ≠ 0 := by
    intro zero
    rw [leaf, entry_eq_none_iff.mpr zero] at at_va
    cases at_va
  rw [leaf, entry, if_pos present, Option.some.injEq] at at_va
  rw [uva2ka_table (by rwa [pageOf_pgrounddown]), pageOf_pgrounddown, if_neg present,
    if_neg usable, at_va]

/-- Other pages that have a table are refused. -/
theorem copyoutLoop_refused {bytes : List UInt8} {fuel : Nat} (more : bytes ≠ [])
    (there : table m.mem dir (pageOf va / 1024) ≠ none)
    (refused : leaf m.mem dir (pageOf va) = none ∨ pte m.mem dir (pageOf va) &&& pteU = 0) :
    copyoutLoop cur dir (fuel + 1) va bytes m = some (false, m) := by
  have found : uva2ka cur dir (pgrounddown va) m = some (0, m) := by
    rw [uva2ka_table (by rwa [pageOf_pgrounddown]), pageOf_pgrounddown]
    obtain absent | hidden := refused
    · rw [if_pos (entry_eq_none_iff.mp absent)]
    · rw [if_pos hidden, ite_self]
  simp only [copyoutLoop, more, ↓reduceIte, bind, found]
  rfl

/-! ## The stack of a new program -/

/-- The space of a new program of `sz` bytes: its user pages are those below
`sz`, and all but the one under the stack can be used. -/
structure Stacked (mem : Addr → Page) (dir sz : Addr) : Prop extends Half mem dir where
  whole : sz.toNat % 4096 = 0
  room : 8192 ≤ sz.toNat
  small : sz.toNat < 2147483648
  present : Present mem dir (sz.toNat / 4096)
  usable : ∀ n, n < sz.toNat / 4096 → (pte mem dir n &&& pteU ≠ 0 ↔ n + 2 ≠ sz.toNat / 4096)
  hole : ∀ i, 568 ≤ i → i < 1016 → table mem dir i = none

theorem Stacked.congr {mem mem' : Addr → Page} (stacked : Stacked mem dir sz)
    (tables : table mem' dir = table mem dir) (ptes : pte mem' dir = pte mem dir) :
    Stacked mem' dir sz := by
  refine ⟨stacked.toHalf.keep ?_ ?_, stacked.whole, stacked.room, stacked.small, ?_, ?_, ?_⟩
  · rw [tables]
    exact fun _ _ at_i => at_i
  · rw [ptes]
    exact fun _ _ => rfl
  · intro n user
    rw [leaf, ptes]
    exact stacked.present n user
  · intro n lt
    rw [ptes]
    exact stacked.usable n lt
  · rw [tables]
    exact stacked.hole

theorem Stacked.leaf_some {mem : Addr → Page} (stacked : Stacked mem dir sz)
    (lt : n < sz.toNat / 4096) : ∃ q, leaf mem dir n = some q := by
  have small := stacked.small
  apply Option.ne_none_iff_exists'.mp
  apply (stacked.present n _).mpr lt
  unfold userPages
  omega

theorem Stacked.table_some {mem : Addr → Page} (stacked : Stacked mem dir sz)
    (lt : n < sz.toNat / 4096) : table mem dir (n / 1024) ≠ none := by
  obtain ⟨q, at_n⟩ := stacked.leaf_some lt
  intro absent
  rw [leaf, pte_of_none absent, entry_zero] at at_n
  cases at_n

/-- A copy within the stack page. -/
theorem copyout_fits (cur : Addr) (bytes : List UInt8) (space : Space k m dir R T) (stacked : Stacked m.mem dir sz)
    (above : sz.toNat ≤ va.toNat + 4096) (fits : va.toNat + bytes.length ≤ sz.toNat) :
    ∃ m', copyout cur dir va bytes m = some (true, m') ∧
      Stored k m m' dir R T (overlay (userByte m.mem dir) va.toNat bytes) := by
  by_cases more : bytes = []
  · subst more
    rw [overlay_nil]
    exact ⟨m, rfl, .refl space.split⟩
  have whole := stacked.whole
  have room := stacked.room
  have small := stacked.small
  have some_bytes := List.length_pos_iff.mpr more
  have last : pageOf va + 1 = sz.toNat / 4096 := by
    unfold pageOf
    omega
  have user : pageOf va < userPages := by
    unfold pageOf userPages
    omega
  obtain ⟨q, at_va⟩ := stacked.leaf_some (n := pageOf va) (by omega)
  have usable := (stacked.usable (pageOf va) (by omega)).mpr (by omega)
  have valid := space.leaf_valid user at_va
  have all : min (4096 - va.toNat % 4096) bytes.length = bytes.length := by omega
  have start : 4096 * pageOf va + va.toNat % 4096 = va.toNat := by
    unfold pageOf
    omega
  have stored := write_bytes (va.toNat % 4096) bytes space.split space.nodup user at_va
    (by omega)
  rw [start] at stored
  refine ⟨_, ?_, stored⟩
  obtain ⟨fuel, length⟩ : ∃ fuel, bytes.length = fuel + 1 := ⟨bytes.length - 1, by omega⟩
  rw [copyout, copyoutLoop_found more (uva2ka_page at_va usable) valid.ne_zero, all, List.drop_length,
    List.take_length, length, copyoutLoop, if_pos rfl]
  rfl

/-- A copy that starts below the stack page and comes to the page under it is
refused there. -/
theorem copyoutLoop_low (cur va : Addr) {bytes : List UInt8} {fuel : Nat} (space : Space k m dir R T)
    (stacked : Stacked m.mem dir sz) (more : bytes ≠ []) (below : va.toNat + 4096 < sz.toNat)
    (reaches : sz.toNat < va.toNat + bytes.length + 8192) (enough : bytes.length < fuel) :
    ∃ m', copyoutLoop cur dir fuel va bytes m = some (false, m') ∧
      Keeps k m m' dir R T ∧ Stacked m'.mem dir sz := by
  have whole := stacked.whole
  have room := stacked.room
  have small := stacked.small
  induction fuel generalizing m va bytes with
  | zero => omega
  | succ fuel ih =>
    have inside : pageOf va < sz.toNat / 4096 := by
      unfold pageOf
      omega
    by_cases guard : pageOf va + 2 = sz.toNat / 4096
    · have hidden : pte m.mem dir (pageOf va) &&& pteU = 0 := by
        by_contra usable
        exact (stacked.usable _ inside).mp usable guard
      exact ⟨m, copyoutLoop_refused more (stacked.table_some inside) (.inr hidden),
        .refl space.split, stacked⟩
    · have user : pageOf va < userPages := by
        unfold pageOf userPages
        omega
      obtain ⟨q, at_va⟩ := stacked.leaf_some inside
      have usable := (stacked.usable _ inside).mpr guard
      have valid := space.leaf_valid user at_va
      have some_bytes := List.length_pos_iff.mpr more
      generalize part : min (4096 - va.toNat % 4096) bytes.length = c
      have stored := write_bytes (va.toNat % 4096) (bytes.take c) space.split space.nodup
        user at_va (by rw [List.length_take]; omega)
      have next : (pgrounddown va + 4096).toNat = 4096 * pageOf va + 4096 := by
        rw [toNat_next, toNat_pgrounddown]
        rw [toNat_pgrounddown]
        unfold pageOf
        omega
      have left : (bytes.drop c).length = bytes.length - c := List.length_drop ..
      have further : pageOf va + 3 ≤ sz.toNat / 4096 := by
        unfold pageOf at guard ⊢
        omega
      have more' : bytes.drop c ≠ [] := by
        rw [← List.length_pos_iff, left]
        unfold pageOf at further
        omega
      obtain ⟨m', rest, keeps, stacked'⟩ := ih (pgrounddown va + 4096)
        (space.of_keeps stored.toKeeps) (stacked.congr stored.same stored.ptes) more' (by omega)
        (by rw [next, left]; unfold pageOf at further ⊢; omega) (by omega)
      refine ⟨m', ?_, stored.toKeeps.trans keeps, stacked'⟩
      rw [copyoutLoop_found more (uva2ka_page at_va usable) valid.ne_zero, part]
      exact rest

end stores
end Xv6.Vm
