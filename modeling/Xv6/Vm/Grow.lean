import Xv6.Vm.Free

/-! vm.c: getting user pages. -/

namespace Xv6.Vm
open Lib

/-- The loop of allocuvm(). -/
def allocLoop (k : Symbols) (pgdir oldsz newsz : Addr) : Nat → Addr → Prog Machine Addr
  | 0, _ => .halt
  | fuel + 1, a =>
    if a < newsz then do
      let mem ← kalloc
      if mem = 0 then do
        let _ ← deallocuvm k pgdir newsz oldsz
        pure 0
      else do
        .modify fun m => m.write mem Bytes.zero
        if ← mappages pgdir a 4096 (v2p mem) (pteW ||| pteU) then
          allocLoop k pgdir oldsz newsz fuel (a + 4096)
        else do
          let _ ← deallocuvm k pgdir newsz oldsz
          kfree k mem
          pure 0
    else
      pure newsz

/-- Grow a process from `oldsz` to `newsz`. Returns the new size or 0. -/
def allocuvm (k : Symbols) (pgdir oldsz newsz : Addr) : Prog Machine Addr :=
  if newsz ≥ kernbase then
    pure 0
  else if newsz < oldsz then
    pure oldsz
  else
    allocLoop k pgdir oldsz newsz 1048576 (pgroundup oldsz)

section grow
variable {k : Symbols} {m m' : Machine} {R T : Multiset Addr} {dir : Addr}

/-- A page is taken for page `a` of a space, cleared or filled, and mapped. -/
theorem take_page {v a : Addr} {perm : UInt32} {x : Page}
    (split : Split k m (v ::ₘ (pages m.mem dir + R)) T) (nodup : T.Nodup) (valid : k.Valid v)
    (user : pageOf a < userPages) (small : perm.toNat < 4096) {ok : Bool}
    (run : mapPage dir a (v2p v) perm (m.write v x) = some (ok, m')) :
    (ok = false ∧ m' = m.write v x ∧ table m.mem dir (pageOf a / 1024) = none ∧
      pages m'.mem dir = pages m.mem dir ∧ T = pages m.mem dir + v ::ₘ R ∧
      Split k m' (pages m'.mem dir + v ::ₘ R) T ∧ pte m'.mem dir = pte m.mem dir ∧
      table m'.mem dir = table m.mem dir) ∨
    (ok = true ∧ Keeps k m m' dir R T ∧
      Gained m.mem m'.mem dir (pageOf a) (v2p v ||| perm ||| pteP) ∧ m'.mem v = x) := by
  have fresh := (Multiset.nodup_cons.mp (split.nodup nodup)).1
  rw [Multiset.mem_add, not_or] at fresh
  have apart := fresh.1
  rw [mem_pages, not_or, not_or] at apart
  obtain ⟨tables, ptes⟩ := view_write (m := m) apart.1 (fun i at_i => apart.2.1 ⟨i, at_i⟩) x
  have same := pages_congr tables ptes
  have split₁ : Split k (m.write v x) (pages (m.write v x).mem dir + v ::ₘ R) T := by
    rw [same, Multiset.add_cons]
    exact split.write nodup (Multiset.mem_cons_self ..) x
  obtain ⟨rfl, rfl, absent, all⟩ | ⟨rfl, gained, split', frame⟩ :=
    mapPage_user split₁ nodup user valid.v2p_aligned small run
  · refine .inl ⟨rfl, rfl, tables ▸ absent, same, ?_, split₁, ptes, tables⟩
    rwa [same] at all
  · refine .inr ⟨rfl, ⟨split', ?_, ?_⟩, ?_, ?_⟩
    · intro p other
      have ne : p ≠ v := by
        rintro rfl
        exact fresh.2 other
      rw [frame p (Multiset.mem_cons_of_mem other), Machine.write_other _ ne]
    · intro i t at_i
      obtain ⟨_, holds⟩ := gained.tables
      exact holds.keeps i t (tables ▸ at_i)
    · obtain ⟨unused, ⟨t, old, new⟩, ptes', bytes⟩ := gained
      rw [leaf, ptes] at unused
      rw [tables] at old new
      rw [ptes] at ptes'
      refine ⟨unused, ⟨t, old, new⟩, ptes', ?_⟩
      intro n q user' at_n
      have ne : q ≠ v := by
        rintro rfl
        exact apart.2.2 ⟨n, user', at_n⟩
      have now : leaf (m.write v x).mem dir n = some q := by rw [leaf, ptes, ← leaf, at_n]
      rw [bytes n q user' now, Machine.write_other _ ne]
    · rw [frame v (Multiset.mem_cons_self ..), Machine.write_self]

end grow
end Xv6.Vm
