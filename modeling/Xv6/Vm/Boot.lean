import Xv6.Vm.Returns

/-! kalloc.c: how the free list is filled when the system starts, and a space of
any size that fits. -/

namespace Xv6.Vm
open Lib

/-- The loop of freerange(). -/
def freeLoop (k : Symbols) (vend : Addr) : Nat → Addr → Prog Machine Unit
  | 0, _ => .halt
  | fuel + 1, p =>
    if p + 4096 ≤ vend then do
      kfree k p
      freeLoop k vend fuel (p + 4096)
    else
      pure ()

def freerange (k : Symbols) (vstart vend : Addr) : Prog Machine Unit :=
  freeLoop k vend 1048576 (pgroundup vstart)

/-- Before kinit1(). -/
def powerOn : Machine := ⟨fun _ => Bytes.zero, 0, false⟩

/-- All the pages are free. -/
structure Pool (k : Symbols) (m : Machine) (T : Multiset Addr) : Prop where
  split : Split k m 0 T
  nodup : T.Nodup
  valid : ∀ q ∈ T, k.Valid q

theorem pool_powerOn (k : Symbols) : Pool k powerOn 0 where
  split := ⟨[], ⟨rfl, List.forall_mem_nil _, rfl⟩, rfl⟩
  nodup := Multiset.nodup_zero
  valid _ mem := absurd mem (Multiset.notMem_zero _)

section boot
variable {k : Symbols} {m m' : Machine} {T : Multiset Addr} {p vend dir : Addr} {fuel : Nat}

/-- kfree() of a page that was not there before. -/
theorem Pool.kfree (pool : Pool k m T) (valid : k.Valid p) (fresh : p ∉ T) :
    ∃ m', Vm.kfree k p m = some ((), m') ∧ Pool k m' (p ::ₘ T) := by
  obtain ⟨_, m', run⟩ := kfree_returns valid m
  have nodup : (p ::ₘ T).Nodup := Multiset.nodup_cons.mpr ⟨fresh, pool.nodup⟩
  have held : Split k m (p ::ₘ 0) (p ::ₘ T) := by
    obtain ⟨F, free, rfl⟩ := pool.split
    exact ⟨F, free, by rw [Multiset.add_cons]⟩
  refine ⟨m', run, (held.kfree nodup run).1, nodup, ?_⟩
  intro q mem
  rw [Multiset.mem_cons] at mem
  obtain rfl | mem := mem
  · exact valid
  · exact pool.valid q mem

theorem freeLoop_spec (fuel : Nat) (pool : Pool k m T) (aligned : Aligned p) (start : k.kend ≤ p)
    (stop : vend ≤ p2v phystop) (old : ∀ q ∈ T, q < p) (low : p.toNat ≤ vend.toNat)
    (enough : vend.toNat < p.toNat + 4096 * fuel) :
    ∃ m' T', freeLoop k vend fuel p m = some ((), m') ∧ Pool k m' T' ∧
      T'.card = T.card + (vend.toNat - p.toNat) / 4096 := by
  have top : (p2v phystop).toNat = 2382364672 := rfl
  have last := UInt32.le_iff_toNat_le.mp stop
  induction fuel generalizing m T p with
  | zero => omega
  | succ fuel ih =>
    have fits : p.toNat + 4096 < 4294967296 := by omega
    have add := toNat_next fits
    unfold freeLoop
    by_cases more : p + 4096 ≤ vend
    · have room := UInt32.le_iff_toNat_le.mp more
      have valid : k.Valid p := by
        refine ⟨aligned, start, ?_⟩
        have first := k.kernlink_lt
        have behind := k.data_le
        rw [UInt32.lt_iff_toNat_lt] at first
        rw [UInt32.le_iff_toNat_le] at behind start
        have link : kernlink.toNat = 2148532224 := rfl
        have base : kernbase.toNat = 2147483648 := rfl
        have phys : phystop.toNat = 234881024 := rfl
        have le : kernbase ≤ p := by
          rw [UInt32.le_iff_toNat_le]
          omega
        rw [UInt32.lt_iff_toNat_lt, v2p, UInt32.toNat_sub_of_le _ _ le]
        omega
      have fresh : p ∉ T := fun mem => UInt32.lt_irrefl p (old p mem)
      obtain ⟨m₁, freed, pool₁⟩ := pool.kfree valid fresh
      have next : p < p + 4096 := by
        rw [UInt32.lt_iff_toNat_lt]
        omega
      have old₁ (q : Addr) (mem : q ∈ p ::ₘ T) : q < p + 4096 := by
        rw [Multiset.mem_cons] at mem
        obtain rfl | mem := mem
        · exact next
        · exact UInt32.lt_trans (old q mem) next
      obtain ⟨m', T', rest, pool', size⟩ := ih pool₁ (aligned_add aligned)
        (UInt32.le_trans start (UInt32.le_of_lt next)) old₁ (by omega) (by omega)
      refine ⟨m', T', ?_, pool', ?_⟩
      · rw [if_pos more, Prog.bind_eq_some]
        exact ⟨_, _, freed, rest⟩
      · rw [size, Multiset.card_cons]
        omega
    · have full := UInt32.lt_iff_toNat_lt.mp (UInt32.not_le.mp more)
      refine ⟨m, T, ?_, pool, by omega⟩
      rw [if_neg more]
      rfl

/-- freerange() makes a free list of the whole pages between its bounds. -/
theorem freerange_spec {vstart : Addr} (start : k.kend ≤ vstart) (order : vstart.toNat + 4095 ≤ vend.toNat)
    (stop : vend ≤ p2v phystop) : ∃ m T, freerange k vstart vend powerOn = some ((), m) ∧ Pool k m T ∧
      T.card = (vend.toNat - (pgroundup vstart).toNat) / 4096 := by
  have top : (p2v phystop).toNat = 2382364672 := rfl
  have last := UInt32.le_iff_toNat_le.mp stop
  have first := toNat_pgroundup (a := vstart) (by omega)
  have above : vstart ≤ pgroundup vstart := by
    rw [UInt32.le_iff_toNat_le]
    omega
  have loop := freeLoop_spec 1048576 (pool_powerOn k) (aligned_pgroundup vstart)
    (UInt32.le_trans start above) stop (fun q mem => absurd mem (Multiset.notMem_zero q)) (by omega)
    (by omega)
  rwa [Multiset.card_zero, Nat.zero_add] at loop

/-- A space with `sz` bytes for the user, if there are pages for it. -/
theorem Pool.make_space {sz : Addr} (pool : Pool k m T) (small : sz < kernbase)
    (many : 65 + 2 * pageCount sz ≤ T.card) :
    ∃ dir m₁ m', setupkvm k m = some (dir, m₁) ∧ allocuvm k dir 0 sz m₁ = some (sz, m') ∧
      Space k m' dir 0 T ∧ Half m'.mem dir ∧ Present m'.mem dir (pageCount sz) ∧
      (pages m'.mem dir).card ≤ 65 + 2 * pageCount sz := by
  obtain ⟨dir, m₁, made⟩ := setupkvm_returns pool.split pool.nodup
  obtain ⟨_, ⟨_, L, few, _, all⟩ | ⟨nonzero, split₁, fresh⟩⟩ :=
    setupkvm_spec pool.split pool.nodup made
  · rw [all, Multiset.add_zero] at many
    omega
  have space₁ : Space k m₁ dir 0 T := ⟨split₁, pool.nodup, pool.valid⟩
  have none : pageCount 0 = 0 := by decide
  have present₁ : Present m₁.mem dir (pageCount 0) := by
    intro n user
    rw [fresh.only.no_user n user, none]
    exact ⟨fun no => absurd rfl no, fun no => absurd no (Nat.not_lt_zero _)⟩
  have zero_le : (0 : Addr) ≤ sz := by
    rw [UInt32.le_iff_toNat_le]
    exact Nat.zero_le _
  obtain ⟨r, m', run, ⟨rfl, grown, cost⟩ | ⟨_, _, out⟩⟩ := allocuvm_exact space₁ zero_le small present₁
  · refine ⟨dir, m₁, m', made, run, space₁.of_keeps grown.toKeeps,
      fresh.half.keep grown.tables grown.kernel, grown.present present₁ (by omega), ?_⟩
    rwa [fresh.card, none, Nat.sub_zero] at cost
  · rw [none, fresh.card, Multiset.card_zero] at out
    omega

end boot

/-- A kernel that ends at 0x80115000. -/
def smallKernel : Symbols :=
  ⟨0x80108000, 0x80115000, by decide, by decide, by decide, by decide⟩

/-- What kinit2() frees is enough for most of the address spaces there can be. -/
theorem pool_kinit2 : ∃ m T, freerange smallKernel 0x80400000 (p2v phystop) powerOn = some ((), m) ∧
    Pool smallKernel m T ∧ T.card = 56320 :=
  freerange_spec (by decide) (by decide) (by decide)

end Xv6.Vm
