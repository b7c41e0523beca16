import Xv6.User.Malloc.Heap

/-! What malloc() gives for each number of bytes. The number of units is computed in 32
bits, and sbrk() takes the number of bytes for an int. -/

namespace Xv6.Malloc
open Lib
open Vm (kernbase pageCount)

variable {σ : Type} {w w' : World σ} {base nunits nbytes a r v next q : UInt32} {bs : List Block}
  {fuel : Nat} {mem mem' : Nat → Option UInt8}

/-- Memory that sbrk() has added, before the call or in it. -/
def Added (s : Heap Process) (w : World (Logged Process)) (x : Nat) : Prop :=
  Obtained s.world.os.log x ∨ (s.world.os.os.sz.toNat ≤ x ∧ x < w.os.os.sz.toNat)

/-- The call returns 0 or a pointer to as many bytes as it has been asked for. -/
def Gives (base : UInt32) (fuel : Nat) (s : Heap Process) (nbytes : UInt32) : Prop :=
  ∃ r w, malloc base processSbrk.logged.run fuel nbytes s.world = some (r, w) ∧
    (r = 0 ∨ ∀ x, r.toNat ≤ x → x < r.toNat + nbytes.toNat → Added s w x)

/-- sbrk() has nothing for the smallest request there is. -/
def Exhausted (p : Process) : Prop := p.sz + 32768 ≥ kernbase ∨ p.pages.headD false = false

theorem run_processSbrk : processSbrk.logged.run = logged sbrk := rfl

/-! ## Sizes that fit -/

section sound
variable {s : Heap Process}

theorem Fits.gives (fits : Fits nbytes) (kept : Kept processSbrk base s bs)
    (enough : 2 ^ 32 ≤ fuel) : Gives base fuel s nbytes := by
  obtain ⟨pos, bytes⟩ := fits.units
  obtain ⟨r, w, added, bs', taken, run, outcome, asked, returned⟩ :=
    kept.malloc_returns pos bytes enough
  refine ⟨r, w, run, ?_⟩
  obtain ⟨rfl, rfl⟩ | ⟨u, rfl, rfl⟩ := returned
  · exact .inl rfl
  refine .inr fun x low high => ?_
  have pointer := outcome.pointer pos List.mem_cons_self
  have units := (outcome.header u List.mem_cons_self).1
  have size : (unitsFor nbytes).toNat = (nbytes.toNat + 7) / 8 + 1 := by
    unfold Fits at fits
    exact toNat_unitsFor (by omega)
  have has : u.Has x := by
    refine ⟨by omega, ?_⟩
    unfold Block.stop
    rw [units]
    omega
  obtain free | ⟨c, new, own⟩ := (outcome.covers x).mp (.inr ⟨u, List.mem_cons_self, has⟩)
  · exact .inl ((kept.exact x).mpr (.inl free))
  · obtain ⟨low, high, _⟩ := outcome.fresh c new
    exact .inr ⟨Nat.le_trans low own.1, Nat.lt_of_lt_of_le own.2 high⟩

theorem Ready.units_pos (ready : Ready base w bs) : ∀ c ∈ bs, 0 < c.units.toNat := by
  obtain ⟨_, rfl, _⟩ | ⟨list, _⟩ := ready
  · simp
  · exact list.real

/-! ## The sum wraps -/

theorem unitsFor_wraps (large : 2 ^ 32 - 7 ≤ nbytes.toNat) : unitsFor nbytes = 1 := by
  have eight : unit.toNat = 8 := rfl
  have one : (1 : UInt32).toNat = 1 := rfl
  have bound := nbytes.toNat_lt
  have sum : (nbytes + unit - 1).toNat = nbytes.toNat + 7 - 2 ^ 32 := by
    rw [UInt32.toNat_sub, UInt32.toNat_add]
    omega
  apply UInt32.toNat.inj
  rw [unitsFor, UInt32.toNat_add, UInt32.toNat_div, sum, eight, one]
  omega

theorem sbrk_failed_iff {w w' : World Process} (small : w.os.sz < kernbase)
    (run : sbrk 32768 w = some (a, w')) : a = failed ↔ Exhausted w.os := by
  have base : kernbase.toNat = 2147483648 := rfl
  have below := UInt32.lt_iff_toNat_lt.mp small
  have more : (32768 : UInt32).toNat = 32768 := rfl
  have sum : (w.os.sz + 32768).toNat = w.os.sz.toNat + 32768 := by
    rw [UInt32.toNat_add, more]
    exact Nat.mod_eq_of_lt (by omega)
  have size : resize (w.os.pages.headD false) w.os.sz (32768 : UInt32).toInt32 = _ :=
    resize_pos small (by decide) _
  have word : (32768 : UInt32).toInt32.toUInt32 = 32768 := rfl
  have nonzero : (32768 : UInt32).toInt32 ≠ 0 := by decide
  have up : ¬ ((32768 : UInt32).toInt32 < 0 ∧ w.os.sz ≠ 0) := fun down => absurd down.1 (by decide)
  rw [word] at size
  by_cases out : Exhausted w.os
  · refine iff_of_true ?_ out
    have none : resize (w.os.pages.headD false) w.os.sz (32768 : UInt32).toInt32 = 0 := by
      rw [size]
      obtain full | nothing := out
      · exact if_pos full
      · rw [nothing, if_neg Bool.false_ne_true, ite_self]
    simp only [sbrk, none, if_neg up] at run
    rw [if_pos ⟨nonzero, trivial⟩] at run
    cases run
    rfl
  · refine iff_of_false ?_ out
    obtain ⟨room, pages⟩ := not_or.mp out
    rw [if_neg room, if_pos (Bool.not_eq_false _ ▸ pages)] at size
    have there : ¬ ((32768 : UInt32).toInt32 ≠ 0 ∧ w.os.sz + 32768 = 0) := by
      rintro ⟨_, zero⟩
      rw [zero] at sum
      have none : (0 : UInt32).toNat = 0 := rfl
      omega
    simp only [sbrk, size, if_neg there] at run
    cases run
    intro same
    rw [same] at below
    have top : failed.toNat = 4294967295 := rfl
    omega

/-- No memory is as large as the number that has been asked for. -/
theorem gives_iff_of_wraps (large : 2 ^ 32 - 7 ≤ nbytes.toNat) (kept : Kept processSbrk base s bs)
    (enough : 2 ^ 32 ≤ fuel) :
    Gives base fuel s nbytes ↔ bs = [] ∧ Exhausted s.world.os.os := by
  have one : (1 : UInt32).toNat = 1 := rfl
  have base' : kernbase.toNat = 2147483648 := rfl
  have units := unitsFor_wraps large
  obtain ⟨r, w, added, bs', taken, run, outcome, asked, returned⟩ :=
    kept.malloc_returns (by rw [units, one]; decide : 0 < (unitsFor nbytes).toNat)
      (by rw [units, one]; decide) enough
  rw [units] at outcome asked
  have order : InOrder ⟨s.world.mem, s.world.freep, s.world.os.os⟩ := kept.sane
  have order' : InOrder ⟨w.mem, w.freep, w.os.os⟩ := outcome.sane
  have below : s.world.os.os.sz.toNat < kernbase.toNat := UInt32.lt_iff_toNat_lt.mp order.small
  have below' : w.os.os.sz.toNat < kernbase.toNat := UInt32.lt_iff_toNat_lt.mp order'.small
  have only_zero : Gives base fuel s nbytes ↔ r = 0 := by
    refine ⟨?_, fun zero => ⟨r, w, run, .inl zero⟩⟩
    rintro ⟨r₁, w₁, run₁, result⟩
    obtain ⟨rfl, rfl⟩ := Prod.mk.inj (Option.some.inj (run.symm.trans run₁))
    obtain zero | all := result
    · exact zero
    · obtain old | new := all (r.toNat + nbytes.toNat - 1) (by omega) (by omega)
      · have : r.toNat + nbytes.toNat - 1 < s.world.os.os.sz.toNat := kept.low _ (.inr old)
        omega
      · omega
  rw [only_zero, outcome.zero_iff returned (by decide)]
  obtain ⟨⟨c, there, _⟩, _, _, some⟩ | ⟨few, a, w₀, w₁, asks, same, _, answer⟩ := asked
  · refine iff_of_false some fun none => ?_
    rw [none.1] at there
    cases there
  · have empty : bs = [] := by
      refine List.eq_nil_iff_forall_not_mem.mpr fun c there => ?_
      have := few c there
      have := kept.ready.units_pos c there
      omega
    have smallest : moreUnits 1 * unit = 32768 := by decide
    rw [smallest, run_processSbrk] at asks
    have asks := (logged_eq asks).1
    rw [same] at asks
    have failed_iff := sbrk_failed_iff (w := ⟨w₀.mem, w₀.freep, s.world.os.os⟩) order.small asks
    obtain ⟨failed, _, none⟩ | ⟨valid, _, some⟩ := answer
    · exact iff_of_true none ⟨empty, failed_iff.mp failed⟩
    · exact iff_of_false some fun both => valid (failed_iff.mpr both.2)

end sound

/-! ## The number of bytes is not an int -/

/-- sbrk() adds nothing to the process, and its answer is the end of the memory. If there is
memory behind that, none has been taken away. -/
theorem sbrk_overflow {n : UInt32} {w w' : World Process} (order : InOrder w)
    (large : n = 0 ∨ 2 ^ 31 ≤ n.toNat) (run : sbrk n w = some (a, w')) :
    a = w.os.sz ∧ w'.freep = w.freep ∧ w'.os.sz.toNat ≤ w.os.sz.toNat ∧
      ∀ y, w.os.sz.toNat ≤ y → (w'.mem y).isSome → w'.mem = w.mem := by
  have zero : (0 : Int32).toInt = 0 := rfl
  -- the size does not grow
  have shrinks : (resize (w.os.pages.headD false) w.os.sz n.toInt32).toNat ≤ w.os.sz.toNat ∧
      (n.toInt32 ≠ 0 → n.toInt32 < 0) := by
    obtain rfl | large := large
    · exact ⟨Nat.le_refl _, fun other => absurd rfl other⟩
    · have signed : n.toInt32.toInt < 0 := by
        have eq : n.toInt32.toInt = n.toBitVec.toInt := rfl
        have bound := n.toNat_lt
        rw [eq, BitVec.toInt_eq_toNat_cond, if_neg (by show ¬ 2 * n.toNat < 2 ^ 32; omega)]
        show (n.toNat : Int) - _ < 0
        omega
      refine ⟨?_, fun _ => Int32.lt_iff_toInt_lt.mpr signed⟩
      rw [resize_neg signed]
      by_cases above : w.os.sz + n.toInt32.toUInt32 ≥ w.os.sz
      · rw [if_pos above]
      · rw [if_neg above]
        exact Nat.le_of_lt (UInt32.lt_iff_toNat_lt.mp (UInt32.not_le.mp above))
  obtain ⟨smaller, negative⟩ := shrinks
  by_cases nothing : n.toInt32 ≠ 0 ∧ resize (w.os.pages.headD false) w.os.sz n.toInt32 = 0
  · simp only [sbrk] at run
    rw [if_pos nothing, if_pos ⟨negative nothing.1, order.some⟩] at run
    cases run
  · simp only [sbrk] at run
    rw [if_neg nothing] at run
    cases run
    refine ⟨rfl, rfl, smaller, fun y behind there => funext fun x => ?_⟩
    change (remap _ _ _ y).isSome at there
    show remap _ _ _ x = _
    generalize resize (w.os.pages.headD false) w.os.sz n.toInt32 = size at smaller there ⊢
    have inside : y < 4096 * pageCount size := by
      by_contra out
      rw [remap, if_neg out] at there
      cases there
    have pages : pageCount size = pageCount w.os.sz := by
      unfold pageCount at inside ⊢
      omega
    rw [remap, pages]
    by_cases low : x < 4096 * pageCount w.os.sz
    · rw [if_pos low, if_pos low]
    · rw [if_neg low]
      exact (order.behind x (Nat.le_of_not_lt low)).symm

/-- free() for a block behind all others, whatever its size: the last node is linked to it,
or has become larger by it. -/
theorem free_last (list : FreeList base w.mem bs) (node : Node base bs w.freep) {b last : Block}
    {L : List Block} (nodes : baseBlock base :: bs = L ++ [last])
    (header : Header w.mem b.addr v b.units) (real : 0 < b.units.toNat)
    (behind : ∀ x, InList base bs x → x < b.addr.toNat) (enough : 2 * (bs.length + 1) ≤ fuel) :
    ∃ mem' q, free fuel (b.addr + unit) w = some ((), { w with mem := mem', freep := last.addr }) ∧
      Edits w.mem mem' [b.addr, last.addr] ∧ (q = base ∨ Header w.mem base q 0) ∧
      ((last.addr + unit * last.units ≠ b.addr ∧ Header mem' last.addr b.addr last.units ∧
          Header mem' b.addr q b.units) ∨
        (last.addr + unit * last.units = b.addr ∧
          Header mem' last.addr q (last.units + b.units))) := by
  have linked := list.linked
  rw [nodes] at linked
  have lastNode : last ∈ baseBlock base :: bs := by
    rw [nodes]
    simp
  have clear : last.addr.toNat + 8 ≤ b.addr.toNat := by
    have := behind (last.addr.toNat + 7) (list.node_inList ⟨last, lastNode, rfl⟩ (by omega) (by omega))
    omega
  have lastHeader : Header w.mem last.addr base last.units := linked.link
  have baseHeader : Header w.mem base (firstKey Block.addr base bs) 0 := list.linked.1
  have stop : last.stop ≤ b.addr.toNat := by
    obtain rfl | there := List.mem_cons.mp lastNode
    · exact Nat.le_trans (Nat.le_add_right _ 8) clear
    · have := list.real last there
      have ends : last.stop = last.addr.toNat + 8 * last.units.toNat := rfl
      have := behind (last.stop - 1) (.inr ⟨last, there, by omega, by omega⟩)
      omega
  have place : Place base bs b L last [] := ⟨nodes, stop, clear, by simp⟩
  have found := freeLoop_eq list place node real enough
  have away : Away b.addr last.addr := .inr clear
  have awayBase : Away b.addr base := by
    have := behind (base.toNat + 7) (.inl ⟨by omega, by omega⟩)
    exact .inr (by omega)
  -- 32 bits may make the end of the block be base
  obtain ⟨mem₁, q, run₁, header₁, edits₁, next⟩ : ∃ mem₁ q,
      joinNext b.addr last.addr w = some ((), { w with mem := mem₁ }) ∧
      Header mem₁ b.addr q b.units ∧ Edits w.mem mem₁ [b.addr] ∧ (q = base ∨ Header w.mem base q 0) := by
    by_cases ends : b.addr + unit * b.units = base
    · obtain ⟨mem₁, run, header₁, edits⟩ := joinNext_merge header lastHeader baseHeader ends away
        awayBase
      rw [UInt32.add_zero] at header₁
      exact ⟨mem₁, _, run, header₁, edits, .inr baseHeader⟩
    · obtain ⟨mem₁, run, header₁, edits⟩ := joinNext_link header lastHeader ends
      exact ⟨mem₁, base, run, header₁, edits, .inl rfl⟩
  have lastHeader₁ := lastHeader.edits edits₁ (by simpa using away.symm)
  have whole {mem₂ : Nat → Option UInt8}
      (run₂ : joinPrev b.addr last.addr { w with mem := mem₁ } = some ((), { w with mem := mem₂ })) :
      free fuel (b.addr + unit) w = some ((), { w with mem := mem₂, freep := last.addr }) := by
    refine Prog.bind_eq_some.mpr ⟨w, w, rfl, ?_⟩
    rw [UInt32.add_sub_cancel]
    refine Prog.bind_eq_some.mpr ⟨_, w, found, ?_⟩
    refine Prog.bind_eq_some.mpr ⟨_, _, run₁, ?_⟩
    exact Prog.bind_eq_some.mpr ⟨_, _, run₂, rfl⟩
  by_cases ends : last.addr + unit * last.units = b.addr
  · obtain ⟨mem₂, run₂, header₂, edits₂⟩ := joinPrev_merge (w := { w with mem := mem₁ }) lastHeader₁
      header₁ ends away
    exact ⟨mem₂, q, whole run₂, edits₁.trans edits₂, next, .inr ⟨ends, header₂⟩⟩
  · obtain ⟨mem₂, run₂, header₂, edits₂⟩ := joinPrev_link (w := { w with mem := mem₁ }) lastHeader₁ ends
    exact ⟨mem₂, q, whole run₂, edits₁.trans edits₂, next, .inl ⟨ends, header₂,
      header₁.edits edits₂ (by simpa using away)⟩⟩

theorem os_of_store {a v : UInt32} {u : Unit} (run : store a v w = some (u, w')) : w'.os = w.os := by
  unfold store at run
  split at run
  · cases run
    rfl
  · cases run

/-- What comes of a block that is taken, from its size alone. -/
theorem take_result {pp prevp n : UInt32} (header : Header w.mem pp next n)
    (run : take nunits prevp pp w = some (r, w')) :
    r = pp + unit * (n - nunits) + unit ∧ w'.os = w.os := by
  obtain ⟨n', w₁, size, run⟩ := Prog.bind_eq_some.mp run
  rw [size_eq header] at size
  cases size
  by_cases whole : n = nunits
  · rw [if_pos whole] at run
    obtain ⟨q, w₁, ptr, run⟩ := Prog.bind_eq_some.mp run
    rw [ptr_eq header] at ptr
    cases ptr
    obtain ⟨u, w₂, set, run⟩ := Prog.bind_eq_some.mp run
    cases run
    rw [whole, UInt32.sub_self, UInt32.mul_zero, UInt32.add_zero]
    exact ⟨rfl, (os_of_store set :)⟩
  · rw [if_neg whole] at run
    obtain ⟨u, w₁, set₁, run⟩ := Prog.bind_eq_some.mp run
    obtain ⟨u, w₂, set₂, run⟩ := Prog.bind_eq_some.mp run
    cases run
    exact ⟨rfl, ((os_of_store set₂).trans (os_of_store set₁) :)⟩

/-- The search that follows comes to the block, or to the end that it has become. -/
theorem mallocLoop_last (sb : UInt32 → Prog (World σ) UInt32) (list : FreeList base w.mem bs)
    (base_pos : 0 < base.toNat) (node : Node base bs w.freep) {b : Block} (header : Header w.mem b.addr v b.units)
    (few : ∀ c ∈ bs, c.units.toNat < b.units.toNat)
    (fits : ∀ c ∈ bs, c.units.toNat + b.units.toNat < 2 ^ 32)
    (real : 0 < b.units.toNat) (behind : ∀ x, InList base bs x → x < b.addr.toNat)
    (enough : 2 * (bs.length + 1) ≤ fuel) :
    ∃ w₁ p q, free fuel (b.addr + unit) w = some ((), w₁) ∧ w₁.freep = p ∧ p ≠ 0 ∧
      w₁.os = w.os ∧ ptr p w₁ = some (q, w₁) ∧
      ∀ r w', mallocLoop sb b.units fuel p q w₁ = some (r, w') → r = b.addr + unit ∧ w'.os = w.os := by
  obtain ⟨L, last, nodes⟩ : ∃ L last, baseBlock base :: bs = L ++ [last] :=
    ⟨_, _, (List.dropLast_append_getLast (List.cons_ne_nil _ _)).symm⟩
  obtain ⟨mem', q, run, edits, next, result⟩ := free_last list node nodes header real behind enough
  have lastNode : last ∈ baseBlock base :: bs := by
    rw [nodes]
    simp
  have same : unit * (b.units - b.units) = 0 := by rw [UInt32.sub_self, UInt32.mul_zero]
  obtain ⟨_, link, header'⟩ | ⟨ends, link⟩ := result
  · refine ⟨_, last.addr, b.addr, run, rfl, list.node_ne_zero base_pos ⟨last, lastNode, rfl⟩, rfl,
      ptr_eq link, fun r w' found => ?_⟩
    obtain ⟨fuel, rfl⟩ := Nat.exists_eq_succ_of_ne_zero (by omega : fuel ≠ 0)
    rw [mallocLoop_take (p := b) header' (Nat.le_refl _)] at found
    obtain ⟨rfl, os⟩ := take_result header' found
    rw [same, UInt32.add_zero]
    exact ⟨rfl, os⟩
  · -- the last node is not base, which has no units
    have clear : last.addr.toNat + 8 ≤ b.addr.toNat := by
      have := behind (last.addr.toNat + 7) (list.node_inList ⟨last, lastNode, rfl⟩ (by omega) (by omega))
      omega
    have there : last ∈ bs := by
      obtain rfl | there := List.mem_cons.mp lastNode
      · rw [baseBlock, UInt32.mul_zero, UInt32.add_zero] at ends
        rw [← ends] at clear
        exact absurd clear (by show ¬ base.toNat + 8 ≤ base.toNat; omega)
      · exact there
    obtain ⟨M, rfl⟩ : ∃ M, L = baseBlock base :: M := by
      cases L with
      | nil =>
        have none := (List.cons.inj nodes).2
        rw [none] at there
        cases there
      | cons c M => exact ⟨M, by rw [(List.cons.inj nodes).1]⟩
    have blocks : bs = M ++ [last] := (List.cons.inj nodes).2
    have linked := list.linked
    rw [nodes] at linked
    have chain := (chain_append.mp linked).1
    have spaced := list.spaced
    rw [nodes, List.pairwise_append] at spaced
    -- the nodes before the last one are as they were
    have chain' : Linked mem' last.addr (baseBlock base :: M) := by
      refine chain.imp fun c mem _ h => h.edits edits ?_
      have := spaced.2.2 c mem last List.mem_cons_self
      simpa using ⟨.inl (by omega), .inl (by omega)⟩
    obtain ⟨S, entry, chainS, sub⟩ : ∃ S, q = firstKey Block.addr last.addr S ∧
        Linked mem' last.addr S ∧ S.Sublist (baseBlock base :: M) := by
      obtain rfl | old := next
      · exact ⟨_, rfl, chain', List.Sublist.refl _⟩
      · refine ⟨M, ?_, chain'.2, List.sublist_cons_self _ _⟩
        exact Option.some.inj (old.ptr.symm.trans chain.1.ptr)
    have grown : Header mem' last.addr (firstKey Block.addr last.addr S) (last.units + b.units) :=
      entry ▸ link
    have sum : (last.units + b.units).toNat = last.units.toNat + b.units.toNat := by
      rw [UInt32.toNat_add]
      exact Nat.mod_eq_of_lt (fits last there)
    have short : S.length ≤ bs.length := by
      have := sub.length_le
      rw [blocks, List.length_append]
      simpa using this
    refine ⟨_, last.addr, q, run, rfl, list.node_ne_zero base_pos ⟨last, lastNode, rfl⟩, rfl,
      ptr_eq link, fun r w' found => ?_⟩
    have chain₁ : Linked mem' last.addr (⟨last.addr, last.units + b.units⟩ :: S) := ⟨grown, chainS⟩
    obtain ⟨rest, rfl⟩ := Nat.exists_eq_add_of_lt (by omega : S.length < fuel)
    have passed : ∀ s ∈ S, s.units.toNat < b.units.toNat ∧ s.addr ≠ last.addr := by
      intro s mem
      have old := sub.subset mem
      have order := spaced.2.2 s old last List.mem_cons_self
      refine ⟨?_, fun same => ?_⟩
      · obtain rfl | free := List.mem_cons.mp old
        · exact real
        · exact few s (by rw [blocks]; exact List.mem_append_left _ free)
      · rw [same] at order
        omega
    obtain ⟨prev, _, _, skip⟩ := mallocLoop_skip sb (rest + 1)
      (w := { w with mem := mem', freep := last.addr }) chain₁ passed
    rw [entry, Nat.add_assoc, skip, mallocLoop_take (p := ⟨last.addr, last.units + b.units⟩) grown
      (by show _ ≤ (last.units + b.units).toNat; omega)] at found
    obtain ⟨rfl, os⟩ := take_result grown found
    rw [UInt32.add_sub_cancel, ends]
    exact ⟨rfl, os⟩

theorem morecore_overflow {w w₁ : World (Logged Process)} {nu p : UInt32}
    (order : InOrder ⟨w.mem, w.freep, w.os.os⟩) (list : FreeList base w.mem bs)
    (node : Node base bs w.freep) (real : 0 < base.toNat)
    (behind : ∀ x, InList base bs x → x < w.os.os.sz.toNat)
    (few : ∀ c ∈ bs, c.units.toNat < 2 ^ 28) (least : 2 ^ 28 ≤ nu.toNat) (most : nu.toNat ≤ 2 ^ 29)
    (enough : 2 * (bs.length + 1) ≤ fuel)
    (run : morecore (logged sbrk) fuel nu w = some (p, w₁)) :
    p ≠ 0 ∧ ∃ q, ptr p w₁ = some (q, w₁) ∧ ∀ r w', mallocLoop (logged sbrk) nu fuel p q w₁ = some (r, w') →
      r = w.os.os.sz + unit ∧ w'.os.os.sz.toNat ≤ w.os.os.sz.toNat := by
  have kernel : kernbase.toNat = 2147483648 := rfl
  have below : w.os.os.sz.toNat < kernbase.toNat := UInt32.lt_iff_toNat_lt.mp order.small
  have same : moreUnits nu = nu := by
    apply UInt32.toNat.inj
    rw [toNat_moreUnits]
    omega
  have bytes : nu * unit = 0 ∨ 2 ^ 31 ≤ (nu * unit).toNat := by
    have product : (nu * unit).toNat = nu.toNat * 8 % 2 ^ 32 := UInt32.toNat_mul nu unit
    by_cases all : nu.toNat = 2 ^ 29
    · left
      apply UInt32.toNat.inj
      rw [product, all]
      rfl
    · right
      rw [product]
      omega
  obtain ⟨a, w₂, asked, run⟩ := Prog.bind_eq_some.mp run
  rw [same] at asked run
  obtain ⟨rfl, freep, smaller, kept⟩ := sbrk_overflow order bytes (logged_eq asked).1
  have valid : w.os.os.sz ≠ failed := by
    intro same
    rw [same] at below
    have top : failed.toNat = 4294967295 := rfl
    omega
  rw [if_neg valid] at run
  obtain ⟨_, w₃, set, run⟩ := Prog.bind_eq_some.mp run
  have four : (w.os.os.sz + 4).toNat = w.os.os.sz.toNat + 4 := toNat_add_four (by omega)
  -- the size could be stored, so there is memory behind the end
  have word : (readWord w₂.mem (w.os.os.sz.toNat + 4)).isSome := by
    simp only [setSize, store, four] at set
    cases read : readWord w₂.mem (w.os.os.sz.toNat + 4) with
    | none =>
      rw [read] at set
      cases set
    | some _ => rfl
  have upper := isSome_readWord.mp word
  have last := upper (w.os.os.sz.toNat + 4) (Nat.le_refl _) (by omega)
  have mem_eq : w₂.mem = w.mem := kept (w.os.os.sz.toNat + 4) (Nat.le_add_right _ 4) last
  have there (x : Nat) (low : w.os.os.sz.toNat ≤ x) (high : x < w.os.os.sz.toNat + 8) :
      (w₂.mem x).isSome := by
    by_cases first : x < w.os.os.sz.toNat + 4
    · rw [mem_eq] at last ⊢
      refine order.last x low ?_
      by_contra out
      have out : 4096 * pageCount w.os.os.sz ≤ x := Nat.le_of_not_lt out
      have gone : w.mem (w.os.os.sz.toNat + 4) = none := order.behind _ (by show _ ≤ _; omega)
      rw [gone] at last
      cases last
    · exact upper x (by omega) (by omega)
  obtain ⟨_, _, header⟩ := exists_header (a := w.os.os.sz) (by omega) there
  obtain ⟨mem₃, set', header₃, edits⟩ := setSize_eq header nu
  obtain ⟨_, rfl⟩ := Prod.mk.inj (Option.some.inj (set.symm.trans set'))
  have list₃ : FreeList base mem₃ bs := by
    refine list.congr fun x inside => ?_
    have := behind x inside
    rw [edits.same x (by simp only [List.mem_singleton, forall_eq]; omega), mem_eq]
  obtain ⟨w₄, p', q, freed, first, valid', os, ptr, found⟩ := mallocLoop_last (logged sbrk)
    (w := { w₂ with mem := mem₃ }) (b := ⟨w.os.os.sz, nu⟩) list₃ real
    (by rw [show w₂.freep = w.freep from freep]; exact node) header₃
    (fun c mem => Nat.lt_of_lt_of_le (few c mem) least)
    (fun c mem => by have := few c mem; show c.units.toNat + nu.toNat < 2 ^ 32; omega)
    (by show 0 < nu.toNat; omega) behind enough
  obtain ⟨_, w₅, freed', run⟩ := Prog.bind_eq_some.mp run
  obtain ⟨_, rfl⟩ := Prod.mk.inj (Option.some.inj (freed.symm.trans freed'))
  obtain ⟨rfl, rfl⟩ := Prod.mk.inj (Option.some.inj run)
  rw [first]
  refine ⟨valid', q, ptr, fun r w' loop => ?_⟩
  obtain ⟨result, os'⟩ := found r w' loop
  refine ⟨result, ?_⟩
  rw [os']
  exact smaller

theorem malloc_overflow {s : Heap Process} {w : World (Logged Process)}
    (kept : Kept processSbrk base s bs) (large : ¬ Fits nbytes) (sums : nbytes.toNat + 7 < 2 ^ 32)
    (enough : 2 ^ 32 ≤ fuel)
    (run : malloc base processSbrk.logged.run fuel nbytes s.world = some (r, w)) :
    r = s.world.os.os.sz + unit ∧ w.os.os.sz.toNat ≤ s.world.os.os.sz.toNat := by
  have kernel : kernbase.toNat = 2147483648 := rfl
  have units := toNat_unitsFor sums
  have order : InOrder ⟨s.world.mem, s.world.freep, s.world.os.os⟩ := kept.sane
  have below : s.world.os.os.sz.toNat < kernbase.toNat := UInt32.lt_iff_toNat_lt.mp order.small
  obtain ⟨mem₀, f, list, node, edits, call⟩ := kept.ready.starts kept.real kept.room
  rw [call, run_processSbrk] at run
  generalize unitsFor nbytes = nu at units run
  obtain ⟨least, most⟩ : 2 ^ 28 ≤ nu.toNat ∧ nu.toNat ≤ 2 ^ 29 := by
    unfold Fits at large
    omega
  have behind (x : Nat) (inside : InList base bs x) : x < s.world.os.os.sz.toNat :=
    kept.low_inList x inside
  have few : ∀ c ∈ bs, c.units.toNat < 2 ^ 28 := by
    intro c there
    have := list.real c there
    have ends : c.stop = c.addr.toNat + 8 * c.units.toNat := rfl
    have := behind (c.stop - 1) (.inr ⟨c, there, by omega, by omega⟩)
    omega
  have length := list.length_le
  obtain ⟨rest, rfl⟩ := Nat.exists_eq_add_of_lt (by omega : bs.length < fuel)
  obtain ⟨next, first, search⟩ := mallocLoop_more (logged sbrk)
    (w := { s.world with mem := mem₀, freep := f }) list node (by omega : 0 < nu.toNat)
    (fun c there => Nat.lt_of_lt_of_le (few c there) least) rest
  rw [Prog.run_bind first] at run
  obtain ⟨p, w₁, more, run⟩ := Prog.bind_eq_some.mp (search.symm.trans run)
  have order₀ : InOrder ⟨mem₀, f, s.world.os.os⟩ :=
    processSbrk.sane_of_mapped order rfl edits.mapped
  obtain ⟨valid, q, link, found⟩ := morecore_overflow
    (w := { s.world with mem := mem₀, freep := f }) order₀ list node kept.real behind few least most
    (by omega) more
  rw [if_neg valid, Prog.run_bind link] at run
  exact found r w run

/-- malloc() gives what it is asked for if the number of bytes, with the header and rounded
up, is positive as an int. For the seven largest numbers it asks for one unit, and the
answer is right only if there is no memory at all. -/
theorem malloc_gives_iff {s : Heap Process} (enough : 2 ^ 32 ≤ fuel)
    (kept : Kept processSbrk base s bs) (nbytes : UInt32) :
    Gives base fuel s nbytes ↔ Fits nbytes ∨
      (2 ^ 32 - 7 ≤ nbytes.toNat ∧ bs = [] ∧ Exhausted s.world.os.os) := by
  by_cases fits : Fits nbytes
  · exact iff_of_true (fits.gives kept enough) (.inl fits)
  rw [or_iff_right fits]
  by_cases large : 2 ^ 32 - 7 ≤ nbytes.toNat
  · rw [gives_iff_of_wraps large kept enough, and_iff_right large]
  refine iff_of_false ?_ fun both => large both.1
  rintro ⟨r, w, run, result⟩
  obtain ⟨rfl, smaller⟩ := malloc_overflow kept fits (by omega) enough run
  have order : InOrder ⟨s.world.mem, s.world.freep, s.world.os.os⟩ := kept.sane
  have below : s.world.os.os.sz.toNat < kernbase.toNat := UInt32.lt_iff_toNat_lt.mp order.small
  have kernel : kernbase.toNat = 2147483648 := rfl
  have eight : unit.toNat = 8 := rfl
  have pointer : (s.world.os.os.sz + unit).toNat = s.world.os.os.sz.toNat + 8 := by
    rw [UInt32.toNat_add, eight]
    exact Nat.mod_eq_of_lt (by omega)
  obtain zero | all := result
  · rw [zero] at pointer
    have none : (0 : UInt32).toNat = 0 := rfl
    omega
  · -- already the first byte is not there
    have pos : 0 < nbytes.toNat := by
      unfold Fits at fits
      omega
    obtain old | new := all _ (Nat.le_refl _) (by omega)
    · have : (s.world.os.os.sz + unit).toNat < s.world.os.os.sz.toNat := kept.low _ (.inr old)
      omega
    · omega

theorem hundred_bytes_given : Fits 100 ∧ Gives 4096 (2 ^ 32) newProcess 100 :=
  ⟨by decide, (malloc_gives_iff (Nat.le_refl _) fresh_newProcess.kept 100).mpr (.inl (by decide))⟩

/-- The largest number is answered with a pointer to the end of the memory. -/
theorem largest_request_given_nothing :
    Kept processSbrk 4096 newProcess [] ∧
      (malloc 4096 processSbrk.logged.run (2 ^ 32) 0xFFFFFFFF newProcess.world).map
        (fun result => (result.1, result.2.os.os.sz)) = some (40960, 40960) ∧
      ¬ Gives 4096 (2 ^ 32) newProcess 0xFFFFFFFF := by
  refine ⟨fresh_newProcess.kept, by decide +kernel, fun gives => ?_⟩
  have out := ((gives_iff_of_wraps (by decide) fresh_newProcess.kept (Nat.le_refl _)).mp gives).2
  obtain full | nothing := out
  · exact absurd full (by decide)
  · exact absurd nothing (by decide)

end Xv6.Malloc
