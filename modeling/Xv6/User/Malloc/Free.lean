import Xv6.User.Malloc.FreeList

/-! free() puts a block in its place in the list and joins it with its neighbours. -/

namespace Xv6.Malloc
open Lib

variable {σ : Type} {w : World σ} {mem : Nat → Option UInt8} {base next : UInt32}
  {bs L R R' : List Block} {b b' p c : Block}

/-! ## Joining blocks -/

/-- The block joined with the first of those behind it, if it ends there. -/
def absorb (b : Block) : List Block → Block × List Block
  | [] => (b, [])
  | c :: R => if b.stop = c.addr.toNat then (⟨b.addr, b.units + c.units⟩, R) else (b, c :: R)

structure Absorbed (b : Block) (R : List Block) (b' : Block) (R' : List Block) : Prop where
  addr : b'.addr = b.addr
  sorted : (b' :: R').Pairwise fun c d => c.stop < d.addr.toNat
  covers : ∀ x, Covers (b' :: R') x ↔ b.Has x ∨ Covers R x
  sub : ∀ c ∈ R', c ∈ R
  small : b'.stop < 2 ^ 32
  grows : b.units.toNat ≤ b'.units.toNat

theorem covers_cons {x : Nat} : Covers (b :: R) x ↔ b.Has x ∨ Covers R x := by
  simp only [Covers, List.mem_cons, exists_eq_or_imp]

theorem not_covers_nil {x : Nat} : ¬ Covers [] x := by
  rintro ⟨_, ⟨⟩, _⟩

theorem covers_singleton {x : Nat} : Covers [b] x ↔ b.Has x := by
  rw [covers_cons, or_iff_left not_covers_nil]

theorem covers_append {x : Nat} : Covers (L ++ R) x ↔ Covers L x ∨ Covers R x := by
  simp only [Covers, List.mem_append, or_and_right, exists_or]

theorem toNat_units (joined : b.stop = c.addr.toNat) (small : c.stop < 2 ^ 32) :
    (b.units + c.units).toNat = b.units.toNat + c.units.toNat := by
  unfold Block.stop at joined small
  rw [UInt32.toNat_add]
  exact Nat.mod_eq_of_lt (by omega)

theorem absorbed (behind : ∀ c ∈ R, b.stop ≤ c.addr.toNat)
    (sorted : R.Pairwise fun c d => c.stop < d.addr.toNat) (small : ∀ c ∈ b :: R, c.stop < 2 ^ 32) :
    Absorbed b R (absorb b R).1 (absorb b R).2 := by
  have here := small b List.mem_cons_self
  cases R with
  | nil =>
    exact ⟨rfl, List.pairwise_singleton _ _, fun x => covers_cons, fun c mem => mem, here,
      Nat.le_refl _⟩
  | cons c R =>
    obtain ⟨first, rest⟩ := List.pairwise_cons.mp sorted
    have there := small c (List.mem_cons_of_mem b List.mem_cons_self)
    by_cases joined : b.stop = c.addr.toNat
    · have units := toNat_units joined there
      have stop : (⟨b.addr, b.units + c.units⟩ : Block).stop = c.stop := by
        unfold Block.stop at joined ⊢
        rw [units]
        dsimp only
        omega
      have has (x : Nat) : (⟨b.addr, b.units + c.units⟩ : Block).Has x ↔ b.Has x ∨ c.Has x := by
        have low : c.addr.toNat ≤ c.stop := Nat.le_add_right _ _
        have low' : b.addr.toNat ≤ b.stop := Nat.le_add_right _ _
        unfold Block.Has
        rw [stop]
        dsimp only
        omega
      rw [absorb, if_pos joined]
      refine ⟨rfl, List.pairwise_cons.mpr ⟨fun d mem => ?_, rest⟩, fun x => ?_,
        fun d mem => List.mem_cons_of_mem c mem, ?_, ?_⟩
      · rw [stop]
        exact first d mem
      · rw [covers_cons, covers_cons, has, or_assoc]
      · rw [stop]
        exact there
      · dsimp only
        omega
    · rw [absorb, if_neg joined]
      refine ⟨rfl, List.pairwise_cons.mpr ⟨fun d mem => ?_, sorted⟩, fun x => covers_cons,
        fun d mem => mem, here, Nat.le_refl _⟩
      have near := behind c List.mem_cons_self
      show b.stop < d.addr.toNat
      obtain rfl | later := List.mem_cons.mp mem
      · omega
      · have := first d later
        have low : c.addr.toNat ≤ c.stop := Nat.le_add_right _ _
        omega

/-- Pointer arithmetic finds the end of a block. -/
theorem end_eq_iff (small : b.stop < 2 ^ 32) (next : UInt32) :
    b.addr + unit * b.units = next ↔ b.stop = next.toNat := by
  have eight : unit.toNat = 8 := rfl
  have sum : (b.addr + unit * b.units).toNat = b.stop := by
    unfold Block.stop at small ⊢
    rw [UInt32.toNat_add, UInt32.toNat_mul, eight]
    omega
  rw [← UInt32.toNat_inj, sum]

section joins
variable {bp pp n m m' q q' : UInt32}

/-- A block that does not end at the next one is only linked to it. -/
theorem joinNext_link (header : Header w.mem bp next n) (prev : Header w.mem pp q m)
    (ends : bp + unit * n ≠ q) :
    ∃ mem', joinNext bp pp w = some ((), { w with mem := mem' }) ∧ Header mem' bp q n ∧
      Edits w.mem mem' [bp] := by
  obtain ⟨mem', set, header', edits⟩ := setPtr_eq header q
  refine ⟨mem', ?_, header', edits⟩
  refine Prog.bind_eq_some.mpr ⟨_, w, size_eq header, ?_⟩
  refine Prog.bind_eq_some.mpr ⟨_, w, ptr_eq prev, ?_⟩
  rw [if_neg ends]
  exact set

theorem joinNext_merge (header : Header w.mem bp next n) (prev : Header w.mem pp q m)
    (behind : Header w.mem q q' m') (ends : bp + unit * n = q) (away : Away bp pp)
    (away' : Away bp q) :
    ∃ mem', joinNext bp pp w = some ((), { w with mem := mem' }) ∧ Header mem' bp q' (n + m') ∧
      Edits w.mem mem' [bp] := by
  obtain ⟨mem₁, set₁, header₁, edits₁⟩ := setSize_eq header (n + m')
  have prev₁ := prev.edits edits₁ (by simpa using away.symm)
  have behind₁ := behind.edits edits₁ (by simpa using away'.symm)
  obtain ⟨mem₂, set₂, header₂, edits₂⟩ := setPtr_eq (w := { w with mem := mem₁ }) header₁ q'
  refine ⟨mem₂, ?_, header₂, (edits₁.trans edits₂).mono (by simp)⟩
  refine Prog.bind_eq_some.mpr ⟨_, w, size_eq header, ?_⟩
  refine Prog.bind_eq_some.mpr ⟨_, w, ptr_eq prev, ?_⟩
  rw [if_pos ends]
  refine Prog.bind_eq_some.mpr ⟨_, w, size_eq behind, ?_⟩
  refine Prog.bind_eq_some.mpr ⟨_, _, set₁, ?_⟩
  refine Prog.bind_eq_some.mpr ⟨_, _, ptr_eq prev₁, ?_⟩
  refine Prog.bind_eq_some.mpr ⟨_, _, ptr_eq behind₁, ?_⟩
  exact set₂

theorem joinPrev_link (header : Header w.mem pp next n) (ends : pp + unit * n ≠ bp) :
    ∃ mem', joinPrev bp pp w = some ((), { w with mem := mem' }) ∧ Header mem' pp bp n ∧
      Edits w.mem mem' [pp] := by
  obtain ⟨mem', set, header', edits⟩ := setPtr_eq header bp
  refine ⟨mem', ?_, header', edits⟩
  refine Prog.bind_eq_some.mpr ⟨_, w, size_eq header, ?_⟩
  rw [if_neg ends]
  exact set

theorem joinPrev_merge (header : Header w.mem pp next n) (behind : Header w.mem bp q m)
    (ends : pp + unit * n = bp) (away : Away bp pp) :
    ∃ mem', joinPrev bp pp w = some ((), { w with mem := mem' }) ∧ Header mem' pp q (n + m) ∧
      Edits w.mem mem' [pp] := by
  obtain ⟨mem₁, set₁, header₁, edits₁⟩ := setSize_eq header (n + m)
  have behind₁ := behind.edits edits₁ (by simpa using away)
  obtain ⟨mem₂, set₂, header₂, edits₂⟩ := setPtr_eq (w := { w with mem := mem₁ }) header₁ q
  refine ⟨mem₂, ?_, header₂, (edits₁.trans edits₂).mono (by simp)⟩
  refine Prog.bind_eq_some.mpr ⟨_, w, size_eq header, ?_⟩
  rw [if_pos ends]
  refine Prog.bind_eq_some.mpr ⟨_, w, size_eq behind, ?_⟩
  refine Prog.bind_eq_some.mpr ⟨_, _, set₁, ?_⟩
  refine Prog.bind_eq_some.mpr ⟨_, _, ptr_eq behind₁, ?_⟩
  exact set₂

end joins

theorem joinNext_eq (header : Header w.mem b.addr next b.units)
    (prev : Header w.mem p.addr (firstKey Block.addr base R) p.units)
    (linked : Linked w.mem base R) (small : b.stop < 2 ^ 32) (low : base.toNat < b.addr.toNat)
    (away : Away b.addr p.addr) (away' : ∀ c ∈ R, Away b.addr c.addr) :
    ∃ mem', joinNext b.addr p.addr w = some ((), { w with mem := mem' }) ∧
      Header mem' b.addr (firstKey Block.addr base (absorb b R).2) (absorb b R).1.units ∧
      Edits w.mem mem' [b.addr] := by
  cases R with
  | nil =>
    refine joinNext_link header prev (mt (end_eq_iff small _).mp ?_)
    have : b.addr.toNat ≤ b.stop := Nat.le_add_right _ _
    show b.stop ≠ base.toNat
    omega
  | cons c R =>
    by_cases joined : b.stop = c.addr.toNat
    · rw [absorb, if_pos joined]
      exact joinNext_merge header prev linked.1 ((end_eq_iff small _).mpr joined) away
        (away' c List.mem_cons_self)
    · rw [absorb, if_neg joined]
      exact joinNext_link header prev (mt (end_eq_iff small _).mp joined)

theorem joinPrev_eq (header : Header w.mem p.addr next p.units)
    (behind : Header w.mem b.addr (firstKey Block.addr base R) b.units) (small : p.stop < 2 ^ 32)
    (away : Away b.addr p.addr) :
    ∃ mem', joinPrev b.addr p.addr w = some ((), { w with mem := mem' }) ∧
      Header mem' p.addr (firstKey Block.addr base (absorb p (b :: R)).2)
        (absorb p (b :: R)).1.units ∧
      Edits w.mem mem' [p.addr] := by
  by_cases joined : p.stop = b.addr.toNat
  · rw [absorb, if_pos joined]
    exact joinPrev_merge header behind ((end_eq_iff small _).mpr joined) away
  · rw [absorb, if_neg joined]
    exact joinPrev_link header (mt (end_eq_iff small _).mp joined)

/-! ## free() -/

/-- A block that is put in its place: the list with it. -/
def freed (L : List Block) (p b : Block) (R : List Block) : List Block :=
  L ++ (absorb p ((absorb b R).1 :: (absorb b R).2)).1 ::
    (absorb p ((absorb b R).1 :: (absorb b R).2)).2

namespace Place

theorem stop_lt (list : FreeList base mem bs) (place : Place base bs b L p R) :
    ∀ c ∈ p :: R, c.stop < 2 ^ 32 := by
  intro c there
  have node : c ∈ baseBlock base :: bs := by
    rw [place.nodes]
    exact List.mem_append_right L there
  obtain rfl | there := List.mem_cons.mp node
  · exact base.toNat_lt
  · exact list.small c there

/-- The nodes from the place on, with the block among them. -/
theorem absorbed_next (list : FreeList base mem bs) (place : Place base bs b L p R)
    (small : b.stop < 2 ^ 32) : Absorbed b R (absorb b R).1 (absorb b R).2 := by
  have sorted := list.nodes_sorted
  rw [place.nodes] at sorted
  refine absorbed place.behind (List.pairwise_cons.mp (List.pairwise_append.mp sorted).2.1).2 ?_
  intro c there
  obtain rfl | there := List.mem_cons.mp there
  · exact small
  · exact place.stop_lt list c (List.mem_cons_of_mem p there)

theorem absorbed_prev (list : FreeList base mem bs) (place : Place base bs b L p R)
    (small : b.stop < 2 ^ 32) : Absorbed p ((absorb b R).1 :: (absorb b R).2)
      (absorb p ((absorb b R).1 :: (absorb b R).2)).1
      (absorb p ((absorb b R).1 :: (absorb b R).2)).2 := by
  have next := place.absorbed_next list small
  refine absorbed (fun c there => ?_) next.sorted fun c there => ?_
  · obtain rfl | there := List.mem_cons.mp there
    · rw [next.addr]
      exact place.before
    · have := place.behind c (next.sub c there)
      have low : b.addr.toNat ≤ b.stop := Nat.le_add_right _ _
      have := place.before
      omega
  · obtain rfl | there := List.mem_cons.mp there
    · exact place.stop_lt list c List.mem_cons_self
    · obtain rfl | there := List.mem_cons.mp there
      · exact next.small
      · exact place.stop_lt list c (List.mem_cons_of_mem p (next.sub c there))

/-- base keeps its place, and its size 0. -/
theorem base_or_mem (place : Place base bs b L p R) (mem : c ∈ L ++ p :: R) :
    c = baseBlock base ∨ c ∈ bs := by
  rw [← place.nodes] at mem
  exact List.mem_cons.mp mem

theorem not_joined (place : Place base bs b L p R) (isBase : p = baseBlock base) :
    p.stop ≠ b.addr.toNat := by
  have clear := place.clear
  rw [isBase] at clear ⊢
  show base.toNat ≠ b.addr.toNat
  have : (baseBlock base).addr.toNat = base.toNat := rfl
  omega

/-- What a node of the new list is. -/
theorem mem_freed (list : FreeList base mem bs) (place : Place base bs b L p R)
    (small : b.stop < 2 ^ 32) (real : 0 < b.units.toNat) (above : base.toNat + 8 ≤ b.addr.toNat)
    (mem : c ∈ freed L p b R) :
    c = baseBlock base ∨
      base.toNat + 8 ≤ c.addr.toNat ∧ 0 < c.units.toNat ∧ c.stop < 2 ^ 32 := by
  have next := place.absorbed_next list small
  have prev := place.absorbed_prev list small
  have old {d : Block} (there : d ∈ L ++ p :: R) : d = baseBlock base ∨
      base.toNat + 8 ≤ d.addr.toNat ∧ 0 < d.units.toNat ∧ d.stop < 2 ^ 32 := by
    obtain rfl | there := place.base_or_mem there
    · exact .inl rfl
    · exact .inr ⟨list.above d there, list.real d there, list.small d there⟩
  obtain low | high := List.mem_append.mp mem
  · exact old (List.mem_append_left _ low)
  obtain rfl | rest := List.mem_cons.mp high
  · obtain isBase | ⟨above', real', _⟩ := old (List.mem_append_right L List.mem_cons_self : p ∈ _)
    · left
      rw [absorb, if_neg]
      · exact isBase
      · rw [next.addr]
        exact place.not_joined isBase
    · right
      refine ⟨?_, Nat.lt_of_lt_of_le real' prev.grows, prev.small⟩
      rw [prev.addr]
      exact above'
  · obtain rfl | later := List.mem_cons.mp (prev.sub c rest)
    · right
      refine ⟨?_, Nat.lt_of_lt_of_le real next.grows, next.small⟩
      rw [next.addr]
      exact above
    · exact old (List.mem_append_right L (List.mem_cons_of_mem p (next.sub c later)))

theorem freed_sorted (list : FreeList base mem bs) (place : Place base bs b L p R)
    (small : b.stop < 2 ^ 32) : (freed L p b R).Pairwise fun c d => c.stop < d.addr.toNat := by
  have next := place.absorbed_next list small
  have prev := place.absorbed_prev list small
  have sorted := list.nodes_sorted
  rw [place.nodes] at sorted
  obtain ⟨left, right, across⟩ := List.pairwise_append.mp sorted
  refine List.pairwise_append.mpr ⟨left, prev.sorted, fun c low d high => ?_⟩
  have below := across c low p List.mem_cons_self
  obtain rfl | rest := List.mem_cons.mp high
  · rw [prev.addr]
    exact below
  · obtain rfl | later := List.mem_cons.mp (prev.sub d rest)
    · rw [next.addr]
      have := place.clear
      omega
    · exact across c low d (List.mem_cons_of_mem p (next.sub d later))

theorem covers_freed (list : FreeList base mem bs) (place : Place base bs b L p R)
    (small : b.stop < 2 ^ 32) (x : Nat) :
    Covers (freed L p b R) x ↔ Covers bs x ∨ b.Has x := by
  have next := place.absorbed_next list small
  have prev := place.absorbed_prev list small
  have none : ¬ (baseBlock base).Has x := by
    rintro ⟨low, high⟩
    exact absurd (Nat.lt_of_le_of_lt low high) (Nat.lt_irrefl _)
  have whole : Covers bs x ↔ Covers L x ∨ p.Has x ∨ Covers R x := by
    rw [← covers_cons, ← covers_append, ← place.nodes, covers_cons, or_iff_right none]
  rw [freed, covers_append, prev.covers, next.covers, whole]
  tauto

/-- Some node of the new list is as large as the block. -/
theorem freed_large (list : FreeList base mem bs) (place : Place base bs b L p R)
    (small : b.stop < 2 ^ 32) : ∃ c ∈ freed L p b R, b.units.toNat ≤ c.units.toNat := by
  have next := place.absorbed_next list small
  by_cases joined : p.stop = (absorb b R).1.addr.toNat
  · refine ⟨_, List.mem_append_right L List.mem_cons_self, ?_⟩
    rw [absorb, if_pos joined, toNat_units joined next.small]
    have := next.grows
    omega
  · refine ⟨(absorb b R).1, List.mem_append_right L (List.mem_cons_of_mem _ ?_), next.grows⟩
    rw [absorb, if_neg joined]
    exact List.mem_cons_self

theorem freed_eq_cons (place : Place base bs b L p R)
    (next : (absorb b R).1.addr = b.addr) : ∃ bs', freed L p b R = baseBlock base :: bs' := by
  cases L with
  | nil =>
    have isBase := (List.cons.inj place.nodes).1.symm
    refine ⟨(absorb b R).1 :: (absorb b R).2, ?_⟩
    rw [freed, absorb, if_neg]
    · rw [isBase]
      rfl
    · rw [next]
      exact place.not_joined isBase
  | cons a L =>
    obtain rfl := (List.cons.inj place.nodes).1
    exact ⟨_, rfl⟩

end Place

theorem length_absorb_le (b : Block) (R : List Block) : (absorb b R).2.length ≤ R.length := by
  cases R with
  | nil => exact Nat.le_refl _
  | cons c R =>
    by_cases joined : b.stop = c.addr.toNat
    · rw [absorb, if_pos joined]
      exact Nat.le_succ _
    · simp only [absorb, if_neg joined, Nat.le_refl]

theorem linked_absorb (b : Block) (linked : Linked mem base R) : Linked mem base (absorb b R).2 := by
  cases R with
  | nil => trivial
  | cons c R =>
    by_cases joined : b.stop = c.addr.toNat
    · rw [absorb, if_pos joined]
      exact linked.2
    · rw [absorb, if_neg joined]
      exact linked

theorem Place.away (list : FreeList base mem bs) (place : Place base bs b L p R)
    (real : 0 < b.units.toNat) :
    (∀ c ∈ L ++ p :: R, Away c.addr b.addr) ∧ (∀ c ∈ L, Away c.addr p.addr) ∧
      ∀ c ∈ R, Away c.addr p.addr := by
  have spaced := list.spaced
  rw [place.nodes] at spaced
  obtain ⟨_, right, across⟩ := List.pairwise_append.mp spaced
  have clear := place.clear
  refine ⟨fun c there => ?_, fun c low => .inl (across c low p List.mem_cons_self),
    fun c high => .inr ((List.pairwise_cons.mp right).1 c high)⟩
  obtain low | high := List.mem_append.mp there
  · have := across c low p List.mem_cons_self
    exact .inl (by omega)
  · obtain rfl | high := List.mem_cons.mp high
    · exact .inl clear
    · have := place.behind c high
      unfold Block.stop at this
      exact .inr (by omega)

/-- The joins, from the place on. -/
theorem joins_eq (list : FreeList base w.mem bs) (place : Place base bs b L p R)
    (header : Header w.mem b.addr next b.units) (real : 0 < b.units.toNat) (small : b.stop < 2 ^ 32)
    (above : base.toNat + 8 ≤ b.addr.toNat) :
    ∃ mem₁ mem₂, joinNext b.addr p.addr w = some ((), { w with mem := mem₁ }) ∧
      joinPrev b.addr p.addr { w with mem := mem₁ } = some ((), { w with mem := mem₂ }) ∧
      Linked mem₂ base (freed L p b R) ∧ Edits w.mem mem₂ [b.addr, p.addr] := by
  have absorbedNext := place.absorbed_next list small
  have absorbedPrev := place.absorbed_prev list small
  obtain ⟨awayB, awayL, awayR⟩ := place.away list real
  have linked := list.linked
  rw [place.nodes] at linked
  obtain ⟨left, prevHeader, right⟩ := chain_append.mp linked
  have awayP := awayB p (List.mem_append_right L List.mem_cons_self)
  obtain ⟨mem₁, run₁, header₁, edits₁⟩ := joinNext_eq header prevHeader right small (by omega)
    awayP.symm fun c there => (awayB c (List.mem_append_right L (List.mem_cons_of_mem p there))).symm
  have prevHeader₁ := prevHeader.edits edits₁ (by simpa using awayP)
  have node₁ : Header mem₁ (absorb b R).1.addr (firstKey Block.addr base (absorb b R).2)
      (absorb b R).1.units := by
    rw [absorbedNext.addr]
    exact header₁
  obtain ⟨mem₂, run₂, header₂, edits₂⟩ := joinPrev_eq (w := { w with mem := mem₁ }) prevHeader₁
    node₁ (place.stop_lt list p List.mem_cons_self) (by rw [absorbedNext.addr]; exact awayP.symm)
  rw [absorbedNext.addr] at run₂
  have edits : Edits w.mem mem₂ [b.addr, p.addr] := edits₁.trans edits₂
  refine ⟨mem₁, mem₂, run₁, run₂, chain_append.mpr ⟨?_, ?_, ?_⟩, edits⟩
  · have same : firstKey Block.addr base ((absorb p ((absorb b R).1 :: (absorb b R).2)).1 ::
        (absorb p ((absorb b R).1 :: (absorb b R).2)).2) = p.addr := absorbedPrev.addr
    rw [same]
    refine left.imp fun c there _ h => h.edits edits ?_
    simpa using ⟨awayB c (List.mem_append_left _ there), awayL c there⟩
  · show Header mem₂ (absorb p ((absorb b R).1 :: (absorb b R).2)).1.addr _ _
    rw [absorbedPrev.addr]
    exact header₂
  · -- what is behind the place: the block, unless it has been joined, and the others
    have others : Linked mem₂ base (absorb b R).2 := by
      refine (linked_absorb b right).imp fun c there _ h => h.edits edits ?_
      have mem := absorbedNext.sub c there
      simpa using ⟨awayB c (List.mem_append_right L (List.mem_cons_of_mem p mem)), awayR c mem⟩
    apply linked_absorb
    refine ⟨node₁.edits edits₂ ?_, others⟩
    rw [absorbedNext.addr]
    simpa using awayP.symm

/-- free() of a block that is apart from the free ones. -/
theorem free_spec (list : FreeList base w.mem bs) (node : Node base bs w.freep)
    (header : Header w.mem b.addr next b.units) (real : 0 < b.units.toNat) (small : b.stop < 2 ^ 32)
    (above : base.toNat + 8 ≤ b.addr.toNat) (apart : ∀ c ∈ bs, ∀ x, ¬ (b.Has x ∧ c.Has x))
    {fuel : Nat} (enough : 2 * (bs.length + 1) ≤ fuel) :
    ∃ mem' bs' p, free fuel (b.addr + unit) w = some ((), { w with mem := mem', freep := p }) ∧
      FreeList base mem' bs' ∧ Node base bs' p ∧ Node base bs p ∧ Edits w.mem mem' [b.addr, p] ∧
      (∀ x, Covers bs' x ↔ Covers bs x ∨ b.Has x) ∧ (∃ c ∈ bs', b.units.toNat ≤ c.units.toNat) ∧
      bs'.length ≤ bs.length + 1 := by
  obtain ⟨L, p, R, place⟩ := list.exists_place real above apart
  obtain ⟨mem₁, mem₂, run₁, run₂, linked, edits⟩ := joins_eq list place header real small above
  have absorbedPrev := place.absorbed_prev list small
  obtain ⟨bs', eq⟩ := place.freed_eq_cons (place.absorbed_next list small).addr
  have sorted := place.freed_sorted list small
  rw [eq] at sorted linked
  obtain ⟨first, rest⟩ := List.pairwise_cons.mp sorted
  have behind {c : Block} (there : c ∈ bs') :
      base.toNat + 8 ≤ c.addr.toNat ∧ 0 < c.units.toNat ∧ c.stop < 2 ^ 32 := by
    have mem : c ∈ freed L p b R := by
      rw [eq]
      exact List.mem_cons_of_mem _ there
    obtain rfl | good := place.mem_freed list small real above mem
    · exact absurd (first _ there) (Nat.lt_irrefl _)
    · exact good
  refine ⟨mem₂, bs', p.addr, ?_, ?_, ?_, ?_, edits, fun x => ?_, ?_, ?_⟩
  · have start : b.addr + unit - unit = b.addr := UInt32.add_sub_cancel ..
    refine Prog.bind_eq_some.mpr ⟨w, w, rfl, ?_⟩
    rw [start]
    refine Prog.bind_eq_some.mpr ⟨_, w, freeLoop_eq list place node real enough, ?_⟩
    refine Prog.bind_eq_some.mpr ⟨_, _, run₁, ?_⟩
    refine Prog.bind_eq_some.mpr ⟨_, _, run₂, ?_⟩
    rfl
  · exact ⟨linked, rest, fun c there => (behind there).1, fun c there => (behind there).2.1,
      fun c there => (behind there).2.2⟩
  · refine ⟨_, ?_, absorbedPrev.addr⟩
    rw [← eq]
    exact List.mem_append_right L List.mem_cons_self
  · refine ⟨p, ?_, rfl⟩
    rw [place.nodes]
    exact List.mem_append_right L List.mem_cons_self
  · have none : ¬ (baseBlock base).Has x := by
      rintro ⟨low, high⟩
      exact absurd (Nat.lt_of_le_of_lt low high) (Nat.lt_irrefl _)
    rw [← place.covers_freed list small, eq, covers_cons, or_iff_right none]
  · obtain ⟨c, mem, large⟩ := place.freed_large list small
    rw [eq] at mem
    obtain rfl | there := List.mem_cons.mp mem
    · have : (baseBlock base).units.toNat = 0 := rfl
      omega
    · exact ⟨c, there, large⟩
  · have length := congrArg List.length eq
    have before := congrArg List.length place.nodes
    have short := length_absorb_le p ((absorb b R).1 :: (absorb b R).2)
    have short' := length_absorb_le b R
    simp only [freed, List.length_append, List.length_cons] at length before short
    omega

end Xv6.Malloc
