import Xv6.User.Malloc.Free

/-! malloc() goes round the list of free blocks for one that is large enough, and takes
it or its upper end. -/

namespace Xv6.Malloc
open Lib

variable {σ : Type} {w : World σ} {mem mem' mem'' : Nat → Option UInt8} {base nunits next : UInt32}
  {bs bs' S : List Block} {b c p prev u : Block} {as : List UInt32}

/-! ## Memory that the list is made of -/

/-- The address is in base or in one of the blocks. -/
def InList (base : UInt32) (bs : List Block) (x : Nat) : Prop :=
  (base.toNat ≤ x ∧ x < base.toNat + 8) ∨ Covers bs x

/-- Nothing else than base and the blocks has changed. -/
structure Keeps (base : UInt32) (bs : List Block) (mem mem' : Nat → Option UInt8) : Prop where
  same : ∀ x, ¬ InList base bs x → mem' x = mem x
  mapped : ∀ x, (mem' x).isSome = (mem x).isSome

/-- A header in a block that is not empty belongs to the block. -/
theorem header_inList (there : b ∈ bs) (real : 0 < b.units.toNat) {x : Nat}
    (low : b.addr.toNat ≤ x) (high : x < b.addr.toNat + 8) : InList base bs x := by
  refine .inr ⟨b, there, low, ?_⟩
  unfold Block.stop
  omega

theorem Edits.keeps (edits : Edits mem mem' as)
    (inside : ∀ a ∈ as, ∀ x, a.toNat ≤ x → x < a.toNat + 8 → InList base bs x) :
    Keeps base bs mem mem' := by
  refine ⟨fun x out => edits.same x fun a there => ?_, edits.mapped⟩
  by_contra overlap
  exact out (inside a there x (by omega) (by omega))

namespace FreeList

theorem node_inList (list : FreeList base mem bs) {q : UInt32} (node : Node base bs q) {x : Nat}
    (low : q.toNat ≤ x) (high : x < q.toNat + 8) : InList base bs x := by
  obtain ⟨c, there, rfl⟩ := node
  obtain rfl | there := List.mem_cons.mp there
  · exact .inl ⟨low, high⟩
  · exact header_inList there (list.real c there) low high

theorem node_ne_zero (list : FreeList base mem bs) (real : 0 < base.toNat) {q : UInt32}
    (node : Node base bs q) : q ≠ 0 := by
  obtain ⟨c, there, rfl⟩ := node
  have pos : 0 < c.addr.toNat := by
    obtain rfl | there := List.mem_cons.mp there
    · exact real
    · have := list.above c there
      omega
  intro zero
  rw [zero] at pos
  exact absurd pos (Nat.lt_irrefl 0)

/-- Nodes at one address are the same. -/
theorem node_unique (list : FreeList base mem bs) (hb : b ∈ baseBlock base :: bs)
    (hc : c ∈ baseBlock base :: bs) (same : b.addr = c.addr) : b = c := by
  have spaced := list.spaced
  by_contra other
  obtain ⟨A, B, eq⟩ := List.append_of_mem hb
  rw [eq, List.pairwise_append] at spaced
  rw [eq, List.mem_append, List.mem_cons] at hc
  obtain below | rfl | above := hc
  · have := spaced.2.2 c below b List.mem_cons_self
    rw [same] at this
    omega
  · exact other rfl
  · have := (List.pairwise_cons.mp spaced.2.1).1 c above
    rw [same] at this
    omega

/-- The list is not longer than there is room for headers. -/
theorem length_le (list : FreeList base mem bs) : 8 * bs.length < 2 ^ 32 := by
  have bound : ∀ (l : List Block) (lo : Nat),
      (l.Pairwise fun c d => c.addr.toNat + 8 ≤ d.addr.toNat) → (∀ c ∈ l, lo ≤ c.addr.toNat) →
      lo < 2 ^ 32 + 8 → lo + 8 * l.length < 2 ^ 32 + 8 := by
    intro l
    induction l with
    | nil => exact fun lo _ _ small => small
    | cons c l ih =>
      intro lo spaced low _
      obtain ⟨first, rest⟩ := List.pairwise_cons.mp spaced
      have here := low c List.mem_cons_self
      have := c.addr.toNat_lt
      have := ih (c.addr.toNat + 8) rest first (by omega)
      rw [List.length_cons]
      omega
  have := bound (baseBlock base :: bs) 0 list.spaced (fun _ _ => Nat.zero_le _) (by decide)
  rw [List.length_cons] at this
  omega

/-- A free block and the node that is linked to it. -/
theorem split_at (list : FreeList base mem bs) (before : prev ∈ baseBlock base :: bs) (there : p ∈ bs)
    (link : Header mem prev.addr p.addr prev.units) :
    ∃ L M R, baseBlock base :: bs = L ++ prev :: p :: R ∧ L ++ [prev] = baseBlock base :: M ∧
      bs = M ++ p :: R := by
  obtain ⟨L, T, eq⟩ := List.append_of_mem before
  have linked := list.linked
  rw [eq] at linked
  have next : firstKey Block.addr base T = p.addr :=
    Option.some.inj (linked.link.ptr.symm.trans link.ptr)
  cases T with
  | nil =>
    have := list.above p there
    rw [← next] at this
    exact absurd this (by show ¬ base.toNat + 8 ≤ base.toNat; omega)
  | cons c R =>
    have node : c ∈ baseBlock base :: bs := by
      rw [eq]
      simp
    obtain rfl := list.node_unique node (List.mem_cons_of_mem _ there) next
    obtain ⟨M, ends⟩ : ∃ M, L ++ [prev] = baseBlock base :: M := by
      cases L with
      | nil => exact ⟨[], by rw [(List.cons.inj eq).1]; rfl⟩
      | cons a L => exact ⟨L ++ [prev], by rw [(List.cons.inj eq).1]; rfl⟩
    refine ⟨L, M, R, eq, ends, ?_⟩
    have whole : baseBlock base :: bs = baseBlock base :: (M ++ c :: R) := by
      rw [eq, ← List.cons_append, ← ends, List.append_assoc]
      rfl
    exact (List.cons.inj whole).2

end FreeList

/-! ## Taking a block -/

/-- The block `u` of `n` units has been taken out of the free ones. -/
structure Allots (base : UInt32) (mem : Nat → Option UInt8) (bs : List Block) (n : UInt32)
    (mem' : Nat → Option UInt8) (bs' : List Block) (u : Block) : Prop where
  list : FreeList base mem' bs'
  units : u.units = n
  header : ∃ next, Header mem' u.addr next n
  covers : ∀ x, Covers bs x ↔ Covers bs' x ∨ u.Has x
  apart : ∀ c ∈ bs', ∀ x, ¬ (u.Has x ∧ c.Has x)
  keeps : Keeps base bs mem mem'
  above : base.toNat + 8 ≤ u.addr.toNat
  small : u.stop < 2 ^ 32

/-- Blocks in order have no address in common. -/
theorem disjoint_of_sorted {l : List Block} (sorted : l.Pairwise fun c d => c.stop < d.addr.toNat)
    {M R : List Block} (eq : l = M ++ p :: R) : ∀ c ∈ M ++ R, ∀ x, ¬ (p.Has x ∧ c.Has x) := by
  rw [eq, List.pairwise_append] at sorted
  rintro c there x ⟨⟨low, high⟩, low', high'⟩
  obtain before | behind := List.mem_append.mp there
  · have := sorted.2.2 c before p List.mem_cons_self
    omega
  · have := (List.pairwise_cons.mp sorted.2.1).1 c behind
    omega

theorem take_whole (list : FreeList base w.mem bs) (before : prev ∈ baseBlock base :: bs)
    (there : p ∈ bs) (link : Header w.mem prev.addr p.addr prev.units) :
    ∃ mem' bs', take p.units prev.addr p.addr w =
        some (p.addr + unit, { w with mem := mem', freep := prev.addr }) ∧
      Allots base w.mem bs p.units mem' bs' p ∧ Node base bs' prev.addr ∧
      bs'.length ≤ bs.length := by
  obtain ⟨L, M, R, nodes, ends, rfl⟩ := list.split_at before there link
  have linked := list.linked
  have spaced := list.spaced
  rw [nodes] at linked spaced
  obtain ⟨left, prevHeader, header, right⟩ := chain_append.mp linked
  obtain ⟨_, tail, across⟩ := List.pairwise_append.mp spaced
  obtain ⟨first, rest⟩ := List.pairwise_cons.mp tail
  obtain ⟨mem', set, prevHeader', edits⟩ := setPtr_eq prevHeader (firstKey Block.addr base R)
  have nodes' : baseBlock base :: (M ++ R) = L ++ prev :: R := by
    rw [← List.cons_append, ← ends, List.append_assoc]
    rfl
  have node : Node base (M ++ p :: R) prev.addr := ⟨prev, before, rfl⟩
  have some_of {c : Block} (mem : c ∈ M ++ R) : c ∈ M ++ p :: R := by
    simp only [List.mem_append, List.mem_cons] at mem ⊢
    tauto
  refine ⟨mem', M ++ R, ?_, ⟨⟨?_, ?_, ?_, ?_, ?_⟩, rfl, ?_, fun x => ?_, ?_, ?_, ?_, ?_⟩, ?_, ?_⟩
  · refine Prog.bind_eq_some.mpr ⟨_, w, size_eq header, ?_⟩
    rw [if_pos rfl]
    refine Prog.bind_eq_some.mpr ⟨_, w, ptr_eq header, ?_⟩
    exact Prog.bind_eq_some.mpr ⟨_, _, set, rfl⟩
  · rw [nodes']
    refine chain_append.mpr ⟨left.imp fun c low _ h => h.edits edits ?_, prevHeader',
      right.imp fun c high _ h => h.edits edits ?_⟩
    · simpa using .inl (across c low prev List.mem_cons_self)
    · simpa using .inr (first c (List.mem_cons_of_mem p high))
  · exact list.sorted.sublist ((List.append_sublist_append_left M).mpr (List.sublist_cons_self p R))
  · exact fun c mem => list.above c (some_of mem)
  · exact fun c mem => list.real c (some_of mem)
  · exact fun c mem => list.small c (some_of mem)
  · exact ⟨_, header.edits edits (by simpa using .inr (first p List.mem_cons_self))⟩
  · rw [covers_append, covers_append, covers_cons]
    tauto
  · exact disjoint_of_sorted list.sorted rfl
  · refine edits.keeps fun a mem x low high => ?_
    obtain rfl := List.mem_singleton.mp mem
    exact list.node_inList node low high
  · exact list.above p there
  · exact list.small p there
  · refine ⟨prev, ?_, rfl⟩
    rw [nodes']
    simp
  · simp

/-- The upper end of a free block. -/
def upperEnd (p : Block) (nunits : UInt32) : Block := ⟨p.addr + unit * (p.units - nunits), nunits⟩

theorem upperEnd_addr (small : p.stop < 2 ^ 32) (fits : nunits.toNat ≤ p.units.toNat) :
    (p.units - nunits).toNat = p.units.toNat - nunits.toNat ∧
    (upperEnd p nunits).addr.toNat = p.addr.toNat + 8 * (p.units.toNat - nunits.toNat) := by
  have eight : unit.toNat = 8 := rfl
  have units : (p.units - nunits).toNat = p.units.toNat - nunits.toNat :=
    UInt32.toNat_sub_of_le _ _ (UInt32.le_iff_toNat_le.mpr fits)
  refine ⟨units, ?_⟩
  unfold Block.stop at small
  rw [upperEnd, UInt32.toNat_add, UInt32.toNat_mul, eight, units]
  omega

theorem take_part (list : FreeList base w.mem bs) (before : prev ∈ baseBlock base :: bs)
    (there : p ∈ bs) (link : Header w.mem prev.addr p.addr prev.units)
    (mapped : ∀ x, p.Has x → (w.mem x).isSome) (pos : 0 < nunits.toNat)
    (more : nunits.toNat < p.units.toNat) :
    ∃ mem' bs', take nunits prev.addr p.addr w = some ((upperEnd p nunits).addr + unit,
        { w with mem := mem', freep := prev.addr }) ∧
      Allots base w.mem bs nunits mem' bs' (upperEnd p nunits) ∧ Node base bs' prev.addr ∧
      bs'.length ≤ bs.length := by
  obtain ⟨L, M, R, nodes, ends, rfl⟩ := list.split_at before there link
  have linked := list.linked
  have spaced := list.spaced
  have sorted := list.sorted
  have small := list.small p there
  have above := list.above p there
  obtain ⟨units, addr⟩ := upperEnd_addr small (Nat.le_of_lt more)
  have own : (upperEnd p nunits).stop = (upperEnd p nunits).addr.toNat + 8 * nunits.toNat := rfl
  have stop : (upperEnd p nunits).stop = p.stop := by
    unfold Block.stop
    rw [addr]
    show _ + 8 * nunits.toNat = _
    omega
  have left_stop : (⟨p.addr, p.units - nunits⟩ : Block).stop = (upperEnd p nunits).addr.toNat := by
    unfold Block.stop
    rw [addr, ← units]
  rw [nodes] at linked spaced
  obtain ⟨left, prevHeader, header, right⟩ := chain_append.mp linked
  obtain ⟨_, tail, across⟩ := List.pairwise_append.mp spaced
  obtain ⟨first, rest⟩ := List.pairwise_cons.mp tail
  have next := (List.pairwise_cons.mp rest).1
  obtain ⟨leftSorted, rightSorted, acrossSorted⟩ := List.pairwise_append.mp sorted
  have behind := (List.pairwise_cons.mp rightSorted).1
  -- the lower end keeps its header, and the upper one gets one of its own
  obtain ⟨mem₁, set₁, header₁, edits₁⟩ := setSize_eq header (p.units - nunits)
  have inside (x : Nat) (low : (upperEnd p nunits).addr.toNat ≤ x)
      (high : x < (upperEnd p nunits).addr.toNat + 8) : p.Has x := by
    refine ⟨?_, ?_⟩ <;> omega
  have room : (upperEnd p nunits).addr.toNat + 8 ≤ 2 ^ 32 := by omega
  have memory (x : Nat) (low : (upperEnd p nunits).addr.toNat ≤ x)
      (high : x < (upperEnd p nunits).addr.toNat + 8) : (mem₁ x).isSome := by
    rw [edits₁.mapped]
    exact mapped x (inside x low high)
  obtain ⟨q, _, fresh⟩ := exists_header room memory
  obtain ⟨mem₂, set₂, header₂, edits₂⟩ := setSize_eq (w := { w with mem := mem₁ }) fresh nunits
  have edits : Edits w.mem mem₂ [p.addr, (upperEnd p nunits).addr] := edits₁.trans edits₂
  have low : Away p.addr (upperEnd p nunits).addr := .inl (by omega)
  have nodes' : baseBlock base :: (M ++ ⟨p.addr, p.units - nunits⟩ :: R) =
      L ++ prev :: ⟨p.addr, p.units - nunits⟩ :: R := by
    rw [← List.cons_append, ← ends, List.append_assoc]
    rfl
  have old {c : Block} (mem : c ∈ M ++ ⟨p.addr, p.units - nunits⟩ :: R) :
      c = ⟨p.addr, p.units - nunits⟩ ∨ c ∈ M ++ R := by
    simp only [List.mem_append, List.mem_cons] at mem ⊢
    tauto
  have some_of {c : Block} (mem : c ∈ M ++ R) : c ∈ M ++ p :: R := by
    simp only [List.mem_append, List.mem_cons] at mem ⊢
    tauto
  have parts (x : Nat) : p.Has x ↔
      (⟨p.addr, p.units - nunits⟩ : Block).Has x ∨ (upperEnd p nunits).Has x := by
    unfold Block.Has
    rw [left_stop, stop]
    have : p.stop = p.addr.toNat + 8 * p.units.toNat := rfl
    dsimp only
    omega
  refine ⟨mem₂, M ++ ⟨p.addr, p.units - nunits⟩ :: R, ?_,
    ⟨⟨?_, ?_, ?_, ?_, ?_⟩, rfl, ⟨q, header₂⟩, fun x => ?_, ?_, ?_, ?_, ?_⟩, ?_, ?_⟩
  · refine Prog.bind_eq_some.mpr ⟨_, w, size_eq header, ?_⟩
    rw [if_neg fun same => by rw [same] at more; exact Nat.lt_irrefl _ more]
    refine Prog.bind_eq_some.mpr ⟨_, _, set₁, ?_⟩
    exact Prog.bind_eq_some.mpr ⟨_, _, set₂, rfl⟩
  · rw [nodes']
    refine chain_append.mpr ⟨left.imp fun c before' _ h => h.edits edits ?_,
      prevHeader.edits edits ?_, header₁.edits edits₂ ?_,
      right.imp fun c behind' _ h => h.edits edits ?_⟩
    · have := across c before' p (by simp)
      simpa using ⟨.inl this, .inl (by omega)⟩
    · have := first p List.mem_cons_self
      simpa using ⟨.inl this, .inl (by omega)⟩
    · simpa using low
    · have := next c behind'
      have : p.stop < c.addr.toNat := behind c behind'
      simpa using ⟨.inr (by omega), .inr (by omega)⟩
  · refine List.pairwise_append.mpr ⟨leftSorted, List.pairwise_cons.mpr ⟨fun d mem => ?_,
      (List.pairwise_cons.mp rightSorted).2⟩, fun c before' d mem => ?_⟩
    · have : p.stop < d.addr.toNat := behind d mem
      rw [left_stop]
      omega
    · obtain rfl | behind' := List.mem_cons.mp mem
      · exact acrossSorted c before' p List.mem_cons_self
      · exact acrossSorted c before' d (List.mem_cons_of_mem p behind')
  · intro c mem
    obtain rfl | mem := old mem
    · exact above
    · exact list.above c (some_of mem)
  · intro c mem
    obtain rfl | mem := old mem
    · show 0 < (p.units - nunits).toNat
      omega
    · exact list.real c (some_of mem)
  · intro c mem
    obtain rfl | mem := old mem
    · rw [left_stop]
      omega
    · exact list.small c (some_of mem)
  · rw [covers_append, covers_append, covers_cons, covers_cons, parts]
    tauto
  · rintro c mem x ⟨upper, other⟩
    obtain rfl | mem := old mem
    · have := other.2
      rw [left_stop] at this
      have := upper.1
      omega
    · exact disjoint_of_sorted sorted rfl c mem x ⟨(parts x).mpr (.inr upper), other⟩
  · refine edits.keeps fun a mem x low high => ?_
    simp only [List.mem_cons, List.not_mem_nil, or_false] at mem
    obtain rfl | rfl := mem
    · exact header_inList there (list.real p there) low high
    · exact .inr ⟨p, there, inside x low high⟩
  · omega
  · rw [stop]
    exact small
  · refine ⟨prev, ?_, rfl⟩
    rw [nodes']
    simp
  · simp

theorem take_spec (list : FreeList base w.mem bs) (before : prev ∈ baseBlock base :: bs)
    (there : p ∈ bs) (link : Header w.mem prev.addr p.addr prev.units)
    (mapped : ∀ x, p.Has x → (w.mem x).isSome) (pos : 0 < nunits.toNat)
    (fits : nunits.toNat ≤ p.units.toNat) :
    ∃ mem' bs' u, take nunits prev.addr p.addr w =
        some (u.addr + unit, { w with mem := mem', freep := prev.addr }) ∧
      Allots base w.mem bs nunits mem' bs' u ∧ Node base bs' prev.addr ∧ bs'.length ≤ bs.length := by
  obtain more | exact_fit := Nat.lt_or_eq_of_le fits
  · obtain ⟨mem', bs', run⟩ := take_part list before there link mapped pos more
    exact ⟨mem', bs', _, run⟩
  · obtain rfl := UInt32.toNat_inj.mp exact_fit
    obtain ⟨mem', bs', run⟩ := take_whole list before there link
    exact ⟨mem', bs', p, run⟩

/-! ## Going round -/

variable {sbrk : UInt32 → Prog (World σ) UInt32} {e : UInt32} {fuel : Nat}

/-- Nodes that are too small are passed. -/
theorem mallocLoop_skip (sbrk : UInt32 → Prog (World σ) UInt32) (fuel : Nat) (linked : Linked w.mem e (prev :: S))
    (small : ∀ s ∈ S, s.units.toNat < nunits.toNat ∧ s.addr ≠ w.freep) :
    ∃ q ∈ prev :: S, Header w.mem q.addr e q.units ∧
      mallocLoop sbrk nunits (S.length + fuel) prev.addr (firstKey Block.addr e S) w =
        mallocLoop sbrk nunits fuel q.addr e w := by
  induction S generalizing prev with
  | nil =>
    refine ⟨prev, List.mem_cons_self, linked.1, ?_⟩
    rw [List.length_nil, Nat.zero_add]
    rfl
  | cons s S ih =>
    obtain ⟨q, mem, link, run⟩ := ih linked.2 fun c there => small c (List.mem_cons_of_mem s there)
    refine ⟨q, List.mem_cons_of_mem prev mem, link, ?_⟩
    rw [← run, List.length_cons, Nat.add_right_comm]
    have header : Header w.mem s.addr (firstKey Block.addr e S) s.units := linked.2.1
    obtain ⟨few, other⟩ := small s List.mem_cons_self
    have few' : ¬ s.units ≥ nunits := by
      rw [ge_iff_le, UInt32.le_iff_toNat_le]
      omega
    change mallocLoop sbrk nunits (S.length + fuel + 1) prev.addr s.addr w = _
    refine (Prog.run_bind (size_eq header)).trans ?_
    rw [if_neg few']
    refine (Prog.run_get_bind _ _).trans ?_
    rw [if_neg other]
    exact (Prog.run_bind (ptr_eq header))

/-- The list entered at one of its nodes. -/
theorem FreeList.enter (list : FreeList base mem bs) {q : UInt32} (node : Node base bs q) :
    ∃ f S, f.addr = q ∧ Linked mem q (f :: S) ∧ (f :: S).Perm (baseBlock base :: bs) ∧
      ∀ s ∈ S, s.addr ≠ q := by
  obtain ⟨f, there, rfl⟩ := node
  obtain ⟨A, B, eq⟩ := List.append_of_mem there
  have linked : Linked mem (firstKey Block.addr base (A ++ f :: B)) (A ++ f :: B) := by
    rw [← eq]
    exact list.linked
  have spaced := list.spaced
  rw [eq, List.pairwise_append] at spaced
  refine ⟨f, B ++ A, rfl, linked.rotate, ?_, fun s mem same => ?_⟩
  · rw [eq, ← List.cons_append]
    exact List.perm_append_comm
  · obtain behind | before := List.mem_append.mp mem
    · have := (List.pairwise_cons.mp spaced.2.1).1 s behind
      rw [same] at this
      omega
    · have := spaced.2.2 s before f List.mem_cons_self
      rw [same] at this
      omega

theorem mallocLoop_take (header : Header w.mem p.addr next p.units)
    (large : nunits.toNat ≤ p.units.toNat) (prevp : UInt32) :
    mallocLoop sbrk nunits (fuel + 1) prevp p.addr w = take nunits prevp p.addr w := by
  refine (Prog.run_bind (size_eq header)).trans ?_
  rw [if_pos (UInt32.le_iff_toNat_le.mpr large)]

/-- A block is found if one of them is large enough. -/
theorem mallocLoop_found (sbrk : UInt32 → Prog (World σ) UInt32) (list : FreeList base w.mem bs) (node : Node base bs w.freep)
    (mapped : ∀ c ∈ bs, ∀ x, c.Has x → (w.mem x).isSome) (pos : 0 < nunits.toNat)
    (large : ∃ c ∈ bs, nunits.toNat ≤ c.units.toNat) (enough : bs.length < fuel) :
    ∃ next mem' bs' u prev, ptr w.freep w = some (next, w) ∧
      mallocLoop sbrk nunits fuel w.freep next w =
        some (u.addr + unit, { w with mem := mem', freep := prev }) ∧
      Allots base w.mem bs nunits mem' bs' u ∧ Node base bs' prev ∧ bs'.length ≤ bs.length := by
  obtain ⟨f, S, start, linked, perm, others⟩ := list.enter node
  have length : S.length = bs.length := Nat.succ.inj perm.length_eq
  -- the nodes before `q` are too small
  obtain ⟨S₁, q, links, small, fits, header, there, short⟩ : ∃ S₁ q, Linked w.mem q.addr (f :: S₁) ∧
      (∀ s ∈ S₁, s.units.toNat < nunits.toNat ∧ s.addr ≠ w.freep) ∧
      nunits.toNat ≤ q.units.toNat ∧ (∃ next, Header w.mem q.addr next q.units) ∧
      q ∈ baseBlock base :: bs ∧ firstKey Block.addr q.addr S₁ = firstKey Block.addr w.freep S ∧
      S₁.length ≤ S.length ∧ ∀ s ∈ f :: S₁, s ∈ baseBlock base :: bs := by
    cases found : S.find? fun s => decide (nunits.toNat ≤ s.units.toNat) with
    | some q =>
      obtain ⟨fits, S₁, S₂, rfl, before⟩ := List.find?_eq_some_iff_append.mp found
      have linked : Linked w.mem w.freep ((f :: S₁) ++ q :: S₂) := linked
      obtain ⟨links, rest⟩ := chain_append.mp linked
      refine ⟨S₁, q, links, fun s mem => ⟨?_, others s (by simp [mem])⟩, of_decide_eq_true fits,
        ⟨_, rest.1⟩, perm.subset (by simp), ?_, by simp, fun s mem => perm.subset ?_⟩
      · simpa using before s mem
      · rw [firstKey_append]
        rfl
      · exact List.mem_append_left _ (show s ∈ f :: S₁ from mem)
    | none =>
      have few := List.find?_eq_none.mp found
      obtain ⟨c, mem, fits⟩ := large
      have own : c ∈ f :: S := perm.symm.subset (List.mem_cons_of_mem _ mem)
      obtain rfl | mem := List.mem_cons.mp own
      · refine ⟨S, c, start ▸ linked, fun s mem => ⟨by simpa using few s mem, others s mem⟩, fits,
          ⟨_, linked.1⟩, perm.subset List.mem_cons_self, by rw [start], Nat.le_refl _,
          fun s mem => perm.subset mem⟩
      · exact absurd (by simpa using few c mem) (Nat.not_lt.mpr fits)
  obtain ⟨begin, shorter, nodes⟩ := short
  obtain ⟨rest, rfl⟩ := Nat.exists_eq_add_of_lt (by omega : S₁.length < fuel)
  obtain ⟨prev, mem, link, run⟩ := mallocLoop_skip sbrk (rest + 1) links small
  obtain ⟨_, header⟩ := header
  have free : q ∈ bs := by
    obtain rfl | free := List.mem_cons.mp there
    · exact absurd fits (Nat.not_le.mpr pos)
    · exact free
  obtain ⟨mem', bs', u, taken, allots, node', shorter'⟩ := take_spec list (nodes prev mem) free link
    (mapped q free) pos fits
  refine ⟨firstKey Block.addr w.freep S, mem', bs', u, prev.addr, ?_, ?_, allots, node', shorter'⟩
  · rw [← start] at linked ⊢
    exact ptr_eq linked.1
  · rw [start, begin, ← Nat.add_assoc, mallocLoop_take header fits] at run
    exact run.trans taken

/-- If no block is large enough, more memory is asked for. -/
theorem mallocLoop_more (sbrk : UInt32 → Prog (World σ) UInt32) (list : FreeList base w.mem bs) (node : Node base bs w.freep)
    (pos : 0 < nunits.toNat) (small : ∀ c ∈ bs, c.units.toNat < nunits.toNat) (fuel : Nat) :
    ∃ next, ptr w.freep w = some (next, w) ∧
      mallocLoop sbrk nunits (bs.length + (fuel + 1)) w.freep next w = (do
        let p ← morecore sbrk fuel nunits
        if p = 0 then return 0
        else do
          let q ← ptr p
          mallocLoop sbrk nunits fuel p q : Prog (World σ) UInt32) w := by
  obtain ⟨f, S, start, linked, perm, others⟩ := list.enter node
  have length : S.length = bs.length := Nat.succ.inj perm.length_eq
  have few {s : Block} (mem : s ∈ f :: S) : s.units.toNat < nunits.toNat := by
    obtain rfl | there := List.mem_cons.mp (perm.subset mem)
    · exact pos
    · exact small s there
  obtain ⟨prev, mem, link, run⟩ := mallocLoop_skip sbrk (fuel + 1) linked
    fun s mem => ⟨few (List.mem_cons_of_mem f mem), others s mem⟩
  refine ⟨firstKey Block.addr w.freep S, ?_, ?_⟩
  · rw [← start] at linked ⊢
    exact ptr_eq linked.1
  · have header : Header w.mem f.addr (firstKey Block.addr w.freep S) f.units := linked.1
    rw [start] at header
    rw [length, start] at run
    refine run.trans ((Prog.run_bind (size_eq header)).trans ?_)
    rw [if_neg (fun large => Nat.not_le.mpr (few List.mem_cons_self)
      (UInt32.le_iff_toNat_le.mp large))]
    refine (Prog.run_get_bind _ _).trans ?_
    rw [if_pos rfl]

end Xv6.Malloc
