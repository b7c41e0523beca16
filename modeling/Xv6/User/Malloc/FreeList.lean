import Xv6.Lib.Chain
import Xv6.User.Malloc.Code

/-! The circular list of free blocks, and what free() makes of it. -/

namespace Xv6.Malloc
open Lib

/-! ## Headers -/

structure Block where
  addr : UInt32
  units : UInt32
  deriving DecidableEq, Repr

/-- The first address behind the block. -/
def Block.stop (b : Block) : Nat := b.addr.toNat + 8 * b.units.toNat

/-- The address is one of the block. -/
def Block.Has (b : Block) (x : Nat) : Prop := b.addr.toNat ≤ x ∧ x < b.stop

/-- Some block of the list has the address. -/
def Covers (bs : List Block) (x : Nat) : Prop := ∃ b ∈ bs, b.Has x

/-- The header at `a` is in the memory. -/
structure Header (mem : Nat → Option UInt8) (a next units : UInt32) : Prop where
  room : a.toNat + 8 ≤ 2 ^ 32
  ptr : readWord mem a.toNat = some next
  size : readWord mem (a.toNat + 4) = some units

/-- The headers at the given addresses may have changed, and nothing else. -/
structure Edits (mem mem' : Nat → Option UInt8) (as : List UInt32) : Prop where
  same : ∀ x, (∀ a ∈ as, x < a.toNat ∨ a.toNat + 8 ≤ x) → mem' x = mem x
  mapped : ∀ x, (mem' x).isSome = (mem x).isSome

/-- Headers at the two addresses do not overlap. -/
def Away (a b : UInt32) : Prop := a.toNat + 8 ≤ b.toNat ∨ b.toNat + 8 ≤ a.toNat

variable {σ : Type} {w : World σ} {mem mem' mem'' : Nat → Option UInt8} {a b next units v : UInt32}
  {as as' : List UInt32}

theorem Away.symm (h : Away a b) : Away b a := Or.symm h

theorem Edits.refl (mem : Nat → Option UInt8) : Edits mem mem [] := ⟨fun _ _ => rfl, fun _ => rfl⟩

theorem Edits.trans (first : Edits mem mem' as) (second : Edits mem' mem'' as') :
    Edits mem mem'' (as ++ as') where
  same x outside := by
    rw [second.same x fun a mem => outside a (List.mem_append_right _ mem),
      first.same x fun a mem => outside a (List.mem_append_left _ mem)]
  mapped x := (second.mapped x).trans (first.mapped x)

theorem Edits.mono (h : Edits mem mem' as) (sub : ∀ a ∈ as, a ∈ as') : Edits mem mem' as' :=
  ⟨fun x outside => h.same x fun a mem => outside a (sub a mem), h.mapped⟩

theorem Header.congr (h : Header mem a next units)
    (same : ∀ x, a.toNat ≤ x → x < a.toNat + 8 → mem' x = mem x) : Header mem' a next units := by
  refine ⟨h.room, ?_, ?_⟩
  · rw [readWord_congr fun x low high => same x low (by omega)]
    exact h.ptr
  · rw [readWord_congr fun x low high => same x (by omega) (by omega)]
    exact h.size

/-- A header away from those that change stays. -/
theorem Header.edits (h : Header mem a next units) (edits : Edits mem mem' as)
    (away : ∀ b ∈ as, Away a b) : Header mem' a next units := by
  refine h.congr fun x low high => edits.same x fun b there => ?_
  have := away b there
  unfold Away at this
  omega

/-- There is a header wherever there is memory. -/
theorem exists_header (room : a.toNat + 8 ≤ 2 ^ 32)
    (mapped : ∀ x, a.toNat ≤ x → x < a.toNat + 8 → (mem x).isSome) :
    ∃ next units, Header mem a next units := by
  have first : (readWord mem a.toNat).isSome :=
    isSome_readWord.mpr fun x low high => mapped x low (by omega)
  have second : (readWord mem (a.toNat + 4)).isSome :=
    isSome_readWord.mpr fun x low high => mapped x (by omega) (by omega)
  obtain ⟨next, ptr⟩ := Option.isSome_iff_exists.mp first
  obtain ⟨units, size⟩ := Option.isSome_iff_exists.mp second
  exact ⟨next, units, room, ptr, size⟩

theorem toNat_add_four (room : a.toNat + 8 ≤ 2 ^ 32) : (a + 4).toNat = a.toNat + 4 := by
  rw [UInt32.toNat_add]
  exact Nat.mod_eq_of_lt (by have : (4 : UInt32).toNat = 4 := rfl; omega)

theorem load_eq (there : readWord w.mem a.toNat = some v) : load a w = some (v, w) := by
  simp only [load, there]

theorem ptr_eq (h : Header w.mem a next units) : ptr a w = some (next, w) := load_eq h.ptr

theorem size_eq (h : Header w.mem a next units) : size a w = some (units, w) := by
  apply load_eq
  rw [toNat_add_four h.room]
  exact h.size

theorem setPtr_eq (h : Header w.mem a next units) (v : UInt32) :
    ∃ mem', setPtr a v w = some ((), { w with mem := mem' }) ∧ Header mem' a v units ∧
      Edits w.mem mem' [a] := by
  refine ⟨writeWord w.mem a.toNat v, by simp only [setPtr, store, h.ptr],
    ⟨h.room, readWord_writeWord _ _ _, ?_⟩, fun x outside => ?_, fun x => ?_⟩
  · rw [readWord_congr fun x low high => writeWord_outside (by omega)]
    exact h.size
  · have := outside a List.mem_cons_self
    exact writeWord_outside (by omega)
  · exact isSome_writeWord (by rw [h.ptr]; rfl) v x

theorem setSize_eq (h : Header w.mem a next units) (v : UInt32) :
    ∃ mem', setSize a v w = some ((), { w with mem := mem' }) ∧ Header mem' a next v ∧
      Edits w.mem mem' [a] := by
  have four := toNat_add_four h.room
  refine ⟨writeWord w.mem (a.toNat + 4) v, by simp only [setSize, store, four, h.size],
    ⟨h.room, ?_, readWord_writeWord _ _ _⟩, fun x outside => ?_, fun x => ?_⟩
  · rw [readWord_congr fun x low high => writeWord_outside (by omega)]
    exact h.ptr
  · have := outside a List.mem_cons_self
    exact writeWord_outside (by omega)
  · exact isSome_writeWord (by rw [h.size]; rfl) v x

/-! ## The list -/

/-- The node that base is. -/
def baseBlock (base : UInt32) : Block := ⟨base, 0⟩

/-- The nodes are linked through their headers. -/
abbrev Linked (mem : Nat → Option UInt8) (e : UInt32) (bs : List Block) : Prop :=
  Chain Block.addr (fun b next => Header mem b.addr next b.units) e bs

/-- The free blocks are in the order of their addresses, none of them ends where the
next one starts, and base is linked to the first of them and the last one to base. -/
structure FreeList (base : UInt32) (mem : Nat → Option UInt8) (bs : List Block) : Prop where
  linked : Linked mem base (baseBlock base :: bs)
  sorted : bs.Pairwise fun b c => b.stop < c.addr.toNat
  above : ∀ b ∈ bs, base.toNat + 8 ≤ b.addr.toNat
  real : ∀ b ∈ bs, 0 < b.units.toNat
  small : ∀ b ∈ bs, b.stop < 2 ^ 32

/-- `p` is one of the nodes. -/
def Node (base : UInt32) (bs : List Block) (p : UInt32) : Prop :=
  ∃ b ∈ baseBlock base :: bs, b.addr = p

/-- The node that ends before `b` and those that start behind it. -/
structure Place (base : UInt32) (bs : List Block) (b : Block) (L : List Block) (p : Block)
    (R : List Block) : Prop where
  nodes : baseBlock base :: bs = L ++ p :: R
  before : p.stop ≤ b.addr.toNat
  clear : p.addr.toNat + 8 ≤ b.addr.toNat
  behind : ∀ c ∈ R, b.stop ≤ c.addr.toNat

variable {base : UInt32} {bs L R : List Block} {p c d : Block} {b : Block}

/-- Blocks that share no address lie one behind the other. -/
theorem stop_le_of_disjoint (real : 0 < c.units.toNat) (real' : 0 < d.units.toNat)
    (disjoint : ∀ x, ¬ (c.Has x ∧ d.Has x)) :
    c.stop ≤ d.addr.toNat ∨ d.stop ≤ c.addr.toNat := by
  have first := disjoint c.addr.toNat
  have second := disjoint d.addr.toNat
  simp only [Block.Has, Block.stop] at first second ⊢
  omega

namespace FreeList

theorem spaced (list : FreeList base mem bs) :
    (baseBlock base :: bs).Pairwise fun c d => c.addr.toNat + 8 ≤ d.addr.toNat := by
  refine List.pairwise_cons.mpr ⟨list.above, list.sorted.imp_of_mem ?_⟩
  intro c d there _ before
  have := list.real c there
  unfold Block.stop at before
  omega

theorem nodes_sorted (list : FreeList base mem bs) :
    (baseBlock base :: bs).Pairwise fun c d => c.stop < d.addr.toNat := by
  refine List.pairwise_cons.mpr ⟨fun c there => ?_, list.sorted⟩
  have : (baseBlock base).stop = base.toNat := rfl
  have := list.above c there
  omega

/-- Every block that is apart from the free ones has its place among them. -/
theorem exists_place (list : FreeList base mem bs) (real : 0 < b.units.toNat)
    (above : base.toNat + 8 ≤ b.addr.toNat) (apart : ∀ c ∈ bs, ∀ x, ¬ (b.Has x ∧ c.Has x)) :
    ∃ L p R, Place base bs b L p R := by
  -- by induction on the blocks that may come before `b`
  suffices split : ∀ (L : List Block) (p : Block) (R : List Block),
      baseBlock base :: bs = L ++ p :: R → p.stop ≤ b.addr.toNat →
      p.addr.toNat + 8 ≤ b.addr.toNat → ∃ L p R, Place base bs b L p R by
    exact split [] (baseBlock base) bs rfl (by show base.toNat ≤ _; omega) above
  intro L p R
  induction R generalizing L p with
  | nil => exact fun nodes before clear => ⟨L, p, [], nodes, before, clear, by simp⟩
  | cons c R ih =>
    intro nodes before clear
    have there : c ∈ bs := by
      have mem : c ∈ baseBlock base :: bs := by rw [nodes]; simp
      obtain rfl | mem := List.mem_cons.mp mem
      · have order := list.spaced
        rw [nodes, List.pairwise_append] at order
        cases L with
        | nil =>
          have := (List.pairwise_cons.mp order.2.1).1 _ List.mem_cons_self
          have first := (List.cons.inj nodes).1
          rw [← first] at this
          omega
        | cons a L =>
          have := order.2.2 a List.mem_cons_self (baseBlock base) (by simp)
          have first := (List.cons.inj nodes).1
          rw [← first] at this
          omega
      · exact mem
    obtain behind | before' := stop_le_of_disjoint real (list.real c there) (apart c there)
    · refine ⟨L, p, c :: R, nodes, before, clear, fun d mem => ?_⟩
      obtain rfl | later := List.mem_cons.mp mem
      · exact behind
      · have order := list.spaced
        rw [nodes, List.pairwise_append] at order
        have := (List.pairwise_cons.mp (List.pairwise_cons.mp order.2.1).2).1 d later
        omega
    · refine ih (L ++ [p]) c (by rw [nodes, List.append_assoc]; rfl) before' ?_
      have := list.real c there
      unfold Block.stop at before'
      omega

end FreeList

/-! ## The search -/

theorem freeLoop_stop {bp q : UInt32} (header : Header w.mem q next units)
    (stop : (bp > q ∧ bp < next) ∨ (q ≥ next ∧ (bp > q ∨ bp < next))) (fuel : Nat) :
    freeLoop bp (fuel + 1) q w = some (q, w) := by
  rw [freeLoop]
  simp only [bind, ptr_eq header]
  by_cases inside : bp > q ∧ bp < next
  · rw [if_pos inside]
    rfl
  · rw [if_neg inside, if_pos (stop.resolve_left inside)]
    rfl

theorem freeLoop_on {bp q : UInt32} (header : Header w.mem q next units)
    (on : ¬ (bp > q ∧ bp < next)) (on' : ¬ (q ≥ next ∧ (bp > q ∨ bp < next))) (fuel : Nat) :
    freeLoop bp (fuel + 1) q w = freeLoop bp fuel next w := by
  rw [freeLoop]
  simp only [bind, ptr_eq header]
  rw [if_neg on, if_neg on']

theorem freeLoop_up {e : UInt32} {bp : UInt32} {S : List Block} {fuel : Nat}
    (linked : Linked w.mem e (S ++ p :: R))
    (spaced : (S ++ p :: R).Pairwise fun c d => c.addr.toNat + 8 ≤ d.addr.toNat)
    (before : p.addr.toNat < bp.toNat) (behind : ∀ c ∈ R, bp.toNat < c.addr.toNat)
    (ends : e.toNat ≤ p.addr.toNat) (enough : S.length < fuel) :
    freeLoop bp fuel (firstKey Block.addr e (S ++ p :: R)) w = some (p.addr, w) := by
  induction S generalizing fuel with
  | nil =>
    obtain ⟨fuel, rfl⟩ := Nat.exists_eq_succ_of_ne_zero (Nat.ne_of_gt enough)
    apply freeLoop_stop linked.1
    simp only [ge_iff_le, gt_iff_lt, UInt32.lt_iff_toNat_lt, UInt32.le_iff_toNat_le]
    cases R with
    | nil => exact .inr ⟨ends, .inl before⟩
    | cons c R => exact .inl ⟨before, behind c List.mem_cons_self⟩
  | cons s S ih =>
    obtain ⟨fuel, rfl⟩ := Nat.exists_eq_succ_of_ne_zero (Nat.ne_zero_of_lt enough)
    obtain ⟨first, rest⟩ := List.pairwise_cons.mp spaced
    -- the next node is not behind `p`
    have order : s.addr.toNat < (firstKey Block.addr e (S ++ p :: R)).toNat ∧
        (firstKey Block.addr e (S ++ p :: R)).toNat ≤ p.addr.toNat := by
      cases S with
      | nil =>
        have := first p List.mem_cons_self
        exact ⟨by show _ < p.addr.toNat; omega, Nat.le_refl _⟩
      | cons s' S =>
        have above := first s' List.mem_cons_self
        have below := (List.pairwise_cons.mp rest).1 p (by simp)
        exact ⟨by show _ < s'.addr.toNat; omega, by show s'.addr.toNat ≤ _; omega⟩
    have header : Header w.mem s.addr (firstKey Block.addr e (S ++ p :: R)) s.units := linked.1
    refine (freeLoop_on header ?_ ?_ fuel).trans
      (ih linked.2 rest (Nat.lt_of_succ_lt_succ enough))
    · simp only [gt_iff_lt, UInt32.lt_iff_toNat_lt]
      omega
    · simp only [ge_iff_le, UInt32.le_iff_toNat_le]
      omega

/-- Nodes behind the place lead round to base. -/
theorem freeLoop_round (fuel : Nat) {e : UInt32} {bp : UInt32} {S : List Block}
    (linked : Linked w.mem e S)
    (spaced : S.Pairwise fun c d => c.addr.toNat + 8 ≤ d.addr.toNat)
    (behind : ∀ c ∈ S, bp.toNat < c.addr.toNat) (ends : e.toNat ≤ bp.toNat) :
    freeLoop bp (S.length + fuel) (firstKey Block.addr e S) w = freeLoop bp fuel e w := by
  induction S with
  | nil => rw [List.length_nil, Nat.zero_add]; rfl
  | cons s S ih =>
    obtain ⟨first, rest⟩ := List.pairwise_cons.mp spaced
    have above := behind s List.mem_cons_self
    rw [List.length_cons, Nat.add_right_comm]
    refine (freeLoop_on linked.1 ?_ ?_ _).trans
      (ih linked.2 rest fun c mem => behind c (List.mem_cons_of_mem s mem))
    · simp only [gt_iff_lt, UInt32.lt_iff_toNat_lt]
      omega
    · simp only [ge_iff_le, gt_iff_lt, UInt32.lt_iff_toNat_lt, UInt32.le_iff_toNat_le]
      cases S with
      | nil =>
        simp only [firstKey]
        omega
      | cons s' S =>
        have := first s' List.mem_cons_self
        simp only [firstKey]
        omega

theorem freeLoop_eq (list : FreeList base w.mem bs) (place : Place base bs b L p R)
    (node : Node base bs w.freep) (real : 0 < b.units.toNat) {fuel : Nat}
    (enough : 2 * (bs.length + 1) ≤ fuel) :
    freeLoop b.addr fuel w.freep w = some (p.addr, w) := by
  have linked := list.linked
  have spaced := list.spaced
  have length : bs.length + 1 = L.length + (R.length + 1) := by
    have := congrArg List.length place.nodes
    rwa [List.length_cons, List.length_append, List.length_cons] at this
  rw [place.nodes] at linked spaced
  have behind : ∀ c ∈ R, b.addr.toNat < c.addr.toNat := by
    intro c there
    have := place.behind c there
    unfold Block.stop at this
    omega
  have clear := place.clear
  have low : base.toNat ≤ p.addr.toNat := by
    cases L with
    | nil =>
      have first := (List.cons.inj place.nodes).1
      rw [← first]
      exact Nat.le_refl _
    | cons a L =>
      have first := (List.cons.inj place.nodes).1
      have := (List.pairwise_cons.mp spaced).1 p (by simp)
      rw [← first] at this
      exact Nat.le_trans (Nat.le_add_right _ 8) this
  -- from base on the place is found
  have home {fuel : Nat} (enough : L.length < fuel) :
      freeLoop b.addr fuel base w = some (p.addr, w) := by
    have start : firstKey Block.addr base (L ++ p :: R) = base := by
      rw [← place.nodes]
      rfl
    have up := freeLoop_up linked spaced (by omega : p.addr.toNat < b.addr.toNat) behind low enough
    rwa [start] at up
  obtain ⟨q, there, start⟩ := node
  rw [place.nodes, List.mem_append] at there
  rw [← start]
  obtain below | above := there
  · obtain ⟨L₁, L₂, rfl⟩ := List.append_of_mem below
    rw [List.append_assoc] at linked spaced
    have up := freeLoop_up (S := q :: L₂) (chain_append.mp linked).2
      (List.pairwise_append.mp spaced).2.1 (by omega : p.addr.toNat < b.addr.toNat) behind low
      (by simp only [List.length_append, List.length_cons] at length ⊢; omega : _ < fuel)
    exact up
  · obtain rfl | above := List.mem_cons.mp above
    · exact freeLoop_up (S := []) (chain_append.mp linked).2 (List.pairwise_append.mp spaced).2.1
        (by omega : q.addr.toNat < b.addr.toNat) behind low (by omega : 0 < fuel)
    · obtain ⟨R₁, R₂, rfl⟩ := List.append_of_mem above
      have tail := (chain_append.mp (chain_append.mp linked).2.2).2
      have tailSpaced := (List.pairwise_append.mp
        (List.pairwise_cons.mp (List.pairwise_append.mp spaced).2.1).2).2.1
      obtain ⟨rest, rfl⟩ := Nat.exists_eq_add_of_le
        (by simp only [List.length_append, List.length_cons] at length ⊢; omega :
          (q :: R₂).length ≤ fuel)
      have round := freeLoop_round rest tail tailSpaced
        (fun c mem => behind c (List.mem_append_right _ mem)) (by omega : base.toNat ≤ b.addr.toNat)
      refine round.trans (home ?_)
      simp only [List.length_append, List.length_cons] at length enough
      omega

end Xv6.Malloc
