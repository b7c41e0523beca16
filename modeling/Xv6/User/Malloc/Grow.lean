import Xv6.User.Malloc.Allot

/-! A call of malloc() as a whole, with what it may rely on of sbrk(). -/

namespace Xv6.Malloc
open Lib

variable {σ : Type} {w w' : World σ} {mem mem' : Nat → Option UInt8}
  {base nu nbytes a n : UInt32} {bs : List Block} {fuel : Nat}

/-! ## sbrk() -/

/-- A call of sbrk() leaves what there was. -/
structure Leaves (top : σ → Nat) (w w' : World σ) : Prop where
  freep : w'.freep = w.freep
  grows : top w.os ≤ top w'.os
  mem : ∀ x, x < top w.os → w'.mem x = w.mem x

/-- The `n` bytes at `a` are new. -/
structure Granted (top : σ → Nat) (w w' : World σ) (a n : UInt32) : Prop where
  fresh : top w.os ≤ a.toNat
  stop : a.toNat + n.toNat ≤ top w'.os
  room : top w'.os < 2 ^ 32
  mapped : ∀ x, a.toNat ≤ x → x < a.toNat + n.toNat → (w'.mem x).isSome

/-- To a request that is positive as an int the answer is -1 or memory behind all
that there has been. -/
structure Sbrk (σ : Type) where
  run : UInt32 → Prog (World σ) UInt32
  /-- where the memory of the process ends -/
  top : σ → Nat
  /-- the states that sbrk() is made for; what is stored in the memory does not matter -/
  Sane : World σ → Prop
  sane_of_mapped : ∀ {w w' : World σ}, Sane w → w'.os = w.os →
    (∀ x, (w'.mem x).isSome = (w.mem x).isSome) → Sane w'
  answers : ∀ (n : UInt32) (w : World σ), Sane w → 0 < n.toNat → n.toNat < 2 ^ 31 →
    ∃ a w', run n w = some (a, w') ∧ Sane w' ∧ Leaves top w w' ∧
      (a = failed ∨ Granted top w w' a n)

theorem Granted.ne_failed {top : σ → Nat} (granted : Granted top w w' a n) (pos : 0 < n.toNat) :
    a ≠ failed := by
  rintro rfl
  have stop := granted.stop
  have room := granted.room
  have : failed.toNat = 2 ^ 32 - 1 := rfl
  omega

/-! ## morecore() -/

theorem toNat_moreUnits (nu : UInt32) : (moreUnits nu).toNat = max 4096 nu.toNat := by
  have page : (4096 : UInt32).toNat = 4096 := rfl
  unfold moreUnits
  split
  next small =>
    rw [UInt32.lt_iff_toNat_lt] at small
    omega
  next large =>
    rw [UInt32.lt_iff_toNat_lt] at large
    omega

theorem toNat_bytes (fits : 8 * nu.toNat < 2 ^ 32) : (nu * unit).toNat = 8 * nu.toNat := by
  have eight : unit.toNat = 8 := rfl
  rw [UInt32.toNat_mul, eight, Nat.mul_comm]
  exact Nat.mod_eq_of_lt fits

theorem FreeList.congr (list : FreeList base mem bs)
    (same : ∀ x, InList base bs x → mem' x = mem x) : FreeList base mem' bs where
  linked := list.linked.imp fun c there _ h => h.congr fun x low high =>
    same x (list.node_inList ⟨c, there, rfl⟩ low high)
  sorted := list.sorted
  above := list.above
  real := list.real
  small := list.small

/-- The block that morecore() asks for and puts into the list. -/
def chunk (a nu : UInt32) : Block := ⟨a, moreUnits nu⟩

/-- The list is longer by the new block, merged with what it touches. -/
structure Extended (base : UInt32) (bs : List Block) (c : Block) (mem mem' : Nat → Option UInt8)
    (bs' : List Block) (p : UInt32) : Prop where
  list : FreeList base mem' bs'
  node : Node base bs' p
  covers : ∀ x, Covers bs' x ↔ Covers bs x ∨ c.Has x
  large : ∃ d ∈ bs', c.units.toNat ≤ d.units.toNat
  keeps : Keeps base bs' mem mem'
  length : bs'.length ≤ bs.length + 1

theorem morecore_spec (B : Sbrk σ) (sane : B.Sane w) (list : FreeList base w.mem bs) (node : Node base bs w.freep)
    (low : ∀ x, InList base bs x → x < B.top w.os) (fits : 8 * nu.toNat < 2 ^ 31)
    (enough : 2 * (bs.length + 1) ≤ fuel) :
    ∃ a w₁, B.run (moreUnits nu * unit) w = some (a, w₁) ∧ B.Sane w₁ ∧ Leaves B.top w w₁ ∧
      ((a = failed ∧ morecore B.run fuel nu w = some (0, w₁)) ∨
        (Granted B.top w w₁ a (moreUnits nu * unit) ∧ a ≠ failed ∧
          ∃ mem' bs' p, morecore B.run fuel nu w = some (p, { w₁ with mem := mem', freep := p }) ∧
            Extended base bs (chunk a nu) w₁.mem mem' bs' p)) := by
  have more := toNat_moreUnits nu
  have bytes : (moreUnits nu * unit).toNat = 8 * (moreUnits nu).toNat := toNat_bytes (by omega)
  obtain ⟨a, w₁, run, sane₁, leaves, answer⟩ := B.answers (moreUnits nu * unit) w sane (by omega)
    (by omega)
  refine ⟨a, w₁, run, sane₁, leaves, ?_⟩
  obtain rfl | granted := answer
  · refine .inl ⟨rfl, Prog.bind_eq_some.mpr ⟨failed, w₁, run, ?_⟩⟩
    rw [if_pos rfl]
    rfl
  · have valid := granted.ne_failed (by omega)
    refine .inr ⟨granted, valid, ?_⟩
    have fresh := granted.fresh
    have stop := granted.stop
    have room := granted.room
    have ends : (chunk a nu).stop = a.toNat + 8 * (moreUnits nu).toNat := rfl
    have inside (x : Nat) (lo : a.toNat ≤ x) (hi : x < a.toNat + 8) : (w₁.mem x).isSome :=
      granted.mapped x lo (by omega)
    obtain ⟨q, _, header⟩ := exists_header (by omega) inside
    obtain ⟨mem₁, set, header₁, edits₁⟩ := setSize_eq header (moreUnits nu)
    -- the list as it was, below the new block
    have below (x : Nat) (inList : InList base bs x) : mem₁ x = w.mem x := by
      have := low x inList
      rw [edits₁.same x (by simp only [List.mem_singleton, forall_eq]; omega)]
      exact leaves.mem x this
    have bound : base.toNat + 8 ≤ a.toNat := by
      have := low (base.toNat + 7) (.inl ⟨by omega, by omega⟩)
      omega
    obtain ⟨mem', bs', p, freed, list', node', oldNode, edits₂, covers, large, length⟩ := free_spec
      (w := { w₁ with mem := mem₁ }) (b := chunk a nu) (list.congr below) (by rw [leaves.freep]; exact node)
      header₁ (by show 0 < (moreUnits nu).toNat; omega) (by omega) bound
      (fun c there x both => by
        have := low x (.inr ⟨c, there, both.2⟩)
        have := both.1.1
        have : (chunk a nu).addr.toNat = a.toNat := rfl
        omega) enough
    refine ⟨mem', bs', p, ?_, list', node', covers, large, ?_, length⟩
    · refine Prog.bind_eq_some.mpr ⟨a, w₁, run, ?_⟩
      rw [if_neg valid]
      refine Prog.bind_eq_some.mpr ⟨_, _, set, ?_⟩
      exact Prog.bind_eq_some.mpr ⟨_, _, freed, rfl⟩
    · refine (edits₁.trans edits₂).keeps fun b there x lo hi => ?_
      have own (x : Nat) (lo : a.toNat ≤ x) (hi : x < a.toNat + 8) : InList base bs' x :=
        .inr ((covers x).mpr (.inr ⟨lo, by omega⟩))
      simp only [List.cons_append, List.nil_append, List.mem_cons, List.not_mem_nil, or_false] at there
      obtain rfl | rfl | rfl := there
      · exact own x lo hi
      · exact own x lo hi
      · exact (list.node_inList oldNode lo hi).imp_right fun old => (covers x).mpr (.inl old)

/-! ## malloc() -/

/-- The list of free blocks is there, or will be made by the next call. -/
def Ready (base : UInt32) (w : World σ) (bs : List Block) : Prop :=
  (w.freep = 0 ∧ bs = [] ∧ ∀ x, base.toNat ≤ x → x < base.toNat + 8 → (w.mem x).isSome) ∨
    (FreeList base w.mem bs ∧ Node base bs w.freep)

theorem initBase_spec (room : base.toNat + 8 ≤ 2 ^ 32)
    (mapped : ∀ x, base.toNat ≤ x → x < base.toNat + 8 → (w.mem x).isSome) :
    ∃ mem', initBase base w = some ((), { w with mem := mem', freep := base }) ∧
      FreeList base mem' [] ∧ Edits w.mem mem' [base] := by
  obtain ⟨_, _, header⟩ := exists_header room mapped
  obtain ⟨mem₁, set₁, header₁, edits₁⟩ := setPtr_eq header base
  obtain ⟨mem₂, set₂, header₂, edits₂⟩ := setSize_eq (w := { w with mem := mem₁, freep := base })
    header₁ 0
  refine ⟨mem₂, ?_, ⟨⟨header₂, trivial⟩, .nil, ?_, ?_, ?_⟩, (edits₁.trans edits₂).mono (by simp)⟩
  · refine Prog.bind_eq_some.mpr ⟨_, _, set₁, ?_⟩
    exact Prog.bind_eq_some.mpr ⟨_, _, rfl, set₂⟩
  all_goals
    intro b there
    cases there

/-- What a call takes out of the free blocks and what has been added to them. -/
structure Outcome (B : Sbrk σ) (base : UInt32) (w : World σ) (bs : List Block) (n : UInt32)
    (added : List Block) (w' : World σ) (bs' taken : List Block) : Prop where
  list : FreeList base w'.mem bs'
  node : Node base bs' w'.freep
  covers : ∀ x, Covers bs' x ∨ Covers taken x ↔ Covers bs x ∨ Covers added x
  apart : ∀ u ∈ taken, ∀ c ∈ bs', ∀ x, ¬ (u.Has x ∧ c.Has x)
  header : ∀ u ∈ taken, u.units = n ∧ ∃ next, Header w'.mem u.addr next n
  above : ∀ u ∈ taken, base.toNat + 8 ≤ u.addr.toNat ∧ u.stop < 2 ^ 32
  sane : B.Sane w'
  grows : B.top w.os ≤ B.top w'.os
  frame : ∀ x, x < B.top w.os → ¬ InList base bs x → w'.mem x = w.mem x
  mapped : ∀ x, x < B.top w.os → (w'.mem x).isSome = (w.mem x).isSome
  fresh : ∀ c ∈ added, B.top w.os ≤ c.addr.toNat ∧ c.stop ≤ B.top w'.os ∧
    ∀ x, c.Has x → (w'.mem x).isSome

/-- One of the free blocks has been large enough, or sbrk() has been asked for more. -/
def Asked (B : Sbrk σ) (bs : List Block) (nu : UInt32) (os os' : σ) (added taken : List Block) : Prop :=
  ((∃ c ∈ bs, nu.toNat ≤ c.units.toNat) ∧ os' = os ∧ added = [] ∧ taken ≠ []) ∨
    ((∀ c ∈ bs, c.units.toNat < nu.toNat) ∧
      ∃ a w₀ w₁, B.run (moreUnits nu * unit) w₀ = some (a, w₁) ∧ w₀.os = os ∧ w₁.os = os' ∧
        ((a = failed ∧ added = [] ∧ taken = []) ∨ (a ≠ failed ∧ added = [chunk a nu] ∧ taken ≠ [])))

/-- The result is the block that has been taken, or 0. -/
def Returned (r : UInt32) (taken : List Block) : Prop :=
  (r = 0 ∧ taken = []) ∨ ∃ u, r = u.addr + unit ∧ taken = [u]

theorem mallocLoop_spec (B : Sbrk σ) (sane : B.Sane w) (list : FreeList base w.mem bs)
    (node : Node base bs w.freep) (real : 0 < base.toNat)
    (mapped : ∀ c ∈ bs, ∀ x, c.Has x → (w.mem x).isSome)
    (low : ∀ x, InList base bs x → x < B.top w.os) (pos : 0 < nu.toNat)
    (fits : 8 * nu.toNat < 2 ^ 31) (enough : 2 ^ 32 ≤ fuel) :
    ∃ next r w' added bs' taken, ptr w.freep w = some (next, w) ∧
      mallocLoop B.run nu fuel w.freep next w = some (r, w') ∧
      Outcome B base w bs nu added w' bs' taken ∧ Asked B bs nu w.os w'.os added taken ∧
      Returned r taken := by
  have length := list.length_le
  by_cases large : ∃ c ∈ bs, nu.toNat ≤ c.units.toNat
  · obtain ⟨next, mem', bs', u, prev, first, run, allots, node', _⟩ := mallocLoop_found
      B.run list node mapped pos large (by omega : bs.length < fuel)
    refine ⟨next, _, _, [], bs', [u], first, run, ⟨allots.list, node', fun x => ?_, ?_, ?_, ?_,
      B.sane_of_mapped sane rfl allots.keeps.mapped, Nat.le_refl _,
      fun x _ out => allots.keeps.same x out, fun x _ => allots.keeps.mapped x, by simp⟩,
      .inl ⟨large, rfl, rfl, List.cons_ne_nil _ _⟩, .inr ⟨u, rfl, rfl⟩⟩
    · rw [allots.covers x, covers_singleton, or_iff_left not_covers_nil]
    · simpa using allots.apart
    · simpa using ⟨allots.units, allots.header⟩
    · simpa using ⟨allots.above, allots.small⟩
  · have small : ∀ c ∈ bs, c.units.toNat < nu.toNat := fun c there =>
      Nat.lt_of_not_le fun fits => large ⟨c, there, fits⟩
    obtain ⟨rest, rfl⟩ := Nat.exists_eq_add_of_lt (by omega : bs.length < fuel)
    obtain ⟨next, first, run⟩ := mallocLoop_more B.run list node pos small rest
    obtain ⟨a, w₁, asked, sane₁, leaves, ⟨rfl, none⟩ | ⟨granted, valid, mem₂, bs₂, p, more, ext⟩⟩ :=
      morecore_spec B sane list node low fits (by omega : 2 * (bs.length + 1) ≤ rest)
    · refine ⟨next, 0, w₁, [], bs, [], first, ?_, ⟨list.congr fun x inside => leaves.mem x (low x inside),
        by rw [leaves.freep]; exact node, fun x => Iff.rfl, by simp, by simp, by simp, sane₁, leaves.grows,
        fun x inside _ => leaves.mem x inside, fun x inside => by rw [leaves.mem x inside], by simp⟩,
        .inr ⟨small, failed, w, w₁, asked, rfl, rfl, .inl ⟨rfl, rfl, rfl⟩⟩, .inl ⟨rfl, rfl⟩⟩
      refine run.trans ((Prog.run_bind none).trans ?_)
      rw [if_pos rfl]
      rfl
    · have ends : (chunk a nu).stop = a.toNat + (moreUnits nu * unit).toNat := by
        rw [toNat_bytes (by have := toNat_moreUnits nu; omega)]
        rfl
      have there (x : Nat) (own : (chunk a nu).Has x) : (mem₂ x).isSome := by
        rw [ext.keeps.mapped]
        exact granted.mapped x own.1 (by rw [← ends]; exact own.2)
      have below (x : Nat) (inside : x < B.top w.os) : (mem₂ x).isSome = (w.mem x).isSome := by
        rw [ext.keeps.mapped, leaves.mem x inside]
      have mapped₂ : ∀ c ∈ bs₂, ∀ x, c.Has x → (mem₂ x).isSome := by
        intro c mem x has
        obtain ⟨d, mem, has⟩ | own := (ext.covers x).mp ⟨c, mem, has⟩
        · rw [below x (low x (.inr ⟨d, mem, has⟩))]
          exact mapped d mem x has
        · exact there x own
      have large₂ : ∃ c ∈ bs₂, nu.toNat ≤ c.units.toNat := by
        obtain ⟨c, mem, units⟩ := ext.large
        refine ⟨c, mem, Nat.le_trans ?_ units⟩
        show nu.toNat ≤ (moreUnits nu).toNat
        rw [toNat_moreUnits]
        exact Nat.le_max_right ..
      have shorter := ext.length
      obtain ⟨next₂, mem', bs', u, prev, first₂, run₂, allots, node', _⟩ := mallocLoop_found
        (w := { w₁ with mem := mem₂, freep := p }) B.run ext.list ext.node mapped₂ pos
        large₂ (by omega : bs₂.length < rest)
      refine ⟨next, u.addr + unit, { w₁ with mem := mem', freep := prev }, [chunk a nu], bs', [u],
        first, ?_, ⟨allots.list, node', fun x => ?_, ?_, ?_, ?_,
        B.sane_of_mapped sane₁ rfl fun x => (allots.keeps.mapped x).trans (ext.keeps.mapped x),
        leaves.grows, fun x inside out => ?_, fun x inside => ?_, ?_⟩,
        .inr ⟨small, a, w, w₁, asked, rfl, rfl, .inr ⟨valid, rfl, List.cons_ne_nil _ _⟩⟩,
        .inr ⟨u, rfl, rfl⟩⟩
      · refine run.trans ((Prog.run_bind more).trans ?_)
        rw [if_neg (ext.list.node_ne_zero real ext.node)]
        exact (Prog.run_bind first₂).trans run₂
      · rw [covers_singleton, covers_singleton, ← ext.covers x]
        exact (allots.covers x).symm
      · simpa using allots.apart
      · simpa using ⟨allots.units, allots.header⟩
      · simpa using ⟨allots.above, allots.small⟩
      · have away : ¬ InList base bs₂ x := by
          rintro (own | covered)
          · exact out (.inl own)
          · obtain old | own := (ext.covers x).mp covered
            · exact out (.inr old)
            · have : a.toNat ≤ x := own.1
              have := granted.fresh
              omega
        rw [← leaves.mem x inside, ← ext.keeps.same x away]
        exact allots.keeps.same x away
      · rw [← below x inside]
        exact allots.keeps.mapped x
      · simp only [List.mem_singleton, forall_eq]
        refine ⟨granted.fresh, by rw [ends]; exact granted.stop, fun x own => ?_⟩
        show (mem' x).isSome
        rw [allots.keeps.mapped x]
        exact there x own

theorem toNat_unitsFor (fits : nbytes.toNat + 7 < 2 ^ 32) :
    (unitsFor nbytes).toNat = (nbytes.toNat + 7) / 8 + 1 := by
  have eight : unit.toNat = 8 := rfl
  have one : (1 : UInt32).toNat = 1 := rfl
  have sum : (nbytes + unit - 1).toNat = nbytes.toNat + 7 := by
    rw [UInt32.toNat_sub, UInt32.toNat_add]
    omega
  rw [unitsFor, UInt32.toNat_add, UInt32.toNat_div, sum, eight, one]
  omega

/-- A call searches the list, which it has made if there was none. -/
theorem Ready.starts (ready : Ready base w bs) (real : 0 < base.toNat)
    (room : base.toNat + 8 ≤ 2 ^ 32) :
    ∃ mem₀ f, FreeList base mem₀ bs ∧ Node base bs f ∧ Edits w.mem mem₀ [base] ∧
      ∀ (sbrk : UInt32 → Prog (World σ) UInt32) (fuel : Nat) (nbytes : UInt32),
        malloc base sbrk fuel nbytes w =
          (ptr f >>= mallocLoop sbrk (unitsFor nbytes) fuel f) { w with mem := mem₀, freep := f } := by
  obtain ⟨fresh, rfl, there⟩ | ⟨list, node⟩ := ready
  · obtain ⟨mem₀, init, list, edits⟩ := initBase_spec room there
    refine ⟨mem₀, base, list, ⟨baseBlock base, List.mem_cons_self, rfl⟩, edits, fun _ _ _ => ?_⟩
    rw [malloc, Prog.run_get_bind, Prog.when_pos fresh, Prog.run_bind init, Prog.run_get_bind]
  · refine ⟨w.mem, w.freep, list, node, (Edits.refl w.mem).mono (by simp), fun _ _ _ => ?_⟩
    rw [malloc, Prog.run_get_bind, Prog.when_neg (list.node_ne_zero real node)]
    rfl

/-- A call returns, with a block of the size asked for or 0. -/
theorem malloc_spec (B : Sbrk σ) (sane : B.Sane w) (ready : Ready base w bs) (real : 0 < base.toNat)
    (room : base.toNat + 8 ≤ 2 ^ 32)
    (mapped : ∀ c ∈ bs, ∀ x, c.Has x → (w.mem x).isSome)
    (low : ∀ x, InList base bs x → x < B.top w.os) (pos : 0 < (unitsFor nbytes).toNat)
    (fits : 8 * (unitsFor nbytes).toNat < 2 ^ 31) (enough : 2 ^ 32 ≤ fuel) :
    ∃ r w' added bs' taken, malloc base B.run fuel nbytes w = some (r, w') ∧
      Outcome B base w bs (unitsFor nbytes) added w' bs' taken ∧
      Asked B bs (unitsFor nbytes) w.os w'.os added taken ∧ Returned r taken := by
  obtain ⟨mem₀, f, list, node, edits, call⟩ := ready.starts real room
  obtain ⟨next, r, w', added, bs', taken, first, run, outcome, asked, returned⟩ := mallocLoop_spec
    (w := { w with mem := mem₀, freep := f }) B (B.sane_of_mapped sane rfl edits.mapped) list node real
    (fun c there x has => by rw [edits.mapped]; exact mapped c there x has) low pos fits enough
  refine ⟨r, w', added, bs', taken, ?_, { outcome with
    frame := fun x inside out => ?_, mapped := fun x inside => ?_ }, asked, returned⟩
  · rw [call]
    exact Prog.bind_eq_some.mpr ⟨_, _, first, run⟩
  · rw [outcome.frame x inside out]
    refine edits.same x fun a mem => ?_
    obtain rfl := List.mem_singleton.mp mem
    by_contra overlap
    exact out (.inl (by omega))
  · rw [outcome.mapped x inside]
    exact edits.mapped x

end Xv6.Malloc
