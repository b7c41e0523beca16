import Xv6.Lib.Runs
import Xv6.User.Malloc.Sbrk

/-! A program that calls malloc() and free(), with its own code in between. It frees what
it has been given and not freed yet, and of the memory of the allocator it writes to
what is in its hands. -/

namespace Xv6.Malloc
open Lib

variable {σ : Type}

/-! ## The answers of sbrk() -/

/-- The answers so far: where, and how many bytes. -/
structure Logged (σ : Type) where
  os : σ
  log : List (UInt32 × UInt32)

def logged (sbrk : UInt32 → Prog (World σ) UInt32) (n : UInt32) : Prog (World (Logged σ)) UInt32 :=
  fun w =>
    match sbrk n ⟨w.mem, w.freep, w.os.os⟩ with
    | some (a, w') =>
      some (a, ⟨w'.mem, w'.freep, w'.os, if a = failed then w.os.log else (a, n) :: w.os.log⟩)
    | none => none

/-- The address is in memory that sbrk() has added. -/
def Obtained (log : List (UInt32 × UInt32)) (x : Nat) : Prop :=
  ∃ r ∈ log, r.1.toNat ≤ x ∧ x < r.1.toNat + r.2.toNat

theorem logged_eq {sbrk : UInt32 → Prog (World σ) UInt32} {n a : UInt32} {w w' : World (Logged σ)}
    (run : logged sbrk n w = some (a, w')) :
    sbrk n ⟨w.mem, w.freep, w.os.os⟩ = some (a, ⟨w'.mem, w'.freep, w'.os.os⟩) ∧
      w'.os.log = if a = failed then w.os.log else (a, n) :: w.os.log := by
  unfold logged at run
  cases h : sbrk n ⟨w.mem, w.freep, w.os.os⟩ with
  | none =>
    rw [h] at run
    cases run
  | some r =>
    rw [h] at run
    cases run
    exact ⟨rfl, rfl⟩

def Sbrk.logged (B : Sbrk σ) : Sbrk (Logged σ) where
  run := Malloc.logged B.run
  top l := B.top l.os
  Sane w := B.Sane ⟨w.mem, w.freep, w.os.os⟩
  sane_of_mapped sane os mapped := B.sane_of_mapped sane (congrArg Logged.os os) mapped
  answers n w sane pos fits := by
    obtain ⟨a, w', run, sane', leaves, answer⟩ := B.answers n ⟨w.mem, w.freep, w.os.os⟩ sane pos fits
    refine ⟨a, ⟨w'.mem, w'.freep, w'.os, if a = failed then w.os.log else (a, n) :: w.os.log⟩, ?_,
      sane', ⟨leaves.freep, leaves.grows, leaves.mem⟩, answer.imp_right fun granted =>
        ⟨granted.fresh, granted.stop, granted.room, granted.mapped⟩⟩
    simp only [Malloc.logged, run]

theorem Asked.obtained {B : Sbrk σ} {bs added taken : List Block} {nu : UInt32} {os os' : Logged σ}
    (asked : Asked B.logged bs nu os os' added taken) (fits : 8 * nu.toNat < 2 ^ 31) (x : Nat) :
    Obtained os'.log x ↔ Obtained os.log x ∨ Covers added x := by
  obtain ⟨_, rfl, rfl, _⟩ | ⟨_, a, w₀, w₁, run, rfl, rfl, answer⟩ := asked
  · rw [or_iff_left not_covers_nil]
  · have log := (logged_eq run).2
    obtain ⟨rfl, rfl, _⟩ | ⟨valid, rfl, _⟩ := answer
    · rw [log, if_pos rfl, or_iff_left not_covers_nil]
    · have more := toNat_moreUnits nu
      have bytes : (moreUnits nu * unit).toNat = 8 * (moreUnits nu).toNat := toNat_bytes (by omega)
      rw [log, if_neg valid, covers_singleton]
      simp only [Obtained, List.mem_cons, exists_eq_or_imp, bytes]
      exact or_comm

/-! ## Runs -/

structure Heap (σ : Type) where
  world : World (Logged σ)
  /-- the blocks handed out and not freed yet, with their headers -/
  held : List Block

inductive Action (σ : Type) where
  | malloc (nbytes : UInt32)
  | free (ap : UInt32)
  /-- whatever else the program does, with what it leaves -/
  | use (world : World (Logged σ))

/-- The number of bytes, with the header and rounded up, is positive as an int. -/
def Fits (nbytes : UInt32) : Prop := 8 * ((nbytes.toNat + 7) / 8 + 1) < 2 ^ 31
  deriving Decidable

theorem Fits.units {nbytes : UInt32} (fits : Fits nbytes) :
    0 < (unitsFor nbytes).toNat ∧ 8 * (unitsFor nbytes).toNat < 2 ^ 31 := by
  unfold Fits at fits
  rw [toNat_unitsFor (by omega)]
  exact ⟨Nat.succ_pos _, fits⟩

/-- The address is of the part of the block that the program may write to. -/
def Block.Usable (b : Block) (x : Nat) : Prop := b.addr.toNat + 8 ≤ x ∧ x < b.stop

/-- The allocator works with base and what it has obtained. -/
def Heap.Owns (base : UInt32) (s : Heap σ) (x : Nat) : Prop :=
  (base.toNat ≤ x ∧ x < base.toNat + 8) ∨ Obtained s.world.os.log x

/-- Of what the allocator works with, only blocks that are handed out change. -/
structure Uses (B : Sbrk σ) (base : UInt32) (s : Heap σ) (w : World (Logged σ)) : Prop where
  freep : w.freep = s.world.freep
  log : w.os.log = s.world.os.log
  sane : B.logged.Sane w
  grows : B.logged.top s.world.os ≤ B.logged.top w.os
  mapped : ∀ x, s.Owns base x → (w.mem x).isSome = (s.world.mem x).isSome
  same : ∀ x, s.Owns base x → (∀ b ∈ s.held, ¬ b.Usable x) → w.mem x = s.world.mem x

def heap (base : UInt32) (B : Sbrk σ) (fuel : Nat) : System (Heap σ) (Action σ) where
  Enabled s
    | .malloc nbytes => Fits nbytes
    | .free ap => ∃ b ∈ s.held, ap = b.addr + unit
    | .use w => Uses B base s w
  perform s
    | .malloc nbytes =>
      match malloc base B.logged.run fuel nbytes s.world with
      | some (r, w) => ⟨w, if r = 0 then s.held else ⟨r - unit, unitsFor nbytes⟩ :: s.held⟩
      | none => s
    | .free ap =>
      match free fuel ap s.world with
      | some (_, w) => ⟨w, s.held.filter (·.addr ≠ ap - unit)⟩
      | none => s
    | .use w => { s with world := w }

/-- Before the first call. -/
structure Fresh (B : Sbrk σ) (base : UInt32) (s : Heap σ) : Prop where
  freep : s.world.freep = 0
  log : s.world.os.log = []
  held : s.held = []
  sane : B.logged.Sane s.world
  real : 0 < base.toNat
  room : base.toNat + 8 ≤ 2 ^ 32
  low : base.toNat + 8 ≤ B.logged.top s.world.os
  mapped : ∀ x, base.toNat ≤ x → x < base.toNat + 8 → (s.world.mem x).isSome

/-- The two blocks have no address in common. -/
def Block.Apart (b c : Block) : Prop := ∀ x, ¬ (b.Has x ∧ c.Has x)

/-- The free blocks form the list, which the first call makes, and the blocks handed out are
apart from each other and from them. Together they are what has been obtained. -/
structure Sound (base : UInt32) (s : Heap σ) (bs : List Block) : Prop where
  ready : Ready base s.world bs
  held_apart : s.held.Pairwise Block.Apart
  free_apart : ∀ b ∈ s.held, ∀ c ∈ bs, b.Apart c
  exact : ∀ x, Obtained s.world.os.log x ↔ Covers bs x ∨ Covers s.held x

/-- What the calls rely on besides. -/
structure Kept (B : Sbrk σ) (base : UInt32) (s : Heap σ) (bs : List Block) : Prop
    extends Sound base s bs where
  unused : s.world.freep = 0 → s.held = []
  header : ∀ b ∈ s.held, ∃ next, Header s.world.mem b.addr next b.units
  above : ∀ b ∈ s.held, 0 < b.units.toNat ∧ base.toNat + 8 ≤ b.addr.toNat ∧ b.stop < 2 ^ 32
  sane : B.logged.Sane s.world
  real : 0 < base.toNat
  room : base.toNat + 8 ≤ 2 ^ 32
  low : ∀ x, s.Owns base x → x < B.logged.top s.world.os
  mapped : ∀ x, s.Owns base x → (s.world.mem x).isSome

variable {B : Sbrk σ} {base : UInt32} {s start : Heap σ} {bs : List Block} {fuel : Nat}

theorem Fresh.kept (fresh : Fresh B base s) : Kept B base s [] where
  ready := .inl ⟨fresh.freep, rfl, fresh.mapped⟩
  held_apart := by
    rw [fresh.held]
    exact .nil
  free_apart := by simp
  exact x := by
    rw [fresh.log, fresh.held]
    simp [Obtained, Covers]
  unused _ := fresh.held
  header := by simp [fresh.held]
  above := by simp [fresh.held]
  sane := fresh.sane
  real := fresh.real
  room := fresh.room
  low := by
    rintro x (⟨_, _⟩ | own)
    · have := fresh.low
      omega
    · rw [fresh.log] at own
      obtain ⟨_, ⟨⟩, _⟩ := own
  mapped := by
    rintro x (⟨low, high⟩ | own)
    · exact fresh.mapped x low high
    · rw [fresh.log] at own
      obtain ⟨_, ⟨⟩, _⟩ := own

namespace Kept

theorem owns_of_inList (kept : Kept B base s bs) {x : Nat} (inside : InList base bs x) :
    s.Owns base x := inside.imp_right fun covered => (kept.exact x).mpr (.inl covered)

/-- What is handed out is not part of the list. -/
theorem not_inList (kept : Kept B base s bs) {b : Block} (there : b ∈ s.held) {x : Nat}
    (has : b.Has x) : ¬ InList base bs x := by
  rintro (own | ⟨c, free, both⟩)
  · have := (kept.above b there).2.1
    have := has.1
    omega
  · exact kept.free_apart b there c free x ⟨has, both⟩

theorem has_header (kept : Kept B base s bs) {b : Block} (there : b ∈ s.held) {x : Nat}
    (low : b.addr.toNat ≤ x) (high : x < b.addr.toNat + 8) : b.Has x := by
  have := (kept.above b there).1
  refine ⟨low, ?_⟩
  unfold Block.stop
  omega

theorem low_inList (kept : Kept B base s bs) (x : Nat) (inside : InList base bs x) :
    x < B.logged.top s.world.os := kept.low x (kept.owns_of_inList inside)

theorem mapped_free (kept : Kept B base s bs) : ∀ c ∈ bs, ∀ x, c.Has x → (s.world.mem x).isSome :=
  fun c there x has => kept.mapped x (kept.owns_of_inList (.inr ⟨c, there, has⟩))

/-- A header of a block that is handed out stays if nothing but the list changes. -/
theorem header_of_frame (kept : Kept B base s bs) {mem' : Nat → Option UInt8} {b : Block}
    (there : b ∈ s.held)
    (frame : ∀ x, b.Has x → x < B.logged.top s.world.os → ¬ InList base bs x →
      mem' x = s.world.mem x) : ∃ next, Header mem' b.addr next b.units := by
  obtain ⟨next, header⟩ := kept.header b there
  refine ⟨next, header.congr fun x low high => ?_⟩
  have has := kept.has_header there low high
  exact frame x has (kept.low x (.inr ((kept.exact x).mpr (.inr ⟨b, there, has⟩))))
    (kept.not_inList there has)

theorem malloc_returns (kept : Kept B base s bs) {nbytes : UInt32}
    (pos : 0 < (unitsFor nbytes).toNat) (fits : 8 * (unitsFor nbytes).toNat < 2 ^ 31)
    (enough : 2 ^ 32 ≤ fuel) :
    ∃ r w added bs' taken, malloc base B.logged.run fuel nbytes s.world = some (r, w) ∧
      Outcome B.logged base s.world bs (unitsFor nbytes) added w bs' taken ∧
      Asked B.logged bs (unitsFor nbytes) s.world.os w.os added taken ∧ Returned r taken :=
  malloc_spec B.logged kept.sane kept.ready kept.real kept.room kept.mapped_free kept.low_inList pos
    fits enough

/-- What is handed out is neither free nor new. -/
theorem not_given (kept : Kept B base s bs) {b : Block} (there : b ∈ s.held) {x : Nat}
    (has : b.Has x) {added : List Block}
    (fresh : ∀ c ∈ added, B.logged.top s.world.os ≤ c.addr.toNat) :
    ¬ (Covers bs x ∨ Covers added x) := by
  rintro (free | ⟨c, new, own⟩)
  · exact kept.not_inList there has (.inr free)
  · have := kept.low x (.inr ((kept.exact x).mpr (.inr ⟨b, there, has⟩)))
    have := fresh c new
    have := own.1
    omega

end Kept

section outcome
variable {w w' : World σ} {n r : UInt32} {added bs' taken : List Block}

theorem Outcome.pointer (outcome : Outcome B base w bs n added w' bs' taken) (pos : 0 < n.toNat)
    {u : Block} (there : u ∈ taken) : (u.addr + unit).toNat = u.addr.toNat + 8 := by
  have small := (outcome.above u there).2
  obtain ⟨rfl, _⟩ := outcome.header u there
  have eight : unit.toNat = 8 := rfl
  unfold Block.stop at small
  rw [UInt32.toNat_add]
  exact Nat.mod_eq_of_lt (by omega)

theorem Outcome.zero_iff (outcome : Outcome B base w bs n added w' bs' taken)
    (returned : Returned r taken) (pos : 0 < n.toNat) : r = 0 ↔ taken = [] := by
  obtain ⟨rfl, rfl⟩ | ⟨u, rfl, rfl⟩ := returned
  · exact iff_of_true rfl rfl
  · refine iff_of_false (fun zero => ?_) (List.cons_ne_nil _ _)
    have sum := outcome.pointer pos List.mem_cons_self
    rw [zero] at sum
    have none : (0 : UInt32).toNat = 0 := rfl
    omega

/-- The block that has been taken joins the ones handed out. -/
theorem Outcome.held (outcome : Outcome B base w bs n added w' bs' taken)
    (returned : Returned r taken) (pos : 0 < n.toNat) (bs₀ : List Block) :
    (if r = 0 then bs₀ else ⟨r - unit, n⟩ :: bs₀) = taken ++ bs₀ := by
  have zero := outcome.zero_iff returned pos
  obtain ⟨rfl, rfl⟩ | ⟨u, rfl, rfl⟩ := returned
  · exact if_pos rfl
  · obtain ⟨rfl, _⟩ := outcome.header u List.mem_cons_self
    rw [if_neg fun none => List.cons_ne_nil _ _ (zero.mp none), UInt32.add_sub_cancel]
    rfl

end outcome

theorem Returned.pairwise {r : UInt32} {taken : List Block} (returned : Returned r taken) :
    taken.Pairwise Block.Apart := by
  obtain ⟨_, rfl⟩ | ⟨u, _, rfl⟩ := returned
  · exact .nil
  · exact List.pairwise_singleton _ u

namespace Kept

theorem malloc (kept : Kept B base s bs) {nbytes : UInt32} (fits : Fits nbytes)
    (enough : 2 ^ 32 ≤ fuel) :
    ∃ bs', Kept B base ((heap base B fuel).perform s (.malloc nbytes)) bs' := by
  obtain ⟨pos, bytes⟩ := fits.units
  obtain ⟨r, w, added, bs', taken, run, outcome, asked, returned⟩ :=
    kept.malloc_returns pos bytes enough
  have obtained := asked.obtained bytes
  have fresh : ∀ c ∈ added, B.logged.top s.world.os ≤ c.addr.toNat := fun c new =>
    (outcome.fresh c new).1
  have after : (heap base B fuel).perform s (.malloc nbytes) = ⟨w, taken ++ s.held⟩ := by
    simp only [heap, run]
    rw [outcome.held returned pos]
  have owns {x : Nat} (own : Heap.Owns base ⟨w, taken ++ s.held⟩ x) :
      s.Owns base x ∨ Covers added x := by
    obtain own | new := own
    · exact .inl (.inl own)
    · exact ((obtained x).mp new).imp_left .inr
  rw [after]
  refine ⟨bs', ⟨.inr ⟨outcome.list, outcome.node⟩, ?_, ?_, fun x => ?_⟩, ?_, ?_, ?_, outcome.sane,
    kept.real, kept.room, ?_, ?_⟩
  · refine List.pairwise_append.mpr ⟨returned.pairwise, kept.held_apart, ?_⟩
    rintro u mem b there x ⟨has, own⟩
    exact kept.not_given there own fresh ((outcome.covers x).mp (.inr ⟨u, mem, has⟩))
  · intro b mem c free
    obtain mem | there := List.mem_append.mp mem
    · exact outcome.apart b mem c free
    · rintro x ⟨own, has⟩
      exact kept.not_given there own fresh ((outcome.covers x).mp (.inl ⟨c, free, has⟩))
  · have exact := kept.exact x
    have covers := outcome.covers x
    rw [obtained x, exact, covers_append]
    clear * - covers
    tauto
  · exact fun zero => absurd zero (outcome.list.node_ne_zero kept.real outcome.node)
  · intro b mem
    obtain mem | there := List.mem_append.mp mem
    · obtain ⟨units, header⟩ := outcome.header b mem
      rw [units]
      exact header
    · exact kept.header_of_frame there fun x _ inside out => outcome.frame x inside out
  · intro b mem
    obtain mem | there := List.mem_append.mp mem
    · refine ⟨?_, outcome.above b mem⟩
      rw [(outcome.header b mem).1]
      exact pos
    · exact kept.above b there
  · intro x own
    obtain own | ⟨c, new, has⟩ := owns own
    · exact Nat.lt_of_lt_of_le (kept.low x own) outcome.grows
    · exact Nat.lt_of_lt_of_le has.2 (outcome.fresh c new).2.1
  · intro x own
    obtain own | ⟨c, new, has⟩ := owns own
    · show (w.mem x).isSome
      rw [outcome.mapped x (kept.low x own)]
      exact kept.mapped x own
    · exact (outcome.fresh c new).2.2 x has

/-- Blocks handed out start at different addresses. -/
theorem addr_ne (kept : Kept B base s bs) {b : Block} {L R : List Block} (eq : s.held = L ++ b :: R) :
    ∀ c ∈ L ++ R, c.Apart b ∧ c.addr ≠ b.addr := by
  intro c mem
  have there : c ∈ s.held := by
    rw [eq]
    simp only [List.mem_append, List.mem_cons] at mem ⊢
    tauto
  have own : b ∈ s.held := by
    rw [eq]
    simp
  have apart : c.Apart b := by
    have pairs := kept.held_apart
    rw [eq, List.pairwise_append] at pairs
    obtain left | right := List.mem_append.mp mem
    · exact pairs.2.2 c left b List.mem_cons_self
    · exact fun x both => (List.pairwise_cons.mp pairs.2.1).1 c right x both.symm
  refine ⟨apart, fun same => apart b.addr.toNat ⟨?_, ?_⟩⟩
  · exact kept.has_header there (Nat.le_of_eq (by rw [same])) (by rw [same]; omega)
  · exact kept.has_header own (Nat.le_refl _) (by omega)

theorem free_returns (kept : Kept B base s bs) {b : Block} (there : b ∈ s.held)
    (enough : 2 ^ 32 ≤ fuel) :
    ∃ mem' bs' p, free fuel (b.addr + unit) s.world =
        some ((), { s.world with mem := mem', freep := p }) ∧
      FreeList base mem' bs' ∧ Node base bs' p ∧ Keeps base (b :: bs) s.world.mem mem' ∧
      ∀ x, Covers bs' x ↔ Covers bs x ∨ b.Has x := by
  obtain ⟨list, node⟩ : FreeList base s.world.mem bs ∧ Node base bs s.world.freep := by
    obtain ⟨zero, _⟩ | both := kept.ready
    · rw [kept.unused zero] at there
      cases there
    · exact both
  obtain ⟨next, header⟩ := kept.header b there
  obtain ⟨real, above, small⟩ := kept.above b there
  have length := list.length_le
  obtain ⟨mem', bs', p, run, list', node', old, edits, covers, _⟩ := free_spec list node header real
    small above (kept.free_apart b there) (by omega : 2 * (bs.length + 1) ≤ fuel)
  refine ⟨mem', bs', p, run, list', node', edits.keeps fun a mem x low high => ?_, covers⟩
  simp only [List.mem_cons, List.not_mem_nil, or_false] at mem
  obtain rfl | rfl := mem
  · exact header_inList List.mem_cons_self real low high
  · exact (list.node_inList old low high).imp_right fun free => covers_cons.mpr (.inr free)

theorem free (kept : Kept B base s bs) {b : Block} (there : b ∈ s.held) (enough : 2 ^ 32 ≤ fuel) :
    ∃ bs', Kept B base ((heap base B fuel).perform s (.free (b.addr + unit))) bs' := by
  obtain ⟨mem', bs', p, run, list, node, keeps, covers⟩ := kept.free_returns there enough
  obtain ⟨L, R, eq⟩ := List.append_of_mem there
  have others := kept.addr_ne eq
  have after : (heap base B fuel).perform s (.free (b.addr + unit)) =
      ⟨{ s.world with mem := mem', freep := p }, L ++ R⟩ := by
    simp only [heap, run]
    rw [UInt32.add_sub_cancel, eq, List.filter_append, List.filter_cons_of_neg (by simp),
      ← List.filter_append, List.filter_eq_self.mpr fun c mem => by simpa using (others c mem).2]
  have still {c : Block} (mem : c ∈ L ++ R) : c ∈ s.held := by
    rw [eq]
    simp only [List.mem_append, List.mem_cons] at mem ⊢
    tauto
  have sub : (L ++ R).Sublist s.held := by
    rw [eq]
    exact (List.append_sublist_append_left L).mpr (List.sublist_cons_self b R)
  rw [after]
  refine ⟨bs', ⟨.inr ⟨list, node⟩, kept.held_apart.sublist sub, ?_, fun x => ?_⟩, ?_, ?_, ?_,
    B.logged.sane_of_mapped kept.sane rfl keeps.mapped, kept.real, kept.room, kept.low, ?_⟩
  · rintro c mem d free x ⟨has, own⟩
    obtain old | new := (covers x).mp ⟨d, free, own⟩
    · exact kept.not_inList (still mem) has (.inr old)
    · exact (others c mem).1 x ⟨has, new⟩
  · have exact := kept.exact x
    rw [eq, covers_append, covers_cons] at exact
    have covers := covers x
    rw [exact, covers_append]
    clear * - covers
    tauto
  · exact fun zero => absurd zero (list.node_ne_zero kept.real node)
  · intro c mem
    refine kept.header_of_frame (still mem) fun x has _ out => keeps.same x ?_
    rintro (own | covered)
    · exact out (.inl own)
    · obtain new | old := covers_cons.mp covered
      · exact (others c mem).1 x ⟨has, new⟩
      · exact out (.inr old)
  · exact fun c mem => kept.above c (still mem)
  · intro x own
    show (mem' x).isSome
    rw [keeps.mapped x]
    exact kept.mapped x own

theorem use (kept : Kept B base s bs) {w : World (Logged σ)} (uses : Uses B base s w) :
    Kept B base { s with world := w } bs := by
  have owns {x : Nat} (own : Heap.Owns base { s with world := w } x) : s.Owns base x := by
    refine own.imp_right fun obtained => ?_
    rw [← uses.log]
    exact obtained
  -- a block in the program's hands has no address of the list
  have same (x : Nat) (inside : InList base bs x) : w.mem x = s.world.mem x := by
    refine uses.same x (kept.owns_of_inList inside) fun b there usable => ?_
    exact kept.not_inList there ⟨by have := usable.1; omega, usable.2⟩ inside
  have mapped (x : Nat) (own : s.Owns base x) : (w.mem x).isSome := by
    rw [uses.mapped x own]
    exact kept.mapped x own
  refine ⟨⟨?_, kept.held_apart, kept.free_apart, fun x => ?_⟩, ?_, ?_, kept.above, uses.sane, kept.real,
    kept.room, ?_, fun x own => mapped x (owns own)⟩
  · obtain ⟨zero, none, _⟩ | ⟨list, node⟩ := kept.ready
    · refine .inl ⟨uses.freep.trans zero, none, fun x low high => mapped x (.inl ⟨low, high⟩)⟩
    · exact .inr ⟨list.congr same, uses.freep ▸ node⟩
  · show Obtained w.os.log x ↔ _
    rw [uses.log]
    exact kept.exact x
  · exact fun zero => kept.unused (uses.freep ▸ zero)
  · intro b there
    obtain ⟨next, header⟩ := kept.header b there
    refine ⟨next, header.congr fun x low high => ?_⟩
    have has := kept.has_header there low high
    refine uses.same x (.inr ((kept.exact x).mpr (.inr ⟨b, there, has⟩))) fun c mem usable => ?_
    obtain ⟨L, R, eq⟩ := List.append_of_mem there
    have other : c ∈ L ++ R ∨ c = b := by
      rw [eq] at mem
      simp only [List.mem_append, List.mem_cons] at mem ⊢
      tauto
    obtain other | rfl := other
    · exact (kept.addr_ne eq c other).1 x ⟨⟨by have := usable.1; omega, usable.2⟩, has⟩
    · have := usable.1
      omega
  · exact fun x own => Nat.lt_of_lt_of_le (kept.low x (owns own)) uses.grows

end Kept

theorem kept_of_reachable (enough : 2 ^ 32 ≤ fuel) (fresh : Fresh B base start)
    (reach : (heap base B fuel).Reachable start s) : ∃ bs, Kept B base s bs := by
  refine reach.invariant (I := fun s => ∃ bs, Kept B base s bs) ⟨[], fresh.kept⟩ ?_
  rintro s a enabled ⟨bs, kept⟩
  cases a with
  | malloc nbytes => exact kept.malloc enabled enough
  | free ap =>
    obtain ⟨b, there, rfl⟩ := enabled
    exact kept.free there enough
  | use w => exact ⟨bs, kept.use enabled⟩

/-- Every state of the heap is sound, and every call returns. -/
theorem heap_sound (enough : 2 ^ 32 ≤ fuel) (fresh : Fresh B base start)
    (reach : (heap base B fuel).Reachable start s) :
    (∃ bs, Sound base s bs) ∧
      (∀ nbytes, Fits nbytes → (malloc base B.logged.run fuel nbytes).Returns s.world) ∧
      ∀ b ∈ s.held, (free fuel (b.addr + unit)).Returns s.world := by
  obtain ⟨bs, kept⟩ := kept_of_reachable enough fresh reach
  refine ⟨⟨bs, kept.toSound⟩, fun nbytes fits => ?_, fun b there => ?_⟩
  · obtain ⟨r, w, _, _, _, run, _⟩ := kept.malloc_returns fits.units.1 fits.units.2 enough
    exact ⟨r, w, run⟩
  · obtain ⟨mem', _, p, run, _⟩ := kept.free_returns there enough
    exact ⟨(), _, run⟩

/-- A process of two pages, with base at the start of the second one. -/
def newProcess : Heap Process :=
  ⟨⟨fun x => if x < 8192 then some 0 else none, 0, ⟨8192, [true]⟩, []⟩, []⟩

theorem fresh_newProcess : Fresh processSbrk 4096 newProcess where
  freep := rfl
  log := rfl
  held := rfl
  sane := by
    have two : 4096 * Vm.pageCount 8192 = 8192 := by decide
    have size : (8192 : UInt32).toNat = 8192 := rfl
    refine ⟨by decide, by decide, fun x behind => ?_, fun x low high => ?_⟩
    · exact if_neg (Nat.not_lt.mpr (Nat.le_trans (Nat.le_of_eq two.symm) behind))
    · exact absurd (Nat.lt_of_lt_of_le high (Nat.le_of_eq two)) (Nat.not_lt.mpr low)
  real := by decide
  room := by decide
  low := by decide
  mapped x low high := by
    have base : (4096 : UInt32).toNat = 4096 := rfl
    have inside : x < 8192 := by omega
    exact congrArg Option.isSome (if_pos inside)

def someCalls : List (Action Process) := [.malloc 100, .malloc 200, .free 40856]

theorem some_calls_sound :
    (∃ bs, Sound 4096 ((heap 4096 processSbrk (2 ^ 32)).after newProcess someCalls) bs) ∧
      ((heap 4096 processSbrk (2 ^ 32)).after newProcess someCalls).held = [⟨40640, 26⟩] := by
  have first : ⟨40848, 14⟩ ∈
      ((heap 4096 processSbrk (2 ^ 32)).after newProcess [.malloc 100, .malloc 200]).held := by
    decide +kernel
  have legal : (heap 4096 processSbrk (2 ^ 32)).Legal newProcess someCalls :=
    ⟨(by decide : Fits 100), (by decide : Fits 200), ⟨_, first, by decide⟩, trivial⟩
  exact ⟨(heap_sound (Nat.le_refl _) fresh_newProcess (.after .start legal)).1, by decide +kernel⟩

/-! ## The number of free blocks -/

instance (log : List (UInt32 × UInt32)) (x : Nat) : Decidable (Obtained log x) :=
  inferInstanceAs (Decidable (∃ r ∈ log, _))

/-- Where the memory that has been obtained ends. -/
def ends (log : List (UInt32 × UInt32)) : List Nat :=
  (log.map fun r => r.1.toNat + r.2.toNat).filter fun x => ¬ Obtained log x

/-- A block that is handed out starts behind a free block, or the memory ends there. -/
theorem Sound.stop_mem (sound : Sound base s bs) (list : FreeList base s.world.mem bs) {b : Block}
    (free : b ∈ bs) : b.stop ∈ s.held.map (·.addr.toNat) ++ ends s.world.os.log := by
  have real := list.real b free
  have last : b.Has (b.stop - 1) := by
    unfold Block.Has Block.stop
    omega
  by_cases more : Obtained s.world.os.log b.stop
  · obtain ⟨c, free', low, high⟩ | ⟨c, there, low, high⟩ := (sound.exact _).mp more
    · have clear : ¬ c.Has b.stop := by
        refine List.Pairwise.forall_of_forall_of_flip (R := fun b c => ¬ c.Has b.stop)
          (fun b _ has => Nat.lt_irrefl _ has.2) (list.sorted.imp fun lt has => ?_)
          (list.sorted.imp fun {b c} lt has => ?_) free free'
        · exact Nat.not_lt.mpr has.1 lt
        · have : c.addr.toNat ≤ c.stop := Nat.le_add_right _ _
          have := has.2
          omega
      exact absurd ⟨low, high⟩ clear
    · have apart := sound.free_apart c there b free (b.stop - 1)
      have starts : c.addr.toNat = b.stop := by
        by_contra
        exact apart ⟨⟨by omega, by omega⟩, last⟩
      exact List.mem_append_left _ (List.mem_map.mpr ⟨c, there, starts⟩)
  · obtain ⟨r, got, low, high⟩ := (sound.exact _).mpr (.inl ⟨b, free, last⟩)
    have stops : r.1.toNat + r.2.toNat = b.stop := by
      by_contra
      exact more ⟨r, got, by omega, by omega⟩
    refine List.mem_append_right _ (List.mem_filter.mpr ⟨List.mem_map.mpr ⟨r, got, stops⟩, ?_⟩)
    exact decide_eq_true more

/-- There are no more free blocks than blocks handed out and ends of the memory: neighbours
have been joined. -/
theorem free_blocks_joined (enough : 2 ^ 32 ≤ fuel) (fresh : Fresh B base start)
    (reach : (heap base B fuel).Reachable start s) :
    ∃ bs, Sound base s bs ∧ bs.length ≤ s.held.length + (ends s.world.os.log).length := by
  obtain ⟨bs, kept⟩ := kept_of_reachable enough fresh reach
  refine ⟨bs, kept.toSound, ?_⟩
  obtain ⟨_, rfl, _⟩ | ⟨list, _⟩ := kept.ready
  · exact Nat.zero_le _
  · have once : (bs.map Block.stop).Nodup := by
      refine List.pairwise_map.mpr (list.sorted.imp fun {b c} lt => ?_)
      have : c.addr.toNat ≤ c.stop := Nat.le_add_right _ _
      omega
    have among : bs.map Block.stop ⊆ s.held.map (·.addr.toNat) ++ ends s.world.os.log := by
      intro x mem
      obtain ⟨b, free, rfl⟩ := List.mem_map.mp mem
      exact kept.toSound.stop_mem list free
    simpa using (List.subperm_of_subset once among).length_le

theorem one_block_held :
    let s := (heap 4096 processSbrk (2 ^ 32)).after newProcess [.malloc 100]
    s.held = [⟨40848, 14⟩] ∧ ∃ bs, Sound 4096 s bs ∧ bs.length ≤ 2 := by
  intro s
  have legal : (heap 4096 processSbrk (2 ^ 32)).Legal newProcess [.malloc 100] :=
    ⟨(by decide : Fits 100), trivial⟩
  have most : s.held.length + (ends s.world.os.log).length = 2 := by decide +kernel
  exact ⟨by decide +kernel,
    most ▸ free_blocks_joined (Nat.le_refl _) fresh_newProcess (.after .start legal)⟩

end Xv6.Malloc
