import Mathlib.Data.Fintype.Card
import Mathlib.Data.List.FinRange
import Xv6.Lib.Linked
import Xv6.Lib.Runs
import Xv6.Fs.Layout

/-! bio.c: the buffer cache, over the disk of memide.c. -/

namespace Xv6.Buffers
open Lib

def nbuf : Nat := maxOpBlocks * 3

structure Buf where
  /-- B_VALID: has been read from disk. -/
  valid : Bool
  /-- B_DIRTY: needs to be written to disk. -/
  dirty : Bool
  dev : UInt32
  blockno : UInt32
  /-- The sleeplock `lock` is held. -/
  locked : Bool
  refcnt : Nat
  data : Block

/-- The node of the list that is not a buffer, `bcache.head`, is `none`. -/
structure Bcache where
  buf : Fin nbuf → Buf
  next : Option (Fin nbuf) → Option (Fin nbuf)
  prev : Option (Fin nbuf) → Option (Fin nbuf)
  disk : Nat → Block
  disksize : Nat

namespace Bcache
variable (c : Bcache)

def set (b : Fin nbuf) (v : Buf) : Bcache := { c with buf := Function.update c.buf b v }

/-- Put the buffer behind the head. -/
def link (b : Fin nbuf) : Bcache :=
  { c with
    next := Function.update (Function.update c.next (some b) (c.next none)) none (some b)
    prev := Function.update (Function.update c.prev (some b) none) (c.next none) (some b) }

/-- `b->next->prev = b->prev; b->prev->next = b->next;` -/
def unlink (b : Fin nbuf) : Bcache :=
  let prev := Function.update c.prev (c.next (some b)) (c.prev (some b))
  { c with
    prev := prev
    next := Function.update c.next (prev (some b)) (c.next (some b)) }

/-- Look through the cache for a block; if it is not there, recycle the first
buffer from the end that nobody uses and that is not waiting for the log. -/
def bget (dev blockno : UInt32) : Option (Fin nbuf × Bcache) :=
  match Linked.walk c.next (fun b => (c.buf b).dev == dev && (c.buf b).blockno == blockno)
      (nbuf + 1) (c.next none) with
  | some b => some (b, c.set b { c.buf b with refcnt := (c.buf b).refcnt + 1 })
  | none =>
    match Linked.walk c.prev (fun b => (c.buf b).refcnt == 0 && !(c.buf b).dirty)
        (nbuf + 1) (c.prev none) with
    | some b =>
      some (b, c.set b { c.buf b with
        dev := dev, blockno := blockno, valid := false, dirty := false, refcnt := 1 })
    | none => none -- bget: no buffers

/-- Sync buf with disk. -/
def iderw (b : Fin nbuf) : Option Bcache :=
  let v := c.buf b
  if v.locked = false then none -- buf not locked
  else if v.valid = true ∧ v.dirty = false then none -- nothing to do
  else if v.dev ≠ 1 then none -- request not for disk 1
  else if c.disksize ≤ v.blockno.toNat then none -- block out of range
  else if v.dirty then
    some { c.set b { v with dirty := false, valid := true } with
      disk := Function.update c.disk v.blockno.toNat v.data }
  else some (c.set b { v with data := c.disk v.blockno.toNat, valid := true })

/-- The end of bread(): the buffer is locked, and read if need be. -/
def bread (b : Fin nbuf) : Option Bcache :=
  let c := c.set b { c.buf b with locked := true }
  if (c.buf b).valid then some c else c.iderw b

/-- What log_write() does to the buffer. -/
def logWrite (b : Fin nbuf) : Bcache := c.set b { c.buf b with dirty := true }

def bwrite (b : Fin nbuf) : Option Bcache :=
  if (c.buf b).locked = false then none
  else (c.set b { c.buf b with dirty := true }).iderw b

def brelse (b : Fin nbuf) : Option Bcache :=
  if (c.buf b).locked = false then none
  else
    let c := c.set b { c.buf b with locked := false, refcnt := (c.buf b).refcnt - 1 }
    some (if (c.buf b).refcnt = 0 then (c.unlink b).link b else c)

/-- memmove() to the data of the buffer. -/
def fill (b : Fin nbuf) (v : Block) : Bcache := c.set b { c.buf b with data := v }

end Bcache

/-- All buffers are zero, and none is in the list. -/
def blank (disk : Nat → Block) (disksize : Nat) : Bcache where
  buf := fun _ => ⟨false, false, 0, 0, false, 0, Bytes.zero⟩
  next := fun _ => none
  prev := fun _ => none
  disk := disk
  disksize := disksize

def binit (disk : Nat → Block) (disksize : Nat) : Bcache :=
  (List.finRange nbuf).foldl Bcache.link (blank disk disksize)

/-! ## Calls in any order -/

/-- A call of bread() that waits for the lock of its buffer. -/
structure Request where
  buf : Fin nbuf
  dev : UInt32
  blockno : UInt32
  deriving DecidableEq

structure State where
  cache : Bcache
  pending : List Request

/-- A commit is a run of such actions: write_log(), write_head() and
install_trans() call bread(), change the data and call bwrite() and brelse(). -/
inductive Action where
  /-- bread() up to the lock of the buffer. -/
  | bget (dev blockno : UInt32)
  /-- The request gets the lock, and bread() returns. -/
  | bread (k : Nat)
  /-- New data, and log_write(). -/
  | logWrite (b : Fin nbuf) (v : Block)
  /-- New data, and bwrite(). -/
  | bwrite (b : Fin nbuf) (v : Block)
  | brelse (b : Fin nbuf)

namespace State
variable (s : State)

/-- What the action does; `none` if it panics or has to wait. -/
def next : Action → Option State
  | .bget dev blockno =>
    (s.cache.bget dev blockno).map fun r => ⟨r.2, s.pending ++ [⟨r.1, dev, blockno⟩]⟩
  | .bread k =>
    match s.pending[k]? with
    | some r =>
      if (s.cache.buf r.buf).locked then none
      else (s.cache.bread r.buf).map fun c => ⟨c, s.pending.eraseIdx k⟩
    | none => none
  | .logWrite b v =>
    if (s.cache.buf b).locked then some { s with cache := (s.cache.fill b v).logWrite b } else none
  | .bwrite b v => ((s.cache.fill b v).bwrite b).map fun c => { s with cache := c }
  | .brelse b => (s.cache.brelse b).map fun c => { s with cache := c }

end State

/-- The call returns: bget() finds a buffer, and no check panics. -/
def Enabled (s : State) (a : Action) : Prop := (s.next a).isSome = true

def perform (s : State) (a : Action) : State := (s.next a).getD s

def system : System State Action := ⟨Enabled, perform⟩

instance (s : State) (a : Action) : Decidable (system.Enabled s a) :=
  inferInstanceAs (Decidable ((s.next a).isSome = true))

def init (disk : Nat → Block) (disksize : Nat) : State := ⟨binit disk disksize, []⟩

/-- What the callers have done so far: the contents last given to each block,
and when each buffer was last released. The buffers that never were count as
released in the order in which binit() put them into the list. -/
structure History where
  given : Nat → Block
  released : Fin nbuf → Nat
  clock : Nat

def History.start (disk : Nat → Block) : History := ⟨disk, Fin.val, nbuf⟩

def note (s : State) (a : Action) (h : History) : History :=
  match a with
  | .logWrite b v | .bwrite b v =>
    { h with given := Function.update h.given (s.cache.buf b).blockno.toNat v }
  | .brelse b => { h with released := Function.update h.released b h.clock, clock := h.clock + 1 }
  | _ => h

/-! ## The list -/

/-- The order of the list, most recently used first: each buffer is in it once,
and those nobody uses stand in the order of their release. -/
structure Lru (c : Bcache) (h : History) (l : List (Fin nbuf)) : Prop where
  ring : Linked.Ring c.next c.prev l
  all : ∀ b, b ∈ l
  sorted : l.Pairwise fun a b => (c.buf a).refcnt = 0 → (c.buf b).refcnt = 0 →
    h.released b < h.released a
  clock : ∀ b, h.released b < h.clock

namespace Lru
variable {c c' : Bcache} {h h' : History} {l : List (Fin nbuf)}

theorem length (lru : Lru c h l) : l.length < nbuf + 1 := by
  have few := List.Nodup.length_le_card lru.ring.nodup
  rw [Fintype.card_fin] at few
  omega

/-- Buffers come to be used, and the list stays. -/
theorem congr (lru : Lru c h l) (next : c'.next = c.next) (prev : c'.prev = c.prev)
    (idle : ∀ b, (c'.buf b).refcnt = 0 → (c.buf b).refcnt = 0)
    (released : ∀ b, (c'.buf b).refcnt = 0 → h'.released b = h.released b)
    (clock : ∀ b, h'.released b < h'.clock) : Lru c' h' l where
  ring := by rw [next, prev]; exact lru.ring
  all := lru.all
  sorted := by
    apply lru.sorted.imp
    intro a b order ha hb
    rw [released a ha, released b hb]
    exact order (idle a ha) (idle b hb)
  clock := clock

theorem search (lru : Lru c h l) (P : Fin nbuf → Bool) :
    Linked.walk c.next P (nbuf + 1) (c.next none) = l.find? P :=
  Linked.walk_eq_find? lru.ring.forward lru.length

theorem search_back (lru : Lru c h l) (P : Fin nbuf → Bool) :
    Linked.walk c.prev P (nbuf + 1) (c.prev none) = l.reverse.find? P :=
  Linked.walk_eq_find? lru.ring.backward (by rw [List.length_reverse]; exact lru.length)

end Lru

theorem ring_unlink {c : Bcache} {b : Fin nbuf} {l₁ l₂ : List (Fin nbuf)}
    (ring : Linked.Ring c.next c.prev (l₁ ++ b :: l₂)) :
    Linked.Ring (c.unlink b).next (c.unlink b).prev (l₁ ++ l₂) := by
  have behind : some b ≠ c.next (some b) := by
    rw [ring.next_eq]
    intro eq
    have mem : b ∈ l₂ := List.mem_of_mem_head? eq.symm
    have nodup := (List.nodup_append.mp ring.nodup).2.1
    exact (List.nodup_cons.mp nodup).1 mem
  have same : Function.update c.prev (c.next (some b)) (c.prev (some b)) (some b) =
      c.prev (some b) := Function.update_of_ne behind ..
  have unlinked := ring.unlink
  rw [← same] at unlinked
  simpa [Bcache.unlink, same] using unlinked

/-- The buffer goes to the front of the list. -/
theorem Lru.release {c c' : Bcache} {h : History} {l : List (Fin nbuf)} {b : Fin nbuf}
    (lru : Lru c h l) (next : c'.next = c.next) (prev : c'.prev = c.prev)
    (same : ∀ a, a ≠ b → c'.buf a = c.buf a) :
    ∃ l', Lru ((c'.unlink b).link b)
      { h with released := Function.update h.released b h.clock, clock := h.clock + 1 } l' := by
  obtain ⟨l₁, l₂, rfl⟩ := List.append_of_mem (lru.all b)
  have ring : Linked.Ring c'.next c'.prev (l₁ ++ b :: l₂) := by
    rw [next, prev]
    exact lru.ring
  have nodup := List.nodup_middle.mp ring.nodup
  obtain ⟨fresh, _⟩ := List.nodup_cons.mp nodup
  refine ⟨b :: (l₁ ++ l₂), (ring_unlink ring).insert fresh, ?_, ?_, ?_⟩
  · intro a
    have mem := lru.all a
    simp only [List.mem_append, List.mem_cons] at mem ⊢
    tauto
  · have sub : (l₁ ++ l₂).Sublist (l₁ ++ b :: l₂) := (List.sublist_cons_self b l₂).append_left l₁
    refine List.pairwise_cons.mpr ⟨?_, ?_⟩
    · intro a mem _ _
      have other : a ≠ b := by
        rintro rfl
        exact fresh mem
      simp only [Function.update_self, Function.update_of_ne other]
      exact lru.clock a
    · apply (lru.sorted.sublist sub).imp_of_mem
      intro x y hx hy order hx' hy'
      have other (z : Fin nbuf) (hz : z ∈ l₁ ++ l₂) : z ≠ b := by
        rintro rfl
        exact fresh hz
      have kept (z : Fin nbuf) (hz : z ∈ l₁ ++ l₂) :
          ((c'.unlink b).link b).buf z = c.buf z := same z (other z hz)
      rw [kept x hx] at hx'
      rw [kept y hy] at hy'
      simp only [Function.update_of_ne (other x hx), Function.update_of_ne (other y hy)]
      exact order hx' hy'
  · intro a
    by_cases here : a = b
    · simp [here]
    · simp only [Function.update_of_ne here]
      exact Nat.lt_succ_of_lt (lru.clock a)

theorem foldl_link (bs : List (Fin nbuf)) {c : Bcache} {l : List (Fin nbuf)}
    (ring : Linked.Ring c.next c.prev l) (nodup : bs.Nodup) (fresh : ∀ b ∈ bs, b ∉ l) :
    Linked.Ring (bs.foldl Bcache.link c).next (bs.foldl Bcache.link c).prev (bs.reverse ++ l) ∧
      (bs.foldl Bcache.link c).buf = c.buf ∧ (bs.foldl Bcache.link c).disk = c.disk := by
  induction bs generalizing c l with
  | nil => exact ⟨ring, rfl, rfl⟩
  | cons b bs ih =>
    obtain ⟨apart, nodup⟩ := List.nodup_cons.mp nodup
    have linked : Linked.Ring (c.link b).next (c.link b).prev (b :: l) :=
      ring.insert (fresh b (List.mem_cons_self ..))
    have rest := ih linked nodup (by
      intro a ha
      rw [List.mem_cons, not_or]
      refine ⟨?_, fresh a (List.mem_cons_of_mem _ ha)⟩
      rintro rfl
      exact apart ha)
    rw [List.reverse_cons, List.append_assoc]
    exact rest

theorem binit_lru (disk : Nat → Block) (disksize : Nat) :
    Lru (binit disk disksize) (.start disk) (List.finRange nbuf).reverse := by
  have empty : Linked.Ring (blank disk disksize).next (blank disk disksize).prev [] :=
    ⟨List.nodup_nil, rfl, rfl⟩
  obtain ⟨ring, _, _⟩ := foldl_link (List.finRange nbuf) empty (List.nodup_finRange nbuf)
    (fun _ _ => List.not_mem_nil)
  rw [List.append_nil] at ring
  refine ⟨ring, ?_, ?_, ?_⟩
  · intro b
    rw [List.mem_reverse]
    exact List.mem_finRange b
  · rw [List.pairwise_reverse]
    apply (List.pairwise_lt_finRange nbuf).imp
    intro a b lt _ _
    exact lt
  · intro b
    exact b.isLt

/-! ## The contents -/

def State.waiting (s : State) (b : Fin nbuf) : Nat := s.pending.countP fun r => r.buf == b

/-- What the flags of a buffer say about its data. -/
structure Sound (v : Buf) (given : Nat → Block) : Prop where
  locked : v.locked = true → v.valid = true
  dirty : v.dirty = true → v.valid = true
  data : v.valid = true → v.dev = 1 ∧ v.data = given v.blockno.toNat

structure Cached (s : State) (h : History) : Prop where
  lru : ∃ l, Lru s.cache h l
  unique : ∀ a b, (s.cache.buf a).dev ≠ 0 → (s.cache.buf a).dev = (s.cache.buf b).dev →
    (s.cache.buf a).blockno = (s.cache.buf b).blockno → a = b
  refcnt : ∀ b, (s.cache.buf b).refcnt =
    (if (s.cache.buf b).locked then 1 else 0) + s.waiting b
  asked : ∀ r ∈ s.pending, (s.cache.buf r.buf).dev = r.dev ∧
    (s.cache.buf r.buf).blockno = r.blockno
  sound : ∀ b, Sound (s.cache.buf b) h.given
  disk : ∀ k, s.cache.disk k = h.given k ∨
    ∃ b, (s.cache.buf b).dev = 1 ∧ (s.cache.buf b).blockno.toNat = k ∧ (s.cache.buf b).dirty = true

theorem init_cached (disk : Nat → Block) (disksize : Nat) :
    Cached (init disk disksize) (.start disk) := by
  have empty : Linked.Ring (blank disk disksize).next (blank disk disksize).prev [] :=
    ⟨List.nodup_nil, rfl, rfl⟩
  obtain ⟨_, buf, same⟩ := foldl_link (List.finRange nbuf) empty (List.nodup_finRange nbuf)
    (fun _ _ => List.not_mem_nil)
  have zero (b : Fin nbuf) : (init disk disksize).cache.buf b =
      ⟨false, false, 0, 0, false, 0, Bytes.zero⟩ := congrFun buf b
  constructor
  case lru => exact ⟨_, binit_lru disk disksize⟩
  case unique => intro a b nonzero; rw [zero] at nonzero; exact absurd rfl nonzero
  case refcnt => intro b; rw [zero]; rfl
  case asked => intro r mem; cases mem
  case sound =>
    intro b
    rw [zero]
    exact ⟨fun h => h, fun h => h, fun h => by cases h⟩
  case disk => intro k; exact .inl (congrFun same k)

namespace Cached
variable {s : State} {h : History} {b : Fin nbuf}

/-- A buffer in use is not recycled, and keeps its block. -/
theorem idle (inv : Cached s h) (none : (s.cache.buf b).refcnt = 0) :
    (s.cache.buf b).locked = false ∧ ∀ r ∈ s.pending, r.buf ≠ b := by
  have count := inv.refcnt b
  rw [none] at count
  refine ⟨?_, ?_⟩
  · by_contra locked
    rw [Bool.not_eq_false] at locked
    rw [locked, if_pos rfl] at count
    omega
  · intro r mem eq
    have waiting : 0 < s.waiting b := List.countP_pos_iff.mpr ⟨r, mem, by simp [eq]⟩
    omega

/-- Of a block in the cache there is one copy, and the disk is right if that
copy is not dirty. -/
theorem disk_eq (inv : Cached s h) (dev : (s.cache.buf b).dev = 1)
    (clean : (s.cache.buf b).dirty = false) :
    s.cache.disk (s.cache.buf b).blockno.toNat = h.given (s.cache.buf b).blockno.toNat := by
  obtain right | ⟨a, dev', block, dirty⟩ := inv.disk (s.cache.buf b).blockno.toNat
  · exact right
  · have same : a = b := by
      apply inv.unique a b
      · rw [dev']; decide
      · rw [dev', dev]
      · exact UInt32.toNat.inj block
    rw [same, clean] at dirty
    cases dirty

/-- No other buffer has data of the block. -/
theorem other_block (inv : Cached s h) {a : Fin nbuf} (dev : (s.cache.buf b).dev = 1)
    (other : a ≠ b) (valid : (s.cache.buf a).valid = true) :
    (s.cache.buf a).blockno.toNat ≠ (s.cache.buf b).blockno.toNat := by
  intro eq
  apply other
  have dev' := ((inv.sound a).data valid).1
  apply inv.unique a b
  · rw [dev']; decide
  · rw [dev', dev]
  · exact UInt32.toNat.inj eq

end Cached

/-! ## The steps -/

variable {s : State} {h : History}

theorem set_self (c : Bcache) (b : Fin nbuf) (v : Buf) : (c.set b v).buf b = v :=
  Function.update_self ..

theorem set_other (c : Bcache) {a b : Fin nbuf} (other : a ≠ b) (v : Buf) :
    (c.set b v).buf a = c.buf a := Function.update_of_ne other ..

theorem bget_cases {c c' : Bcache} {l : List (Fin nbuf)} (lru : Lru c h l) {dev blockno : UInt32}
    {b : Fin nbuf} (eq : c.bget dev blockno = some (b, c')) :
    ((c.buf b).dev = dev ∧ (c.buf b).blockno = blockno ∧
      c' = c.set b { c.buf b with refcnt := (c.buf b).refcnt + 1 }) ∨
    ((∀ a, ¬ ((c.buf a).dev = dev ∧ (c.buf a).blockno = blockno)) ∧
      ((c.buf b).refcnt = 0 ∧ (c.buf b).dirty = false) ∧
      (∀ a, (c.buf a).refcnt = 0 → (c.buf a).dirty = false → h.released b ≤ h.released a) ∧
      c' = c.set b { c.buf b with
        dev := dev, blockno := blockno, valid := false, dirty := false, refcnt := 1 }) := by
  unfold Bcache.bget at eq
  rw [lru.search, lru.search_back] at eq
  cases found : l.find? fun b => (c.buf b).dev == dev && (c.buf b).blockno == blockno with
  | some a =>
    simp only [found, Option.some.injEq, Prod.mk.injEq] at eq
    obtain ⟨rfl, rfl⟩ := eq
    have here := List.find?_some found
    simp only [Bool.and_eq_true, beq_iff_eq] at here
    exact .inl ⟨here.1, here.2, rfl⟩
  | none =>
    have absent (a : Fin nbuf) : ¬ ((c.buf a).dev = dev ∧ (c.buf a).blockno = blockno) := by
      have := List.find?_eq_none.mp found a (lru.all a)
      simpa using this
    cases free : l.reverse.find? fun b => (c.buf b).refcnt == 0 && !(c.buf b).dirty with
    | none => simp [found, free] at eq
    | some a =>
      simp only [found, free, Option.some.injEq, Prod.mk.injEq] at eq
      obtain ⟨rfl, rfl⟩ := eq
      have unused := List.find?_some free
      simp only [Bool.and_eq_true, beq_iff_eq, Bool.not_eq_true'] at unused
      refine .inr ⟨absent, unused, ?_, rfl⟩
      -- whoever is behind it in the list is in use or dirty
      intro x idle clean
      obtain ⟨_, l₂, l₁, split, busy⟩ := List.find?_eq_some_iff_append.mp free
      have sorted := lru.sorted
      rw [← List.reverse_reverse l, split, List.pairwise_reverse] at sorted
      have mem := lru.all x
      rw [← List.mem_reverse, split, List.mem_append, List.mem_cons] at mem
      obtain behind | rfl | before := mem
      · have := busy x behind
        simp [idle, clean] at this
      · exact Nat.le_refl _
      · have order := (List.pairwise_append.mp sorted).2.1
        exact Nat.le_of_lt ((List.pairwise_cons.mp order).1 x before idle unused.1)

/-- A step that changes one buffer, which keeps its block. -/
theorem Cached.of_change (inv : Cached s h) {t : State} {h' : History} {b : Fin nbuf}
    (same : ∀ a, a ≠ b → t.cache.buf a = s.cache.buf a)
    (lru : ∃ l, Lru t.cache h' l)
    (dev : (t.cache.buf b).dev = (s.cache.buf b).dev)
    (blockno : (t.cache.buf b).blockno = (s.cache.buf b).blockno)
    (refcnt : (t.cache.buf b).refcnt = (if (t.cache.buf b).locked then 1 else 0) + t.waiting b)
    (waiting : ∀ a, a ≠ b → t.waiting a = s.waiting a)
    (asked : ∀ r ∈ t.pending, (s.cache.buf r.buf).dev = r.dev ∧
      (s.cache.buf r.buf).blockno = r.blockno)
    (sound : Sound (t.cache.buf b) h'.given)
    (others : ∀ a, a ≠ b → Sound (s.cache.buf a) h'.given)
    (disk : ∀ k, t.cache.disk k = h'.given k ∨
      ((t.cache.buf b).dev = 1 ∧ (t.cache.buf b).blockno.toNat = k ∧
        (t.cache.buf b).dirty = true) ∨
      ∃ a, a ≠ b ∧ (s.cache.buf a).dev = 1 ∧ (s.cache.buf a).blockno.toNat = k ∧
        (s.cache.buf a).dirty = true) : Cached t h' := by
  have block (a : Fin nbuf) : (t.cache.buf a).dev = (s.cache.buf a).dev ∧
      (t.cache.buf a).blockno = (s.cache.buf a).blockno := by
    by_cases here : a = b
    · rw [here]; exact ⟨dev, blockno⟩
    · rw [same a here]; exact ⟨rfl, rfl⟩
  constructor
  case lru => exact lru
  case unique =>
    intro x y
    rw [(block x).1, (block x).2, (block y).1, (block y).2]
    exact inv.unique x y
  case refcnt =>
    intro a
    by_cases here : a = b
    · rw [here]; exact refcnt
    · rw [same a here, waiting a here]; exact inv.refcnt a
  case asked =>
    intro r mem
    rw [(block r.buf).1, (block r.buf).2]
    exact asked r mem
  case sound =>
    intro a
    by_cases here : a = b
    · rw [here]; exact sound
    · rw [same a here]; exact others a here
  case disk =>
    intro k
    obtain eq | mine | ⟨a, other, there⟩ := disk k
    · exact .inl eq
    · exact .inr ⟨b, mine⟩
    · exact .inr ⟨a, by rw [same a other]; exact there⟩

/-- Where the disk is behind, some buffer is dirty: this one or another. -/
theorem Cached.disk_cases (inv : Cached s h) (b : Fin nbuf) (k : Nat) :
    s.cache.disk k = h.given k ∨
    ((s.cache.buf b).dev = 1 ∧ (s.cache.buf b).blockno.toNat = k ∧
      (s.cache.buf b).dirty = true) ∨
    ∃ a, a ≠ b ∧ (s.cache.buf a).dev = 1 ∧ (s.cache.buf a).blockno.toNat = k ∧
      (s.cache.buf a).dirty = true := by
  obtain eq | ⟨a, there⟩ := inv.disk k
  · exact .inl eq
  · by_cases here : a = b
    · exact .inr (.inl (here ▸ there))
    · exact .inr (.inr ⟨a, here, there⟩)

theorem waiting_append (s : State) (r : Request) (a : Fin nbuf) :
    State.waiting ⟨s.cache, s.pending ++ [r]⟩ a = s.waiting a + if r.buf = a then 1 else 0 := by
  simp [State.waiting, List.countP_append, List.countP_singleton]

/-- A buffer nobody uses gets a new block. -/
theorem recycle_cached (inv : Cached s h) {b : Fin nbuf} {dev blockno : UInt32}
    (absent : ∀ a, ¬ ((s.cache.buf a).dev = dev ∧ (s.cache.buf a).blockno = blockno))
    (idle : (s.cache.buf b).refcnt = 0) (clean : (s.cache.buf b).dirty = false) :
    Cached ⟨s.cache.set b { s.cache.buf b with
        dev := dev, blockno := blockno, valid := false, dirty := false, refcnt := 1 },
      s.pending ++ [⟨b, dev, blockno⟩]⟩ h := by
  obtain ⟨unlocked, unwanted⟩ := inv.idle idle
  obtain ⟨l, lru⟩ := inv.lru
  generalize new : ({ s.cache.buf b with
    dev := dev, blockno := blockno, valid := false, dirty := false, refcnt := 1 } : Buf) = v
  have self : (s.cache.set b v).buf b = v := set_self ..
  have other (a : Fin nbuf) (ne : a ≠ b) : (s.cache.set b v).buf a = s.cache.buf a := set_other _ ne _
  constructor
  case lru =>
    refine ⟨l, lru.congr rfl rfl ?_ (fun _ _ => rfl) lru.clock⟩
    intro a zero
    by_cases here : a = b
    · rw [here]; exact idle
    · rwa [other a here] at zero
  case unique =>
    intro x y nonzero' dev' block
    by_cases hx : x = b
    · by_cases hy : y = b
      · rw [hx, hy]
      · rw [hx, self, other y hy, ← new] at dev' block
        exact absurd ⟨dev'.symm, block.symm⟩ (absent y)
    · by_cases hy : y = b
      · rw [hy, self, other x hx, ← new] at dev' block
        exact absurd ⟨dev', block⟩ (absent x)
      · rw [other x hx] at nonzero' dev' block
        rw [other y hy] at dev' block
        exact inv.unique x y nonzero' dev' block
  case refcnt =>
    intro a
    change _ = _ + State.waiting ⟨s.cache, s.pending ++ [⟨b, dev, blockno⟩]⟩ a
    rw [waiting_append]
    by_cases here : a = b
    · have count := inv.refcnt b
      rw [here, self, ← new, if_pos rfl]
      rw [idle] at count
      simp only [unlocked, Bool.false_eq_true, ↓reduceIte] at count ⊢
      omega
    · rw [other a here, if_neg (Ne.symm here), inv.refcnt a, Nat.add_zero]
  case asked =>
    intro r mem
    rw [List.mem_append, List.mem_singleton] at mem
    obtain mem | rfl := mem
    · rw [other r.buf (unwanted r mem)]
      exact inv.asked r mem
    · rw [self, ← new]
      exact ⟨rfl, rfl⟩
  case sound =>
    intro a
    by_cases here : a = b
    · rw [here, self, ← new]
      refine ⟨?_, fun no => no, fun no => by cases no⟩
      intro locked
      rw [unlocked] at locked
      cases locked
    · rw [other a here]
      exact inv.sound a
  case disk =>
    intro k
    obtain eq | ⟨_, _, dirty⟩ | ⟨a, ne, there⟩ := inv.disk_cases b k
    · exact .inl eq
    · rw [clean] at dirty
      cases dirty
    · exact .inr ⟨a, by rw [other a ne]; exact there⟩

theorem bget_cached (inv : Cached s h) {dev blockno : UInt32} {b : Fin nbuf} {c : Bcache}
    (eq : s.cache.bget dev blockno = some (b, c)) :
    Cached ⟨c, s.pending ++ [⟨b, dev, blockno⟩]⟩ h := by
  obtain ⟨l, lru⟩ := inv.lru
  obtain ⟨dev', block, rfl⟩ | ⟨absent, ⟨idle, clean⟩, _, rfl⟩ := bget_cases lru eq
  · have self := set_self s.cache b { s.cache.buf b with refcnt := (s.cache.buf b).refcnt + 1 }
    have waiting (a : Fin nbuf) := waiting_append s ⟨b, dev, blockno⟩ a
    apply inv.of_change (b := b)
    case same => intro a other; exact set_other _ other _
    case lru =>
      refine ⟨l, lru.congr rfl rfl ?_ (fun _ _ => rfl) lru.clock⟩
      intro a zero
      by_cases here : a = b
      · rw [here, self] at zero
        cases zero
      · rwa [set_other _ here] at zero
    case dev => rw [self]
    case blockno => rw [self]
    case refcnt =>
      have count := inv.refcnt b
      rw [self]
      change _ = _ + State.waiting ⟨s.cache, s.pending ++ [⟨b, dev, blockno⟩]⟩ b
      rw [waiting, if_pos rfl]
      dsimp only
      omega
    case waiting =>
      intro a other
      exact (waiting a).trans (by rw [if_neg (Ne.symm other), Nat.add_zero])
    case asked =>
      intro r mem
      rw [List.mem_append, List.mem_singleton] at mem
      obtain mem | rfl := mem
      · exact inv.asked r mem
      · exact ⟨dev', block⟩
    case sound =>
      rw [self]
      exact ⟨(inv.sound b).locked, (inv.sound b).dirty, (inv.sound b).data⟩
    case others => exact fun a _ => inv.sound a
    case disk => intro k; rw [self]; exact inv.disk_cases b k
  · exact recycle_cached inv absent idle clean

theorem waiting_eraseIdx {s : State} {k : Nat} {r : Request} (there : s.pending[k]? = some r)
    (c : Bcache) (a : Fin nbuf) :
    s.waiting a = State.waiting ⟨c, s.pending.eraseIdx k⟩ a + if r.buf = a then 1 else 0 := by
  obtain ⟨lt, rfl⟩ := List.getElem?_eq_some_iff.mp there
  have perm := List.getElem_cons_eraseIdx_perm lt
  have count := perm.countP_eq fun r => r.buf == a
  rw [List.countP_cons] at count
  simp only [beq_iff_eq] at count
  exact count.symm

/-- What iderw() does to a locked buffer that needs it. -/
theorem iderw_cases {c c' : Bcache} {b : Fin nbuf} (eq : c.iderw b = some c') :
    (c.buf b).dev = 1 ∧
    (((c.buf b).dirty = true ∧ c' = { c.set b { c.buf b with dirty := false, valid := true } with
        disk := Function.update c.disk (c.buf b).blockno.toNat (c.buf b).data }) ∨
     ((c.buf b).dirty = false ∧
        c' = c.set b { c.buf b with data := c.disk (c.buf b).blockno.toNat, valid := true })) := by
  unfold Bcache.iderw at eq
  by_cases unlocked : (c.buf b).locked = false
  · rw [if_pos unlocked] at eq
    cases eq
  rw [if_neg unlocked] at eq
  by_cases nothing : (c.buf b).valid = true ∧ (c.buf b).dirty = false
  · rw [if_pos nothing] at eq
    cases eq
  rw [if_neg nothing] at eq
  by_cases dev : (c.buf b).dev ≠ 1
  · rw [if_pos dev] at eq
    cases eq
  rw [if_neg dev] at eq
  by_cases range : c.disksize ≤ (c.buf b).blockno.toNat
  · rw [if_pos range] at eq
    cases eq
  rw [if_neg range] at eq
  refine ⟨not_not.mp dev, ?_⟩
  by_cases dirty : (c.buf b).dirty = true
  · rw [if_pos dirty] at eq
    exact .inl ⟨dirty, (Option.some.inj eq).symm⟩
  · rw [if_neg dirty] at eq
    exact .inr ⟨Bool.eq_false_iff.mpr dirty, (Option.some.inj eq).symm⟩

/-- bread() returns the buffer locked and valid, with its data read from disk
if they were not there. -/
theorem bread_cases {c c' : Bcache} {b : Fin nbuf} (dirty : (c.buf b).dirty = true → (c.buf b).valid = true)
    (eq : c.bread b = some c') :
    ((c.buf b).valid = true ∧ c' = c.set b { c.buf b with locked := true }) ∨
    ((c.buf b).dev = 1 ∧ (c.buf b).dirty = false ∧
      c' = c.set b { c.buf b with
        locked := true, data := c.disk (c.buf b).blockno.toNat, valid := true }) := by
  unfold Bcache.bread at eq
  simp only [set_self] at eq
  by_cases valid : (c.buf b).valid = true
  · rw [if_pos valid] at eq
    exact .inl ⟨valid, (Option.some.inj eq).symm⟩
  · rw [if_neg valid] at eq
    obtain ⟨dev, ⟨dirty', _⟩ | ⟨clean, rfl⟩⟩ := iderw_cases eq
    · rw [set_self] at dirty'
      exact absurd (dirty dirty') valid
    · rw [set_self] at dev clean
      refine .inr ⟨dev, clean, ?_⟩
      simp [Bcache.set]

theorem bread_cached (inv : Cached s h) {k : Nat} {r : Request} (there : s.pending[k]? = some r)
    (free : (s.cache.buf r.buf).locked = false) {c : Bcache} (eq : s.cache.bread r.buf = some c) :
    Cached ⟨c, s.pending.eraseIdx k⟩ h := by
  obtain ⟨l, lru⟩ := inv.lru
  have waiting := waiting_eraseIdx there c
  have count := inv.refcnt r.buf
  rw [free, waiting r.buf, if_pos rfl] at count
  -- Both ways the buffer is the same but for the flags and the data.
  obtain ⟨v, rfl, dev, block, refcnt, locked, dirty, sound⟩ : ∃ v, c = s.cache.set r.buf v ∧
      v.dev = (s.cache.buf r.buf).dev ∧ v.blockno = (s.cache.buf r.buf).blockno ∧
      v.refcnt = (s.cache.buf r.buf).refcnt ∧ v.locked = true ∧
      v.dirty = (s.cache.buf r.buf).dirty ∧ Sound v h.given := by
    have sound := inv.sound r.buf
    obtain ⟨valid, rfl⟩ | ⟨dev, clean, rfl⟩ := bread_cases sound.dirty eq
    · exact ⟨_, rfl, rfl, rfl, rfl, rfl, rfl, fun _ => valid, sound.dirty, sound.data⟩
    · exact ⟨_, rfl, rfl, rfl, rfl, rfl, rfl, fun _ => rfl, fun _ => rfl,
        fun _ => ⟨dev, inv.disk_eq dev clean⟩⟩
  have self := set_self s.cache r.buf v
  apply inv.of_change (b := r.buf)
  case same => intro a other; exact set_other _ other _
  case lru =>
    refine ⟨l, lru.congr rfl rfl ?_ (fun _ _ => rfl) lru.clock⟩
    intro a zero
    by_cases here : a = r.buf
    · rw [here, self, refcnt] at zero
      rw [here]
      exact zero
    · rwa [set_other _ here] at zero
  case dev => rw [self]; exact dev
  case blockno => rw [self]; exact block
  case refcnt =>
    rw [self, refcnt, locked, count, if_pos rfl]
    simp only [Bool.false_eq_true, ↓reduceIte]
    omega
  case waiting =>
    intro a other
    rw [waiting a, if_neg (Ne.symm other), Nat.add_zero]
  case asked =>
    intro r' mem
    exact inv.asked r' (List.mem_of_mem_eraseIdx mem)
  case sound => rw [self]; exact sound
  case others => exact fun a _ => inv.sound a
  case disk =>
    intro k
    rw [self, dev, block, dirty]
    exact inv.disk_cases r.buf k

/-- The caller gives the block of its buffer new contents, which go to the
buffer, and to the disk unless the buffer is dirty after that. -/
theorem give_cached (inv : Cached s h) {b : Fin nbuf} (locked : (s.cache.buf b).locked = true)
    (v : Block) (dirty : Bool) {c : Bcache}
    (eq : c.buf = Function.update s.cache.buf b
      { s.cache.buf b with data := v, dirty := dirty, valid := true })
    (next : c.next = s.cache.next) (prev : c.prev = s.cache.prev)
    (disk : ∀ k, c.disk k = s.cache.disk k ∧ (k = (s.cache.buf b).blockno.toNat → dirty = true) ∨
      k = (s.cache.buf b).blockno.toNat ∧ c.disk k = v) :
    Cached { s with cache := c }
      { h with given := Function.update h.given (s.cache.buf b).blockno.toNat v } := by
  obtain ⟨l, lru⟩ := inv.lru
  have sound := inv.sound b
  obtain ⟨dev, _⟩ := sound.data (sound.locked locked)
  have self : c.buf b = { s.cache.buf b with data := v, dirty := dirty, valid := true } := by
    rw [eq, Function.update_self]
  have other (a : Fin nbuf) (ne : a ≠ b) : c.buf a = s.cache.buf a := by
    rw [eq, Function.update_of_ne ne]
  apply inv.of_change (b := b)
  case same => exact other
  case lru =>
    refine ⟨l, lru.congr next prev ?_ (fun _ _ => rfl) lru.clock⟩
    intro a zero
    by_cases here : a = b
    · rw [here, self] at zero
      rw [here]
      exact zero
    · rwa [other a here] at zero
  case dev => change (c.buf b).dev = _; rw [self]
  case blockno => change (c.buf b).blockno = _; rw [self]
  case refcnt => change (c.buf b).refcnt = (if (c.buf b).locked then 1 else 0) + _; rw [self]; exact inv.refcnt b
  case waiting => exact fun _ _ => rfl
  case asked => exact inv.asked
  case sound =>
    change Sound (c.buf b) _
    rw [self]
    refine ⟨fun _ => rfl, fun _ => rfl, fun _ => ⟨dev, ?_⟩⟩
    dsimp only
    rw [Function.update_self]
  case others =>
    intro a ne
    have sound := inv.sound a
    refine ⟨sound.locked, sound.dirty, ?_⟩
    intro valid
    dsimp only
    rw [Function.update_of_ne (inv.other_block dev ne valid)]
    exact sound.data valid
  case disk =>
    intro k
    change c.disk k = _ ∨ ((c.buf b).dev = 1 ∧ (c.buf b).blockno.toNat = k ∧ _) ∨ _
    rw [self]
    dsimp only
    by_cases here : k = (s.cache.buf b).blockno.toNat
    · obtain ⟨_, behind⟩ | ⟨_, written⟩ := disk k
      · exact .inr (.inl ⟨dev, here.symm, behind here⟩)
      · rw [written, here, Function.update_self]
        exact .inl rfl
    · have kept : c.disk k = s.cache.disk k := by
        obtain ⟨kept, _⟩ | ⟨there, _⟩ := disk k
        · exact kept
        · exact absurd there here
      rw [kept, Function.update_of_ne here]
      obtain right | ⟨_, there, _⟩ | elsewhere := inv.disk_cases b k
      · exact .inl right
      · exact absurd there.symm here
      · exact .inr (.inr elsewhere)

theorem logWrite_cached (inv : Cached s h) {b : Fin nbuf} (locked : (s.cache.buf b).locked = true)
    (v : Block) : Cached { s with cache := (s.cache.fill b v).logWrite b }
      { h with given := Function.update h.given (s.cache.buf b).blockno.toNat v } := by
  have valid := (inv.sound b).locked locked
  apply give_cached inv locked v true
  case eq => simp [Bcache.logWrite, Bcache.fill, Bcache.set, valid]
  case next => rfl
  case prev => rfl
  case disk => intro k; exact .inl ⟨rfl, fun _ => rfl⟩

theorem bwrite_cached (inv : Cached s h) {b : Fin nbuf} {v : Block} {c : Bcache}
    (eq : (s.cache.fill b v).bwrite b = some c) : Cached { s with cache := c }
      { h with given := Function.update h.given (s.cache.buf b).blockno.toNat v } := by
  unfold Bcache.bwrite at eq
  simp only [Bcache.fill, set_self] at eq
  by_cases unlocked : (s.cache.buf b).locked = false
  · rw [if_pos unlocked] at eq
    cases eq
  rw [if_neg unlocked] at eq
  obtain ⟨_, ⟨_, rfl⟩ | ⟨clean, _⟩⟩ := iderw_cases eq
  · apply give_cached inv ((Bool.not_eq_false _).mp unlocked) v false
    case eq => simp [Bcache.set]
    case next => rfl
    case prev => rfl
    case disk =>
      intro k
      simp only [set_self]
      by_cases here : k = (s.cache.buf b).blockno.toNat
      · rw [here, Function.update_self]
        exact .inr ⟨rfl, rfl⟩
      · rw [Function.update_of_ne here]
        exact .inl ⟨rfl, fun eq => absurd eq here⟩
  · rw [set_self] at clean
    cases clean

theorem brelse_cached (inv : Cached s h) {b : Fin nbuf} {c : Bcache}
    (eq : s.cache.brelse b = some c) : Cached { s with cache := c }
      { h with released := Function.update h.released b h.clock, clock := h.clock + 1 } := by
  unfold Bcache.brelse at eq
  by_cases unlocked : (s.cache.buf b).locked = false
  · rw [if_pos unlocked] at eq
    cases eq
  rw [if_neg unlocked] at eq
  have locked := (Bool.not_eq_false _).mp unlocked
  have count := inv.refcnt b
  rw [locked, if_pos rfl] at count
  obtain ⟨l, lru⟩ := inv.lru
  generalize new : ({ s.cache.buf b with
    locked := false, refcnt := (s.cache.buf b).refcnt - 1 } : Buf) = v at eq
  have self : (s.cache.set b v).buf b = v := set_self ..
  have other (a : Fin nbuf) (ne : a ≠ b) : (s.cache.set b v).buf a = s.cache.buf a :=
    set_other _ ne _
  simp only [self, Option.some.injEq] at eq
  have buf : c.buf = (s.cache.set b v).buf := by
    rw [← eq]
    split <;> rfl
  have disk : c.disk = s.cache.disk := by
    rw [← eq]
    split <;> rfl
  apply inv.of_change (b := b)
  case same => intro a ne; change c.buf a = _; rw [buf]; exact other a ne
  case lru =>
    change ∃ l, Lru c _ l
    by_cases zero : v.refcnt = 0
    · rw [if_pos zero] at eq
      rw [← eq]
      exact lru.release rfl rfl other
    · rw [if_neg zero] at eq
      rw [← eq]
      refine ⟨l, lru.congr rfl rfl ?_ ?_ ?_⟩
      · intro a none
        by_cases here : a = b
        · rw [here, self] at none
          exact absurd none zero
        · rwa [other a here] at none
      · intro a none
        by_cases here : a = b
        · rw [here, self] at none
          exact absurd none zero
        · exact Function.update_of_ne here ..
      · intro a
        by_cases here : a = b
        · simp [here]
        · simp only [Function.update_of_ne here]
          exact Nat.lt_succ_of_lt (lru.clock a)
  case dev => change (c.buf b).dev = _; rw [buf, self, ← new]
  case blockno => change (c.buf b).blockno = _; rw [buf, self, ← new]
  case refcnt =>
    change (c.buf b).refcnt = (if (c.buf b).locked then 1 else 0) + s.waiting b
    rw [buf, self, ← new]
    simp only [Bool.false_eq_true, ↓reduceIte]
    omega
  case waiting => exact fun _ _ => rfl
  case asked => exact inv.asked
  case sound =>
    change Sound (c.buf b) _
    rw [buf, self, ← new]
    refine ⟨?_, (inv.sound b).dirty, (inv.sound b).data⟩
    intro no
    cases no
  case others => exact fun a _ => inv.sound a
  case disk =>
    intro k
    change c.disk k = _ ∨ ((c.buf b).dev = 1 ∧ (c.buf b).blockno.toNat = k ∧ _) ∨ _
    rw [buf, self, ← new, disk]
    exact inv.disk_cases b k

theorem next_cached (inv : Cached s h) {a : Action} {t : State} (eq : s.next a = some t) :
    Cached t (note s a h) := by
  cases a with
  | bget dev blockno =>
    obtain ⟨r, found, rfl⟩ := Option.map_eq_some_iff.mp eq
    exact bget_cached inv found
  | bread k =>
    dsimp only [State.next] at eq
    cases there : s.pending[k]? with
    | none => simp only [there, reduceCtorEq] at eq
    | some r =>
      simp only [there] at eq
      by_cases locked : (s.cache.buf r.buf).locked = true
      · rw [if_pos locked] at eq
        cases eq
      · rw [if_neg locked] at eq
        obtain ⟨c, got, rfl⟩ := Option.map_eq_some_iff.mp eq
        exact bread_cached inv there (Bool.eq_false_iff.mpr locked) got
  | logWrite b v =>
    dsimp only [State.next] at eq
    by_cases locked : (s.cache.buf b).locked = true
    · rw [if_pos locked] at eq
      cases eq
      exact logWrite_cached inv locked v
    · rw [if_neg locked] at eq
      cases eq
  | bwrite b v =>
    obtain ⟨c, written, rfl⟩ := Option.map_eq_some_iff.mp eq
    exact bwrite_cached inv written
  | brelse b =>
    obtain ⟨c, released, rfl⟩ := Option.map_eq_some_iff.mp eq
    exact brelse_cached inv released

theorem step_cached (s : State) (a : Action) (h : History) (enabled : Enabled s a)
    (inv : Cached s h) : Cached (perform s a) (note s a h) := by
  obtain ⟨t, eq⟩ := Option.isSome_iff_exists.mp enabled
  rw [perform, eq]
  exact next_cached inv eq

/-- What bread() returns to its caller. -/
theorem bread_returns (inv : Cached s h) {k : Nat} {r : Request} {t : State}
    (there : s.pending[k]? = some r) (eq : s.next (.bread k) = some t) :
    (t.cache.buf r.buf).dev = r.dev ∧ (t.cache.buf r.buf).blockno = r.blockno ∧
      (t.cache.buf r.buf).locked = true ∧ (t.cache.buf r.buf).data = h.given r.blockno.toNat := by
  have inv' : Cached t h := next_cached inv eq
  obtain ⟨dev, block⟩ := inv.asked r (List.mem_of_getElem? there)
  simp only [State.next, there] at eq
  by_cases locked : (s.cache.buf r.buf).locked = true
  · rw [if_pos locked] at eq
    cases eq
  rw [if_neg locked] at eq
  obtain ⟨c, got, rfl⟩ := Option.map_eq_some_iff.mp eq
  obtain ⟨v, rfl, dev', block', locked'⟩ : ∃ v, c = s.cache.set r.buf v ∧
      v.dev = r.dev ∧ v.blockno = r.blockno ∧ v.locked = true := by
    obtain ⟨_, rfl⟩ | ⟨_, _, rfl⟩ := bread_cases (inv.sound r.buf).dirty got
    · exact ⟨_, rfl, dev, block, rfl⟩
    · exact ⟨_, rfl, dev, block, rfl⟩
  have sound := inv'.sound r.buf
  rw [set_self] at sound ⊢
  refine ⟨dev', block', locked', ?_⟩
  rw [(sound.data (sound.locked locked')).2, block']

/-- Whatever calls ran: bread() returns what its block was last given, no block
is in two buffers, the list goes through each buffer once, and bget() recycles
the buffer released longest ago. -/
theorem cache_transparent (disk : Nat → Block) (disksize : Nat) (as : List Action)
    (legal : system.Legal (init disk disksize) as) :
    let s := system.after (init disk disksize) as
    let h := system.track note (init disk disksize) as (.start disk)
    (∀ k r t, s.pending[k]? = some r → s.next (.bread k) = some t →
      (t.cache.buf r.buf).dev = r.dev ∧ (t.cache.buf r.buf).blockno = r.blockno ∧
      (t.cache.buf r.buf).locked = true ∧ (t.cache.buf r.buf).data = h.given r.blockno.toNat) ∧
    (∀ a b, (s.cache.buf a).dev ≠ 0 → (s.cache.buf a).dev = (s.cache.buf b).dev →
      (s.cache.buf a).blockno = (s.cache.buf b).blockno → a = b) ∧
    (∃ l, Linked.Ring s.cache.next s.cache.prev l ∧ l.Nodup ∧ ∀ b, b ∈ l) ∧
    ∀ dev blockno b c, s.cache.bget dev blockno = some (b, c) →
      (∀ a, ¬ ((s.cache.buf a).dev = dev ∧ (s.cache.buf a).blockno = blockno)) →
      (s.cache.buf b).refcnt = 0 ∧ (s.cache.buf b).dirty = false ∧
      ∀ a, (s.cache.buf a).refcnt = 0 → (s.cache.buf a).dirty = false →
        h.released b ≤ h.released a := by
  intro s h
  have inv : Cached s h := system.track_invariant step_cached legal (init_cached disk disksize)
  obtain ⟨l, lru⟩ := inv.lru
  refine ⟨?_, inv.unique, ⟨l, lru.ring, lru.ring.nodup, lru.all⟩, ?_⟩
  · intro k r t there eq
    exact bread_returns inv there eq
  · intro dev blockno b c eq absent
    obtain ⟨dev', block, _⟩ | ⟨_, ⟨idle, clean⟩, oldest, _⟩ := bget_cases lru eq
    · exact absurd ⟨dev', block⟩ (absent b)
    · exact ⟨idle, clean, oldest⟩

/-- Block 7 is read, given new contents and released, and then read again. -/
theorem block_read_back :
    let disk : Nat → Block := fun _ => Bytes.zero
    let b : Fin nbuf := ⟨0, by decide⟩
    let as : List Action := [.bget 1 7, .bread 0, .logWrite b (fun _ => 5), .brelse b, .bget 1 7]
    let s := system.after (init disk 1000) as
    Enabled s (.bread 0) ∧
      ∀ t, s.next (.bread 0) = some t → (t.cache.buf b).data.byte 3 = 5 := by
  intro disk b as s
  have legal : system.Legal (init disk 1000) as := by decide +kernel
  have asked : s.pending[0]? = some ⟨b, 1, 7⟩ := by decide +kernel
  have given : ((system.track note (init disk 1000) as (.start disk)).given 7).byte 3 = 5 := by
    decide +kernel
  refine ⟨by unfold Enabled; decide +kernel, ?_⟩
  intro t eq
  obtain ⟨returns, _⟩ := cache_transparent disk 1000 as legal
  have same := (returns 0 ⟨b, 1, 7⟩ t asked eq).2.2.2
  rw [same]
  exact given

end Xv6.Buffers
