import Xv6.Lib.RingBuffer
import Xv6.Lib.Runs

/-! pipe.c: any number of processes inside pipewrite(), piperead() and
pipeclose() of one pipe. A stretch of code under `p->lock`, up to its release
or to sleep(), is one step. -/

namespace Xv6.Pipes
open Lib

def pipeSize : Nat := 512

theorem pipeSize_capacity : RingBuffer.Capacity pipeSize := ⟨by decide, by decide⟩

structure Pipe where
  data : Nat → UInt8
  /-- Number of bytes read. -/
  nread : UInt32
  /-- Number of bytes written. -/
  nwrite : UInt32
  /-- Read fd is still open. -/
  readopen : Bool
  /-- Write fd is still open. -/
  writeopen : Bool

namespace Pipe
variable (p : Pipe)

/-- `p->nwrite == p->nread + PIPESIZE` -/
def full : Bool := p.nwrite == p.nread + .ofNat pipeSize

/-- `p->nread == p->nwrite` -/
def isEmpty : Bool := p.nread == p.nwrite

/-- `p->data[p->nwrite++ % PIPESIZE] = b` -/
def put (b : UInt8) : Pipe :=
  { p with
    data := Function.update p.data (p.nwrite.toNat % pipeSize) b
    nwrite := p.nwrite + 1 }

/-- The byte at `p->data[p->nread++ % PIPESIZE]`, and the pipe without it. -/
def get : UInt8 × Pipe :=
  (p.data (p.nread.toNat % pipeSize), { p with nread := p.nread + 1 })

/-- The loop of pipewrite() as far as it gets before the pipe is full: the
pipe, and the bytes that are left. -/
def store : Pipe → List UInt8 → Pipe × List UInt8
  | p, [] => (p, [])
  | p, b :: bs => if p.full then (p, b :: bs) else store (p.put b) bs

/-- The loop of piperead(): the pipe, and the bytes copied. -/
def load : Pipe → Nat → Pipe × List UInt8
  | p, 0 => (p, [])
  | p, n + 1 =>
    if p.isEmpty then (p, [])
    else
      let (p', bs) := load p.get.2 n
      (p', p.get.1 :: bs)

end Pipe

/-! ## The calls -/

/-- A call that has not returned. -/
inductive Call where
  /-- pipewrite() of `n` bytes, of which `rest` have not been stored. -/
  | write (n : Nat) (rest : List UInt8)
  | read (n : Nat)
  deriving DecidableEq, Repr

/-- What a process sleeps on. -/
inductive Chan where
  | nread
  | nwrite
  deriving DecidableEq, Repr

def Call.chan : Call → Chan
  | .write _ _ => .nwrite
  | .read _ => .nread

inductive Outcome where
  | returns (r : Int)
  /-- sleep(), and the call goes on from there. -/
  | sleeps (c : Call)
  deriving DecidableEq, Repr

/-- What a stretch of code under the lock does. -/
structure Stretch where
  pipe : Pipe
  wakes : Option Chan
  outcome : Outcome
  stored : List UInt8
  copied : List UInt8

def pipewrite (p : Pipe) (killed : Bool) (n : Nat) (rest : List UInt8) : Stretch :=
  let (p', left) := p.store rest
  let stored := rest.take (rest.length - left.length)
  if left = [] then ⟨p', some .nread, .returns n, stored, []⟩
  else if p'.readopen = false ∨ killed then ⟨p', none, .returns (-1), stored, []⟩
  else ⟨p', some .nread, .sleeps (.write n left), stored, []⟩

def piperead (p : Pipe) (killed : Bool) (n : Nat) : Stretch :=
  if p.isEmpty ∧ p.writeopen then
    if killed then ⟨p, none, .returns (-1), [], []⟩
    else ⟨p, none, .sleeps (.read n), [], []⟩
  else
    let (p', bs) := p.load n
    ⟨p', some .nwrite, .returns bs.length, [], bs⟩

def Call.stretch (p : Pipe) (killed : Bool) : Call → Stretch
  | .write n rest => pipewrite p killed n rest
  | .read n => piperead p killed n

/-! ## Processes -/

inductive Thread where
  /-- Not in a call on this pipe. -/
  | out
  | running (c : Call)
  | sleeping (c : Call)
  deriving DecidableEq, Repr

structure State (ι : Type) where
  pipe : Pipe
  thread : ι → Thread
  killed : ι → Bool

inductive Action (ι : Type) where
  /-- Call pipewrite() or piperead(). -/
  | write (i : ι) (bytes : List UInt8)
  | read (i : ι) (n : Nat)
  /-- Up to the next release of the lock or sleep(). -/
  | run (i : ι)
  /-- pipeclose() -/
  | close (writable : Bool)
  | kill (i : ι)

variable {ι : Type} [DecidableEq ι]

def wakeup (chan : Chan) : Thread → Thread
  | .sleeping c => if c.chan = chan then .running c else .sleeping c
  | t => t

namespace State

def set (s : State ι) (i : ι) (t : Thread) : State ι :=
  { s with thread := Function.update s.thread i t }

def wake (s : State ι) : Option Chan → State ι
  | some chan => { s with thread := fun i => wakeup chan (s.thread i) }
  | none => s

def stretch (s : State ι) (i : ι) (r : Stretch) : State ι :=
  let s := { s with pipe := r.pipe }.wake r.wakes
  match r.outcome with
  | .returns _ => s.set i .out
  | .sleeps c => s.set i (.sleeping c)

def pipeclose (s : State ι) (writable : Bool) : State ι :=
  if writable then { s with pipe := { s.pipe with writeopen := false } }.wake (some .nread)
  else { s with pipe := { s.pipe with readopen := false } }.wake (some .nwrite)

/-- kill() also makes a sleeping process runnable. -/
def kill (s : State ι) (i : ι) : State ι :=
  { s with
    killed := Function.update s.killed i true
    thread := Function.update s.thread i
      (match s.thread i with | .sleeping c => .running c | t => t) }

end State

/-- What the stretch of process `i` does, if it is in a call. -/
def State.next (s : State ι) (i : ι) : Option Stretch :=
  match s.thread i with
  | .running c => some (c.stretch s.pipe (s.killed i))
  | _ => none

def perform (s : State ι) : Action ι → State ι
  | .write i bytes => s.set i (.running (.write bytes.length bytes))
  | .read i n => s.set i (.running (.read n))
  | .run i =>
    match s.next i with
    | some r => s.stretch i r
    | none => s
  | .close writable => s.pipeclose writable
  | .kill i => s.kill i

/-- The page of the pipe is freed once both its ends are closed. -/
def State.exists (s : State ι) : Bool := s.pipe.readopen || s.pipe.writeopen

def Enabled (s : State ι) : Action ι → Prop
  | .write i _ => s.exists = true ∧ s.thread i = .out
  | .read i _ => s.exists = true ∧ s.thread i = .out
  | .run i => s.exists = true ∧ (s.next i).isSome = true
  | .close _ => s.exists = true
  | .kill _ => True

instance (s : State ι) : (a : Action ι) → Decidable (Enabled s a)
  | .write i _ => inferInstanceAs (Decidable (s.exists = true ∧ s.thread i = .out))
  | .read i _ => inferInstanceAs (Decidable (s.exists = true ∧ s.thread i = .out))
  | .run i => inferInstanceAs (Decidable (s.exists = true ∧ (s.next i).isSome = true))
  | .close _ => inferInstanceAs (Decidable (s.exists = true))
  | .kill _ => inferInstanceAs (Decidable True)

def system (ι : Type) [DecidableEq ι] : System (State ι) (Action ι) := ⟨Enabled, perform⟩

instance (s : State ι) (a : Action ι) : Decidable ((system ι).Enabled s a) :=
  inferInstanceAs (Decidable (Enabled s a))

/-- What the step stores, and what it copies to a reader. -/
def stored (s : State ι) : Action ι → List UInt8
  | .run i => ((s.next i).map Stretch.stored).getD []
  | _ => []

def copied (s : State ι) : Action ι → List UInt8
  | .run i => ((s.next i).map Stretch.copied).getD []
  | _ => []

/-! ## The pipe as a ring buffer -/

namespace Pipe

def ring (p : Pipe) : RingBuffer UInt8 := ⟨p.data, p.nread, p.nwrite⟩

/-- The bytes in the pipe, oldest first. -/
def contents (p : Pipe) : List UInt8 := p.ring.contents pipeSize

def size (p : Pipe) : Nat := p.ring.size

variable {p : Pipe}

theorem full_iff (bound : p.size ≤ pipeSize) : p.full = true ↔ p.size = pipeSize := by
  have h := p.nwrite.toNat_lt
  have h' := p.nread.toNat_lt
  simp only [full, beq_iff_eq, ← UInt32.toNat_inj, size, RingBuffer.size, ring, pipeSize,
    UInt32.toNat_sub, UInt32.toNat_add, UInt32.toNat_ofNat'] at bound ⊢
  omega

theorem isEmpty_iff : p.isEmpty = true ↔ p.size = 0 := by
  have h := p.nwrite.toNat_lt
  have h' := p.nread.toNat_lt
  simp only [isEmpty, beq_iff_eq, ← UInt32.toNat_inj, size, RingBuffer.size, ring, UInt32.toNat_sub]
  omega

theorem contents_eq_nil_iff_size : p.contents = [] ↔ p.size = 0 := by
  have length : p.contents.length = p.size := RingBuffer.length_contents
  rw [← List.length_eq_zero_iff, length]

theorem contents_eq_nil_iff : p.contents = [] ↔ p.nread = p.nwrite := by
  rw [contents_eq_nil_iff_size, ← isEmpty_iff, isEmpty, beq_iff_eq]

theorem ring_put (b : UInt8) : (p.put b).ring = p.ring.put pipeSize b := rfl

theorem ring_get : p.get.2.ring = p.ring.drop := rfl

theorem get_front : p.get.1 = p.ring.front pipeSize := rfl

theorem size_put (b : UInt8) (room : p.size < pipeSize) : (p.put b).size = p.size + 1 := by
  have small : p.ring.size + 1 < 2 ^ 32 := Nat.lt_of_le_of_lt room (by decide)
  rw [size, ring_put, RingBuffer.size_put b small, size]

theorem contents_put (b : UInt8) (room : p.size < pipeSize) :
    (p.put b).contents = p.contents ++ [b] := by
  rw [contents, ring_put, RingBuffer.contents_put pipeSize_capacity b room, contents]

theorem size_get (some : 0 < p.size) : p.get.2.size + 1 = p.size := by
  rw [size, ring_get, RingBuffer.size_drop some, size]

theorem contents_get (some : 0 < p.size) : p.contents = p.get.1 :: p.get.2.contents := by
  rw [contents, RingBuffer.contents_drop pipeSize_capacity some, contents, ring_get, get_front]

/-- Storing fills what room there is, in order. -/
theorem store_spec (bound : p.size ≤ pipeSize) (bs : List UInt8) :
    let room := pipeSize - p.size
    (p.store bs).2 = bs.drop room ∧
    (p.store bs).1.size = p.size + min room bs.length ∧
    (p.store bs).1.contents = p.contents ++ bs.take room ∧
    (p.store bs).1.readopen = p.readopen ∧ (p.store bs).1.writeopen = p.writeopen := by
  induction bs generalizing p with
  | nil => simp [store]
  | cons b bs ih =>
    rw [store]
    by_cases full : p.full = true
    · have none : pipeSize - p.size = 0 := by
        rw [(full_iff bound).mp full]
        exact Nat.sub_self _
      simp [full, none]
    · have room : p.size < pipeSize := by
        have := (full_iff bound).not.mp full
        omega
      have one := size_put b room
      have added := contents_put b room
      obtain ⟨left, size, contents, ends⟩ := ih (p := p.put b) (by omega)
      have less : pipeSize - p.size = (pipeSize - (p.put b).size) + 1 := by omega
      rw [if_neg full]
      refine ⟨?_, ?_, ?_, ends⟩
      · rw [left, less, List.drop_succ_cons]
      · rw [size, List.length_cons]
        omega
      · rw [contents, added, less, List.take_succ_cons, List.append_assoc]
        rfl

/-- Loading takes what there is, in order. -/
theorem load_spec (n : Nat) :
    (p.load n).2 = p.contents.take n ∧
    (p.load n).1.contents = p.contents.drop n ∧
    (p.load n).1.size = p.size - n ∧
    (p.load n).1.readopen = p.readopen ∧ (p.load n).1.writeopen = p.writeopen := by
  induction n generalizing p with
  | zero => simp [load]
  | succ n ih =>
    rw [load]
    by_cases empty : p.isEmpty = true
    · have none : p.size = 0 := isEmpty_iff.mp empty
      have nil : p.contents = [] := contents_eq_nil_iff_size.mpr none
      simp [empty, nil, none]
    · have some : 0 < p.size := Nat.pos_of_ne_zero (isEmpty_iff.not.mp empty)
      have head := contents_get some
      have one := size_get some
      obtain ⟨taken, left, size, ends⟩ := ih (p := p.get.2)
      rw [if_neg empty, head]
      refine ⟨?_, ?_, ?_, ends⟩
      · rw [List.take_succ_cons, ← taken]
      · rw [List.drop_succ_cons, ← left]
      · change (p.get.2.load n).1.size = _
        omega

end Pipe

/-! ## First in, first out -/

/-- What goes into the pipe comes out of it or is still in it. -/
structure Moves (p : Pipe) (r : Stretch) : Prop where
  bound : r.pipe.size ≤ pipeSize
  bytes : p.contents ++ r.stored = r.copied ++ r.pipe.contents

theorem pipewrite_moves {p : Pipe} (bound : p.size ≤ pipeSize) (killed : Bool) (n : Nat)
    (rest : List UInt8) : Moves p (pipewrite p killed n rest) := by
  obtain ⟨left, size, contents, _⟩ := Pipe.store_spec bound rest
  have taken : rest.take (rest.length - (p.store rest).2.length) =
      rest.take (pipeSize - p.size) := by
    rw [List.take_eq_take_iff, left, List.length_drop]
    omega
  have whole : Moves p ⟨(p.store rest).1, none, .returns 0,
      rest.take (rest.length - (p.store rest).2.length), []⟩ := by
    refine ⟨?_, ?_⟩
    · change (p.store rest).1.size ≤ pipeSize
      omega
    · change p.contents ++ rest.take _ = (p.store rest).1.contents
      rw [taken, contents]
  unfold pipewrite
  dsimp only
  split
  · exact ⟨whole.bound, whole.bytes⟩
  · split
    · exact ⟨whole.bound, whole.bytes⟩
    · exact ⟨whole.bound, whole.bytes⟩

theorem piperead_moves {p : Pipe} (bound : p.size ≤ pipeSize) (killed : Bool) (n : Nat) :
    Moves p (piperead p killed n) := by
  obtain ⟨taken, left, size, _⟩ := p.load_spec n
  unfold piperead
  split
  · split
    · exact ⟨bound, by simp⟩
    · exact ⟨bound, by simp⟩
  · refine ⟨?_, ?_⟩
    · change (p.load n).1.size ≤ pipeSize
      omega
    · change p.contents ++ [] = (p.load n).2 ++ (p.load n).1.contents
      rw [taken, left, List.append_nil, List.take_append_drop]

theorem stretch_moves {p : Pipe} (bound : p.size ≤ pipeSize) (killed : Bool) (c : Call) :
    Moves p (c.stretch p killed) := by
  cases c with
  | write n rest => exact pipewrite_moves bound killed n rest
  | read n => exact piperead_moves bound killed n

/-- piperead() returns 0 at the end of the file only. -/
theorem piperead_zero {p : Pipe} {killed : Bool} {n : Nat} (pos : 0 < n)
    (h : (piperead p killed n).outcome = .returns 0) :
    p.nread = p.nwrite ∧ p.writeopen = false := by
  obtain ⟨taken, _⟩ := p.load_spec n
  unfold piperead at h
  split at h
  case isTrue =>
    split at h
    · simp at h
    · simp at h
  case isFalse ready =>
    have none : ((p.load n).2.length : Int) = 0 := by simpa using h
    have nil : p.contents = [] := by
      rw [taken, List.length_take] at none
      apply List.eq_nil_of_length_eq_zero
      omega
    have equal := Pipe.contents_eq_nil_iff.mp nil
    refine ⟨equal, ?_⟩
    simpa [Pipe.isEmpty, equal] using ready

namespace State

omit [DecidableEq ι] in
@[simp] theorem pipe_wake (s : State ι) (w : Option Chan) : (s.wake w).pipe = s.pipe := by
  cases w with
  | none => rfl
  | some chan => rfl

@[simp] theorem pipe_set (s : State ι) (i : ι) (t : Thread) : (s.set i t).pipe = s.pipe := rfl

@[simp] theorem pipe_stretch (s : State ι) (i : ι) (r : Stretch) : (s.stretch i r).pipe = r.pipe := by
  unfold stretch
  dsimp only
  split
  · simp
  · simp

end State

/-- What has been stored and copied so far. -/
structure History where
  stored : List UInt8
  copied : List UInt8

def note (s : State ι) (a : Action ι) (h : History) : History :=
  ⟨h.stored ++ stored s a, h.copied ++ copied s a⟩

/-- The pipe holds, in order, what has been stored and not copied. `before` is
what was in it at first. -/
structure InOrder (before : List UInt8) (s : State ι) (h : History) : Prop where
  bound : s.pipe.size ≤ pipeSize
  bytes : before ++ h.stored = h.copied ++ s.pipe.contents

/-- Steps other than a stretch of a call leave the bytes alone. -/
theorem InOrder.of_idle {before : List UInt8} {s : State ι} {h : History} {a : Action ι}
    (inv : InOrder before s h) (contents : (perform s a).pipe.ring = s.pipe.ring)
    (stores : stored s a = []) (copies : copied s a = []) :
    InOrder before (perform s a) (note s a h) := by
  refine ⟨?_, ?_⟩
  · rw [Pipe.size, contents]
    exact inv.bound
  · simp only [note, stores, copies, List.append_nil, Pipe.contents, contents]
    exact inv.bytes

theorem step_inOrder {before : List UInt8} {s : State ι} {h : History} {a : Action ι}
    (inv : InOrder before s h) : InOrder before (perform s a) (note s a h) := by
  cases a with
  | write i bytes => exact inv.of_idle rfl rfl rfl
  | read i n => exact inv.of_idle rfl rfl rfl
  | kill i => exact inv.of_idle rfl rfl rfl
  | close writable =>
    cases writable with
    | true => exact inv.of_idle rfl rfl rfl
    | false => exact inv.of_idle rfl rfl rfl
  | run i =>
    cases next : s.next i with
    | none =>
      have idle : perform s (.run i) = s := by simp [perform, next]
      apply inv.of_idle
      · rw [idle]
      · simp [stored, next]
      · simp [copied, next]
    | some r =>
      have moves : Moves s.pipe r := by
        unfold State.next at next
        split at next
        case h_1 c _ =>
          obtain rfl := Option.some.inj next
          exact stretch_moves inv.bound _ c
        case h_2 => cases next
      have eq : perform s (.run i) = s.stretch i r := by simp [perform, next]
      refine ⟨?_, ?_⟩
      · rw [eq, State.pipe_stretch]
        exact moves.bound
      · simp only [note, stored, copied, next, eq, State.pipe_stretch, Option.map_some,
          Option.getD_some]
        rw [← List.append_assoc, inv.bytes, List.append_assoc, moves.bytes, List.append_assoc]

/-- A pipe with any counters and any processes in any calls. The bytes copied to
readers are those that were in the pipe and those stored by writers, in order,
up to what is still in the pipe, and that is never more than it has room for. -/
theorem pipe_fifo (start : State ι) (bound : (start.pipe.nwrite - start.pipe.nread).toNat ≤ pipeSize)
    (as : List (Action ι)) (legal : (system ι).Legal start as) :
    let s := (system ι).after start as
    let h := (system ι).track note start as ⟨[], []⟩
    (s.pipe.nwrite - s.pipe.nread).toNat ≤ pipeSize ∧
    h.copied ++ s.pipe.contents = start.pipe.contents ++ h.stored ∧
    h.copied <+: start.pipe.contents ++ h.stored ∧
    ∀ i n, s.thread i = .running (.read n) → 0 < n →
      (piperead s.pipe (s.killed i) n).outcome = .returns 0 →
      s.pipe.nread = s.pipe.nwrite ∧ s.pipe.writeopen = false := by
  intro s h
  have inv : InOrder start.pipe.contents s h :=
    (system ι).track_invariant (fun _ _ _ _ inv => step_inOrder inv) legal ⟨bound, by simp⟩
  refine ⟨inv.bound, inv.bytes.symm, ⟨s.pipe.contents, inv.bytes.symm⟩, ?_⟩
  intro i n _ pos zero
  exact piperead_zero pos zero

/-- An empty pipe whose counters are about to wrap: two bytes go in, and the
first comes out. -/
def aboutToWrap : State (Fin 2) where
  pipe := ⟨fun _ => 0, 4294967295, 4294967295, true, true⟩
  thread := fun _ => .out
  killed := fun _ => false

theorem fifo_across_wrap :
    let as : List (Action (Fin 2)) := [.write 0 [1, 2], .run 0, .read 1 1, .run 1]
    let h := (system (Fin 2)).track note aboutToWrap as ⟨[], []⟩
    h.copied = [1] ∧ h.copied <+: aboutToWrap.pipe.contents ++ h.stored := by
  intro as h
  refine ⟨by decide, ?_⟩
  exact (pipe_fifo aboutToWrap (by decide) as (by decide)).2.2.1

end Xv6.Pipes
