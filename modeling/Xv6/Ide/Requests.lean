import Mathlib.Algebra.GroupWithZero.Nat
import Xv6.Fs.Buffers
import Xv6.Lib.Linked
import Xv6.Lib.Runs

/-! ide.c: the queue of disk requests. A stretch of code under `idelock`, up to
its release or to sleep(), is one step. The disk works on one command at a time
and raises one interrupt for it. -/

namespace Xv6.Ide
open Lib

abbrev Slot := Fin Buffers.nbuf

instance : NeZero Buffers.nbuf := ⟨by decide⟩

structure Buf where
  dev : UInt32
  blockno : UInt32
  /-- `B_VALID` -/
  valid : Bool
  /-- `B_DIRTY` -/
  dirty : Bool
  deriving DecidableEq, Repr

/-- `(b->flags & (B_VALID|B_DIRTY)) == B_VALID` -/
def Buf.done (b : Buf) : Bool := b.valid && !b.dirty

/-- What idestart() tells the disk. A block is one sector. -/
structure Command where
  dev : UInt32
  sector : UInt32
  write : Bool
  deriving DecidableEq, Repr

inductive Disk where
  | idle
  | working (c : Command)
  /-- The command is done, and the interrupt has not been handled. -/
  | raised (c : Command)
  deriving DecidableEq, Repr

inductive Thread where
  /-- Not in iderw(). -/
  | out
  | running (b : Slot)
  /-- Sleeping on `b`. -/
  | sleeping (b : Slot)
  deriving DecidableEq, Repr

structure State (ι : Type) where
  buf : Slot → Buf
  /-- The pointers of the queue: `idequeue`, and `b->qnext` for each buffer. -/
  link : Option Slot → Option Slot
  havedisk1 : Bool
  disk : Disk
  thread : ι → Thread
  /-- The requests that have been appended, started and completed so far. -/
  appended : List Slot
  started : List Slot
  completed : List Slot

namespace State
variable {ι : Type} (s : State ι)

def idequeue : Option Slot := s.link none

def setLink (pp : Option Slot) (v : Option Slot) : State ι :=
  { s with link := Function.update s.link pp v }

def setBuf (b : Slot) (v : Buf) : State ι := { s with buf := Function.update s.buf b v }

/-- The command for the request of a buffer. -/
def command (b : Slot) : Command := ⟨(s.buf b).dev &&& 1, (s.buf b).blockno, (s.buf b).dirty⟩

/-- Start the request for b; `none` is a panic. -/
def idestart : Option Slot → Option (State ι)
  | none => none
  | some b =>
    if .ofNat fsSize ≤ (s.buf b).blockno then none
    else some { s with disk := .working (s.command b), started := s.started ++ [b] }

/-- wakeup(b) -/
def wakeup (b : Slot) : State ι :=
  { s with thread := fun i => if s.thread i = .sleeping b then .running b else s.thread i }

/-- Start disk on next buf in queue. -/
def startNext : Option (State ι) :=
  if s.idequeue = none then some s else s.idestart s.idequeue

/-- Interrupt handler. The disk is idle again once its interrupt is taken. -/
def ideintr : Option (State ι) :=
  match s.idequeue with
  | none => some { s with disk := .idle }
  | some b =>
    let s := { s with disk := .idle, completed := s.completed ++ [b] }
    let s := s.setLink none (s.link (some b))
    let s := s.setBuf b { s.buf b with valid := true, dirty := false }
    (s.wakeup b).startNext

/-- `for(pp=&idequeue; *pp; pp=&(*pp)->qnext) ;` -/
def lastLink : Nat → Option Slot → Option (Option Slot)
  | 0, _ => none
  | fuel + 1, pp =>
    match s.link pp with
    | none => some pp
    | some b => lastLink fuel (some b)

/-- Append b to idequeue. -/
def append (b : Slot) : Option (State ι) :=
  let s := s.setLink (some b) none
  (s.lastLink (Buffers.nbuf + 1) none).map fun pp =>
    { s.setLink pp (some b) with appended := s.appended ++ [b] }

/-- Start disk if necessary. -/
def startFirst (b : Slot) : Option (State ι) :=
  if s.idequeue = some b then s.idestart (some b) else some s

variable [DecidableEq ι]

def setThread (i : ι) (t : Thread) : State ι :=
  { s with thread := Function.update s.thread i t }

/-- The test of the loop that waits for the request to finish. -/
def await (i : ι) (b : Slot) : State ι :=
  s.setThread i (if (s.buf b).done then .out else .sleeping b)

/-- Sync buf with disk: up to the first sleep(). -/
def iderw (i : ι) (b : Slot) : Option (State ι) :=
  if (s.buf b).done then none -- nothing to do
  else if (s.buf b).dev ≠ 0 ∧ s.havedisk1 = false then none -- ide disk 1 not present
  else do
    let s ← s.append b
    let s ← s.startFirst b
    return s.await i b

end State

/-! ## Processes and the disk -/

inductive Action (ι : Type) where
  /-- Process `i`, which has locked buffer `b`, calls iderw(b). -/
  | call (i : ι) (b : Slot)
  /-- It goes on after a sleep(). -/
  | run (i : ι)
  /-- kill() ends the sleep() of process `i`. -/
  | kill (i : ι)
  /-- Between calls of iderw() on `b`, other code changes the buffer. -/
  | change (b : Slot) (v : Buf)
  /-- The disk completes the command and raises its interrupt. -/
  | finish
  /-- The interrupt is handled. -/
  | intr

variable {ι : Type}

/-- Process `i` is in iderw(b). -/
def Thread.on (b : Slot) : Thread → Prop
  | .out => False
  | .running c | .sleeping c => c = b

instance (b : Slot) : (t : Thread) → Decidable (t.on b)
  | .out => inferInstanceAs (Decidable False)
  | .running c | .sleeping c => inferInstanceAs (Decidable (c = b))

section
variable [DecidableEq ι]

/-- A step; `none` is a panic. -/
def step (s : State ι) : Action ι → Option (State ι)
  | .call i b => s.iderw i b
  | .run i =>
    match s.thread i with
    | .running b => some (s.await i b)
    | _ => some s
  | .kill i =>
    match s.thread i with
    | .sleeping b => some (s.setThread i (.running b))
    | _ => some s
  | .change b v => some (s.setBuf b v)
  | .finish =>
    match s.disk with
    | .working c => some { s with disk := .raised c }
    | _ => some s
  | .intr => s.ideintr

/-- What the caller of iderw(b) has to see to. -/
def Buf.Request (b : Buf) (havedisk1 : Bool) : Prop :=
  b.done = false ∧ (b.dev = 0 ∨ havedisk1 = true) ∧ b.blockno < .ofNat fsSize

instance (b : Buf) (havedisk1 : Bool) : Decidable (b.Request havedisk1) :=
  inferInstanceAs (Decidable (_ ∧ _ ∧ _))

def Thread.isRunning : Thread → Bool
  | .running _ => true
  | _ => false

def Disk.isWorking : Disk → Bool
  | .working _ => true
  | _ => false

def Disk.isRaised : Disk → Bool
  | .raised _ => true
  | _ => false

/-- Buffers are locked by one process at a time, and the disk raises exactly one
interrupt for a command that it has been given. -/
def Enabled (s : State ι) : Action ι → Prop
  | .call i b => s.thread i = .out ∧ (∀ j, ¬ (s.thread j).on b) ∧ (s.buf b).Request s.havedisk1
  | .run i => (s.thread i).isRunning = true
  | .kill _ => True
  | .change b _ => ∀ j, ¬ (s.thread j).on b
  | .finish => s.disk.isWorking = true
  | .intr => s.disk.isRaised = true

def system (ι : Type) [DecidableEq ι] : System (State ι) (Action ι) :=
  ⟨Enabled, fun s a => (step s a).getD s⟩

instance [Fintype ι] (s : State ι) : (a : Action ι) → Decidable ((system ι).Enabled s a)
  | .call i b => inferInstanceAs (Decidable (s.thread i = .out ∧ (∀ j, ¬ (s.thread j).on b) ∧
      (s.buf b).Request s.havedisk1))
  | .run i => inferInstanceAs (Decidable ((s.thread i).isRunning = true))
  | .kill _ => inferInstanceAs (Decidable True)
  | .change b _ => inferInstanceAs (Decidable (∀ j, ¬ (s.thread j).on b))
  | .finish => inferInstanceAs (Decidable (s.disk.isWorking = true))
  | .intr => inferInstanceAs (Decidable (s.disk.isRaised = true))

end

/-! ## The queue -/

/-- The disk is busy with the command, whose interrupt has not been handled. -/
def Disk.busy : Disk → Option Command
  | .idle => none
  | .working c | .raised c => some c

/-- The requests that are in the queue, in order, and what is known of them. -/
structure Inv (s : State ι) (queue : List Slot) : Prop where
  path : Linked.Path s.link none queue none
  nodup : queue.Nodup
  appended : s.appended = s.completed ++ queue
  started : s.started = s.completed ++ queue.head?.toList
  disk : s.disk.busy = queue.head?.map s.command
  waiting : ∀ i b, (s.thread i).on b → (b ∈ queue ↔ (s.buf b).done = false)
  owned : ∀ b ∈ queue, ∃ i, (s.thread i).on b
  one : ∀ i j b, (s.thread i).on b → (s.thread j).on b → i = j
  blocks : ∀ b ∈ queue, (s.buf b).blockno < .ofNat fsSize

section
variable {s s' : State ι} {queue : List Slot} {b : Slot} {i : ι}

theorem Inv.idequeue_eq (inv : Inv s queue) : s.idequeue = queue.head? := inv.path.first

/-- The walk to the end of the queue. -/
theorem lastLink_eq {fuel : Nat} {pp : Option Slot} (path : Linked.Path s.link pp queue none)
    (enough : queue.length < fuel) : s.lastLink fuel pp = some (Linked.lastNode pp queue) := by
  induction queue generalizing fuel pp with
  | nil =>
    obtain ⟨fuel, rfl⟩ : ∃ n, fuel = n + 1 := ⟨fuel - 1, by omega⟩
    have ends : s.link pp = none := path
    simp [State.lastLink, ends, Linked.lastNode]
  | cons x queue ih =>
    obtain ⟨fuel, rfl⟩ : ∃ n, fuel = n + 1 := ⟨fuel - 1, by omega⟩
    rw [State.lastLink, path.1, Linked.lastNode_cons]
    exact ih path.2 (Nat.lt_of_succ_lt_succ enough)

theorem idestart_eq (ok : (s.buf b).blockno < .ofNat fsSize) : s.idestart (some b) =
    some { s with disk := .working (s.command b), started := s.started ++ [b] } := by
  rw [State.idestart, if_neg (by rw [UInt32.not_le]; exact ok)]

/-- The state with `b` at the end of the queue. -/
theorem append_eq (inv : Inv s queue) (fresh : b ∉ queue) : ∃ link,
    s.append b = some { s with link := link, appended := s.appended ++ [b] } ∧
      Linked.Path link none (queue ++ [b]) none := by
  have nodup : (queue ++ [b]).Nodup := by
    rw [← List.concat_eq_append, List.nodup_concat]
    exact ⟨fresh, inv.nodup⟩
  have short : queue.length ≤ Buffers.nbuf := by
    have := inv.nodup.length_le_card
    rwa [Fintype.card_fin] at this
  -- clearing b->qnext does not touch the links of the queue
  have cleared : Linked.Path (s.setLink (some b) none).link none queue none := by
    apply inv.path.congr
    intro y hy
    apply Function.update_of_ne
    rintro rfl
    simp at hy
    exact fresh hy
  refine ⟨_, ?_, inv.path.snoc (Linked.nodup_nodes nodup)⟩
  rw [State.append, lastLink_eq cleared (Nat.lt_succ_of_le short)]
  rfl

/-- Nothing but the state of threads changes, and no thread changes its buffer. -/
theorem Inv.rethread (inv : Inv s queue) (thread : ι → Thread)
    (same : ∀ j c, (thread j).on c ↔ (s.thread j).on c) :
    Inv { s with thread := thread } queue := by
  refine { inv with waiting := ?_, owned := ?_, one := ?_ }
  · intro j c on
    exact inv.waiting j c ((same j c).mp on)
  · intro c mem
    obtain ⟨j, on⟩ := inv.owned c mem
    exact ⟨j, (same j c).mpr on⟩
  · intro j k c on on'
    exact inv.one j k c ((same j c).mp on) ((same k c).mp on')

/-! ## The interrupt handler -/

theorem on_wakeup (s : State ι) (b : Slot) (j : ι) (c : Slot) :
    ((s.wakeup b).thread j).on c ↔ (s.thread j).on c := by
  unfold State.wakeup
  dsimp only
  split
  · rename_i sleeping
    rw [sleeping]
    exact Iff.rfl
  · exact Iff.rfl

/-- The state after the request of `b` has been taken from the queue. -/
def State.complete (s : State ι) (b : Slot) : State ι :=
  (({ s with disk := .idle, completed := s.completed ++ [b] }.setLink none (s.link (some b))).setBuf b
    { s.buf b with valid := true, dirty := false }).wakeup b

theorem buf_complete_of_ne {c : Slot} (other : c ≠ b) : (s.complete b).buf c = s.buf c := by
  simp [State.complete, State.wakeup, State.setBuf, State.setLink, other]

theorem done_complete : ((s.complete b).buf b).done = true := by
  simp [State.complete, State.wakeup, State.setBuf, State.setLink, Buf.done]

/-- The request at the head of the queue is completed; the disk is given the next. -/
theorem Inv.complete (inv : Inv s (b :: queue)) {disk : Disk} {started : List Slot}
    (busy : disk.busy = queue.head?.map (s.complete b).command)
    (starts : started = s.completed ++ [b] ++ queue.head?.toList) :
    Inv { s.complete b with disk := disk, started := started } queue := by
  obtain ⟨fresh, nodup⟩ := List.nodup_cons.mp inv.nodup
  have apart : ∀ c ∈ queue, c ≠ b := by
    rintro c mem rfl
    exact fresh mem
  have on (j : ι) (c : Slot) : ((s.complete b).thread j).on c ↔ (s.thread j).on c :=
    on_wakeup _ b j c
  constructor
  · have path := Linked.Path.unlink (l := []) inv.path (Linked.nodup_nodes inv.nodup)
    exact path
  · exact nodup
  · change s.appended = s.completed ++ [b] ++ queue
    rw [inv.appended, List.append_assoc]
    rfl
  · exact starts
  · exact busy
  · intro j c holds
    have waiting := inv.waiting j c ((on j c).mp holds)
    by_cases here : c = b
    · subst here
      have done : (({ s.complete c with disk := disk, started := started } : State ι).buf c).done =
          true := done_complete
      simp [fresh, done]
    · have same : ({ s.complete b with disk := disk, started := started } : State ι).buf c =
          s.buf c := buf_complete_of_ne here
      rw [same, ← waiting, List.mem_cons]
      simp [here]
  · intro c mem
    obtain ⟨j, holds⟩ := inv.owned c (List.mem_cons_of_mem _ mem)
    exact ⟨j, (on j c).mpr holds⟩
  · intro j k c holds holds'
    exact inv.one j k c ((on j c).mp holds) ((on k c).mp holds')
  · intro c mem
    have same : ({ s.complete b with disk := disk, started := started } : State ι).buf c =
        s.buf c := buf_complete_of_ne (apart c mem)
    rw [same]
    exact inv.blocks c (List.mem_cons_of_mem _ mem)

theorem ideintr_spec (inv : Inv s queue) (raised : s.disk.isRaised = true) :
    ∃ rest s', s.ideintr = some s' ∧ Inv s' rest ∧
      ∀ j c, (s'.thread j).on c ↔ (s.thread j).on c := by
  have busy : s.disk.busy ≠ none := by
    cases disk : s.disk with
    | raised c => exact Option.some_ne_none c
    | idle | working c => simp [disk, Disk.isRaised] at raised
  cases queue with
  | nil => exact absurd inv.disk busy
  | cons b rest =>
    have first : s.idequeue = some b := inv.idequeue_eq
    have run : s.ideintr = (s.complete b).startNext := by
      rw [State.ideintr, first]
      rfl
    have next : (s.complete b).idequeue = rest.head? := by
      have path := Linked.Path.unlink (l := []) inv.path (Linked.nodup_nodes inv.nodup)
      exact path.first
    rw [run, State.startNext, next]
    cases rest with
    | nil =>
      refine ⟨[], _, if_pos rfl, ?_, on_wakeup _ b⟩
      exact inv.complete rfl (inv.started.trans (List.append_nil _).symm)
    | cons c rest =>
      have other : c ≠ b := by
        rintro rfl
        exact (List.nodup_cons.mp inv.nodup).1 List.mem_cons_self
      have block : ((s.complete b).buf c).blockno < .ofNat fsSize := by
        rw [buf_complete_of_ne other]
        exact inv.blocks c (List.mem_cons_of_mem _ List.mem_cons_self)
      refine ⟨c :: rest, _, (if_neg (by simp)).trans (idestart_eq block), ?_, on_wakeup _ b⟩
      refine inv.complete rfl ?_
      change s.started ++ [c] = _
      rw [inv.started]
      rfl

end

/-! ## Steps -/

section
variable [DecidableEq ι] {s s' : State ι} {queue : List Slot} {b : Slot} {i : ι}

theorem on_setThread (s : State ι) (i : ι) (t : Thread) (j : ι) (c : Slot) :
    ((s.setThread i t).thread j).on c ↔ if j = i then t.on c else (s.thread j).on c := by
  by_cases here : j = i
  · subst here
    simp [State.setThread]
  · simp [State.setThread, here]

/-- A thread that goes on with its buffer. -/
theorem Inv.setThread (inv : Inv s queue) {t : Thread} (same : ∀ c, t.on c ↔ (s.thread i).on c) :
    Inv (s.setThread i t) queue := by
  apply inv.rethread
  intro j c
  have := on_setThread s i t j c
  by_cases here : j = i
  · subst here
    rw [if_pos rfl, same] at this
    exact this
  · rw [if_neg here] at this
    exact this

/-- A request is appended by a process that was not in iderw(); the disk is given
the command if it was the first. -/
theorem Inv.call (inv : Inv s queue) (fresh : b ∉ queue) (out : s.thread i = .out)
    (locked : ∀ j, ¬ (s.thread j).on b) (todo : (s.buf b).done = false)
    (block : (s.buf b).blockno < .ofNat fsSize) {link : Option Slot → Option Slot} {disk : Disk}
    {started : List Slot} (path : Linked.Path link none (queue ++ [b]) none)
    (busy : disk.busy = (queue ++ [b]).head?.map s.command)
    (starts : started = s.completed ++ (queue ++ [b]).head?.toList) :
    Inv ({ s with link := link, appended := s.appended ++ [b], disk := disk, started := started }
      |>.setThread i (.sleeping b)) (queue ++ [b]) := by
  have on (j : ι) (c : Slot) := on_setThread { s with
    link := link, appended := s.appended ++ [b], disk := disk, started := started }
    i (.sleeping b) j c
  constructor
  · exact path
  · rw [← List.concat_eq_append, List.nodup_concat]
    exact ⟨fresh, inv.nodup⟩
  · change s.appended ++ [b] = _
    rw [inv.appended, List.append_assoc]
    rfl
  · exact starts
  · exact busy
  · intro j c
    rw [on]
    split
    · rintro rfl
      simp [State.setThread, todo]
    · intro on'
      have other : c ≠ b := by
        rintro rfl
        exact locked j on'
      simpa [State.setThread, other] using inv.waiting j c on'
  · intro c mem
    simp only [on]
    obtain mem | mem := List.mem_append.mp mem
    · obtain ⟨j, on'⟩ := inv.owned c mem
      refine ⟨j, ?_⟩
      have other : j ≠ i := by
        rintro rfl
        rw [out] at on'
        exact on'
      rw [if_neg other]
      exact on'
    · obtain rfl := List.mem_singleton.mp mem
      exact ⟨i, by rw [if_pos rfl]; rfl⟩
  · intro j k c
    rw [on, on]
    by_cases hj : j = i
    · by_cases hk : k = i
      · intro _ _
        rw [hj, hk]
      · rw [if_pos hj, if_neg hk]
        rintro rfl on'
        exact absurd on' (locked k)
    · by_cases hk : k = i
      · rw [if_neg hj, if_pos hk]
        rintro on' rfl
        exact absurd on' (locked j)
      · rw [if_neg hj, if_neg hk]
        exact inv.one j k c
  · intro c mem
    obtain mem | mem := List.mem_append.mp mem
    · exact inv.blocks c mem
    · obtain rfl := List.mem_singleton.mp mem
      exact block

theorem iderw_spec (inv : Inv s queue) (out : s.thread i = .out)
    (locked : ∀ j, ¬ (s.thread j).on b) (request : (s.buf b).Request s.havedisk1) :
    ∃ s', s.iderw i b = some s' ∧ Inv s' (queue ++ [b]) ∧
      s'.thread = Function.update s.thread i (.sleeping b) := by
  obtain ⟨todo, present, block⟩ := request
  have fresh : b ∉ queue := by
    intro mem
    obtain ⟨j, on⟩ := inv.owned b mem
    exact locked j on
  obtain ⟨link, appended, path⟩ := append_eq inv fresh
  have there : ¬ ((s.buf b).dev ≠ 0 ∧ s.havedisk1 = false) := by
    rintro ⟨other, missing⟩
    obtain zero | disk1 := present
    · exact other zero
    · simp [missing] at disk1
  have first : ({ s with link := link, appended := s.appended ++ [b] } : State ι).idequeue =
      (queue ++ [b]).head? := path.first
  rw [State.iderw, if_neg (by simp [todo]), if_neg there, appended]
  simp only [Option.bind_eq_bind, Option.bind_some]
  cases queue with
  | nil =>
    have starts : ({ s with link := link, appended := s.appended ++ [b] } : State ι).startFirst b =
        some { s with
          link := link, appended := s.appended ++ [b]
          disk := .working (s.command b), started := s.started ++ [b] } := by
      rw [State.startFirst, first]
      exact (if_pos rfl).trans (idestart_eq block)
    rw [starts]
    refine ⟨_, rfl, ?_, by rw [State.await, todo]; rfl⟩
    rw [State.await, todo]
    exact inv.call fresh out locked todo block path rfl (by rw [inv.started]; simp)
  | cons x queue =>
    have other : some x ≠ some b := by
      intro eq
      exact fresh (Option.some.inj eq ▸ List.mem_cons_self)
    have waits : ({ s with link := link, appended := s.appended ++ [b] } : State ι).startFirst b =
        some { s with link := link, appended := s.appended ++ [b] } := by
      rw [State.startFirst, first]
      exact if_neg other
    rw [waits]
    refine ⟨_, rfl, ?_, by rw [State.await, todo]; rfl⟩
    rw [State.await, todo]
    exact inv.call fresh out locked todo block path inv.disk inv.started

/-- A process leaves iderw() with a request that is not in the queue. -/
theorem Inv.leave (inv : Inv s queue) (on : (s.thread i).on b) (absent : b ∉ queue) :
    Inv (s.setThread i .out) queue := by
  have threads := on_setThread s i .out
  refine { inv with waiting := ?_, owned := ?_, one := ?_ }
  · intro j c
    rw [threads]
    split
    · exact False.elim
    · exact inv.waiting j c
  · intro c mem
    obtain ⟨j, on'⟩ := inv.owned c mem
    refine ⟨j, (threads j c).mpr ?_⟩
    have other : j ≠ i := by
      rintro rfl
      have eq : b = c := by
        cases thread : s.thread j with
        | out => rw [thread] at on; exact on.elim
        | running x | sleeping x =>
          rw [thread] at on on'
          exact on.symm.trans on'
      exact absent (eq ▸ mem)
    rw [if_neg other]
    exact on'
  · intro j k c
    rw [threads, threads]
    by_cases hj : j = i
    · rw [if_pos hj]
      exact False.elim
    · by_cases hk : k = i
      · rw [if_pos hk]
        exact fun _ => False.elim
      · rw [if_neg hj, if_neg hk]
        exact inv.one j k c

omit [DecidableEq ι] in
/-- The buffer of no request is changed. -/
theorem Inv.change (inv : Inv s queue) (free : ∀ j, ¬ (s.thread j).on b) (v : Buf) :
    Inv (s.setBuf b v) queue := by
  have apart : ∀ c ∈ queue, c ≠ b := by
    rintro c mem rfl
    obtain ⟨j, on⟩ := inv.owned c mem
    exact free j on
  have same (c : Slot) (other : c ≠ b) : (s.setBuf b v).buf c = s.buf c := by
    simp [State.setBuf, other]
  refine { inv with disk := ?_, waiting := ?_, blocks := ?_ }
  · change s.disk.busy = _
    rw [inv.disk]
    cases queue with
    | nil => rfl
    | cons c queue =>
      have other := apart c List.mem_cons_self
      simp [State.command, same c other]
  · intro j c on
    have other : c ≠ b := by
      rintro rfl
      exact free j on
    rw [same c other]
    exact inv.waiting j c on
  · intro c mem
    rw [same c (apart c mem)]
    exact inv.blocks c mem

/-- A process goes on after a sleep(): it returns if its request has been completed. -/
theorem Inv.await (inv : Inv s queue) (running : s.thread i = .running b) :
    Inv (s.await i b) queue := by
  have on : (s.thread i).on b := by
    rw [running]
    rfl
  unfold State.await
  cases done : (s.buf b).done with
  | true =>
    have absent : b ∉ queue := by
      rw [inv.waiting i b on, done]
      exact Bool.noConfusion
    exact inv.leave on absent
  | false =>
    apply inv.setThread
    intro c
    rw [running]
    exact Iff.rfl

/-- No step of the driver panics. -/
theorem step_inv (inv : Inv s queue) {a : Action ι} (enabled : Enabled s a) :
    ∃ s' queue', step s a = some s' ∧ Inv s' queue' := by
  cases a with
  | call i b =>
    obtain ⟨s', run, inv', _⟩ := iderw_spec inv enabled.1 enabled.2.1 enabled.2.2
    exact ⟨s', _, run, inv'⟩
  | run i =>
    cases thread : s.thread i with
    | running b =>
      refine ⟨_, queue, ?_, inv.await thread⟩
      rw [step, thread]
    | out | sleeping => simp [Enabled, thread, Thread.isRunning] at enabled
  | kill i =>
    cases thread : s.thread i with
    | sleeping b =>
      refine ⟨s.setThread i (.running b), queue, ?_, inv.setThread fun c => ?_⟩
      · rw [step, thread]
      · rw [thread]
        exact Iff.rfl
    | out | running =>
      refine ⟨s, queue, ?_, inv⟩
      rw [step, thread]
  | change b v => exact ⟨_, queue, rfl, inv.change enabled v⟩
  | finish =>
    cases disk : s.disk with
    | working c =>
      refine ⟨{ s with disk := .raised c }, queue, ?_, { inv with disk := ?_ }⟩
      · rw [step, disk]
      · have busy := inv.disk
        rw [disk] at busy
        exact busy
    | idle | raised => simp [Enabled, disk, Disk.isWorking] at enabled
  | intr =>
    obtain ⟨rest, s', run, inv', _⟩ := ideintr_spec inv enabled
    exact ⟨s', rest, run, inv'⟩

/-- Process `j` is in iderw(b), or calls it now. -/
def InCall (s : State ι) (a : Action ι) (j : ι) (b : Slot) : Prop :=
  (s.thread j).on b ∨ a = .call j b

/-- When iderw(b) returns, the buffer is valid and not dirty, and as many requests
for it have been completed as have been appended. -/
def ReturnsDone (s : State ι) (a : Action ι) : Prop :=
  ∀ j b s', InCall s a j b → step s a = some s' → s'.thread j = .out →
    (s'.buf b).valid = true ∧ (s'.buf b).dirty = false ∧
      s'.appended.count b = s'.completed.count b

theorem Thread.on.ne_out {t : Thread} (h : t.on b) : t ≠ .out := by
  rintro rfl
  exact h

/-- A process in a call stays in it, unless it runs and finds its request completed. -/
theorem step_on (inv : Inv s queue) {a : Action ι} (enabled : Enabled s a)
    (call : InCall s a i b) (run : step s a = some s') :
    (s'.thread i).on b ∨
      a = .run i ∧ s.thread i = .running b ∧ (s.buf b).done = true ∧ s' = s.setThread i .out := by
  cases a with
  | call j c =>
    obtain ⟨t, run', _, threads⟩ := iderw_spec inv enabled.1 enabled.2.1 enabled.2.2
    obtain rfl : t = s' := Option.some.inj (run'.symm.trans run)
    left
    rw [threads]
    by_cases here : i = j
    · subst here
      rw [Function.update_self]
      obtain on | eq := call
      · rw [enabled.1] at on
        exact on.elim
      · exact (Action.call.inj eq).2
    · rw [Function.update_of_ne here]
      obtain on | eq := call
      · exact on
      · exact absurd (Action.call.inj eq).1.symm here
  | run j =>
    have on : (s.thread i).on b := call.resolve_right nofun
    cases thread : s.thread j with
    | running c =>
      rw [step, thread] at run
      obtain rfl := Option.some.inj run
      by_cases here : i = j
      · subst here
        obtain rfl : c = b := by rwa [thread] at on
        unfold State.await
        cases done : (s.buf c).done with
        | true => exact .inr ⟨rfl, thread, rfl, rfl⟩
        | false =>
          left
          rw [on_setThread, if_pos rfl]
          rfl
      · left
        rw [State.await, on_setThread, if_neg here]
        exact on
    | out | sleeping => simp [Enabled, thread, Thread.isRunning] at enabled
  | kill j =>
    have on : (s.thread i).on b := call.resolve_right nofun
    left
    cases thread : s.thread j with
    | sleeping c =>
      rw [step, thread] at run
      obtain rfl := Option.some.inj run
      rw [on_setThread]
      by_cases here : i = j
      · subst here
        rw [if_pos rfl]
        rwa [thread] at on
      · rw [if_neg here]
        exact on
    | out | running =>
      rw [step, thread] at run
      obtain rfl := Option.some.inj run
      exact on
  | change c v =>
    have on : (s.thread i).on b := call.resolve_right nofun
    obtain rfl := Option.some.inj run
    exact .inl on
  | finish =>
    have on : (s.thread i).on b := call.resolve_right nofun
    left
    cases disk : s.disk with
    | working c | idle | raised =>
      rw [step, disk] at run
      obtain rfl := Option.some.inj run
      exact on
  | intr =>
    have on : (s.thread i).on b := call.resolve_right nofun
    obtain ⟨rest, t, run', _, threads⟩ := ideintr_spec inv enabled
    obtain rfl : t = s' := Option.some.inj (run'.symm.trans run)
    exact .inl ((threads i b).mpr on)

theorem returnsDone_of_inv (inv : Inv s queue) {a : Action ι} (enabled : Enabled s a) :
    ReturnsDone s a := by
  intro j b s' call run out
  obtain on | ⟨_, running, done, rfl⟩ := step_on inv enabled call run
  · exact absurd out on.ne_out
  · have on : (s.thread j).on b := by
      rw [running]
      rfl
    have absent : b ∉ queue := by
      rw [inv.waiting j b on, done]
      exact Bool.noConfusion
    have flags : (s.buf b).valid = true ∧ (s.buf b).dirty = false := by
      simpa [Buf.done] using done
    refine ⟨flags.1, flags.2, ?_⟩
    change s.appended.count b = s.completed.count b
    rw [inv.appended, List.count_append, List.count_eq_zero_of_not_mem absent, Nat.add_zero]

end

/-! ## Every run -/

/-- Nothing has been requested. -/
def start (buf : Slot → Buf) (havedisk1 : Bool) : State ι :=
  ⟨buf, fun _ => none, havedisk1, .idle, fun _ => .out, [], [], []⟩

theorem start_inv (buf : Slot → Buf) (havedisk1 : Bool) :
    Inv (start buf havedisk1 : State ι) [] where
  path := rfl
  nodup := List.nodup_nil
  appended := rfl
  started := rfl
  disk := rfl
  waiting _ _ on := False.elim on
  owned _ mem := nomatch mem
  one _ _ _ on := False.elim on
  blocks _ mem := nomatch mem

/-- For any number of processes that call iderw() with distinct locked buffers, and
a disk that raises one interrupt for each command: requests are started in the
order in which they were appended, and completed in that order; the one in
progress, if any, is the head of the queue; the disk is idle exactly if the queue
is empty; the driver does not panic; and iderw() returns when its own request has
been completed. -/
theorem requests_served_in_order [DecidableEq ι] (buf : Slot → Buf) (havedisk1 : Bool)
    {as : List (Action ι)} (legal : (system ι).Legal (start buf havedisk1) as) :
    let s := (system ι).after (start buf havedisk1) as
    (∃ queue, Linked.Path s.link none queue none ∧ s.appended = s.completed ++ queue ∧
      s.started = s.completed ++ queue.head?.toList) ∧
    s.disk.busy = s.idequeue.map s.command ∧ (s.disk = .idle ↔ s.idequeue = none) ∧
    (system ι).Every (fun s a => (step s a).isSome = true ∧ ReturnsDone s a)
      (start buf havedisk1) as := by
  have keep (s : State ι) (a : Action ι) (enabled : Enabled s a) (inv : ∃ queue, Inv s queue) :
      ∃ queue, Inv ((step s a).getD s) queue := by
    obtain ⟨queue, inv⟩ := inv
    obtain ⟨s', queue', run, inv'⟩ := step_inv inv enabled
    exact ⟨queue', by rw [run]; exact inv'⟩
  have first : ∃ queue, Inv (start buf havedisk1 : State ι) queue := ⟨[], start_inv buf havedisk1⟩
  intro s
  obtain ⟨queue, inv⟩ : ∃ queue, Inv s queue :=
    (System.Reachable.start.after legal).invariant first keep
  refine ⟨⟨queue, inv.path, inv.appended, inv.started⟩, ?_, ?_, ?_⟩
  · rw [inv.disk, inv.idequeue_eq]
  · have busy := inv.disk
    rw [← inv.idequeue_eq] at busy
    cases disk : s.disk with
    | idle =>
      rw [disk] at busy
      simpa using (Option.map_eq_none_iff.mp busy.symm)
    | working c | raised c =>
      rw [disk] at busy
      simp only [reduceCtorEq, false_iff]
      intro none
      rw [none] at busy
      cases busy
  · apply (system ι).every_imp keep ?_ legal first ((system ι).every_true _ _)
    rintro s a enabled ⟨queue, inv⟩ _
    obtain ⟨s', _, run, _⟩ := step_inv inv enabled
    exact ⟨by rw [run]; rfl, returnsDone_of_inv inv enabled⟩

/-- Two processes read a block each: the second request is started by the handler
of the first. -/
theorem two_requests_served :
    let s : State (Fin 2) := start (fun b => ⟨0, .ofNat b.val, false, false⟩) false
    let as := [.call 0 3, .call 1 5, .finish, .intr, .finish, .run 0, .intr, .run 1]
    ((system (Fin 2)).after s as).appended = [3, 5] ∧
      ((system (Fin 2)).after s as).started = [3, 5] ∧
      (system (Fin 2)).Every (fun s a => (step s a).isSome = true ∧ ReturnsDone s a) s as := by
  refine ⟨by decide +kernel, by decide +kernel, ?_⟩
  exact (requests_served_in_order (fun b => ⟨0, .ofNat b.val, false, false⟩) false
    (by decide +kernel)).2.2.2

end Xv6.Ide
