import Mathlib.Data.Set.Card
import Xv6.Lib.Runs

/-! spinlock.c and sched(): pushcli(), popcli() and what a context switch does with
`cpu->ncli` and `cpu->intena`. Every CPU has the thread of its scheduler(), and runs that
or a process. Inside acquire(), release(), switchuvm() and sched() a thread goes on one
memory access at a time; elsewhere it may call any of them, under the rules of the kernel. -/

namespace Xv6.Cli
open Lib

/-- Who has called pushcli(). -/
inductive Caller (L : Type) where
  | acquire (l : L)
  | switchuvm
  deriving DecidableEq

/-- Where a thread is. -/
inductive Pc (L : Type) where
  /-- allocproc() has made its context -/
  | newborn
  /-- at the start of forkret() -/
  | forkret
  /-- in code that is not below -/
  | outside
  /-- `eflags = readeflags();` -/
  | pushRead (k : Caller L)
  /-- `cli();` -/
  | pushCli (k : Caller L) (eflags : Bool)
  /-- `if(cpu->ncli == 0) cpu->intena = eflags & FL_IF; cpu->ncli += 1;` -/
  | pushCount (k : Caller L) (eflags : Bool)
  /-- `if(holding(lk)) panic("acquire");` -/
  | acquireCheck (l : L)
  /-- `while(xchg(&lk->locked, 1) != 0)` -/
  | xchg (l : L)
  /-- `lk->cpu = cpu;` -/
  | setCpu (l : L)
  /-- switchuvm() between pushcli() and popcli() -/
  | uvm
  /-- `if(!holding(lk)) panic("release");` -/
  | releaseCheck (l : L)
  /-- `lk->cpu = 0;` -/
  | clearCpu (l : L)
  /-- `lk->locked = 0` -/
  | unlock (l : L)
  /-- `if(readeflags()&FL_IF) panic("popcli - interruptible");` -/
  | popFlag
  /-- `if(--cpu->ncli < 0) panic("popcli");` -/
  | popCount
  /-- `if(cpu->ncli == 0 && cpu->intena) sti();` -/
  | popSti
  /-- the checks of sched() -/
  | schedCheck
  /-- `intena = cpu->intena;` -/
  | schedSave
  /-- `swtch(&proc->context, cpu->scheduler);` -/
  | swtch (intena : Bool)
  /-- not on a CPU -/
  | parked (intena : Bool)
  /-- `cpu->intena = intena;` -/
  | resumed (intena : Bool)
  /-- a scheduler() whose CPU runs a process -/
  | dispatched
  | panic (msg : String)
  deriving DecidableEq

/-- What the hardware and struct cpu hold for a CPU; `iflag` is FL_IF. -/
structure Cpu where
  iflag : Bool
  ncli : Int
  intena : Bool

structure Lock (C : Type) where
  locked : Bool
  cpu : Option C

/-- A thread. `held` are the locks it has acquired and not released, and `before` is
FL_IF as it was before the first of them; the kernel stores neither. `stack` are the
places at which it was interrupted. -/
structure Thread (L : Type) where
  pc : Pc L
  held : List L
  before : Option Bool
  stack : List (Pc L × Option Bool)

inductive Who (C T : Type) where
  | scheduler (c : C)
  | proc (t : T)
  deriving DecidableEq

structure State (C T L : Type) where
  cpu : C → Cpu
  running : C → Option T
  thread : Who C T → Thread L
  lock : L → Lock C

variable {C T L : Type}

namespace State

def current (s : State C T L) (c : C) : Who C T :=
  match s.running c with
  | none => .scheduler c
  | some t => .proc t

/-- The thread that runs on the CPU. -/
def on (s : State C T L) (c : C) : Thread L := s.thread (s.current c)

/-- holding(), on the CPU `c` -/
def holding [DecidableEq C] (lock : L → Lock C) (c : C) (l : L) : Bool :=
  (lock l).locked && (lock l).cpu == some c

/-- A step of the thread that runs on `c`. -/
def put [DecidableEq C] [DecidableEq T] (s : State C T L) (c : C) (k : Cpu) (th : Thread L) (lock : L → Lock C) : State C T L :=
  { s with
    cpu := Function.update s.cpu c k
    thread := Function.update s.thread (s.current c) th
    lock := lock }

end State

section
variable [DecidableEq C] [DecidableEq T] [DecidableEq L]

def Caller.next : Caller L → Pc L
  | .acquire l => .acquireCheck l
  | .switchuvm => .uvm

/-- The next access of a thread inside one of the functions. -/
def exec (ptable : L) (c : C) (k : Cpu) (th : Thread L) (lock : L → Lock C) :
    Cpu × Thread L × (L → Lock C) :=
  match th.pc with
  | .pushRead p => (k, { th with pc := .pushCli p k.iflag }, lock)
  | .pushCli p e => ({ k with iflag := false }, { th with pc := .pushCount p e }, lock)
  | .pushCount p e =>
    ({ k with intena := if k.ncli = 0 then e else k.intena, ncli := k.ncli + 1 },
      { th with pc := p.next }, lock)
  | .acquireCheck l =>
    (k, { th with pc := if State.holding lock c l then .panic "acquire" else .xchg l }, lock)
  | .xchg l =>
    if (lock l).locked then (k, th, lock)
    else (k, { th with pc := .setCpu l },
      Function.update lock l { lock l with locked := true })
  | .setCpu l =>
    (k, { th with pc := .outside, held := l :: th.held },
      Function.update lock l { lock l with cpu := some c })
  | .uvm => (k, { th with pc := .popFlag }, lock)
  | .releaseCheck l =>
    (k, { th with pc := if State.holding lock c l then .clearCpu l else .panic "release" }, lock)
  | .clearCpu l =>
    (k, { th with pc := .unlock l, held := th.held.erase l },
      Function.update lock l { lock l with cpu := none })
  | .unlock l =>
    (k, { th with pc := .popFlag }, Function.update lock l { lock l with locked := false })
  | .popFlag =>
    (k, { th with pc := if k.iflag then .panic "popcli - interruptible" else .popCount }, lock)
  | .popCount =>
    ({ k with ncli := k.ncli - 1 },
      { th with pc := if k.ncli - 1 < 0 then .panic "popcli" else .popSti }, lock)
  | .popSti =>
    ({ k with iflag := k.iflag || (k.ncli == 0 && k.intena) }, { th with pc := .outside }, lock)
  | .schedCheck =>
    let pc : Pc L :=
      if !State.holding lock c ptable then .panic "sched ptable.lock"
      else if k.ncli ≠ 1 then .panic "sched locks"
      else if k.iflag then .panic "sched interruptible"
      else .schedSave
    (k, { th with pc := pc }, lock)
  | .schedSave => (k, { th with pc := .swtch k.intena }, lock)
  | .resumed i => ({ k with intena := i }, { th with pc := .outside }, lock)
  | _ => (k, th, lock)

/-- `exec` has something to do. -/
def Pc.inside : Pc L → Bool
  | .newborn | .forkret | .outside | .swtch _ | .parked _ | .dispatched | .panic _ => false
  | _ => true

inductive Act (C T L : Type) where
  | run (c : C)
  | acquire (c : C) (l : L)
  | release (c : C) (l : L)
  | switchuvm (c : C)
  | sched (c : C)
  /-- swtch() from a process to the scheduler of the CPU -/
  | swtch (c : C)
  /-- swtch() from the scheduler to a process -/
  | dispatch (c : C) (t : T)
  /-- sti(), or a trap from or the return to user mode -/
  | flags (c : C) (iflag : Bool)
  /-- an interrupt in the kernel -/
  | interrupt (c : C)
  | iret (c : C)

/-- The pc of a process that the scheduler switches to. -/
def Pc.dispatch : Pc L → Pc L
  | .newborn => .forkret
  | .parked i => .resumed i
  | pc => pc

/-- A process that no CPU runs. -/
def Pc.waits : Pc L → Bool
  | .newborn | .parked _ => true
  | _ => false

/-- What the kernel's code keeps to: a thread acquires only what it does not hold and
releases only what it holds, in any order; sched() is called with ptable.lock alone held,
and so is swtch() in scheduler(); forkret() releases ptable.lock first; an interrupt
handler, and user mode, are left with no lock held. -/
def Enabled (ptable : L) (s : State C T L) : Act C T L → Prop
  | .run c => (s.on c).pc.inside = true
  | .acquire c l => (s.on c).pc = .outside ∧ l ∉ (s.on c).held
  | .release c l =>
    ((s.on c).pc = .outside ∧ l ∈ (s.on c).held) ∨ ((s.on c).pc = .forkret ∧ l = ptable)
  | .switchuvm c => (s.on c).pc = .outside
  | .sched c => (s.on c).pc = .outside ∧ (s.running c).isSome = true ∧ (s.on c).held = [ptable]
  | .swtch c => (s.running c).isSome = true ∧ ∃ i ∈ [true, false], (s.on c).pc = .swtch i
  | .dispatch c t =>
    s.running c = none ∧ (s.on c).pc = .outside ∧ (s.on c).held = [ptable] ∧
      (s.thread (.proc t)).pc.waits = true
  | .flags c _ => (s.on c).pc = .outside ∧ (s.on c).held = []
  | .interrupt c => (s.cpu c).iflag = true
  | .iret c => (s.on c).pc = .outside ∧ (s.on c).held = [] ∧ (s.on c).stack ≠ []

instance (ptable : L) (s : State C T L) : (a : Act C T L) → Decidable (Enabled ptable s a)
  | .run _ | .interrupt _ => instDecidableEqBool _ _
  | .acquire _ _ | .flags _ _ => instDecidableAnd
  | .release _ _ => instDecidableOr
  | .switchuvm c => instDecidableEqPc (s.on c).pc .outside
  | .sched _ | .swtch _ | .dispatch _ _ | .iret _ => instDecidableAnd

/-- A call of pushcli() by `p`: with no lock held, what acquire() starts with is noted. -/
def Thread.push (th : Thread L) (k : Cpu) (p : Caller L) : Thread L :=
  { th with
    pc := .pushRead p
    before :=
      if th.held = [] then
        match p with
        | .acquire _ => some k.iflag
        | .switchuvm => none
      else th.before }

def Thread.interrupt (th : Thread L) : Thread L :=
  { th with pc := .outside, before := none, stack := (th.pc, th.before) :: th.stack }

/-- The return to the place that was interrupted last. -/
def Thread.iret (th : Thread L) : Thread L :=
  match th.stack with
  | [] => th
  | (pc, before) :: stack => { th with pc := pc, before := before, stack := stack }

def perform (ptable : L) (s : State C T L) : Act C T L → State C T L
  | .run c =>
    let r := exec ptable c (s.cpu c) (s.on c) s.lock
    s.put c r.1 r.2.1 r.2.2
  | .acquire c l => s.put c (s.cpu c) ((s.on c).push (s.cpu c) (.acquire l)) s.lock
  | .release c l => s.put c (s.cpu c) { s.on c with pc := .releaseCheck l } s.lock
  | .switchuvm c => s.put c (s.cpu c) ((s.on c).push (s.cpu c) .switchuvm) s.lock
  | .sched c => s.put c (s.cpu c) { s.on c with pc := .schedCheck } s.lock
  | .swtch c =>
    let i := match (s.on c).pc with
      | .swtch i => i
      | _ => false
    let back : Thread L := { s.thread (.scheduler c) with pc := .outside, before := none }
    { s with
      running := Function.update s.running c none
      thread := Function.update (Function.update s.thread (s.current c)
        { s.on c with pc := .parked i }) (.scheduler c) back }
  | .dispatch c t =>
    let th := s.thread (.proc t)
    { s with
      running := Function.update s.running c (some t)
      thread := Function.update (Function.update s.thread (.scheduler c)
        { s.on c with pc := .dispatched }) (.proc t) { th with pc := th.pc.dispatch } }
  | .flags c b => s.put c { s.cpu c with iflag := b } (s.on c) s.lock
  | .interrupt c => s.put c { s.cpu c with iflag := false } (s.on c).interrupt s.lock
  | .iret c => s.put c { s.cpu c with iflag := true } (s.on c).iret s.lock

def kernel (C T L : Type) [DecidableEq C] [DecidableEq T] [DecidableEq L] (ptable : L) :
    System (State C T L) (Act C T L) where
  Enabled := Enabled ptable
  perform := perform ptable

instance (ptable : L) (s : State C T L) (a : Act C T L) :
    Decidable ((kernel C T L ptable).Enabled s a) :=
  inferInstanceAs (Decidable (Enabled ptable s a))

/-- Every CPU is on its way to scheduler() with interrupts off, every process has still
to be made, and no lock is held. -/
def boot (ptable : L) : State C T L where
  cpu _ := ⟨false, 0, false⟩
  running _ := none
  thread
    | .scheduler _ => ⟨.outside, [], none, []⟩
    | .proc _ => ⟨.newborn, [ptable], none, []⟩
  lock _ := ⟨false, none⟩

end

/-! ## A CPU and the thread that runs on it -/

namespace Pc

/-- How far `ncli` is ahead of the locks held. -/
def extra : Pc L → Int
  | .acquireCheck _ | .xchg _ | .setCpu _ | .uvm | .unlock _ | .popFlag | .popCount => 1
  | _ => 0

/-- Interrupts are off here whether or not a lock is held. -/
def quiet : Pc L → Bool
  | .pushCount _ _ | .acquireCheck _ | .xchg _ | .setCpu _ | .uvm | .unlock _ | .popFlag
  | .popCount | .popSti => true
  | _ => false

/-- Not in the body of acquire(), release() or switchuvm(). -/
def outsideBodies : Pc L → Bool
  | .forkret | .outside | .schedCheck | .schedSave | .swtch _ | .resumed _ => true
  | _ => false

/-- The lock is taken, but not marked with the CPU. -/
def unmarked : Pc L → Option L
  | .setCpu l | .unlock l => some l
  | _ => none

end Pc

/-- What a thread on a CPU knows where it is. -/
def Fits (ptable : L) (k : Cpu) (th : Thread L) : Prop :=
  match th.pc with
  | .pushRead (.acquire l) | .pushCount (.acquire l) _ | .acquireCheck l | .xchg l | .setCpu l =>
    l ∉ th.held
  | .pushCli p e => e = k.iflag ∧ ∀ l, p = .acquire l → l ∉ th.held
  | .releaseCheck l | .clearCpu l => l ∈ th.held
  | .unlock l => l ∉ th.held
  | .forkret | .schedCheck | .schedSave | .swtch _ | .resumed _ => th.held = [ptable]
  | .newborn | .parked _ | .dispatched | .panic _ => False
  | _ => True

/-- Where FL_IF as it was before the first acquire() is to be found. -/
def Saved (k : Cpu) (th : Thread L) (b : Bool) : Prop :=
  match th.pc with
  | .outside => th.held ≠ [] → k.intena = b
  | .pushRead _ => (th.held = [] → k.iflag = b) ∧ (th.held ≠ [] → k.intena = b)
  | .pushCli _ e | .pushCount _ e => (th.held = [] → e = b) ∧ (th.held ≠ [] → k.intena = b)
  | .swtch i | .parked i | .resumed i => i = b
  | _ => k.intena = b

/-- A place at which a thread was interrupted. -/
def Resumable : Pc L × Option Bool → Prop
  | (.outside, _) => True
  | (.pushRead _, before) => ∀ b, before = some b → b = true
  | (.pushCli _ e, before) => e = true ∧ ∀ b, before = some b → b = true
  | _ => False

structure Ok (ptable : L) (k : Cpu) (th : Thread L) : Prop where
  count : k.ncli = th.held.length + th.pc.extra
  off : th.held ≠ [] ∨ th.pc.quiet = true → k.iflag = false
  fits : Fits ptable k th
  saved : ∀ b, th.before = some b → Saved k th b
  stack : ∀ f ∈ th.stack, Resumable f

/-- The locks marked with the CPU are those its thread holds. -/
structure Marked (lock : L → Lock C) (c : C) (held : List L) : Prop where
  mem : ∀ l, (lock l).cpu = some c ↔ l ∈ held
  locked : ∀ l ∈ held, (lock l).locked = true
  nodup : held.Nodup

theorem Marked.holding_iff [DecidableEq C] {lock : L → Lock C} {c : C} {held : List L}
    (h : Marked lock c held) (l : L) : State.holding lock c l = true ↔ l ∈ held := by
  rw [State.holding, Bool.and_eq_true, beq_iff_eq, h.mem]
  exact ⟨And.right, fun mem => ⟨h.locked l mem, mem⟩⟩

/-- The thread of `c` calls pushcli(). -/
theorem Ok.push {ptable : L} {k : Cpu} {th : Thread L} (h : Ok ptable k th)
    (at_ : th.pc = .outside) {p : Caller L} (fresh : ∀ l, p = .acquire l → l ∉ th.held) :
    Ok ptable k (th.push k p) := by
  obtain ⟨pc, held, before, stack⟩ := th
  obtain ⟨count, off, -, saved, resumable⟩ := h
  obtain rfl : pc = .outside := at_
  refine ⟨count, ?_, ?_, ?_, resumable⟩
  · rintro (some | quiet)
    · exact off (.inl some)
    · cases quiet
  · cases p with
    | acquire l => exact fresh l rfl
    | switchuvm => trivial
  · intro b noted
    by_cases empty : held = []
    · refine ⟨fun _ => ?_, fun some => absurd empty some⟩
      simp only [Thread.push, if_pos empty] at noted
      cases p with
      | acquire l => exact Option.some.inj noted
      | switchuvm => cases noted
    · refine ⟨fun none => absurd none empty, fun some => ?_⟩
      simp only [Thread.push, if_neg empty] at noted
      exact saved b noted some

theorem Ok.flags {ptable : L} {k : Cpu} {th : Thread L} (h : Ok ptable k th)
    (at_ : th.pc = .outside) (free : th.held = []) (b : Bool) :
    Ok ptable { k with iflag := b } th := by
  refine ⟨h.count, ?_, ?_, ?_, h.stack⟩
  · rintro (some | quiet)
    · exact absurd free some
    · rw [at_] at quiet
      cases quiet
  · rw [Fits, at_]
    trivial
  · intro b' _
    rw [Saved, at_]
    exact fun some => absurd free some

/-- Where a thread can be interrupted. -/
theorem Ok.resumable {ptable : L} {k : Cpu} {th : Thread L} (h : Ok ptable k th)
    (on : k.iflag = true) :
    th.held = [] ∧ th.pc.extra = 0 ∧ th.pc.unmarked = none ∧ Resumable (th.pc, th.before) := by
  have free : th.held = [] := by
    by_contra some
    rw [h.off (.inl some)] at on
    cases on
  have loud : th.pc.quiet = false := by
    by_contra quiet
    rw [h.off (.inr (by simpa using quiet))] at on
    cases on
  refine ⟨free, ?_⟩
  obtain ⟨pc, held, before, stack⟩ := th
  obtain ⟨-, -, fits, saved, -⟩ := h
  obtain rfl : held = [] := free
  cases pc with
  | outside => exact ⟨rfl, rfl, trivial⟩
  | pushRead p =>
    exact ⟨rfl, rfl, fun b eq => ((saved b eq).1 rfl).symm.trans on⟩
  | pushCli p e =>
    have same : e = k.iflag := fits.1
    exact ⟨rfl, rfl, same.trans on,
      fun b eq => ((saved b eq).1 rfl).symm.trans (same.trans on)⟩
  | releaseCheck l => exact absurd fits List.not_mem_nil
  | clearCpu l => exact absurd fits List.not_mem_nil
  | forkret => exact absurd fits (List.cons_ne_nil _ _).symm
  | schedCheck => exact absurd fits (List.cons_ne_nil _ _).symm
  | schedSave => exact absurd fits (List.cons_ne_nil _ _).symm
  | swtch i => exact absurd fits (List.cons_ne_nil _ _).symm
  | resumed i => exact absurd fits (List.cons_ne_nil _ _).symm
  | newborn => exact fits.elim
  | parked i => exact fits.elim
  | dispatched => exact fits.elim
  | panic msg => exact fits.elim
  | pushCount p e => cases loud
  | acquireCheck l => cases loud
  | xchg l => cases loud
  | setCpu l => cases loud
  | uvm => cases loud
  | unlock l => cases loud
  | popFlag => cases loud
  | popCount => cases loud
  | popSti => cases loud

theorem Ok.interrupt {ptable : L} {k : Cpu} {th : Thread L} (h : Ok ptable k th)
    (on : k.iflag = true) : Ok ptable { k with iflag := false } th.interrupt := by
  obtain ⟨free, extra, -, resumable⟩ := h.resumable on
  refine ⟨?_, fun _ => rfl, trivial, nofun, ?_⟩
  · rw [show k.ncli = _ from h.count, extra]
    rfl
  · intro f mem
    rcases List.mem_cons.mp mem with rfl | old
    · exact resumable
    · exact h.stack f old

theorem Ok.iret {ptable : L} {k : Cpu} {th : Thread L} (h : Ok ptable k th)
    (at_ : th.pc = .outside) (free : th.held = []) (nested : th.stack ≠ []) :
    Ok ptable { k with iflag := true } th.iret ∧ th.iret.held = th.held ∧
      th.iret.pc.unmarked = none := by
  obtain ⟨pc, held, before, stack⟩ := th
  obtain rfl : pc = .outside := at_
  obtain rfl : held = [] := free
  obtain ⟨count, -, -, -, resumable⟩ := h
  cases stack with
  | nil => exact absurd rfl nested
  | cons f stack =>
    obtain ⟨pc, before'⟩ := f
    have back := resumable _ List.mem_cons_self
    have rest : ∀ f ∈ stack, Resumable f := fun f mem => resumable f (List.mem_cons_of_mem _ mem)
    have loud {q : Pc L} (quiet : q.quiet = false) :
        ([] : List L) ≠ [] ∨ q.quiet = true → true = false := by
      rintro (some | yes)
      · exact absurd rfl some
      · rw [quiet] at yes
        cases yes
    cases pc with
    | outside => exact ⟨⟨count, loud rfl, trivial, fun _ _ some => absurd rfl some, rest⟩, rfl, rfl⟩
    | pushRead p =>
      refine ⟨⟨count, loud rfl, ?_, ?_, rest⟩, rfl, rfl⟩
      · cases p with
        | acquire l => exact List.not_mem_nil
        | switchuvm => trivial
      · exact fun b eq => ⟨fun _ => (back b eq).symm, fun some => absurd rfl some⟩
    | pushCli p e =>
      obtain ⟨rfl, noted⟩ := back
      refine ⟨⟨count, loud rfl, ⟨rfl, fun _ _ => List.not_mem_nil⟩, ?_, rest⟩, rfl, rfl⟩
      exact fun b eq => ⟨fun _ => (noted b eq).symm, fun some => absurd rfl some⟩
    | _ => exact absurd back (by simp [Resumable])

end Xv6.Cli
