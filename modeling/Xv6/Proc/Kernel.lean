import Xv6.Proc.Scheduler
import Xv6.Lib.Runs

/-! The kernel around the process table: CPUs, the threads they switch
between, the clock and `ptable.lock`.

A `ptable.lock` critical section is one step as far as other CPUs can see:
while a CPU holds the lock only that CPU moves. It is cut at every swtch(),
because the section entered by yield(), sleep() or exit() goes on in
scheduler() and ends in whichever thread is switched to. Code outside the lock
is cut where it writes the table: the failure paths and the parent link of
fork(), the timer's accounting, nice() and exec(). -/

namespace Xv6

inductive WaitCall where
  | wait | wait22 | wait33
  deriving DecidableEq, Repr

/-- Where a kernel thread goes on when it is switched to. -/
inductive Resume where
  | forkret
  | yield
  | sleep
  | wait (call : WaitCall)
  deriving DecidableEq, Repr

/-- What a kernel thread is in the middle of. A fork() goes through the three
stages with the slot allocproc() gave it; a thread inside exit() may still
close files, and `intr` says whether it takes interrupts there. -/
inductive Task where
  | run
  | forkStack (np : Slot)
  | forkCopy (np : Slot)
  | forkReady (np : Slot)
  | exiting (intr : Bool)
  deriving DecidableEq, Repr

structure Thread where
  resume : Resume
  task : Task
  deriving DecidableEq, Repr

/-- What a CPU executes: the top of scheduler()'s loop, scheduler() just
switched back to, a thread just switched to, or a thread. The lock is held in
the second and the third. -/
inductive Mode where
  | scheduler
  | returned
  | resumed
  | thread
  deriving DecidableEq, Repr

/-- How far the timer interrupt handler of a CPU has come. -/
inductive Irq where
  | off
  | ticked
  | woken
  | charged
  deriving DecidableEq, Repr

structure Cpu where
  proc : Option Slot
  mode : Mode
  ctx : SchedCtx
  irq : Irq
  deriving DecidableEq, Repr

structure Kernel (n : Nat) where
  ptable : Table
  thread : Slot → Thread
  cpus : Fin n → Cpu
  lock : Option (Fin n)
  nextpid : Int32
  initproc : Slot
  ticks : UInt32

namespace Kernel
variable {n : Nat}

/-! ## Small updates -/

def setProc (k : Kernel n) (p : Slot) (v : Proc) : Kernel n :=
  { k with ptable := Function.update k.ptable p v }

def setTask (k : Kernel n) (p : Slot) (task : Task) : Kernel n :=
  { k with thread := Function.update k.thread p { k.thread p with task := task } }

def setCpu (k : Kernel n) (c : Fin n) (v : Cpu) : Kernel n :=
  { k with cpus := Function.update k.cpus c v }

def setIrq (k : Kernel n) (c : Fin n) (irq : Irq) : Kernel n :=
  k.setCpu c { k.cpus c with irq := irq }

/-- release(&ptable.lock), after which the CPU is in `mode`. -/
def release (k : Kernel n) (c : Fin n) (mode : Mode) : Kernel n :=
  { k.setCpu c { k.cpus c with mode := mode } with lock := none }

/-- The switch of sched(): `p` will go on at `resume`, the CPU in scheduler(). -/
def sched (k : Kernel n) (c : Fin n) (p : Slot) (resume : Resume) : Kernel n :=
  { k.setCpu c { k.cpus c with mode := .returned } with
    thread := Function.update k.thread p { k.thread p with resume := resume }
    lock := some c }

/-! ## fork -/

/-- The critical section of allocproc(). -/
def allocproc (k : Kernel n) : Option (Slot × Kernel n) :=
  (findUnused k.ptable).map fun np =>
    (np, { k.setProc np ((k.ptable np).alloc k.ticks k.nextpid) with nextpid := k.nextpid + 1 })

/-- fork() calls allocproc(); with no UNUSED slot it returns -1. -/
def fork (k : Kernel n) (p : Slot) : Kernel n :=
  match k.allocproc with
  | some (np, k') => k'.setTask p (.forkStack np)
  | none => k

/-- fork() gives up: the slot becomes UNUSED without `ptable.lock`. -/
def forkFail (k : Kernel n) (p np : Slot) : Kernel n :=
  (k.setProc np { k.ptable np with state := .unused }).setTask p .run

/-- The rest of allocproc(): kernel stack and a context that starts in forkret(). -/
def forkStack (k : Kernel n) (p np : Slot) (kalloc : Bool) : Kernel n :=
  if kalloc then
    { k with thread := Function.update k.thread np ⟨.forkret, .run⟩ }.setTask p (.forkCopy np)
  else k.forkFail p np

/-- fork() copies the address space and links the child to its parent. -/
def forkCopy (k : Kernel n) (p np : Slot) (copyuvm : Bool) : Kernel n :=
  if copyuvm then
    (k.setProc np { k.ptable np with sz := (k.ptable p).sz, parent := some p }).setTask p
      (.forkReady np)
  else k.forkFail p np

/-- The last critical section of fork(). -/
def forkReady (k : Kernel n) (p np : Slot) : Kernel n :=
  (k.setProc np ((k.ptable np).ready k.ticks)).setTask p .run

/-! ## sleep, wait, exit, yield -/

/-- sleep() from taking `ptable.lock` to the switch. -/
def sleep (k : Kernel n) (c : Fin n) (p : Slot) (chan : Chan) (resume : Resume) : Kernel n :=
  (k.setProc p { k.ptable p with chan := some chan, state := .sleeping }).sched c p resume

/-- One turn of the loop shared by wait(), wait22() and wait33(), holding the
lock. A reaped child or a failure releases it and returns. -/
def waitLoop (k : Kernel n) (c : Fin n) (p : Slot) (call : WaitCall) : Kernel n :=
  match waitScan k.ptable p with
  | .zombie child => (k.setProc child (k.ptable child).reap).release c .thread
  | .giveUp => k.release c .thread
  | .block => k.sleep c p (.proc p) (.wait call)

/-- exit() from taking `ptable.lock` to the switch. -/
def exit (k : Kernel n) (c : Fin n) (p : Slot) : Kernel n :=
  { k with ptable := exitTable k.ticks k.initproc p k.ptable }.sched c p (k.thread p).resume

def yield (k : Kernel n) (c : Fin n) (p : Slot) : Kernel n :=
  (k.setProc p ((k.ptable p).ready k.ticks)).sched c p .yield

/-- A thread that was switched to goes on, still holding the lock. -/
def resume (k : Kernel n) (c : Fin n) (p : Slot) : Kernel n :=
  match (k.thread p).resume with
  | .forkret | .yield => k.release c .thread
  | .sleep => (k.setProc p { k.ptable p with chan := none }).release c .thread
  | .wait call => (k.setProc p { k.ptable p with chan := none }).waitLoop c p call

/-! ## scheduler -/

/-- scheduler() acts on its selection: it switches, keeping the lock, or
releases it at the end of the iteration. -/
def follow (k : Kernel n) (c : Fin n) (o : Outcome) : Kernel n :=
  match o.next with
  | some ctx =>
    { k.setCpu c { k.cpus c with proc := o.proc, mode := .resumed, ctx := ctx } with
      ptable := o.table
      lock := some c }
  | none =>
    { k.setCpu c { k.cpus c with proc := o.proc, mode := .scheduler } with
      ptable := o.table
      lock := none }

def passOutcome (strategy : Nat) (k : Kernel n) (c : Fin n) : Outcome :=
  schedule strategy k.ticks k.ptable (k.cpus c).proc

def backOutcome (strategy : Nat) (k : Kernel n) (c : Fin n) : Outcome :=
  reschedule strategy k.ptable (k.cpus c).ctx

end Kernel

/-! ## What a process does to itself -/

/-- sys_nice(). -/
def Proc.nice (p : Proc) (ticks : UInt32) : Proc :=
  if 1 < p.queuelevel then
    let p := if p.queuelevel = 3 then
        { p with q3rtime := p.rtime, q3tatime := ticks - p.ctime }
      else p
    let p := if p.queuelevel = 2 then
        { p with q2rtime := p.rtime - p.q3rtime, q2tatime := ticks - p.ctime - p.q3tatime }
      else p
    { p with queuelevel := p.queuelevel - 1 }
  else p

/-- The commit point of exec(). -/
def Proc.exec (p : Proc) (ticks sz : UInt32) : Proc := { p with sz := sz, ctime := ticks }

/-- The timer charges the process it interrupts. -/
def Proc.charge (p : Proc) : Proc :=
  { p with rtime := p.rtime + 1, myquantum := p.myquantum + 1 }

end Xv6
