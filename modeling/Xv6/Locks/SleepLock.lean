import Mathlib.Data.List.FinRange
import Xv6.Lib.Runs

/-! One sleeplock, with every acquire and release of a spinlock, every
assignment and every context switch of acquiresleep(), releasesleep(), sleep(),
wakeup(), yield() and the scheduler as a step of its own. Any number `n` of
processes run on any number `m` of CPUs. -/

namespace Xv6.SleepLock
open Lib

/-- Where a process holds no spinlock, so that the timer may make it yield. -/
inductive Spot where
  | out
  /-- At `acquire(&lk->lk)` of acquiresleep(). -/
  | acquire
  /-- At `acquire(lk)` at the end of sleep(). -/
  | reacquire
  /-- Between the return of acquiresleep() and the call of releasesleep(). -/
  | holds
  /-- At `acquire(&lk->lk)` of releasesleep(). -/
  | release
  deriving DecidableEq, Repr

inductive ProcState where
  | runnable
  | running
  | sleeping
  deriving DecidableEq, Repr

/-- What a process does next. -/
inductive Pc (n : Nat) where
  | spot (s : Spot)
  /-- acquiresleep(): `while (lk->locked)` -/
  | test
  /-- sleep(): `acquire(&ptable.lock)` -/
  | sleepAcquire
  /-- `release(lk)` -/
  | sleepRelease
  /-- `proc->chan = chan` -/
  | sleepChan
  /-- `proc->state = SLEEPING` -/
  | sleepState
  /-- sched() -/
  | sleepSwtch
  /-- `proc->chan = 0` -/
  | sleepTidy
  /-- `release(&ptable.lock)` -/
  | sleepDrop
  /-- acquiresleep(): `lk->locked = 1` -/
  | setLocked
  /-- `lk->pid = proc->pid` -/
  | setPid
  /-- `release(&lk->lk)` -/
  | acquired
  /-- releasesleep(): `lk->locked = 0` -/
  | clearLocked
  /-- `lk->pid = 0` -/
  | clearPid
  /-- wakeup(): `acquire(&ptable.lock)` -/
  | wakeAcquire
  /-- The loop of wakeup1(), with the processes it has not come to. -/
  | wakeLoop (rest : List (Fin n))
  /-- releasesleep(): `release(&lk->lk)` -/
  | released
  /-- yield(), which takes the process back to where it was:
  `proc->state = RUNNABLE` -/
  | yieldState (s : Spot)
  /-- sched() -/
  | yieldSwtch (s : Spot)
  /-- `release(&ptable.lock)`; forkret() begins here as well. -/
  | yieldDrop (s : Spot)
  deriving DecidableEq, Repr

structure Proc (n : Nat) where
  pc : Pc n
  state : ProcState
  /-- `chan` is the sleeplock. -/
  chan : Bool
  deriving DecidableEq

/-- What a CPU does next. -/
inductive Cpu (n : Nat) where
  /-- scheduler(): `acquire(&ptable.lock)` -/
  | idle
  /-- In its loop over the processes. -/
  | scanning
  /-- swtch() to a process that it has marked RUNNING. -/
  | switching (p : Fin n)
  | running (p : Fin n)
  deriving DecidableEq

structure State (n m : Nat) where
  /-- The process that holds `lk->lk`. -/
  lk : Option (Fin n)
  /-- The CPU that holds `ptable.lock`. -/
  ptable : Option (Fin m)
  locked : Bool
  pid : Option (Fin n)
  proc : Fin n → Proc n
  cpu : Fin m → Cpu n

inductive Act (n : Nat) where
  /-- The next step of the scheduler or of the process that runs. -/
  | step
  /-- The scheduler chooses a RUNNABLE process. -/
  | pick (p : Fin n)
  /-- acquiresleep() or releasesleep() is called. -/
  | call
  /-- The timer interrupt calls yield(). -/
  | yield
  deriving DecidableEq

structure Action (n m : Nat) where
  cpu : Fin m
  act : Act n

variable {n m : Nat}

namespace State

def go (s : State n m) (p : Fin n) (pc : Pc n) : State n m :=
  { s with proc := Function.update s.proc p { s.proc p with pc := pc } }

def setState (s : State n m) (p : Fin n) (state : ProcState) : State n m :=
  { s with proc := Function.update s.proc p { s.proc p with state := state } }

def setChan (s : State n m) (p : Fin n) (chan : Bool) : State n m :=
  { s with proc := Function.update s.proc p { s.proc p with chan := chan } }

def setCpu (s : State n m) (c : Fin m) (x : Cpu n) : State n m :=
  { s with cpu := Function.update s.cpu c x }

theorem proc_setState (s : State n m) (p : Fin n) (state : ProcState) :
    (s.setState p state).proc p = { s.proc p with state := state } := Function.update_self ..

/-- One round of the loop of wakeup1(). -/
def wakeup1 (s : State n m) (q : Fin n) : State n m :=
  if (s.proc q).state = .sleeping ∧ (s.proc q).chan = true then s.setState q .runnable else s

/-- The next step of process `p`, which runs on CPU `c`. -/
def step (s : State n m) (c : Fin m) (p : Fin n) : State n m :=
  match (s.proc p).pc with
  | .spot .out | .spot .holds => s
  | .spot .acquire | .spot .reacquire => { s with lk := some p }.go p .test
  | .spot .release => { s with lk := some p }.go p .clearLocked
  | .test => if s.locked then s.go p .sleepAcquire else s.go p .setLocked
  | .sleepAcquire => { s with ptable := some c }.go p .sleepRelease
  | .sleepRelease => { s with lk := none }.go p .sleepChan
  | .sleepChan => (s.setChan p true).go p .sleepState
  | .sleepState => (s.setState p .sleeping).go p .sleepSwtch
  | .sleepSwtch => (s.go p .sleepTidy).setCpu c .scanning
  | .sleepTidy => (s.setChan p false).go p .sleepDrop
  | .sleepDrop => { s with ptable := none }.go p (.spot .reacquire)
  | .setLocked => { s with locked := true }.go p .setPid
  | .setPid => { s with pid := some p }.go p .acquired
  | .acquired => { s with lk := none }.go p (.spot .holds)
  | .clearLocked => { s with locked := false }.go p .clearPid
  | .clearPid => { s with pid := none }.go p .wakeAcquire
  | .wakeAcquire => { s with ptable := some c }.go p (.wakeLoop (List.finRange n))
  | .wakeLoop (q :: rest) => (s.wakeup1 q).go p (.wakeLoop rest)
  | .wakeLoop [] => { s with ptable := none }.go p .released
  | .released => { s with lk := none }.go p (.spot .out)
  | .yieldState spot => (s.setState p .runnable).go p (.yieldSwtch spot)
  | .yieldSwtch spot => (s.go p (.yieldDrop spot)).setCpu c .scanning
  | .yieldDrop spot => { s with ptable := none }.go p (.spot spot)

/-- A process that is at an acquire goes on when the lock is free. -/
def canStep (s : State n m) (p : Fin n) : Bool :=
  match (s.proc p).pc with
  | .spot .out | .spot .holds => false
  | .spot .acquire | .spot .reacquire | .spot .release => s.lk.isNone
  | .sleepAcquire | .wakeAcquire => s.ptable.isNone
  | _ => true

/-- `p` calls acquiresleep(), or releasesleep() if it holds the lock. -/
def call (s : State n m) (p : Fin n) : State n m :=
  match (s.proc p).pc with
  | .spot .out => s.go p (.spot .acquire)
  | .spot .holds => s.go p (.spot .release)
  | _ => s

def yield (s : State n m) (c : Fin m) (p : Fin n) : State n m :=
  match (s.proc p).pc with
  | .spot spot => { s with ptable := some c }.go p (.yieldState spot)
  | _ => s

end State

def Pc.isSpot : Pc n → Bool
  | .spot _ => true
  | _ => false

/-- Whether CPU `c` can do the step. -/
def State.ready (s : State n m) (a : Action n m) : Bool :=
  match s.cpu a.cpu, a.act with
  | .idle, .step => s.ptable.isNone
  | .scanning, .step => true
  | .scanning, .pick p => (s.proc p).state == .runnable
  | .switching _, .step => true
  | .running p, .step => s.canStep p
  | .running p, .call => (s.proc p).pc == .spot .out || (s.proc p).pc == .spot .holds
  | .running p, .yield => s.ptable.isNone && (s.proc p).pc.isSpot
  | _, _ => false

def Enabled (s : State n m) (a : Action n m) : Prop := s.ready a = true

def perform (s : State n m) (a : Action n m) : State n m :=
  match s.cpu a.cpu, a.act with
  | .idle, .step => { s with ptable := some a.cpu }.setCpu a.cpu .scanning
  | .scanning, .step => { s with ptable := none }.setCpu a.cpu .idle
  | .scanning, .pick p => (s.setState p .running).setCpu a.cpu (.switching p)
  | .switching p, .step => s.setCpu a.cpu (.running p)
  | .running p, .step => s.step a.cpu p
  | .running p, .call => s.call p
  | .running p, .yield => s.yield a.cpu p
  | _, _ => s

def system (n m : Nat) : System (State n m) (Action n m) := ⟨Enabled, perform⟩

instance (s : State n m) (a : Action n m) : Decidable ((system n m).Enabled s a) :=
  inferInstanceAs (Decidable (s.ready a = true))

/-- All processes are new, and no CPU has entered its scheduler. -/
def init (n m : Nat) : State n m where
  lk := none
  ptable := none
  locked := false
  pid := none
  proc := fun _ => ⟨.yieldDrop .out, .runnable, false⟩
  cpu := fun _ => .idle

end Xv6.SleepLock
