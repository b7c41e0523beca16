import Xv6.Proc.Kernel

/-! The steps of the kernel: every step is taken by one CPU. -/

namespace Xv6

inductive Act where
  /-- scheduler(): acquire() to the first swtch() or to release() -/
  | pass
  /-- scheduler(): swtch() has returned -/
  | back
  /-- a thread has been switched to -/
  | resume
  /-- trap(): the timer interrupt; CPU 0 counts it -/
  | timer
  /-- trap(): wakeup(&ticks) -/
  | tickWakeup
  /-- trap(): the interrupted process is charged -/
  | charge
  /-- trap(): a killed process is made to exit -/
  | trapExit
  /-- trap(): yield(), or return -/
  | trapYield
  /-- trap(): a process that misbehaves in user space is killed and made to exit -/
  | fault
  | wakeup (chan : Chan)
  | sleep (chan : Chan)
  | kill (pid : Int32)
  | nice
  | setcid (cid : Int32)
  | exec (sz : UInt32)
  | fork
  | forkStack (kalloc : Bool)
  | forkCopy (copyuvm : Bool)
  | forkReady
  | wait (call : WaitCall)
  /-- exit() begins: files are closed, the lock is not held yet -/
  | exitBegin (intr : Bool)
  | exit
  deriving DecidableEq, Repr

structure Action (n : Nat) where
  cpu : Fin n
  act : Act
  deriving DecidableEq, Repr

inductive Event (n : Nat) where
  | dispatch (c : Fin n) (p : Slot)
  | charge (p : Slot)
  /-- fork() returns `pid` to `parent` -/
  | fork (parent : Slot) (pid : Int32)
  | exit (p : Slot) (pid : Int32)
  /-- wait(), wait2() or wait3() returns `pid` to `caller` -/
  | wait (caller : Slot) (pid : Int32)
  deriving DecidableEq, Repr

def Task.maySleep : Task → Bool
  | .run | .exiting _ => true
  | .forkStack _ | .forkCopy _ | .forkReady _ => false

def Task.takesInterrupts : Task → Bool
  | .exiting intr => intr
  | .run | .forkStack _ | .forkCopy _ | .forkReady _ => true

namespace Kernel
variable {n : Nat}

/-- No critical section is open and the CPU is not inside the timer handler. -/
def Open (k : Kernel n) (c : Fin n) : Prop := k.lock = none ∧ (k.cpus c).irq = .off

/-- The CPU runs the thread of `p` outside the lock and the timer handler. -/
def Runs (k : Kernel n) (c : Fin n) (p : Slot) : Prop :=
  k.Open c ∧ (k.cpus c).mode = .thread ∧ (k.cpus c).proc = some p

/-- The CPU is in the timer handler, at `irq`, and may enter a critical section. -/
def Handles (k : Kernel n) (c : Fin n) (irq : Irq) : Prop :=
  k.lock = none ∧ (k.cpus c).irq = irq

instance (k : Kernel n) (c : Fin n) : Decidable (k.Open c) := inferInstanceAs (Decidable (_ ∧ _))

instance (k : Kernel n) (c : Fin n) (p : Slot) : Decidable (k.Runs c p) :=
  inferInstanceAs (Decidable (_ ∧ _))

instance (k : Kernel n) (c : Fin n) (irq : Irq) : Decidable (k.Handles c irq) :=
  inferInstanceAs (Decidable (_ ∧ _))

/-- A thread whose task satisfies `ok` runs on the CPU. -/
def Performs (k : Kernel n) (c : Fin n) (ok : Slot → Task → Prop) : Prop :=
  ∃ p ∈ (k.cpus c).proc, k.Runs c p ∧ ok p (k.thread p).task

instance (k : Kernel n) (c : Fin n) (ok : Slot → Task → Prop) [∀ p t, Decidable (ok p t)] :
    Decidable (k.Performs c ok) :=
  inferInstanceAs (Decidable (∃ p ∈ (k.cpus c).proc, _))

def Enabled (k : Kernel n) (a : Action n) : Prop :=
  match a.act with
  | .pass => k.Open a.cpu ∧ (k.cpus a.cpu).mode = .scheduler
  | .back => k.lock = some a.cpu ∧ (k.cpus a.cpu).mode = .returned
  | .resume => k.lock = some a.cpu ∧ (k.cpus a.cpu).mode = .resumed
  | .timer => k.Open a.cpu ∧ ∀ p ∈ (k.cpus a.cpu).proc, (k.thread p).task.takesInterrupts
  | .tickWakeup => k.Handles a.cpu .ticked
  | .charge => k.Handles a.cpu .woken
  | .trapExit => k.Handles a.cpu .charged ∧
      ∃ p ∈ (k.cpus a.cpu).proc, (k.ptable p).killed ∧ (k.thread p).task = .run ∧ p ≠ k.initproc
  | .trapYield => k.Handles a.cpu .charged
  | .wakeup chan => k.Open a.cpu ∧ !chan.isProc
  | .sleep chan => (k.Performs a.cpu fun _ task => task.maySleep) ∧ !chan.isProc
  | .kill _ | .nice | .setcid _ | .exec _ | .fork | .wait _ =>
    k.Performs a.cpu fun _ task => task = .run
  | .forkStack _ => k.Performs a.cpu fun _ task => (task matches .forkStack _)
  | .forkCopy _ => k.Performs a.cpu fun _ task => (task matches .forkCopy _)
  | .forkReady => k.Performs a.cpu fun _ task => (task matches .forkReady _)
  | .fault | .exitBegin _ => k.Performs a.cpu fun p task => task = .run ∧ p ≠ k.initproc
  | .exit => k.Performs a.cpu fun _ task => (task matches .exiting _)

instance (k : Kernel n) (a : Action n) : Decidable (k.Enabled a) := by
  unfold Enabled
  split <;> infer_instance

/-- Apply `f` to the process the CPU runs. -/
def withProc (k : Kernel n) (c : Fin n) (f : Slot → Kernel n) : Kernel n :=
  match (k.cpus c).proc with
  | some p => f p
  | none => k

/-- The end of trap() for a timer interrupt. -/
def trapYield (strategy : Nat) (k : Kernel n) (c : Fin n) : Kernel n :=
  match (k.cpus c).proc with
  | some p =>
    if (k.ptable p).state = .running ∧ (strategy = 1 → (k.ptable p).myquantum = quanta) then
      (k.setIrq c .off).yield c p
    else k.setIrq c .off
  | none => k.setIrq c .off

def timer (k : Kernel n) (c : Fin n) : Kernel n :=
  if c.val = 0 then { k with ticks := k.ticks + 1 }.setIrq c .ticked else k.setIrq c .woken

def charge (k : Kernel n) (c : Fin n) : Kernel n :=
  (k.withProc c fun p =>
    if (k.ptable p).state = .running then k.setProc p (k.ptable p).charge else k).setIrq c .charged

def perform (strategy : Nat) (k : Kernel n) (a : Action n) : Kernel n :=
  match a.act with
  | .pass => k.follow a.cpu (k.passOutcome strategy a.cpu)
  | .back => k.follow a.cpu (k.backOutcome strategy a.cpu)
  | .resume => k.withProc a.cpu (k.resume a.cpu)
  | .timer => k.timer a.cpu
  | .tickWakeup => { k with ptable := wakeup1 k.ticks (some .ticks) k.ptable }.setIrq a.cpu .woken
  | .charge => k.charge a.cpu
  | .trapExit => (k.withProc a.cpu fun p => k.setTask p (.exiting false)).setIrq a.cpu .off
  | .trapYield => k.trapYield strategy a.cpu
  | .fault => k.withProc a.cpu fun p =>
    (k.setProc p { k.ptable p with killed := true }).setTask p (.exiting false)
  | .wakeup chan => { k with ptable := wakeup1 k.ticks (some chan) k.ptable }
  | .sleep chan => k.withProc a.cpu fun p => k.sleep a.cpu p chan .sleep
  | .kill pid => { k with ptable := Xv6.kill k.ticks pid k.ptable }
  | .nice => k.withProc a.cpu fun p => k.setProc p ((k.ptable p).nice k.ticks)
  | .setcid cid => k.withProc a.cpu fun p => k.setProc p { k.ptable p with cid := cid }
  | .exec sz => k.withProc a.cpu fun p => k.setProc p ((k.ptable p).exec k.ticks sz)
  | .fork => k.withProc a.cpu k.fork
  | .forkStack kalloc => k.withProc a.cpu fun p =>
    match (k.thread p).task with
    | .forkStack np => k.forkStack p np kalloc
    | _ => k
  | .forkCopy copyuvm => k.withProc a.cpu fun p =>
    match (k.thread p).task with
    | .forkCopy np => k.forkCopy p np copyuvm
    | _ => k
  | .forkReady => k.withProc a.cpu fun p =>
    match (k.thread p).task with
    | .forkReady np => k.forkReady p np
    | _ => k
  | .wait call => k.withProc a.cpu fun p => k.waitLoop a.cpu p call
  | .exitBegin intr => k.withProc a.cpu fun p => k.setTask p (.exiting intr)
  | .exit => k.withProc a.cpu (k.exit a.cpu)

def dispatchEvents (c : Fin n) (o : Outcome) : List (Event n) :=
  match o.dispatched with
  | some p => [.dispatch c p]
  | none => []

/-- The pid one turn of the wait loop returns, if it reaps a child. -/
def waitEvents (k : Kernel n) (p : Slot) : List (Event n) :=
  match waitScan k.ptable p with
  | .zombie child => [.wait p (k.ptable child).pid]
  | .giveUp | .block => []

def emit (strategy : Nat) (k : Kernel n) (a : Action n) : List (Event n) :=
  match a.act, (k.cpus a.cpu).proc with
  | .pass, _ => dispatchEvents a.cpu (k.passOutcome strategy a.cpu)
  | .back, _ => dispatchEvents a.cpu (k.backOutcome strategy a.cpu)
  | .resume, some p => if (k.thread p).resume matches .wait _ then k.waitEvents p else []
  | .charge, some p => if (k.ptable p).state = .running then [.charge p] else []
  | .forkReady, some p =>
    match (k.thread p).task with
    | .forkReady np => [.fork p (k.ptable np).pid]
    | _ => []
  | .wait _, some p => k.waitEvents p
  | .exit, some p => [.exit p (k.ptable p).pid]
  | _, _ => []

/-- The zero-filled kernel before userinit(); each CPU is about to enter scheduler(). -/
def zero (n : Nat) : Kernel n where
  ptable := fun _ => .zero
  thread := fun _ => ⟨.forkret, .run⟩
  cpus := fun _ => ⟨none, .scheduler, .once, .off⟩
  lock := none
  nextpid := 1
  initproc := 0
  ticks := 0

def userinit (k : Kernel n) : Kernel n :=
  match k.allocproc with
  | some (p, k') =>
    { k'.setProc p { (k'.ptable p).ready k'.ticks with sz := 4096 } with initproc := p }
  | none => k

def boot (n : Nat) : Kernel n := (zero n).userinit

end Kernel

def kernel (strategy n : Nat) : Lib.System (Kernel n) (Action n) where
  Enabled := Kernel.Enabled
  perform := Kernel.perform strategy

@[simp] theorem kernel_enabled (strategy n : Nat) (k : Kernel n) (a : Action n) :
    (kernel strategy n).Enabled k a ↔ k.Enabled a := Iff.rfl

@[simp] theorem kernel_perform (strategy n : Nat) (k : Kernel n) (a : Action n) :
    (kernel strategy n).perform k a = k.perform strategy a := rfl

instance (strategy n : Nat) (k : Kernel n) (a : Action n) :
    Decidable ((kernel strategy n).Enabled k a) :=
  inferInstanceAs (Decidable (k.Enabled a))

/-- A list of steps of one CPU. -/
def onCpu {n : Nat} (c : Fin n) (acts : List Act) : List (Action n) := acts.map (⟨c, ·⟩)

/-- A timer interrupt of CPU 0 handled to its end. -/
def tick : List Act := [.timer, .tickWakeup, .charge, .trapYield]

/-- States the kernel can be in, for some interleaving of its CPUs. -/
abbrev Reachable (strategy n : Nat) (k : Kernel n) : Prop :=
  (kernel strategy n).Reachable (Kernel.boot n) k

end Xv6
