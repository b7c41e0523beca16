import Mathlib.Logic.Function.Basic
import Mathlib.Data.List.FinRange

/-! The process table of proc.c: `struct proc` with the fields the scheduler,
the accounting and the wait calls use, and the operations that run under
`ptable.lock` as functions on the table. -/

namespace Xv6

abbrev nproc : Nat := 64

def quanta : UInt32 := 5

abbrev Slot := Fin nproc

inductive ProcState where
  | unused | embryo | sleeping | runnable | running | zombie
  deriving DecidableEq, Repr

/-- A sleep channel. Only the wait calls sleep on the address of a `struct
proc`; the clock sleeps on `&ticks`; every other channel is some address. -/
inductive Chan where
  | proc (p : Slot)
  | ticks
  | other (address : Nat)
  deriving DecidableEq, Repr

def Chan.isProc : Chan → Bool
  | .proc _ => true
  | .ticks | .other _ => false

structure Proc where
  sz : UInt32
  ctime : UInt32
  etime : UInt32
  rtime : UInt32
  grt : UInt32
  cid : Int32
  q3rtime : UInt32
  q3tatime : UInt32
  q2rtime : UInt32
  q2tatime : UInt32
  priority : UInt32
  queuelevel : Int32
  myquantum : UInt32
  state : ProcState
  pid : Int32
  parent : Option Slot
  chan : Option Chan
  killed : Bool
  deriving DecidableEq, Repr

/-- A slot of the zero-filled table the kernel starts with. -/
def Proc.zero : Proc where
  sz := 0
  ctime := 0
  etime := 0
  rtime := 0
  grt := 0
  cid := 0
  q3rtime := 0
  q3tatime := 0
  q2rtime := 0
  q2tatime := 0
  priority := 0
  queuelevel := 0
  myquantum := 0
  state := .unused
  pid := 0
  parent := none
  chan := none
  killed := false

abbrev Table := Slot → Proc

/-- The slots in the order every loop over `ptable.proc` visits them. -/
def slots : List Slot := List.finRange nproc

@[simp] theorem mem_slots (p : Slot) : p ∈ slots := List.mem_finRange p

theorem slots_sorted : slots.Pairwise (· < ·) := List.pairwise_lt_finRange nproc

/-- The fields allocproc() fills in once it has found an UNUSED slot. -/
def Proc.alloc (p : Proc) (ticks : UInt32) (nextpid : Int32) : Proc :=
  { p with
    q3rtime := -1
    q3tatime := -1
    q2tatime := -1
    q2rtime := -1
    state := .embryo
    pid := nextpid
    ctime := ticks
    rtime := 0
    grt := 0
    cid := 0
    myquantum := 0
    queuelevel := 3
    priority := ticks }

def findUnused (t : Table) : Option Slot := slots.find? fun p => (t p).state = .unused

/-- Becoming RUNNABLE: fork(), yield(), wakeup1(), kill() and userinit() all
stamp the tick at which it happens. -/
def Proc.ready (p : Proc) (ticks : UInt32) : Proc :=
  { p with state := .runnable, priority := ticks }

def wakeup1 (ticks : UInt32) (chan : Option Chan) (t : Table) : Table := fun p =>
  if (t p).state = .sleeping ∧ (t p).chan = chan then (t p).ready ticks else t p

/-- The slot the loop of kill() stops at; it does not skip UNUSED slots. -/
def findPid (pid : Int32) (t : Table) : Option Slot := slots.find? fun p => (t p).pid = pid

def Proc.kill (p : Proc) (ticks : UInt32) : Proc :=
  if p.state = .sleeping then { p.ready ticks with killed := true } else { p with killed := true }

def kill (ticks : UInt32) (pid : Int32) (t : Table) : Table :=
  match findPid pid t with
  | some p => Function.update t p ((t p).kill ticks)
  | none => t

/-- One turn of the loop of exit() that passes abandoned children to init. -/
def adopt (ticks : UInt32) (initproc me : Slot) (t : Table) (p : Slot) : Table :=
  if (t p).parent = some me then
    let t' := Function.update t p { t p with parent := some initproc }
    if (t p).state = .zombie then wakeup1 ticks (some (.proc initproc)) t' else t'
  else t

/-- exit() under `ptable.lock`, up to the call of sched(). -/
def exitTable (ticks : UInt32) (initproc me : Slot) (t : Table) : Table :=
  let woken := wakeup1 ticks ((t me).parent.map .proc) t
  let adopted := slots.foldl (adopt ticks initproc me) woken
  Function.update adopted me { adopted me with state := .zombie, etime := ticks }

/-- What one scan of the wait loop finds: the first ZOMBIE child, no reason to
go on waiting, or children that are all still alive. -/
inductive WaitScan where
  | zombie (child : Slot)
  | giveUp
  | block
  deriving DecidableEq, Repr

def waitScan (t : Table) (me : Slot) : WaitScan :=
  match slots.find? fun p => (t p).parent = some me ∧ (t p).state = .zombie with
  | some p => .zombie p
  | none =>
    let havekids := slots.any fun p => (t p).parent = some me
    if !havekids || (t me).killed then .giveUp else .block

/-- Freeing a reaped child's slot, the same in all three wait calls. -/
def Proc.reap (p : Proc) : Proc :=
  { p with state := .unused, pid := 0, parent := none, killed := false }

end Xv6
