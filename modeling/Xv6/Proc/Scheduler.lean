import Xv6.Proc.Table
import Xv6.Lib.Scan

/-! scheduler() of proc.c: what each strategy selects from a table. The scans
of strategies 2, 3 and 4 use the CPU's `proc` as their scratch variable, so the
selection takes its value in and hands it back. -/

namespace Xv6
open Lib

/-- Where a call of scheduler() goes on when a process switches back to it:
in the loop over slots, past the one it ran, or at the end of the iteration. -/
inductive SchedCtx where
  | loop (p : Slot)
  | once
  deriving DecidableEq, Repr

/-- What scheduler() leaves behind at its next swtch() or release(): the
table, the CPU's `proc`, and, if it switched, where it will go on. -/
structure Outcome where
  table : Table
  proc : Option Slot
  next : Option SchedCtx

/-- The process switched to, if the outcome is a switch. -/
def Outcome.dispatched (o : Outcome) : Option Slot := o.next.bind fun _ => o.proc

def Proc.run (p : Proc) : Proc := { p with myquantum := 0, state := .running }

def Proc.runStamped (p : Proc) (ticks : UInt32) : Proc := { p.run with priority := ticks }

/-- The loop of strategy 1, and of the third queue of strategy 4, over the
slots it has not visited yet. -/
def rrLoop (sel : Proc → Bool) (t : Table) (proc : Option Slot) (unvisited : List Slot) : Outcome :=
  match unvisited.find? fun p => sel (t p) with
  | some p => ⟨Function.update t p (t p).run, some p, some (.loop p)⟩
  | none => ⟨t, proc, none⟩

/-- Switching to the scratch `proc`. A null `proc` would fault; the callers
test that the bound has moved, and it moves only together with `proc`. -/
def switchTo (ticks : UInt32) (t : Table) : Option Slot → Outcome
  | some p => ⟨Function.update t p ((t p).runStamped ticks), some p, some .once⟩
  | none => ⟨t, none, none⟩

def fifoScan (sel : Proc → Bool) (t : Table) (acc : Option Slot × UInt32) : Option Slot × UInt32 :=
  scan (fun p => sel (t p)) (fun p => (t p).priority) acc slots

/-- The truncated CPU share computed for a RUNNABLE process. -/
def Proc.share (p : Proc) (ticks : UInt32) : UInt32 :=
  if ticks - p.ctime ≠ 0 then p.rtime / (ticks - p.ctime) else 0

/-- One turn of the guaranteed scan: the share is stored before it is compared. -/
def shareStep (sel : Proc → Bool) (ticks : UInt32) (acc : Table × Option Slot × UInt32) (p : Slot) :
    Table × Option Slot × UInt32 :=
  let (t, proc, min) := acc
  if sel (t p) then
    let t' := Function.update t p { t p with grt := (t p).share ticks }
    if (t' p).grt < min then (t', some p, (t' p).grt) else (t', proc, min)
  else acc

def shareScan (sel : Proc → Bool) (ticks : UInt32) (t : Table) (proc : Option Slot) (min : UInt32) :
    Table × Option Slot × UInt32 :=
  slots.foldl (shareStep sel ticks) (t, proc, min)

def Proc.isRunnable (p : Proc) : Bool := p.state = .runnable

def Proc.onLevel (level : Int32) (p : Proc) : Bool := p.state = .runnable ∧ p.queuelevel = level

def fifoPass (ticks : UInt32) (t : Table) (proc : Option Slot) : Outcome :=
  let (proc, tmp) := fifoScan Proc.isRunnable t (proc, ticks)
  if tmp ≠ ticks then switchTo ticks t proc else ⟨t, proc, none⟩

def guaranteedPass (ticks : UInt32) (t : Table) (proc : Option Slot) : Outcome :=
  let (t, proc, min) := shareScan Proc.isRunnable ticks t proc ticks
  if min ≠ ticks then switchTo ticks t proc else ⟨t, proc, none⟩

def multiLevelPass (ticks : UInt32) (t : Table) (proc : Option Slot) : Outcome :=
  let (t, proc, min) := shareScan (Proc.onLevel 3) ticks t proc ticks
  if min ≠ ticks then switchTo ticks t proc
  else
    let (proc, min) := fifoScan (Proc.onLevel 2) t (proc, min)
    if min ≠ ticks then switchTo ticks t proc
    else rrLoop (Proc.onLevel 1) t proc slots

/-- One iteration of scheduler()'s outer loop, from acquire() to its first
swtch() or its release(). -/
def schedule (strategy : Nat) (ticks : UInt32) (t : Table) (proc : Option Slot) : Outcome :=
  if strategy = 1 then rrLoop Proc.isRunnable t proc slots
  else if strategy = 2 then fifoPass ticks t proc
  else if strategy = 3 then guaranteedPass ticks t proc
  else if strategy = 4 then multiLevelPass ticks t proc
  else ⟨t, proc, none⟩

/-- The rest of the iteration after a process has switched back, with `proc`
cleared: the loops go on with the slots behind the one they ran. -/
def reschedule (strategy : Nat) (t : Table) : SchedCtx → Outcome
  | .loop p =>
    rrLoop (if strategy = 1 then Proc.isRunnable else Proc.onLevel 1) t none
      (slots.filter fun q => p < q)
  | .once => ⟨t, none, none⟩

end Xv6
