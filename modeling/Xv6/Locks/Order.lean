import Xv6.Locks.Paths

/-! The order in which the kernel takes its spinlocks. `ptable.lock` is taken
inside the locks of the things a process sleeps on, and `kmem.lock` inside
`ptable.lock`. Only `cons.lock` has no place in this order: console input takes
`ptable.lock` inside it, and `cprintf` takes it inside `ptable.lock` where it is
called with that held. Runs that do one of the two never deadlock on their
spinlocks; a run that does both can. -/

namespace Xv6.Locks

open Lib.Locks

/-- Every nesting of spinlocks in the kernel: `Nests x l` if some path acquires
`l` with `x` held. -/
inductive Nests : Lock → Lock → Prop where
  | tickslock : Nests .tickslock .ptable
  | idelock : Nests .idelock .ptable
  | log : Nests .log .ptable
  | pipe (p : Nat) : Nests (.pipe p) .ptable
  | buf (b : Nat) : Nests (.buf b) .ptable
  | inode (ip : Nat) : Nests (.inode ip) .ptable
  | input : Nests .cons .ptable
  | print : Nests .ptable .cons
  | free : Nests .ptable .kmem

attribute [simp] Nests.tickslock Nests.idelock Nests.log Nests.pipe Nests.buf Nests.inode
  Nests.input Nests.print Nests.free

def kernelNesting : Nesting Lock := ⟨Nests, .ptable⟩

@[simp] theorem kernelNesting_allows : kernelNesting.allows = Nests := rfl

@[simp] theorem kernelNesting_hub : kernelNesting.hub = .ptable := rfl

/-! ## What each function asks of the locks held

These functions give back the locks they find. Those that may sleep are called
with no spinlock held, or with the one they sleep on. -/

section
variable {s : Nat} {Q : List Lock → Prop}

@[simp] theorem wp_releasesleep {l : Lock} (low : Nests l .ptable) :
    (releasesleep l).wp kernelNesting Q [] ↔ Q [] := by
  simp [releasesleep, low]

@[simp] theorem wp_brelse (b : Nat) : (brelse b).wp kernelNesting Q [] ↔ Q [] := by
  simp [brelse, holdingsleep]

@[simp] theorem wp_iunlock (ip : Nat) : (iunlock ip).wp kernelNesting Q [] ↔ Q [] := by
  simp [iunlock, holdingsleep]

@[simp] theorem wp_pipeclose (p : Nat) : (pipeclose p).wp kernelNesting Q [] ↔ Q [] := by
  simp [pipeclose]

@[simp] theorem wp_mappages : mappages.wp kernelNesting Q [] ↔ Q [] := by
  simp [mappages, walkpgdir]

@[simp] theorem wp_setupkvm : setupkvm.wp kernelNesting Q [] ↔ Q [] := by simp [setupkvm]

@[simp] theorem wp_deallocuvm : deallocuvm.wp kernelNesting Q [] ↔ Q [] := by
  simp [deallocuvm, walkpgdir]

@[simp] theorem wp_allocuvm : allocuvm.wp kernelNesting Q [] ↔ Q [] := by simp [allocuvm]

@[simp] theorem wp_freevm : freevm.wp kernelNesting Q [] ↔ Q [] := by simp [freevm]

@[simp] theorem wp_freevm_ptable : freevm.wp kernelNesting Q [.ptable] ↔ Q [.ptable] := by
  simp [freevm, deallocuvm, walkpgdir]

@[simp] theorem wp_fork : fork.wp kernelNesting Q [] ↔ Q [] := by
  simp [fork, allocproc, copyuvm, walkpgdir]

@[simp] theorem wp_ideintr : ideintr.wp kernelNesting Q [] ↔ Q [] := by simp [ideintr]

@[simp] theorem wp_consoleintr : consoleintr.wp kernelNesting Q [] ↔ Q [] := by
  simp [consoleintr, procdump]

theorem wp_schedTo (o : Op Lock) :
    (schedTo s o).wp kernelNesting Q [.ptable] ↔ o.wp kernelNesting Q [.ptable] := by
  by_cases prints : s = 2 <;> simp [schedTo, prints, Prog.wp]

@[simp] theorem wp_sched : (sched s).wp kernelNesting Q [.ptable] ↔ Q [.ptable] := by
  simp [sched, wp_schedTo, Op.wp]

@[simp] theorem wp_sleep_ptable :
    (sleep s .ptable).wp kernelNesting Q [.ptable] ↔ Q [.ptable] := by
  simp [sleep]

@[simp] theorem wp_sleep {l : Lock} (low : Nests l .ptable) :
    (sleep s l).wp kernelNesting Q [l] ↔ Q [l] := by
  have ne : l ≠ .ptable := by
    rintro rfl
    cases low
  simp [sleep, ne, ne.symm, low]

@[simp] theorem wp_acquiresleep {l : Lock} (low : Nests l .ptable) :
    (acquiresleep s l).wp kernelNesting Q [] ↔ Q [] := by
  simp [acquiresleep, low]

@[simp] theorem wp_iderw (b : Nat) : (iderw s b).wp kernelNesting Q [] ↔ Q [] := by
  simp [iderw, holdingsleep]

@[simp] theorem wp_bread (b : Nat) : (bread s b).wp kernelNesting Q [] ↔ Q [] := by
  simp [bread, bget]

@[simp] theorem wp_bwrite (b : Nat) : (bwrite s b).wp kernelNesting Q [] ↔ Q [] := by
  simp [bwrite, holdingsleep]

@[simp] theorem wp_readsb : (readsb s).wp kernelNesting Q [] ↔ Q [] := by simp [readsb]

@[simp] theorem wp_installTrans : (installTrans s).wp kernelNesting Q [] ↔ Q [] := by
  simp [installTrans]

@[simp] theorem wp_writeHead : (writeHead s).wp kernelNesting Q [] ↔ Q [] := by simp [writeHead]

@[simp] theorem wp_beginOp : (beginOp s).wp kernelNesting Q [] ↔ Q [] := by
  simp [beginOp]

@[simp] theorem wp_endOp : (endOp s).wp kernelNesting Q [] ↔ Q [] := by
  simp [endOp, commit, writeLog]

@[simp] theorem wp_balloc : (balloc s).wp kernelNesting Q [] ↔ Q [] := by simp [balloc, bzero]

@[simp] theorem wp_bfree : (bfree s).wp kernelNesting Q [] ↔ Q [] := by simp [bfree]

@[simp] theorem wp_ialloc : (ialloc s).wp kernelNesting Q [] ↔ Q [] := by simp [ialloc]

@[simp] theorem wp_iupdate : (iupdate s).wp kernelNesting Q [] ↔ Q [] := by simp [iupdate]

@[simp] theorem wp_ilock (ip : Nat) : (ilock s ip).wp kernelNesting Q [] ↔ Q [] := by
  simp [ilock]

@[simp] theorem wp_itrunc : (itrunc s).wp kernelNesting Q [] ↔ Q [] := by simp [itrunc]

@[simp] theorem wp_iput : (iput s).wp kernelNesting Q [] ↔ Q [] := by simp [iput]

@[simp] theorem wp_iunlockput (ip : Nat) : (iunlockput s ip).wp kernelNesting Q [] ↔ Q [] := by
  simp [iunlockput]

@[simp] theorem wp_bmap : (bmap s).wp kernelNesting Q [] ↔ Q [] := by simp [bmap]

@[simp] theorem wp_consoleread (ip : Nat) : (consoleread s ip).wp kernelNesting Q [] ↔ Q [] := by
  simp [consoleread]

@[simp] theorem wp_readi (ip : Nat) : (readi s ip).wp kernelNesting Q [] ↔ Q [] := by
  simp [readi]

@[simp] theorem wp_writei (ip : Nat) : (writei s ip).wp kernelNesting Q [] ↔ Q [] := by
  simp [writei, consolewrite]

@[simp] theorem wp_dirlookup (dp : Nat) : (dirlookup s dp).wp kernelNesting Q [] ↔ Q [] := by
  simp [dirlookup]

@[simp] theorem wp_dirlink (dp : Nat) : (dirlink s dp).wp kernelNesting Q [] ↔ Q [] := by
  simp [dirlink]

@[simp] theorem wp_namex (parent : Bool) : (namex s parent).wp kernelNesting Q [] ↔ Q [] := by
  cases parent <;> simp [namex]

@[simp] theorem wp_create (ip : Nat) : (create s ip).wp kernelNesting Q [] ↔ Q [] := by
  simp [create, nameiparent]

@[simp] theorem wp_fileclose : (fileclose s).wp kernelNesting Q [] ↔ Q [] := by
  simp [fileclose]

@[simp] theorem wp_exec : (exec s).wp kernelNesting Q [] ↔ Q [] := by
  simp [exec, namei, loaduvm, walkpgdir]

@[simp] theorem wp_exit : (exit s).wp kernelNesting Q [] := by
  simp [exit, wp_schedTo, Op.wp]

@[simp] theorem wp_fileread : (fileread s).wp kernelNesting Q [] ↔ Q [] := by
  simp [fileread, piperead]

@[simp] theorem wp_filewrite : (filewrite s).wp kernelNesting Q [] ↔ Q [] := by
  simp [filewrite, pipewrite]

@[simp] theorem wp_sysSleep : (sysSleep s).wp kernelNesting Q [] ↔ Q [] := by
  simp [sysSleep]

@[simp] theorem wp_wait33 : (wait33 s).wp kernelNesting Q [] ↔ Q [] := by
  simp [wait33, waitFor]

/-- Only one way: `exit` does not come back. -/
theorem wp_syscall (post : Q []) : (syscall s).wp kernelNesting Q [] := by
  rw [syscall, wp_anyOf]
  intro num
  split <;> simp [wait, wait22, waitFor, sysPipe, pipealloc, kill, filestat, sysChdir, namei,
    growproc, sysUptime, sysOpen, sysMknod, sysMkdir, sysMake, sysUnlink, nameiparent, isdirempty,
    sysLink, post]

theorem wp_trap (proc user : Bool) (post : Q []) : (trap s proc user).wp kernelNesting Q [] := by
  rw [trap, wp_anyOf]
  intro trapno
  cases proc <;> cases user <;> split <;> simp [yield, wp_syscall, post]

theorem kernelCode_ordered (s : Nat) : (kernelCode s).Ordered kernelNesting where
  user := wp_trap true true rfl
  kernel := wp_trap true false rfl
  idle := wp_trap false false rfl
  iteration := by
    simp only [kernelCode, schedulerRound]
    split <;> simp
  birth := by simp [kernelCode, forkret, iinit, initlog, recoverFromLog, readHead]

end

/-! ## Deadlock -/

/-- The step begins no path that calls `cprintf` with `ptable.lock` held:
neither `sched` under strategy 2, nor `wait33` with a zombie to reap. -/
def NoPrintUnderPtable (s : Nat) : State Lock → Nat × Lib.Locks.Act → Prop :=
  (kernelCode s).Enters .ptable (Avoids .ptable .cons)

/-- The step begins no path that takes `ptable.lock` with `cons.lock` held:
neither `consoleintr` with a line completed, nor `consoleread` with a wait. -/
def NoPtableUnderCons (s : Nat) : State Lock → Nat × Lib.Locks.Act → Prop :=
  (kernelCode s).Enters .ptable (Avoids .cons .ptable)

instance (s : Nat) (k : State Lock) (a : Nat × Lib.Locks.Act) :
    Decidable (NoPrintUnderPtable s k a) :=
  inferInstanceAs (Decidable ((kernelCode s).Enters _ _ _ _))

instance (s : Nat) (k : State Lock) (a : Nat × Lib.Locks.Act) :
    Decidable (NoPtableUnderCons s k a) :=
  inferInstanceAs (Decidable ((kernelCode s).Enters _ _ _ _))

/-- Without one of its nestings the rest of the kernel's can be ranked. -/
theorem stays_of_avoids {s n : Nat} {as : List (Nat × Lib.Locks.Act)} {x l : Lock}
    (rank : Lock → Nat) (ranked : ∀ y m, Nests y m → ¬ (y = x ∧ m = l) → rank y < rank m)
    (legal : ((kernelCode s).system n).Legal .idle as)
    (avoids : ((kernelCode s).system n).Every ((kernelCode s).Enters .ptable (Avoids x l)) .idle
      as) :
    ((kernelCode s).system n).Stays (fun k => ¬ k.Deadlocked) .idle as := by
  have enters := ((kernelCode s).system n).every_imp (I := fun _ => True) (fun _ _ _ _ => trivial)
    (fun _ _ _ _ => (kernelCode_ordered s).enters_without) legal trivial avoids
  have ordered : ∀ y m, (kernelNesting.without x l).allows y m → rank y < rank m :=
    fun y m allowed => ranked y m allowed.1 allowed.2
  exact stays_not_deadlocked ordered legal enters

/-- The CPUs, however many, executing the kernel's paths in any interleaving:
in a run whose paths do not both print under `ptable.lock` and take
`ptable.lock` under `cons.lock`, no set of CPUs ever comes to spin on spinlocks
held by each other. -/
theorem spinlocks_acyclic {s n : Nat} {as : List (Nat × Lib.Locks.Act)}
    (legal : ((kernelCode s).system n).Legal .idle as)
    (apart : ((kernelCode s).system n).Every (NoPrintUnderPtable s) .idle as ∨
      ((kernelCode s).system n).Every (NoPtableUnderCons s) .idle as) :
    ((kernelCode s).system n).Stays (fun k => ¬ k.Deadlocked) .idle as := by
  rcases apart with quiet | unread
  · -- `cons.lock` is one of the outer locks
    let rank : Lock → Nat
      | .ptable => 1
      | .kmem => 2
      | _ => 0
    refine stays_of_avoids rank (fun y m nests ne => ?_) legal quiet
    cases nests <;> simp_all [rank]
  · -- `cons.lock` is an inner lock
    let rank : Lock → Nat
      | .ptable => 1
      | .kmem | .cons => 2
      | _ => 0
    refine stays_of_avoids rank (fun y m nests ne => ?_) legal unread
    cases nests <;> simp_all [rank]

/-- CPU 1 starts a process, which enters the kernel as the decisions say and
takes its first lock; then an interrupt from the keyboard, with `lines` complete
lines, has CPU 0 take its first lock. -/
def race (entry : List Nat) (lines : Nat) : List (Nat × Lib.Locks.Act) :=
  [(1, .iterate [1]), (1, .step), (1, .launch []), (1, .step), (1, .leave),
    (1, .enter entry), (1, .step), (0, .enter [33, lines]), (0, .step)]

/-- The system call `wait3`, with a zombie to reap. -/
def reaps : List Nat := [64, 0, 26, 0, 1]

/-- A timer interrupt that makes the process yield. -/
def preempted : List Nat := [32, 0, 0, 1]

/-- `wait33` prints under `ptable.lock`, but no line is completed. -/
theorem spinlocks_acyclic_without_line :
    ((kernelCode 1).system 2).Stays (fun k => ¬ k.Deadlocked) .idle (race reaps 0) :=
  spinlocks_acyclic (by decide +kernel) (.inr (by decide +kernel))

theorem race_deadlocks {s : Nat} {entry : List Nat}
    (spins : (((kernelCode s).system 2).after .idle (race entry 1)).Spins 1 0 ∧
      (((kernelCode s).system 2).after .idle (race entry 1)).Spins 0 1) :
    (((kernelCode s).system 2).after .idle (race entry 1)).Deadlocked :=
  deadlocked_of_spins (by decide) spins.1 spins.2

/-- With a line completed, CPU 1 holds `ptable.lock` and spins on `cons.lock` in
`cprintf`, and CPU 0 the other way round in `wakeup`: if the process reaps, and
under strategy 2 also if it is preempted. -/
theorem print_crosses_input :
    ((kernelCode 1).system 2).Legal .idle (race reaps 1) ∧
    (((kernelCode 1).system 2).after .idle (race reaps 1)).Deadlocked ∧
    ((kernelCode 2).system 2).Legal .idle (race preempted 1) ∧
    (((kernelCode 2).system 2).after .idle (race preempted 1)).Deadlocked :=
  ⟨by decide +kernel, race_deadlocks (by decide +kernel), by decide +kernel,
    race_deadlocks (by decide +kernel)⟩

end Xv6.Locks
