import Xv6.Lib.Locks

/-! The kernel's functions reduced to the spinlocks they acquire and release,
in the order of the source. A condition that does not decide which locks are
taken disappears; any other is left open, so that the paths of a function here
include every path of the function there. A loop that returns early is the
loop followed by each of its ways out. Paths that end in `panic` are left out,
and so is booting: `cons.locking` and `kmem.use_lock` are set. -/

namespace Xv6.Locks

open Lib.Locks (Prog Op Code)

/-- The spinlocks. Every buffer, inode and pipe has its own; for the first two
it is the one inside the sleep lock. -/
inductive Lock where
  | ptable
  | cons
  | tickslock
  | idelock
  | bcache
  | icache
  | ftable
  | log
  | kmem
  | pipe (p : Nat)
  | buf (b : Nat)
  | inode (ip : Nat)
  deriving DecidableEq

-- the strategy the kernel schedules by
variable (s : Nat)

/-! ## kalloc.c, and printing -/

abbrev kfree : Prog Lock := .locked .kmem

abbrev kalloc : Prog Lock := .locked .kmem

abbrev cprintf : Prog Lock := .locked .cons

/-! ## Giving up the CPU: proc.c and sleeplock.c -/

/-- `sched` up to the switch `o`: a zombie's is its last. -/
def schedTo (o : Op Lock) : Prog Lock :=
  .block [if s = 2 then .block [.loop cprintf, cprintf] else .skip, .op o]

def sched : Prog Lock := schedTo s .swtch

def yield : Prog Lock := .block [.acquire .ptable, sched s, .release .ptable]

def sleep (lk : Lock) : Prog Lock :=
  .block [
    if lk ≠ .ptable then .block [.acquire .ptable, .release lk] else .skip,
    sched s,
    if lk ≠ .ptable then .block [.release .ptable, .acquire lk] else .skip]

abbrev wakeup : Prog Lock := .locked .ptable

abbrev kill : Prog Lock := .locked .ptable

def procdump : Prog Lock := .loop (.block [cprintf, .loop cprintf, cprintf])

def acquiresleep (lk : Lock) : Prog Lock :=
  .block [.acquire lk, .loop (sleep s lk), .release lk]

def releasesleep (lk : Lock) : Prog Lock := .block [.acquire lk, wakeup, .release lk]

abbrev holdingsleep (lk : Lock) : Prog Lock := .locked lk

/-! ## ide.c and bio.c -/

def ideintr : Prog Lock := .block [.acquire .idelock, .either .skip wakeup, .release .idelock]

def iderw (b : Nat) : Prog Lock :=
  .block [holdingsleep (.buf b), .acquire .idelock, .loop (sleep s .idelock), .release .idelock]

def bget (b : Nat) : Prog Lock :=
  .block [.locked .bcache, acquiresleep s (.buf b)]

def bread (b : Nat) : Prog Lock := .block [bget s b, .either .skip (iderw s b)]

def bwrite (b : Nat) : Prog Lock := .block [holdingsleep (.buf b), iderw s b]

def brelse (b : Nat) : Prog Lock :=
  .block [holdingsleep (.buf b), releasesleep (.buf b), .locked .bcache]

/-! ## log.c -/

def readsb : Prog Lock := .anyOf fun b => .block [bread s b, brelse b]

def installTrans : Prog Lock :=
  .loop (.anyOf fun lbuf => .anyOf fun dbuf =>
    .block [bread s lbuf, bread s dbuf, bwrite s dbuf, brelse lbuf, brelse dbuf])

def readHead : Prog Lock := .anyOf fun buf => .block [bread s buf, brelse buf]

def writeHead : Prog Lock := .anyOf fun buf => .block [bread s buf, bwrite s buf, brelse buf]

def recoverFromLog : Prog Lock := .block [readHead s, installTrans s, writeHead s]

def initlog : Prog Lock := .block [readsb s, recoverFromLog s]

def beginOp : Prog Lock := .block [.acquire .log, .loop (sleep s .log), .release .log]

def writeLog : Prog Lock :=
  .loop (.anyOf fun dst => .anyOf fun src =>
    .block [bread s dst, bread s src, bwrite s dst, brelse src, brelse dst])

def commit : Prog Lock :=
  .either .skip (.block [writeLog s, writeHead s, installTrans s, writeHead s])

def endOp : Prog Lock :=
  .block [.acquire .log, .either .skip wakeup, .release .log,
    .either .skip (.block [commit s, .acquire .log, wakeup, .release .log])]

abbrev logWrite : Prog Lock := .locked .log

/-! ## fs.c, up to inode contents -/

def bzero : Prog Lock := .anyOf fun b => .block [bread s b, logWrite, brelse b]

def balloc : Prog Lock :=
  .block [.loop (.anyOf fun b => .block [bread s b, brelse b]),
    .anyOf fun b => .block [bread s b, logWrite, brelse b, bzero s]]

def bfree : Prog Lock :=
  .block [readsb s, .anyOf fun b => .block [bread s b, logWrite, brelse b]]

def iinit : Prog Lock := .block [readsb s, cprintf]

abbrev iget : Prog Lock := .locked .icache

abbrev idup : Prog Lock := .locked .icache

def ialloc : Prog Lock :=
  .block [.loop (.anyOf fun b => .block [bread s b, brelse b]),
    .anyOf fun b => .block [bread s b, logWrite, brelse b, iget]]

def iupdate : Prog Lock := .anyOf fun b => .block [bread s b, logWrite, brelse b]

def ilock (ip : Nat) : Prog Lock :=
  .block [acquiresleep s (.inode ip),
    .either .skip (.anyOf fun b => .block [bread s b, brelse b])]

def iunlock (ip : Nat) : Prog Lock :=
  .block [holdingsleep (.inode ip), releasesleep (.inode ip)]

def itrunc : Prog Lock :=
  .block [.loop (bfree s),
    .either .skip (.anyOf fun b => .block [bread s b, .loop (bfree s), brelse b, bfree s]),
    iupdate s]

def iput : Prog Lock :=
  .block [.acquire .icache,
    .either .skip (.block [.release .icache, itrunc s, iupdate s, .acquire .icache]),
    .release .icache]

def iunlockput (ip : Nat) : Prog Lock := .block [iunlock ip, iput s]

def bmap : Prog Lock :=
  .either
    (.either .skip (balloc s))
    (.block [.either .skip (balloc s),
      .anyOf fun b =>
        .block [bread s b, .either .skip (.block [balloc s, logWrite]), brelse b]])

/-! ## console.c -/

/-- `wakeup` once for every line that is completed. -/
def consoleintr : Prog Lock :=
  .block [.acquire .cons, .loop wakeup, .release .cons, .either .skip procdump]

def consoleread (ip : Nat) : Prog Lock :=
  .block [iunlock ip, .acquire .cons, .loop (sleep s .cons), .release .cons, ilock s ip]

def consolewrite (ip : Nat) : Prog Lock :=
  .block [iunlock ip, .locked .cons, ilock s ip]

/-! ## fs.c, inode contents and names -/

def readi (ip : Nat) : Prog Lock :=
  .either
    (.either .skip (consoleread s ip))
    (.loop (.block [bmap s, .anyOf fun b => .block [bread s b, brelse b]]))

def writei (ip : Nat) : Prog Lock :=
  .either
    (.either .skip (consolewrite s ip))
    (.block [.loop (.block [bmap s, .anyOf fun b => .block [bread s b, logWrite, brelse b]]),
      .either .skip (iupdate s)])

def dirlookup (dp : Nat) : Prog Lock := .block [.loop (readi s dp), .either .skip iget]

def dirlink (dp : Nat) : Prog Lock :=
  .block [dirlookup s dp, .either (iput s) (.block [.loop (readi s dp), writei s dp])]

def namex (nameiparent : Bool) : Prog Lock :=
  .block [
    .either iget idup,
    .loop (.anyOf fun ip => .block [ilock s ip, dirlookup s ip, iunlockput s ip]),
    .either
      (if nameiparent then iput s else .skip)
      (.anyOf fun ip => .block [ilock s ip,
        .either (iunlockput s ip)
          (.either (if nameiparent then iunlock ip else iunlockput s ip)
            (.block [dirlookup s ip, iunlockput s ip]))])]

def namei : Prog Lock := namex s false

def nameiparent : Prog Lock := namex s true

/-! ## pipe.c and file.c -/

def pipeclose (p : Nat) : Prog Lock :=
  .block [.acquire (.pipe p), wakeup,
    .either (.block [.release (.pipe p), kfree]) (.release (.pipe p))]

def pipewrite (p : Nat) : Prog Lock :=
  .block [.acquire (.pipe p), .loop (.block [wakeup, sleep s (.pipe p)]),
    .either .skip wakeup, .release (.pipe p)]

def piperead (p : Nat) : Prog Lock :=
  .block [.acquire (.pipe p), .loop (sleep s (.pipe p)), .either .skip wakeup,
    .release (.pipe p)]

abbrev filealloc : Prog Lock := .locked .ftable

abbrev filedup : Prog Lock := .locked .ftable

def fileclose : Prog Lock :=
  .block [.locked .ftable,
    .either .skip (.either (.anyOf pipeclose) (.block [beginOp s, iput s, endOp s]))]

def filestat : Prog Lock :=
  .either .skip (.anyOf fun ip => .block [ilock s ip, iunlock ip])

def fileread : Prog Lock :=
  .either .skip
    (.either (.anyOf fun p => piperead s p)
      (.anyOf fun ip => .block [ilock s ip, readi s ip, iunlock ip]))

def filewrite : Prog Lock :=
  .either .skip
    (.either (.anyOf fun p => pipewrite s p)
      (.anyOf fun ip =>
        .loop (.block [beginOp s, ilock s ip, writei s ip, iunlock ip, endOp s])))

def pipealloc : Prog Lock :=
  .block [filealloc,
    .either .skip (.block [filealloc,
      .either (fileclose s) (.block [kalloc,
        .either .skip (.block [fileclose s, fileclose s])])])]

/-! ## vm.c and exec.c -/

def walkpgdir (alloc : Bool) : Prog Lock := if alloc then .either .skip kalloc else .skip

def mappages : Prog Lock := .block [walkpgdir true, .loop (walkpgdir true)]

def setupkvm : Prog Lock := .block [kalloc, .loop mappages]

def loaduvm (ip : Nat) : Prog Lock := .loop (.block [walkpgdir false, readi s ip])

def deallocuvm : Prog Lock := .loop (.block [walkpgdir false, .either .skip kfree])

def allocuvm : Prog Lock :=
  .block [.loop (.block [kalloc, mappages]),
    .either .skip
      (.either (.block [kalloc, cprintf, deallocuvm])
        (.block [kalloc, mappages, cprintf, deallocuvm, kfree]))]

def freevm : Prog Lock := .block [deallocuvm, .loop kfree, kfree]

def copyuvm : Prog Lock :=
  .block [setupkvm,
    .either .skip (.block [.loop (.block [walkpgdir false, kalloc, mappages]),
      .either .skip (.block [walkpgdir false, kalloc, .either .skip mappages, freevm])])]

def exec : Prog Lock :=
  .block [beginOp s, namei s,
    .either (endOp s) (.anyOf fun ip =>
      let bad := .block [iunlockput s ip, endOp s]
      .block [ilock s ip, readi s ip,
        .either bad (.block [setupkvm,
          .either bad (.block [
            .loop (.block [readi s ip, .either .skip (.block [allocuvm, loaduvm s ip])]),
            .either
              (.block [
                .either .skip (.block [readi s ip,
                  .either .skip (.block [allocuvm, .either .skip (loaduvm s ip)])]),
                freevm, bad])
              (.block [iunlockput s ip, endOp s, allocuvm, freevm])])])])]

/-! ## Processes: proc.c -/

def allocproc : Prog Lock :=
  .block [.locked .ptable, .either .skip kalloc]

def growproc : Prog Lock := .either .skip (.either allocuvm deallocuvm)

def fork : Prog Lock :=
  .block [allocproc,
    .either .skip (.block [copyuvm,
      .either kfree (.block [.loop filedup, idup, .locked .ptable])])]

def exit : Prog Lock :=
  .block [.loop (fileclose s), beginOp s, iput s, endOp s, .acquire .ptable, schedTo s .quit]

/-- The loop the three waits share; `reap` is what is done with a zombie. -/
def waitFor (reap : Prog Lock) : Prog Lock :=
  .block [.acquire .ptable, .loop (sleep s .ptable), .either .skip reap, .release .ptable]

def wait : Prog Lock := waitFor s (.block [kfree, freevm])

def wait22 : Prog Lock := waitFor s (.block [kfree, freevm])

def wait33 : Prog Lock := waitFor s (.block [cprintf, cprintf, kfree, freevm])

def forkret : Prog Lock :=
  .block [.release .ptable, .either .skip (.block [iinit s, initlog s])]

/-- One round of the loop in `scheduler`. -/
def schedulerRound : Prog Lock :=
  .block [.acquire .ptable,
    match s with
    | 1 => .loop (.op .dispatch)
    | 2 | 3 => .either .skip (.op .dispatch)
    | 4 => .either (.op .dispatch) (.either (.op .dispatch) (.loop (.op .dispatch)))
    | _ => .skip,
    .release .ptable]

/-! ## System calls: sysproc.c, sysfile.c, syscall.c -/

def sysSleep : Prog Lock :=
  .either .skip (.block [.acquire .tickslock, .loop (sleep s .tickslock), .release .tickslock])

abbrev sysUptime : Prog Lock := .locked .tickslock

def sysLink : Prog Lock :=
  .either .skip (.block [beginOp s, namei s,
    .either (endOp s) (.anyOf fun ip => .anyOf fun dp =>
      let bad := .block [ilock s ip, iupdate s, iunlockput s ip, endOp s]
      .block [ilock s ip,
        .either (.block [iunlockput s ip, endOp s])
          (.block [iupdate s, iunlock ip, nameiparent s,
            .either bad (.block [ilock s dp,
              .either (.block [.either .skip (dirlink s dp), iunlockput s dp, bad])
                (.block [dirlink s dp, iunlockput s dp, iput s, endOp s])])])])])

def isdirempty (dp : Nat) : Prog Lock := .loop (readi s dp)

def sysUnlink : Prog Lock :=
  .either .skip (.block [beginOp s, nameiparent s,
    .either (endOp s) (.anyOf fun dp => .anyOf fun ip =>
      let bad := .block [iunlockput s dp, endOp s]
      .block [ilock s dp,
        .either bad (.block [dirlookup s dp,
          .either bad (.block [ilock s ip, .either .skip (isdirempty s ip),
            .either (.block [iunlockput s ip, bad])
              (.block [writei s dp, .either .skip (iupdate s), iunlockput s dp,
                iupdate s, iunlockput s ip, endOp s])])])])])

def create (ip : Nat) : Prog Lock :=
  .block [nameiparent s,
    .either .skip (.anyOf fun dp => .block [ilock s dp, dirlookup s dp,
      .either
        (.block [iunlockput s dp, ilock s ip, .either .skip (iunlockput s ip)])
        (.block [ialloc s, ilock s ip, iupdate s,
          .either .skip (.block [iupdate s, dirlink s ip, dirlink s ip]),
          dirlink s dp, iunlockput s dp])])]

def sysOpen : Prog Lock :=
  .either .skip (.block [beginOp s, .anyOf fun ip =>
    let opened := .block [filealloc,
      .either (.block [.either .skip (fileclose s), iunlockput s ip, endOp s])
        (.block [iunlock ip, endOp s])]
    .either
      (.block [create s ip, .either (endOp s) opened])
      (.block [namei s,
        .either (endOp s) (.block [ilock s ip,
          .either (.block [iunlockput s ip, endOp s]) opened])])])

/-- `sys_mkdir` and `sys_mknod` differ in their arguments only. -/
def sysMake : Prog Lock :=
  .block [beginOp s,
    .either (endOp s) (.anyOf fun ip => .block [create s ip,
      .either (endOp s) (.block [iunlockput s ip, endOp s])])]

def sysMkdir : Prog Lock := sysMake s

def sysMknod : Prog Lock := sysMake s

def sysChdir : Prog Lock :=
  .block [beginOp s,
    .either (endOp s) (.block [namei s,
      .either (endOp s) (.anyOf fun ip => .block [ilock s ip,
        .either (.block [iunlockput s ip, endOp s])
          (.block [iunlock ip, iput s, endOp s])])])]

def sysPipe : Prog Lock :=
  .either .skip (.block [pipealloc s, .either .skip (.block [fileclose s, fileclose s])])

def syscall : Prog Lock :=
  .anyOf fun num =>
    match num with
    | 1 => fork
    | 2 => exit s
    | 3 => wait s
    | 4 => sysPipe s
    | 5 => .either .skip (fileread s)
    | 6 => .either .skip kill
    | 7 => .either .skip (exec s)
    | 8 => .either .skip (filestat s)
    | 9 => sysChdir s
    | 10 => .either .skip filedup
    | 11 => .skip
    | 12 => .either .skip growproc
    | 13 => sysSleep s
    | 14 => sysUptime
    | 15 => sysOpen s
    | 16 => .either .skip (filewrite s)
    | 17 => sysMknod s
    | 18 => sysUnlink s
    | 19 => sysLink s
    | 20 => sysMkdir s
    | 21 => .either .skip (fileclose s)
    | 22 | 23 | 25 => .skip
    | 24 => wait22 s
    | 26 => wait33 s
    | _ => cprintf

/-! ## trap.c -/

/-- `trap` with or without a current process, from user mode or from the
kernel. Interrupt 32 is the timer, 33 the keyboard, 36 the serial port, 46 the
disk; 64 is a system call, which only user mode makes. -/
def trap (proc user : Bool) : Prog Lock :=
  let exitIfKilled := if proc && user then .either .skip (exit s) else .skip
  .anyOf fun trapno =>
    match trapno with
    | 64 => if user then .block [exitIfKilled, syscall s, exitIfKilled] else .skip
    | 32 =>
      .block [.either .skip (.block [.acquire .tickslock, wakeup, .release .tickslock]),
        exitIfKilled, if proc then .either .skip (yield s) else .skip, exitIfKilled]
    | 33 | 36 => .block [consoleintr, exitIfKilled, exitIfKilled]
    | 46 => .block [ideintr, exitIfKilled, exitIfKilled]
    | 47 => .block [exitIfKilled, exitIfKilled]
    | _ => .block [cprintf, exitIfKilled, exitIfKilled]

/-- The kernel as the CPUs run it. -/
def kernelCode : Code Lock where
  user := trap s true true
  kernel := trap s true false
  idle := trap s false false
  iteration := schedulerRound s
  birth := forkret s

end Xv6.Locks
