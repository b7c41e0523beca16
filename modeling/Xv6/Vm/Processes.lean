import Xv6.Files.Ftable
import Xv6.Vm.Exec

/-! proc.c, exec.c: the calls that take pages and give them back. -/

namespace Xv6.Vm
open Lib Files

/-- The fields of `struct proc` that have to do with memory. The trap frame is
at the end of the page of the kernel stack. -/
structure Process where
  state : ProcState
  pid : Int32
  parent : Option Slot
  kstack : Addr
  pgdir : Addr
  sz : UInt32
  name : List UInt8
  killed : Bool

/-- A pipe goes by its page; inodes play no part here. -/
structure State where
  machine : Machine
  proc : Slot → Process
  nextpid : Int32
  initproc : Option Slot
  files : Ftable Addr Nat

namespace State

def setProc (s : State) (p : Slot) (v : Process) : State :=
  { s with proc := Function.update s.proc p v }

@[simp] theorem setProc_self (s : State) (p : Slot) (v : Process) : (s.setProc p v).proc p = v :=
  Function.update_self ..

theorem setProc_other (s : State) {p q : Slot} (ne : q ≠ p) (v : Process) :
    (s.setProc p v).proc q = s.proc q := Function.update_of_ne ne ..

@[simp] theorem setProc_setProc (s : State) (p : Slot) (v w : Process) :
    (s.setProc p v).setProc p w = s.setProc p w := by
  simp [setProc]

end State

def onMachine {α : Type} (x : Prog Machine α) : Prog State α :=
  x.onPart State.machine fun s m => { s with machine := m }

def onFiles {α : Type} (x : Prog (Ftable Addr Nat) α) : Prog State α :=
  x.onPart State.files fun s t => { s with files := t }

/-- Update some fields of a process. -/
def change (p : Slot) (f : Process → Process) : Prog State Unit :=
  .modify fun s => s.setProc p (f (s.proc p))

/-! ## fork -/

/-- Look for an UNUSED proc, and give it a kernel stack. -/
def allocproc : Prog State (Option Slot) := do
  let s ← .get
  match slots.find? fun p => (s.proc p).state == .unused with
  | none => pure none
  | some p => do
    change p fun v => { v with state := .embryo, pid := s.nextpid }
    .modify fun s => { s with nextpid := s.nextpid + 1 }
    let kstack ← onMachine kalloc
    change p fun v => { v with kstack := kstack }
    if kstack = 0 then do
      change p fun v => { v with state := .unused }
      pure none
    else
      pure (some p)

/-- `*np->tf = *proc->tf; np->tf->eax = 0;` -/
def copyTrapframe (src dst : Addr) : Prog Machine Unit := do
  .modify fun m => m.write dst fun j => if j.val < 4020 then m.mem dst j else m.mem src j
  .modify fun m => m.store dst 1012 0

/-- A turn of the loop of fork() over the open files. -/
def dupFile (me np : Slot) (fd : Fin nofile) : Prog State Unit := do
  let s ← .get
  match s.files.ofile me fd with
  | none => pure ()
  | some f => do
    onFiles (filedup f)
    onFiles (.modify fun t => t.setOfile np fd (some f))

def fork (k : Symbols) (me : Slot) : Prog State Int32 := do
  match ← allocproc with
  | none => pure (-1)
  | some np => do
    let s ← .get
    let d ← onMachine (copyuvm k (s.proc me).pgdir (s.proc me).sz)
    change np fun v => { v with pgdir := d }
    if d = 0 then do
      onMachine (kfree k (s.proc np).kstack)
      change np fun v => { v with kstack := 0, state := .unused }
      pure (-1)
    else do
      change np fun v => { v with sz := (s.proc me).sz, parent := some me }
      onMachine (copyTrapframe (s.proc me).kstack (s.proc np).kstack)
      Prog.each (dupFile me np) (List.finRange nofile)
      change np fun v => { v with name := (s.proc me).name, state := .runnable }
      pure (s.proc np).pid

/-! ## exec and sbrk -/

/-- The part of the path behind the last slash, as far as it fits. -/
def progName (path : List UInt8) : List UInt8 :=
  ((path.reverse.takeWhile (· != 47)).reverse).take 15

def exec (k : Symbols) (me : Slot) (path : List UInt8) (file : Option Program)
    (argv : List (List UInt8)) : Prog State Int32 := do
  let s ← .get
  match ← onMachine (load k (s.proc me).pgdir file argv) with
  | none => pure (-1)
  | some image => do
    change me fun v => { v with name := progName path, pgdir := image.pgdir, sz := image.sz }
    -- tf->eip and tf->esp
    onMachine (.modify fun m => m.store (s.proc me).kstack 1019 image.entry)
    onMachine (.modify fun m => m.store (s.proc me).kstack 1022 image.sp)
    onMachine (freevm k (s.proc me).pgdir)
    pure 0

/-- The size after growproc(), 0 on failure. -/
def resize (k : Symbols) (pgdir sz : Addr) (n : Int32) : Prog Machine UInt32 :=
  if n > 0 then allocuvm k pgdir sz (sz + n.toUInt32)
  else if n < 0 then deallocuvm k pgdir sz (sz + n.toUInt32)
  else pure sz

/-- Grow current process's memory by `n` bytes. -/
def growproc (k : Symbols) (me : Slot) (n : Int32) : Prog State Int32 := do
  let s ← .get
  let sz ← onMachine (resize k (s.proc me).pgdir (s.proc me).sz n)
  if n ≠ 0 ∧ sz = 0 then
    pure (-1)
  else do
    change me fun v => { v with sz := sz }
    pure 0

/-- Before userinit(): a machine with free pages, and no processes or files. -/
def blank (m : Machine) : State where
  machine := m
  proc := fun _ => ⟨.unused, 0, none, 0, 0, 0, [], false⟩
  nextpid := 1
  initproc := none
  files := ⟨fun _ => ⟨.none, 0, false, false, 0⟩, fun _ _ => none⟩

end Xv6.Vm
