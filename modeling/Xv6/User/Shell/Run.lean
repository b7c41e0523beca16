import Mathlib.Logic.Function.Basic
import Xv6.User.Shell.Grammar

/-! sh.c: runcmd(), up to the calls of exec(). Descriptors are handed out from the lowest free
number on, and runcmd() relies on that to put files and pipes where programs expect them. -/

namespace Xv6.Shell

/-! ## Descriptors -/

/-- What a descriptor stands for. A pipe goes by the place of its command in the tree. -/
inductive End where
  | given (name : Nat)
  | file (name : List UInt8) (mode : Nat)
  | readEnd (pipe : List Bool)
  | writeEnd (pipe : List Bool)
  deriving DecidableEq, Repr

/-- The open files of a process. -/
abbrev Fds := Nat → Option End

def nofile : Nat := 16

namespace Fds

def close (t : Fds) (fd : Nat) : Fds := Function.update t fd none

/-- The lowest free descriptor is taken for `e`, as fdalloc() does it. -/
def alloc (t : Fds) (e : End) : Option (Nat × Fds) :=
  ((List.range nofile).find? fun fd => (t fd).isNone).map fun fd => (fd, Function.update t fd e)

def dup (t : Fds) (fd : Nat) : Fds :=
  match (t fd).bind t.alloc with
  | some (_, t') => t'
  | none => t

def pipe (t : Fds) (q : List Bool) : Option (Nat × Nat × Fds) := do
  let (p0, t) ← t.alloc (.readEnd q)
  let (p1, t) ← t.alloc (.writeEnd q)
  pure (p0, p1, t)

end Fds

/-! ## The commands that are run -/

/-- Whether the system calls for the command at a place of the tree succeed. -/
structure Luck where
  opens : List Bool → Bool
  pipes : List Bool → Bool
  forks : List Bool → Bool
  forksAgain : List Bool → Bool

/-- A call of exec(), with the open files of the process that makes it. -/
structure Start where
  argv : List (List UInt8)
  fds : Fds

variable (w : Luck)

/-- The calls of exec() that a process makes for the command at a place, it or its children.
fork1() and a failed pipe() panic, which ends the process. -/
def runcmd (q : List Bool) (t : Fds) : Cmd (List UInt8) → List Start
  | .exec argv => if argv = [] then [] else [⟨argv, t⟩]
  | .redir cmd r =>
    match if w.opens q then (t.close r.fd).alloc (.file r.file r.mode) else none with
    | none => []
    | some (_, t) => runcmd (false :: q) t cmd
  | .list left right =>
    if w.forks q then runcmd (false :: q) t left ++ runcmd (true :: q) t right else []
  | .pipe left right =>
    match if w.pipes q then t.pipe q else none with
    | none => []
    | some (p0, p1, t) =>
      if w.forks q then
        runcmd (false :: q) ((((t.close 1).dup p1).close p0).close p1) left ++
          if w.forksAgain q then runcmd (true :: q) ((((t.close 0).dup p0).close p0).close p1) right
          else []
      else []
  | .back cmd => if w.forks q then runcmd (false :: q) t cmd else []

/-! ## The meaning of a command -/

/-- Standard input, output and error. -/
structure Ports where
  stdin : End
  stdout : End
  stderr : End

def Ports.fds (p : Ports) : Fds
  | 0 => some p.stdin
  | 1 => some p.stdout
  | 2 => some p.stderr
  | _ => none

def Ports.redirect (p : Ports) (r : Redir (List UInt8)) : Ports :=
  match r.fd with
  | 0 => { p with stdin := .file r.file r.mode }
  | 1 => { p with stdout := .file r.file r.mode }
  | _ => { p with stderr := .file r.file r.mode }

/-- The programs of a command, and what each reads and writes: a redirection replaces a port, a
pipe joins the output of its left side to the input of its right side. -/
def programs (q : List Bool) (p : Ports) : Cmd (List UInt8) → List (List (List UInt8) × Ports)
  | .exec argv => if argv = [] then [] else [(argv, p)]
  | .redir cmd r => if w.opens q then programs (false :: q) (p.redirect r) cmd else []
  | .list left right =>
    if w.forks q then programs (false :: q) p left ++ programs (true :: q) p right else []
  | .pipe left right =>
    if w.pipes q ∧ w.forks q then
      programs (false :: q) { p with stdout := .writeEnd q } left ++
        if w.forksAgain q then programs (true :: q) { p with stdin := .readEnd q } right else []
    else []
  | .back cmd => if w.forks q then programs (false :: q) p cmd else []

/-- Redirections are of the three ports. -/
def Cmd.Plain : Cmd (List UInt8) → Prop
  | .exec _ => True
  | .redir cmd r => cmd.Plain ∧ r.fd < 3
  | .list left right | .pipe left right => left.Plain ∧ right.Plain
  | .back cmd => cmd.Plain

/-! ## Descriptors and ports -/

theorem Ports.alloc_closed (p : Ports) {r : Redir (List UInt8)} (port : r.fd < 3) :
    (p.fds.close r.fd).alloc (.file r.file r.mode) = some (r.fd, (p.redirect r).fds) := by
  obtain ⟨file, mode, fd⟩ := r
  obtain rfl | rfl | rfl : fd = 0 ∨ fd = 1 ∨ fd = 2 := by simp only at port; omega
  all_goals
    refine Option.map_eq_some_iff.mpr ⟨_, rfl, Prod.ext rfl (funext fun n => ?_)⟩
    match n with
    | 0 | 1 | 2 | _ + 3 => rfl

theorem Ports.pipe_fds (p : Ports) (q : List Bool) : ∃ t, p.fds.pipe q = some (3, 4, t) ∧
    (((t.close 1).dup 4).close 3).close 4 = ({ p with stdout := .writeEnd q } : Ports).fds ∧
    (((t.close 0).dup 3).close 3).close 4 = ({ p with stdin := .readEnd q } : Ports).fds := by
  refine ⟨_, rfl, funext fun n => ?_, funext fun n => ?_⟩
  all_goals
    match n with
    | 0 | 1 | 2 | 3 | 4 | _ + 5 => rfl

/-- Every program gets its three ports and no other descriptor. -/
theorem runcmd_eq {cmd : Cmd (List UInt8)} (plain : cmd.Plain) (q : List Bool) (p : Ports) :
    runcmd w q p.fds cmd = (programs w q p cmd).map fun s => ⟨s.1, s.2.fds⟩ := by
  induction cmd generalizing q p with
  | exec argv =>
    rw [runcmd, programs]
    split
    · rfl
    · rfl
  | redir cmd r ih =>
    rw [runcmd, programs, p.alloc_closed plain.2]
    cases w.opens q with
    | false => rfl
    | true => exact ih plain.1 _ _
  | list left right ihl ihr =>
    rw [runcmd, programs, ihl plain.1, ihr plain.2]
    cases w.forks q with
    | false => rfl
    | true => exact List.map_append.symm
  | pipe left right ihl ihr =>
    obtain ⟨t, made, output, input⟩ := p.pipe_fds q
    rw [runcmd, programs, made]
    cases w.pipes q with
    | false => rfl
    | true =>
      cases w.forks q with
      | false => rfl
      | true =>
        simp only [↓reduceIte, output, input, ihl plain.1, ihr plain.2, List.map_append, and_self]
        cases w.forksAgain q with
        | false => rfl
        | true => rfl
  | back cmd ih =>
    rw [runcmd, programs, ih plain]
    cases w.forks q with
    | false => rfl
    | true => rfl

/-! ## Lines -/

theorem Redirs.ports {ts : List Tok} {rs : List (Redir (List UInt8))} (h : Redirs ts rs) :
    ∀ r ∈ rs, r.fd < 3 := by
  induction h with
  | nil => simp
  | cons is _ ih =>
    refine List.forall_mem_cons.mpr ⟨?_, ih⟩
    cases is with
    | input => exact (by decide : 0 < 3)
    | output | append => exact (by decide : 1 < 3)

theorem Words.ports {ts : List Tok} {ws : List (List UInt8)} {rs : List (Redir (List UInt8))}
    (h : Words ts ws rs) : ∀ r ∈ rs, r.fd < 3 := by
  induction h with
  | nil => simp
  | cons redirs _ ih => exact List.forall_mem_append.mpr ⟨redirs.ports, ih⟩

theorem Cmd.Plain.redirected {rs : List (Redir (List UInt8))} (ports : ∀ r ∈ rs, r.fd < 3)
    {cmd : Cmd (List UInt8)} (plain : cmd.Plain) : (cmd.redirected rs).Plain := by
  induction rs generalizing cmd with
  | nil => exact plain
  | cons r rs ih =>
    obtain ⟨port, ports⟩ := List.forall_mem_cons.mp ports
    exact ih ports (show (cmd.redir r).Plain from ⟨plain, port⟩)

theorem Cmd.Plain.backs {cmd : Cmd (List UInt8)} (plain : cmd.Plain) (n : Nat) :
    (cmd.backs n).Plain := by
  induction n generalizing cmd with
  | zero => exact plain
  | succ n ih => exact ih (show (cmd.back).Plain from plain)

theorem Derives.plain {part : Part} {ts : List Tok} {cmd : Cmd (List UInt8)}
    (h : Derives part ts cmd) : cmd.Plain := by
  induction h with
  | line n _ ih => exact ih.backs n
  | list n _ _ ihl ihr => exact ⟨ihl.backs n, ihr⟩
  | single _ ih => exact ih
  | pipe _ _ ihl ihr => exact ⟨ihl, ihr⟩
  | block _ redirs ih => exact ih.redirected redirs.ports
  | simple redirs words _ =>
    exact Cmd.Plain.redirected (List.forall_mem_append.mpr ⟨redirs.ports, words.ports⟩) trivial

/-- The programs of a line are started with the ports that the line gives them, and with no end of
a pipe left open besides. -/
theorem line_runs_programs {ts : List Tok} {cmd : Cmd (List UInt8)} (line : Derives .line ts cmd)
    (p : Ports) : runcmd w [] p.fds cmd = (programs w [] p cmd).map fun s => ⟨s.1, s.2.fds⟩ :=
  runcmd_eq w line.plain [] p

/-- `a<x|b` -/
theorem filtered_file_runs :
    let w : Luck := ⟨fun _ => true, fun _ => true, fun _ => true, fun _ => true⟩
    let p : Ports := ⟨.given 0, .given 1, .given 2⟩
    runcmd w [] p.fds (.pipe (.redir (.exec [[97]]) ⟨[120], oRdonly, 0⟩) (.exec [[98]])) =
      [⟨[[97]], (⟨.file [120] oRdonly, .writeEnd [], .given 2⟩ : Ports).fds⟩,
        ⟨[[98]], (⟨.readEnd [], .given 1, .given 2⟩ : Ports).fds⟩] := by
  intro w p
  have first : Words _ [[97]] _ := .cons (.cons (.input (w := [120])) .nil) .nil
  have second : Words _ [[98]] _ := .cons .nil .nil
  exact line_runs_programs w (.line 0 (.pipe (.simple .nil first (by decide))
    (.single (.simple .nil second (by decide))))) p

end Xv6.Shell
