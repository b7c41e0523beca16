import Mathlib.Data.Fintype.Prod
import Mathlib.Data.Multiset.Count
import Xv6.Lib.Prog
import Xv6.Lib.Tally
import Xv6.Proc.Table

/-! file.c: the table of open files and the descriptors that refer to it. What a
file refers to itself, a pipe or an inode, is left open. -/

namespace Xv6.Files
open Lib

abbrev nfile : Nat := 100

abbrev nofile : Nat := 16

inductive Ftype (π ι : Type) where
  | none
  | pipe (p : π)
  | inode (ip : ι)

structure File (π ι : Type) where
  type : Ftype π ι
  ref : Nat
  readable : Bool
  writable : Bool
  off : UInt32

/-- `ftable`, and `ofile` of every process. -/
structure Ftable (π ι : Type) where
  file : Fin nfile → File π ι
  ofile : Slot → Fin nofile → Option (Fin nfile)

namespace Ftable
variable {π ι : Type} (t : Ftable π ι)

def setFile (f : Fin nfile) (v : File π ι) : Ftable π ι :=
  { t with file := Function.update t.file f v }

def setOfile (p : Slot) (fd : Fin nofile) (v : Option (Fin nfile)) : Ftable π ι :=
  { t with ofile := Function.update t.ofile p (Function.update (t.ofile p) fd v) }

end Ftable

section code
variable {π ι : Type}

/-- Allocate a file structure. -/
def filealloc : Prog (Ftable π ι) (Option (Fin nfile)) := do
  let t ← .get
  match (List.finRange nfile).find? fun f => (t.file f).ref == 0 with
  | some f => do
    .modify fun t => t.setFile f { t.file f with ref := 1 }
    pure (some f)
  | none => pure none

/-- Increment the reference count. -/
def filedup (f : Fin nfile) : Prog (Ftable π ι) Unit := do
  let t ← .get
  if (t.file f).ref < 1 then
    .halt -- filedup
  else
    .modify fun t => t.setFile f { t.file f with ref := (t.file f).ref + 1 }

/-- fileclose() up to the release of `ftable.lock`: the file that has to be
closed, if this was the last reference to it. -/
def fileclose (f : Fin nfile) : Prog (Ftable π ι) (Option (File π ι)) := do
  let t ← .get
  let ff := t.file f
  if ff.ref < 1 then
    .halt -- fileclose
  else if ff.ref - 1 > 0 then do
    .modify fun t => t.setFile f { ff with ref := ff.ref - 1 }
    pure none
  else do
    .modify fun t => t.setFile f { ff with ref := 0, type := .none }
    pure (some ff)

/-- Allocate a file descriptor for the given file. -/
def fdalloc (me : Slot) (f : Fin nfile) : Prog (Ftable π ι) (Option (Fin nofile)) := do
  let t ← .get
  match (List.finRange nofile).find? fun fd => (t.ofile me fd).isNone with
  | some fd => do
    .modify fun t => t.setOfile me fd (some f)
    pure (some fd)
  | none => pure none

variable {t t' : Ftable π ι} {f : Fin nfile}

theorem filealloc_cases {r : Option (Fin nfile)} (run : filealloc t = some (r, t')) :
    (r = none ∧ t' = t ∧ ∀ f, (t.file f).ref ≠ 0) ∨
    ∃ f, r = some f ∧ (t.file f).ref = 0 ∧ t' = t.setFile f { t.file f with ref := 1 } := by
  have run := Prog.follow run rfl
  cases found : (List.finRange nfile).find? fun f => (t.file f).ref == 0 with
  | none =>
    rw [found] at run
    obtain ⟨rfl, rfl⟩ := Prog.pure_eq_some.mp run
    refine .inl ⟨rfl, rfl, fun f => ?_⟩
    simpa using List.find?_eq_none.mp found f (List.mem_finRange f)
  | some f =>
    rw [found] at run
    have run := Prog.follow run rfl
    obtain ⟨rfl, rfl⟩ := Prog.pure_eq_some.mp run
    exact .inr ⟨f, rfl, by simpa using List.find?_some found, rfl⟩

theorem fdalloc_cases {me : Slot} {r : Option (Fin nofile)} (run : fdalloc me f t = some (r, t')) :
    (r = none ∧ t' = t ∧ ∀ fd, t.ofile me fd ≠ none) ∨
    ∃ fd, r = some fd ∧ t.ofile me fd = none ∧ t' = t.setOfile me fd (some f) := by
  have run := Prog.follow run rfl
  cases found : (List.finRange nofile).find? fun fd => (t.ofile me fd).isNone with
  | none =>
    rw [found] at run
    obtain ⟨rfl, rfl⟩ := Prog.pure_eq_some.mp run
    refine .inl ⟨rfl, rfl, fun fd => ?_⟩
    simpa using List.find?_eq_none.mp found fd (List.mem_finRange fd)
  | some fd =>
    rw [found] at run
    have run := Prog.follow run rfl
    obtain ⟨rfl, rfl⟩ := Prog.pure_eq_some.mp run
    exact .inr ⟨fd, rfl, by simpa using List.find?_some found, rfl⟩

theorem fileclose_cases {r : Option (File π ι)} (run : fileclose f t = some (r, t')) :
    (r = none ∧ 1 < (t.file f).ref ∧
      t' = t.setFile f { t.file f with ref := (t.file f).ref - 1 }) ∨
    (r = some (t.file f) ∧ (t.file f).ref = 1 ∧
      t' = t.setFile f { t.file f with ref := 0, type := .none }) := by
  have run := Prog.follow run rfl
  by_cases none : (t.file f).ref < 1
  · rw [if_pos none] at run
    cases run
  rw [if_neg none] at run
  by_cases more : (t.file f).ref - 1 > 0
  · rw [if_pos more] at run
    have run := Prog.follow run rfl
    obtain ⟨rfl, rfl⟩ := Prog.pure_eq_some.mp run
    exact .inl ⟨rfl, by omega, rfl⟩
  · rw [if_neg more] at run
    have run := Prog.follow run rfl
    obtain ⟨rfl, rfl⟩ := Prog.pure_eq_some.mp run
    exact .inr ⟨rfl, by omega, rfl⟩

end code

/-! ## References -/

section references
variable {π ι : Type} {t t' : Ftable π ι} {f g : Fin nfile} {held : Multiset (Fin nfile)}

theorem file_setFile (t : Ftable π ι) (f g : Fin nfile) (v : File π ι) :
    (t.setFile f v).file g = if g = f then v else t.file g := Function.update_apply ..

end references
end Xv6.Files
