import Xv6.Proc.Reuse

/-! wait2(), wait3() and getppid() with pointers they should not accept. The
result of argptr() is ignored, so what a call does depends on the children of
the caller and not on its pointers. -/

namespace Xv6
open Lib

/-- What a system call comes to. -/
inductive CallResult where
  | returns (r : Int32) (t : Table) (m : Memory)
  | sleeps

/-- A wait call up to where it returns or sleeps for the first time. -/
def waitResult (report : Option (Int32 × Table × Memory)) (t : Table) (me : Slot) (m : Memory) :
    CallResult :=
  match report with
  | some (pid, t', m') => .returns pid t' m'
  | none => if waitScan t me = .giveUp then .returns (-1) t m else .sleeps

/-- The system calls that store through pointers of the caller. -/
inductive PointerCall where
  | wait2 | wait3 | getppid
  deriving DecidableEq

namespace PointerCall

def args : PointerCall → List UInt32
  | wait2 | getppid => [0, 1]
  | wait3 => [0, 1, 2, 3, 4, 5, 6]

def result (call : PointerCall) (t : Table) (me : Slot) (esp : UInt32) (m : Memory) : CallResult :=
  match call with
  | wait2 => waitResult (sysWait2 t me esp m) t me m
  | wait3 => waitResult (sysWait3 t me esp m) t me m
  | getppid =>
    let (r, m) := sysGetppid t me esp m
    .returns r t m

end PointerCall

/-- The `len` bytes from `a` on lie below `sz`. -/
def Inside (sz a : UInt32) (len : Nat) : Prop := a.toNat + len ≤ sz.toNat

instance (sz a : UInt32) (len : Nat) : Decidable (Inside sz a len) :=
  inferInstanceAs (Decidable (_ ≤ _))

/-- The argument word is in the caller's memory, and so is the `int` it points to. -/
def Designates (sz esp : UInt32) (m : Memory) (i : UInt32) : Prop :=
  Inside sz (esp + 4 + 4 * i) 4 ∧ Inside sz (m.word (esp + 4 + 4 * i)) 4

instance (sz esp : UInt32) (m : Memory) (i : UInt32) : Decidable (Designates sz esp m i) :=
  inferInstanceAs (Decidable (_ ∧ _))

/-- Some pointer argument of the call does not designate an `int` of the caller. -/
def BadPointer (call : PointerCall) (t : Table) (me : Slot) (esp : UInt32) (m : Memory) : Prop :=
  ∃ i ∈ call.args, ¬ Designates (t me).sz esp m i

/-- The call fails without effect. -/
def Rejected (call : PointerCall) (t : Table) (me : Slot) (esp : UInt32) (m : Memory) : Prop :=
  call.result t me esp m = .returns (-1) t m

/-- A report is only made of a child that is reaped, so the table has changed. -/
theorem waitReport_changes {values : Proc → List UInt32} {ptrs : List UInt32} {t t' : Table}
    {me : Slot} {m m' : Memory} {pid : Int32}
    (report : waitReport values ptrs t me m = some (pid, t', m')) : t' ≠ t := by
  unfold waitReport at report
  cases found : waitScan t me with
  | giveUp | block => simp [found] at report
  | zombie child =>
    have zombie := (waitScan_zombie found).2
    simp only [found, Option.some.injEq, Prod.mk.injEq] at report
    obtain ⟨_, rfl, _⟩ := report
    intro same
    have here : ((t child).reap).state = (t child).state := by
      have at_child := congrFun same child
      rw [Function.update_self] at at_child
      rw [at_child]
    rw [zombie] at here
    cases here

theorem waitReport_eq_none {values : Proc → List UInt32} {ptrs : List UInt32} {t : Table}
    {me : Slot} {m : Memory} (done : waitScan t me = .giveUp) :
    waitReport values ptrs t me m = none := by
  unfold waitReport
  rw [done]

theorem waitResult_rejects_iff {values : Proc → List UInt32} {ptrs : List UInt32} {t : Table}
    {me : Slot} {m : Memory} :
    waitResult (waitReport values ptrs t me m) t me m = .returns (-1) t m ↔
      waitScan t me = .giveUp := by
  constructor
  · intro rejected
    cases report : waitReport values ptrs t me m with
    | none =>
      rw [report, waitResult] at rejected
      by_contra going
      rw [if_neg going] at rejected
      cases rejected
    | some r =>
      obtain ⟨pid, t', m'⟩ := r
      rw [report, waitResult, CallResult.returns.injEq] at rejected
      exact absurd rejected.2.1 (waitReport_changes report)
  · intro none
    rw [waitReport_eq_none none, waitResult, if_pos none]

/-- A call with a bad pointer is rejected without effect exactly if it is a wait
call whose caller has no ZOMBIE child and either no child at all or been killed. -/
theorem bad_pointer_rejected_iff (call : PointerCall) (t : Table) (me : Slot) (esp : UInt32)
    (m : Memory) :
    (BadPointer call t me esp m → Rejected call t me esp m) ↔
      (BadPointer call t me esp m → call ≠ .getppid ∧ waitScan t me = .giveUp) := by
  apply imp_congr_right
  intro _
  unfold Rejected
  cases call with
  | wait2 =>
    rw [PointerCall.result, sysWait2, wait22, waitResult_rejects_iff]
    exact ⟨fun none => ⟨by rintro ⟨⟩, none⟩, fun none => none.2⟩
  | wait3 =>
    rw [PointerCall.result, sysWait3, wait33, waitResult_rejects_iff]
    exact ⟨fun none => ⟨by rintro ⟨⟩, none⟩, fun none => none.2⟩
  | getppid =>
    constructor
    · intro rejected
      rw [PointerCall.result, sysGetppid, CallResult.returns.injEq] at rejected
      exact absurd rejected.1 (by decide)
    · rintro ⟨no, _⟩
      exact absurd rfl no

/-- A process with a page of memory, and a child of it that has exited. -/
def oneZombie (me child : Slot) : Table := fun p =>
  if p = me then { Proc.zero with state := .running, pid := 1, sz := 4096 }
  else if p = child then { Proc.zero with state := .zombie, pid := 2, parent := some me, rtime := 9 }
  else Proc.zero

/-- wait2() with its arguments outside the caller's memory reaps the child and
stores to address 0. -/
theorem wait2_bad_pointer_reaps :
    BadPointer .wait2 (oneZombie 0 1) 0 4096 (fun _ => 0) ∧
    ¬ Rejected .wait2 (oneZombie 0 1) 0 4096 (fun _ => 0) ∧
    ∃ t m, PointerCall.wait2.result (oneZombie 0 1) 0 4096 (fun _ => 0) = .returns 2 t m ∧
      (t 1).state = .unused ∧ m 0 = 9 := by
  have found : waitScan (oneZombie 0 1) 0 = .zombie 1 := by decide +kernel
  have report : PointerCall.wait2.result (oneZombie 0 1) 0 4096 (fun _ => 0) = .returns 2
      (Function.update (oneZombie 0 1) 1 (oneZombie 0 1 1).reap)
      (Memory.storeBytes (fun _ => 0) [(0, -9), (0, 9)]) := by
    simp only [PointerCall.result, sysWait2, wait22, waitReport, found, waitResult]
    rfl
  refine ⟨⟨0, by decide, by decide⟩, ?_, _, _, report, rfl, rfl⟩
  intro rejected
  rw [Rejected, report, CallResult.returns.injEq] at rejected
  exact absurd rejected.1 (by decide)

end Xv6
