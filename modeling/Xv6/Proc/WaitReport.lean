import Xv6.Proc.MultiLevel
import Xv6.Lib.Memory

/-! What wait2() and wait3() leave in the caller's variables. The variables are
`int`s in user memory; the kernel stores to them through `char *`. -/

namespace Xv6
open Kernel Lib
variable {n : Nat} {strategy : Nat}

/-! ## System call arguments -/

/-- fetchint(), for a process of size `sz`. -/
def fetchint (sz : UInt32) (m : Memory) (addr : UInt32) : Option UInt32 :=
  if sz ≤ addr ∨ sz < addr + 4 then none else some (m.word addr)

def argint (sz esp : UInt32) (m : Memory) (i : UInt32) : Option UInt32 :=
  fetchint sz m (esp + 4 + 4 * i)

def argptr (sz esp : UInt32) (m : Memory) (i size : UInt32) : Option UInt32 :=
  (argint sz esp m i).bind fun p => if sz ≤ p ∨ sz < p + size then none else some p

/-! ## The wait calls -/

/-- A scan that finds a ZOMBIE child: its pid is returned, its slot freed and
its values stored, in order, through the pointers. -/
def waitReport (values : Proc → List UInt32) (ptrs : List UInt32) (t : Table) (me : Slot)
    (m : Memory) : Option (Int32 × Table × Memory) :=
  match waitScan t me with
  | .zombie child =>
    some ((t child).pid, Function.update t child (t child).reap,
      m.storeBytes (ptrs.zip (values (t child))))
  | .giveUp | .block => none

def wait22 (wtime rtime : UInt32) : Table → Slot → Memory → Option (Int32 × Table × Memory) :=
  waitReport (fun p => [p.etime - p.ctime - p.rtime, p.rtime]) [wtime, rtime]

def wait33 (wtime rtime cid q3rtime q3tatime q2rtime q2tatime : UInt32) :
    Table → Slot → Memory → Option (Int32 × Table × Memory) :=
  waitReport
    (fun p => [p.etime - p.ctime - p.rtime, p.rtime, p.cid.toUInt32,
      p.q3rtime, p.q3tatime, p.q2rtime, p.q2tatime])
    [wtime, rtime, cid, q3rtime, q3tatime, q2rtime, q2tatime]

/-- A pointer argument of a wait call. The result of argptr() is not looked at:
if it fails, the pointer stays null. -/
def waitArg (t : Table) (me : Slot) (esp : UInt32) (m : Memory) (i : UInt32) : UInt32 :=
  (argptr (t me).sz esp m i 4).getD 0

def sysWait2 (t : Table) (me : Slot) (esp : UInt32) (m : Memory) :
    Option (Int32 × Table × Memory) :=
  let arg := waitArg t me esp m
  wait22 (arg 0) (arg 1) t me m

def sysWait3 (t : Table) (me : Slot) (esp : UInt32) (m : Memory) :
    Option (Int32 × Table × Memory) :=
  let arg := waitArg t me esp m
  wait33 (arg 0) (arg 1) (arg 2) (arg 3) (arg 4) (arg 5) (arg 6) t me m

/-! ## Leaving a queue -/

/-- One step of the record of the queues each process has left by nice(); a
slot that is UNUSED starts over. -/
def noteLeft (k : Kernel n) (a : Action n) (left : Slot → Int32 → Bool) : Slot → Int32 → Bool :=
  fun p level =>
    if (k.ptable p).state = .unused then false
    else left p level || decide (a.act = .nice ∧ (k.cpus a.cpu).proc = some p ∧
      (k.ptable p).queuelevel = level ∧ 1 < level)

/-- The queues the process in each slot has left by nice() in a run from boot. -/
def hasLeft (strategy : Nat) (as : List (Action n)) : Slot → Int32 → Bool :=
  (kernel strategy n).track noteLeft (boot n) as fun _ _ => false

theorem Proc.nice_queuelevel (p : Proc) (ticks : UInt32) :
    (p.nice ticks).queuelevel = if 1 < p.queuelevel then p.queuelevel - 1 else p.queuelevel := by
  unfold Proc.nice
  grind

theorem Move.queuelevel_of {k : Kernel n} {a : Action n} {i : Slot} {v : Proc}
    (h : Move strategy k a i v) (other : ¬ (a.act = .nice ∧ (k.cpus a.cpu).proc = some i))
    (used : v.state ≠ .unused) :
    (k.ptable i).state ≠ .unused ∧ v.queuelevel = (k.ptable i).queuelevel ∨
    (k.ptable i).state = .unused ∧ v.queuelevel = 3 := by
  cases h with
  | passive h =>
    have queue := h.queue
    exact .inl ⟨by grind, by rw [h.fixed]⟩
  | alloc act unused => exact .inr ⟨unused, rfl⟩
  | nice act runs => exact absurd ⟨act, runs⟩ other
  | reap => simp [Proc.reap] at used
  | abandon => simp at used
  | dispatch act event runnable => exact .inl ⟨by simp [runnable], rfl⟩
  | link _ _ _ _ embryo | publish _ _ _ _ embryo => exact .inl ⟨by simp [embryo], rfl⟩
  | charge _ _ running | yield _ _ running | sleep _ _ running | clear _ _ running
  | setcid _ _ running | exec _ _ running | exit _ _ running =>
    exact .inl ⟨by simp [running], rfl⟩

theorem step_nice {k k' : Kernel n} {a : Action n} (step : Step strategy k a k')
    (act : a.act = .nice) {p : Slot} (proc : (k.cpus a.cpu).proc = some p) :
    k'.ptable p = (k.ptable p).nice k.ticks := by
  cases step with
  | @nice c q runs =>
    obtain rfl : p = q := Option.some.inj (proc.symm.trans runs.2.2)
    simp [setProc]
  | _ => simp at act

/-- The level of a process says which queues it has left. -/
def LevelTells (left : Int32 → Bool) (level : Int32) : Prop :=
  (left 3 = true ↔ level ≠ 3) ∧ (left 2 = true ↔ level = 1)

/-- A process in use has left the queues above its level, and no others. -/
theorem hasLeft_tells {as : List (Action n)} (legal : (kernel strategy n).Legal (boot n) as)
    (p : Slot) (used : (((kernel strategy n).after (boot n) as).ptable p).state ≠ .unused) :
    LevelTells (hasLeft strategy as p)
      (((kernel strategy n).after (boot n) as).ptable p).queuelevel := by
  have both := (kernel strategy n).track_invariant (f := noteLeft)
    (I := fun k left => Reachable strategy n k ∧ ∀ p, (k.ptable p).state ≠ .unused →
      LevelTells (left p) (k.ptable p).queuelevel)
    ?step legal (h := fun _ _ => false) ⟨.start, ?boot⟩
  case boot =>
    intro p used
    rw [boot_slot] at used ⊢
    split
    · exact ⟨by decide, by decide⟩
    · rename_i other
      simp [other, Proc.zero] at used
  case step =>
    rintro k a left enabled ⟨reachable, tells⟩
    have base := reachable_base reachable
    have step := base.step strategy enabled
    refine ⟨.next reachable enabled, fun p used => ?_⟩
    simp only [kernel_perform] at used ⊢
    by_cases own : a.act = .nice ∧ (k.cpus a.cpu).proc = some p
    · obtain ⟨act, proc⟩ := own
      have moved := step_nice step act proc
      have old : (k.ptable p).state ≠ .unused := by simpa [moved] using used
      have noted : ∀ level, noteLeft k a left p level =
          (left p level || decide ((k.ptable p).queuelevel = level ∧ 1 < level)) := by
        simp [noteLeft, old, act, proc]
      have before := tells p old
      rw [moved, Proc.nice_queuelevel]
      unfold LevelTells at before ⊢
      rw [noted, noted]
      obtain level | level | level := reachable_leveled reachable p old <;>
        simp_all
    · have same : ∀ level, noteLeft k a left p level =
          if (k.ptable p).state = .unused then false else left p level := by
        intro level
        unfold noteLeft
        grind
      obtain ⟨old, level⟩ | ⟨unused, level⟩ := (move_of_step base step p).queuelevel_of own used
      · simpa [LevelTells, same, old, level] using tells p old
      · simp [LevelTells, same, unused, level]
  exact both.2 p used

/-! ## What the caller reads -/

/-- The addresses `x i` of the caller's variables are the pointer arguments the
kernel accepts, and the variables do not overlap. -/
def Passed (t : Table) (me : Slot) (esp : UInt32) (m : Memory) (x : UInt32 → UInt32)
    (args : List UInt32) : Prop :=
  (∀ i ∈ args, argptr (t me).sz esp m i 4 = some (x i)) ∧ (args.map x).Pairwise Memory.Apart

/-- wait2() has told the caller the times of the child `p`. -/
structure Told2 (p : Proc) (m : Memory) (x : UInt32 → UInt32) : Prop where
  wtime : m.word (x 0) = p.etime - p.ctime - p.rtime
  rtime : m.word (x 1) = p.rtime
  turnaround : m.word (x 0) + m.word (x 1) = p.etime - p.ctime

/-- wait3() has told the caller the times, the cid and the queue times of the
child `p`, and a queue time is the sentinel only for a queue it has not left. -/
structure Told3 (p : Proc) (left : Int32 → Bool) (m : Memory) (x : UInt32 → UInt32) : Prop
    extends Told2 p m x where
  cid : m.word (x 2) = p.cid.toUInt32
  q3rtime : m.word (x 3) = p.q3rtime
  q3tatime : m.word (x 4) = p.q3tatime
  q2rtime : m.word (x 5) = p.q2rtime
  q2tatime : m.word (x 6) = p.q2tatime
  stayed3 : m.word (x 3) = -1 ∨ m.word (x 4) = -1 → left 3 = false
  stayed2 : m.word (x 5) = -1 ∨ m.word (x 6) = -1 → left 2 = false

/-- The upper three bytes of the variable are already those of the value. -/
def Fits (m : Memory) (a v : UInt32) : Prop := m.word a / 256 = v / 256

def Fits2 (p : Proc) (m : Memory) (x : UInt32 → UInt32) : Prop :=
  Fits m (x 0) (p.etime - p.ctime - p.rtime) ∧ Fits m (x 1) p.rtime

/-- Below a queue, the times measured in leaving it differ from the sentinel. -/
def Measured (p : Proc) : Prop :=
  (p.queuelevel ≠ 3 → p.q3rtime ≠ -1 ∧ p.q3tatime ≠ -1) ∧
  (p.queuelevel = 1 → p.q2rtime ≠ -1 ∧ p.q2tatime ≠ -1)

def Fits3 (p : Proc) (m : Memory) (x : UInt32 → UInt32) : Prop :=
  Fits2 p m x ∧ Fits m (x 2) p.cid.toUInt32 ∧ Fits m (x 3) p.q3rtime ∧ Fits m (x 4) p.q3tatime ∧
    Fits m (x 5) p.q2rtime ∧ Fits m (x 6) p.q2tatime

theorem waitArg_of_passed {t : Table} {me : Slot} {esp : UInt32} {m : Memory}
    {x : UInt32 → UInt32} {args : List UInt32} (h : Passed t me esp m x args) {i : UInt32}
    (mem : i ∈ args) : waitArg t me esp m i = x i := by
  simp [waitArg, h.1 i mem]

/-- wait2() on any table with a ZOMBIE child to reap. -/
theorem told2_iff {t : Table} {me child : Slot} (found : waitScan t me = .zombie child)
    {esp : UInt32} {m : Memory} {x : UInt32 → UInt32} (h : Passed t me esp m x [0, 1]) :
    ∃ m', sysWait2 t me esp m =
        some ((t child).pid, Function.update t child (t child).reap, m') ∧
      (Told2 (t child) m' x ↔ Fits2 (t child) m x) := by
  have arg {i : UInt32} (mem : i ∈ [0, 1]) := waitArg_of_passed h mem
  let p := t child
  let stores := [(x 0, p.etime - p.ctime - p.rtime), (x 1, p.rtime)]
  have words := Memory.words_storeBytes_iff stores
    (List.pairwise_map.mp (by simpa [stores] using h.2)) m
  refine ⟨m.storeBytes stores, ?_, ?_⟩
  · simp [sysWait2, wait22, waitReport, found, arg, stores, p]
  · simp only [stores, List.forall_mem_cons, List.not_mem_nil, false_imp_iff, implies_true,
      and_true] at words
    constructor
    · exact fun told => words.mp ⟨told.wtime, told.rtime⟩
    · intro fits
      obtain ⟨wtime, rtime⟩ := words.mpr fits
      exact ⟨wtime, rtime, by rw [wtime, rtime]; grind⟩

/-- wait3() on any table with a ZOMBIE child to reap. -/
theorem told3_iff {t : Table} {me child : Slot} (found : waitScan t me = .zombie child)
    {esp : UInt32} {m : Memory} {x : UInt32 → UInt32} {left : Int32 → Bool}
    (tells : LevelTells left (t child).queuelevel)
    (h : Passed t me esp m x [0, 1, 2, 3, 4, 5, 6]) :
    ∃ m', sysWait3 t me esp m =
        some ((t child).pid, Function.update t child (t child).reap, m') ∧
      (Told3 (t child) left m' x ↔ Fits3 (t child) m x ∧ Measured (t child)) := by
  have arg {i : UInt32} (mem : i ∈ [0, 1, 2, 3, 4, 5, 6]) := waitArg_of_passed h mem
  obtain ⟨tells3, tells2⟩ := tells
  let p := t child
  let stores := [(x 0, p.etime - p.ctime - p.rtime), (x 1, p.rtime), (x 2, p.cid.toUInt32),
    (x 3, p.q3rtime), (x 4, p.q3tatime), (x 5, p.q2rtime), (x 6, p.q2tatime)]
  have words := Memory.words_storeBytes_iff stores
    (List.pairwise_map.mp (by simpa [stores] using h.2)) m
  refine ⟨m.storeBytes stores, ?_, ?_⟩
  · simp [sysWait3, wait33, waitReport, found, arg, stores, p]
  · simp only [stores, List.forall_mem_cons, List.not_mem_nil, false_imp_iff, implies_true,
      and_true] at words
    constructor
    · intro told
      have fits := words.mp ⟨told.wtime, told.rtime, told.cid, told.q3rtime, told.q3tatime,
        told.q2rtime, told.q2tatime⟩
      have stayed3 := told.stayed3
      have stayed2 := told.stayed2
      rw [told.q3rtime, told.q3tatime] at stayed3
      rw [told.q2rtime, told.q2tatime] at stayed2
      refine ⟨⟨⟨fits.1, fits.2.1⟩, fits.2.2⟩, ?_, ?_⟩ <;> grind
    · rintro ⟨⟨fits, rest⟩, measured3, measured2⟩
      obtain ⟨wtime, rtime, cid, q3rtime, q3tatime, q2rtime, q2tatime⟩ :=
        words.mpr ⟨fits.1, fits.2, rest⟩
      refine ⟨⟨wtime, rtime, by rw [wtime, rtime]; grind⟩, cid, q3rtime, q3tatime, q2rtime,
        q2tatime, ?_, ?_⟩
      · rw [q3rtime, q3tatime]; grind
      · rw [q2rtime, q2tatime]; grind

/-- For every child that became a ZOMBIE in a run and every state of the
caller's memory: after wait2() or wait3() has returned its pid the caller's
variables hold what the kernel measured if and only if their upper three bytes
already were those of the values, and, for wait3(), no time measured in leaving
a queue equals the sentinel. -/
theorem caller_told_iff {as : List (Action n)} (legal : (kernel strategy n).Legal (boot n) as)
    {me child : Slot}
    (found : waitScan ((kernel strategy n).after (boot n) as).ptable me = .zombie child)
    (esp : UInt32) (m : Memory) (x : UInt32 → UInt32) :
    let t := ((kernel strategy n).after (boot n) as).ptable
    (Passed t me esp m x [0, 1] →
      ∃ m', sysWait2 t me esp m =
          some ((t child).pid, Function.update t child (t child).reap, m') ∧
        (Told2 (t child) m' x ↔ Fits2 (t child) m x)) ∧
    (Passed t me esp m x [0, 1, 2, 3, 4, 5, 6] →
      ∃ m', sysWait3 t me esp m =
          some ((t child).pid, Function.update t child (t child).reap, m') ∧
        (Told3 (t child) (hasLeft strategy as child) m' x ↔
          Fits3 (t child) m x ∧ Measured (t child))) := by
  intro t
  have used : (t child).state ≠ .unused := by simp [t, (waitScan_zombie found).2]
  exact ⟨told2_iff found, told3_iff found (hasLeft_tells legal child used)⟩

section
variable (t : Table) (me : Slot) (esp : UInt32) (m : Memory) (x : UInt32 → UInt32) (p : Proc)

instance (args : List UInt32) : Decidable (Passed t me esp m x args) :=
  @instDecidableAnd _ _ (List.decidableBAll _ args) inferInstance

instance (a v : UInt32) : Decidable (Fits m a v) := inferInstanceAs (Decidable (_ = _))

instance : Decidable (Fits2 p m x) := inferInstanceAs (Decidable (_ ∧ _))

instance : Decidable (Fits3 p m x) := inferInstanceAs (Decidable (_ ∧ _))

instance : Decidable (Measured p) := inferInstanceAs (Decidable (_ ∧ _))

end

/-- init forks a child that sets its cid and exits; init is back in wait3(). -/
def childExits (cid : Int32) : List (Action 1) :=
  onCpu ⟨0, Nat.one_pos⟩ [.pass, .resume, .fork, .forkStack true, .forkCopy true, .forkReady,
    .wait .wait33, .back, .resume, .setcid cid, .exitBegin true, .exit, .back, .pass]

/-- Memory that is zero but for seven arguments, from address 104 on: the
addresses 200, 204, .., 224 of as many variables. -/
def clearVariables : Memory := fun a =>
  if a ∈ [104, 108, 112, 116, 120, 124, 128] then a.toUInt8 + 96 else 0

def variableAt (i : UInt32) : UInt32 := 200 + 4 * i

/-- Times below 256 reach variables that were zero. -/
theorem told_small_times :
    let t := ((kernel 1 1).after (boot 1) (childExits 7)).ptable
    ∃ m', (∃ t', sysWait2 t 0 100 clearVariables = some (2, t', m')) ∧ Told2 (t 1) m' variableAt := by
  intro t
  have legal : (kernel 1 1).Legal (boot 1) (childExits 7) := by decide +kernel
  have found : waitScan t 0 = .zombie 1 := by decide +kernel
  obtain ⟨m', returns, told⟩ :=
    (caller_told_iff legal found 100 clearVariables variableAt).1 (by decide +kernel)
  have pid : (t 1).pid = 2 := by decide +kernel
  exact ⟨m', ⟨_, pid ▸ returns⟩, told.mpr (by decide +kernel)⟩

/-- wait3() returns the pid of a child whose cid is 300 and that never left
queue 3; in variables that were zero the caller reads cid 44 and turnaround time
255. -/
theorem cid_truncated :
    let t := ((kernel 1 1).after (boot 1) (childExits 300)).ptable
    (kernel 1 1).Legal (boot 1) (childExits 300) ∧ waitScan t 0 = .zombie 1 ∧
      Passed t 0 100 clearVariables variableAt [0, 1, 2, 3, 4, 5, 6] ∧
      (t 1).cid = 300 ∧ (t 1).q3tatime = -1 ∧
      (sysWait3 t 0 100 clearVariables).map (fun (pid, _, m') =>
        (pid, m'.word (variableAt 2), m'.word (variableAt 4))) = some (2, 44, 255) := by
  decide +kernel

end Xv6
