import Xv6.Lib.Runs
import Xv6.Lib.Tally
import Xv6.Log.Commit

/-! Group commit: any number of threads inside begin_op(), log_write() and
end_op(). A section under `log.lock` is one step; log_write() makes its two
checks before it takes the lock, and commit() runs without it. -/

namespace Xv6.Log
open Lib

/-- Where a thread is. -/
inductive Thread where
  | idle
  /-- At the top of the loop of begin_op(). -/
  | begin
  /-- In sleep(&log, &log.lock) of begin_op(). -/
  | asleep
  | inOp
  /-- In log_write(), past its checks. -/
  | logWrite (b : UInt32)
  /-- In end_op(), about to call commit(). -/
  | committing
  /-- Back from commit(). -/
  | committed
  deriving DecidableEq, Repr

/-- Between the return of begin_op() and end_op(). -/
def Thread.isOpen : Thread → Bool
  | .inOp | .logWrite _ => true
  | _ => false

def Thread.commits : Thread → Bool
  | .committing | .committed => true
  | _ => false

/-- Why the machine stopped. Storing past the end of `lh.block` is not a panic
of the source, but what happens from there on is undefined. -/
inductive Stop where
  | tooBig
  | outsideOfTrans
  | logCommitting
  | overrun
  deriving DecidableEq, Repr

structure State (n : Nat) where
  outstanding : Int
  committing : Bool
  lh : LogHeader
  thread : Fin n → Thread
  device : Device Nat Block
  stopped : Option Stop

inductive Act where
  /-- Call begin_op(). -/
  | beginOp
  /-- One round of its loop. -/
  | enter
  /-- Leave sleep() without a wakeup: kill() makes any sleeper runnable. -/
  | wake
  /-- Call log_write() for block `b`, now with the given contents. -/
  | logWrite (b : UInt32) (data : Block)
  /-- Its part under the lock. -/
  | record
  /-- end_op() up to commit(). -/
  | endOp
  | commit
  /-- end_op() after commit(). -/
  | finish

structure Action (n : Nat) where
  proc : Fin n
  act : Act

/-- Enter `b` into the header, if it is not there. -/
def LogHeader.absorb (lh : LogHeader) (b : UInt32) : Option LogHeader :=
  if b ∈ lh.block then some lh
  else if h : lh.block.length < logSize then some ⟨lh.block ++ [b], by simp only [List.length_append, List.length_singleton]; omega⟩
  else none

variable {n : Nat}

namespace State

def set (s : State n) (p : Fin n) (t : Thread) : State n :=
  { s with thread := Function.update s.thread p t }

def stop (s : State n) (why : Stop) : State n := { s with stopped := some why }

/-- wakeup(&log) -/
def wakeup (s : State n) : State n :=
  { s with thread := fun p => if s.thread p = .asleep then .begin else s.thread p }

/-- One round of the loop of begin_op(). -/
def enter (s : State n) (p : Fin n) : State n :=
  if s.committing then s.set p .asleep
  else if s.lh.block.length + (s.outstanding + 1) * maxOpBlocks > (logSize : Int) then
    -- this op might exhaust log space; wait for commit
    s.set p .asleep
  else { s with outstanding := s.outstanding + 1 }.set p .inOp

variable (sb : Superblock)

/-- log_write() up to the lock. -/
def logWrite (s : State n) (p : Fin n) (b : UInt32) (data : Block) : State n :=
  if s.lh.block.length ≥ logSize ∨ (s.lh.block.length : Int) ≥ sb.nlog - 1 then s.stop .tooBig
  else if s.outstanding < 1 then s.stop .outsideOfTrans
  else { s with
    device := { s.device with cache := Function.update s.device.cache b.toNat data } }.set p
      (.logWrite b)

def record (s : State n) (p : Fin n) (b : UInt32) : State n :=
  match s.lh.absorb b with
  | some lh => { s with lh := lh }.set p .inOp
  | none => s.stop .overrun

def endOp (s : State n) (p : Fin n) : State n :=
  let s := { s with outstanding := s.outstanding - 1 }
  if s.committing then s.stop .logCommitting
  else if s.outstanding = 0 then { s with committing := true }.set p .committing
  else (s.set p .idle).wakeup

def runCommit (s : State n) (p : Fin n) : State n :=
  { s with device := commit sb.logstart s.lh s.device, lh := .empty }.set p .committed

def finish (s : State n) (p : Fin n) : State n :=
  ({ s with committing := false }.set p .idle).wakeup

end State

/-- The thread is where the action takes it from. -/
def Act.ready : Act → Thread → Bool
  | .beginOp, .idle | .enter, .begin | .wake, .asleep | .logWrite _ _, .inOp
  | .record, .logWrite _ | .endOp, .inOp | .commit, .committing | .finish, .committed => true
  | _, _ => false

def Enabled (s : State n) (a : Action n) : Prop :=
  s.stopped = none ∧ a.act.ready (s.thread a.proc) = true

instance (s : State n) (a : Action n) : Decidable (Enabled s a) :=
  inferInstanceAs (Decidable (_ ∧ _))

def perform (sb : Superblock) (s : State n) (a : Action n) : State n :=
  match a.act, s.thread a.proc with
  | .beginOp, _ | .wake, _ => s.set a.proc .begin
  | .enter, _ => s.enter a.proc
  | .logWrite b data, _ => s.logWrite sb a.proc b data
  | .record, .logWrite b => s.record a.proc b
  | .record, _ => s
  | .endOp, _ => s.endOp a.proc
  | .commit, _ => s.runCommit sb a.proc
  | .finish, _ => s.finish a.proc

/-- The log of the disk `sb` describes, used by `n` threads. -/
def log (sb : Superblock) (n : Nat) : System (State n) (Action n) := ⟨Enabled, perform sb⟩

instance (sb : Superblock) (s : State n) (a : Action n) : Decidable ((log sb n).Enabled s a) :=
  inferInstanceAs (Decidable (Enabled s a))

/-- As initlog() leaves it: recovery has emptied the log. -/
def init (n : Nat) (d : Disk) : State n where
  outstanding := 0
  committing := false
  lh := .empty
  thread := fun _ => .idle
  device := ⟨d, []⟩
  stopped := none

/-! ## What a step does -/

/-- The steps, each with what it needs and what it leaves behind. -/
inductive Step (sb : Superblock) (s : State n) (p : Fin n) : Act → State n → Prop where
  | beginOp (here : s.thread p = .idle) : Step sb s p .beginOp (s.set p .begin)
  | wake (here : s.thread p = .asleep) : Step sb s p .wake (s.set p .begin)
  | sleep (here : s.thread p = .begin)
      (full : s.committing = true ∨
        s.lh.block.length + (s.outstanding + 1) * maxOpBlocks > (logSize : Int)) :
      Step sb s p .enter (s.set p .asleep)
  | opens (here : s.thread p = .begin) (calm : s.committing = false)
      (room : s.lh.block.length + (s.outstanding + 1) * maxOpBlocks ≤ (logSize : Int)) :
      Step sb s p .enter ({ s with outstanding := s.outstanding + 1 }.set p .inOp)
  | tooBig (b : UInt32) (data : Block) (here : s.thread p = .inOp)
      (full : s.lh.block.length ≥ logSize ∨ (s.lh.block.length : Int) ≥ sb.nlog - 1) :
      Step sb s p (.logWrite b data) (s.stop .tooBig)
  | outsideOfTrans (b : UInt32) (data : Block) (here : s.thread p = .inOp)
      (room : s.lh.block.length < logSize ∧ (s.lh.block.length : Int) < sb.nlog - 1)
      (none : s.outstanding < 1) : Step sb s p (.logWrite b data) (s.stop .outsideOfTrans)
  | logWrite (b : UInt32) (data : Block) (here : s.thread p = .inOp)
      (room : s.lh.block.length < logSize ∧ (s.lh.block.length : Int) < sb.nlog - 1)
      {device : Device Nat Block} (unwritten : device.writes = s.device.writes) :
      Step sb s p (.logWrite b data) ({ s with device := device }.set p (.logWrite b))
  | record {b : UInt32} {lh : LogHeader} (here : s.thread p = .logWrite b)
      (absorb : s.lh.absorb b = some lh) : Step sb s p .record ({ s with lh := lh }.set p .inOp)
  | overrun {b : UInt32} (here : s.thread p = .logWrite b) (absorb : s.lh.absorb b = none) :
      Step sb s p .record (s.stop .overrun)
  | logCommitting (here : s.thread p = .inOp) (busy : s.committing = true) :
      Step sb s p .endOp ({ s with outstanding := s.outstanding - 1 }.stop .logCommitting)
  | endLast (here : s.thread p = .inOp) (calm : s.committing = false) (last : s.outstanding = 1) :
      Step sb s p .endOp ({ s with outstanding := 0, committing := true }.set p .committing)
  | endOther (here : s.thread p = .inOp) (calm : s.committing = false) (other : s.outstanding ≠ 1) :
      Step sb s p .endOp ({ s with outstanding := s.outstanding - 1 }.set p .idle).wakeup
  | commit (here : s.thread p = .committing) :
      Step sb s p .commit
        ({ s with device := commit sb.logstart s.lh s.device, lh := .empty }.set p .committed)
  | finish (here : s.thread p = .committed) :
      Step sb s p .finish ({ s with committing := false }.set p .idle).wakeup

theorem step_of_enabled (sb : Superblock) {s : State n} {a : Action n} (h : Enabled s a) :
    Step sb s a.proc a.act (perform sb s a) := by
  obtain ⟨p, act⟩ := a
  have ready := h.2
  cases act with
  | beginOp =>
    cases here : s.thread p <;> simp only [here, Act.ready, Bool.false_eq_true] at ready
    exact .beginOp here
  | enter =>
    cases here : s.thread p <;> simp only [here, Act.ready, Bool.false_eq_true] at ready
    simp only [perform, State.enter]
    split
    case isTrue busy => exact .sleep here (.inl busy)
    case isFalse calm =>
      split
      case isTrue full => exact .sleep here (.inr full)
      case isFalse room => exact .opens here (by simpa using calm) (by omega)
  | wake =>
    cases here : s.thread p <;> simp only [here, Act.ready, Bool.false_eq_true] at ready
    exact .wake here
  | logWrite b data =>
    cases here : s.thread p <;> simp only [here, Act.ready, Bool.false_eq_true] at ready
    simp only [perform, State.logWrite]
    split
    case isTrue full => exact .tooBig b data here full
    case isFalse room =>
      split
      case isTrue none => exact .outsideOfTrans b data here (by omega) none
      case isFalse => exact .logWrite b data here (by omega) rfl
  | record =>
    cases here : s.thread p <;> simp only [here, Act.ready, Bool.false_eq_true] at ready
    simp only [perform, here, State.record]
    split
    case h_1 lh absorb => exact .record here absorb
    case h_2 absorb => exact .overrun here absorb
  | endOp =>
    cases here : s.thread p <;> simp only [here, Act.ready, Bool.false_eq_true] at ready
    simp only [perform, State.endOp]
    split
    case isTrue busy => exact .logCommitting here busy
    case isFalse calm =>
      split
      case isTrue last =>
        rw [last]
        exact .endLast here (by simpa using calm) (by omega)
      case isFalse other => exact .endOther here (by simpa using calm) (by omega)
  | commit =>
    cases here : s.thread p <;> simp only [here, Act.ready, Bool.false_eq_true] at ready
    exact .commit here
  | finish =>
    cases here : s.thread p <;> simp only [here, Act.ready, Bool.false_eq_true] at ready
    exact .finish here

/-! ## Counting the operations -/

namespace State

@[simp] theorem set_self (s : State n) (p : Fin n) (t : Thread) : (s.set p t).thread p = t := by
  simp [set]

theorem set_of_ne (s : State n) {p q : Fin n} (h : q ≠ p) (t : Thread) :
    (s.set p t).thread q = s.thread q := by
  simp [set, h]

/-- How many threads are inside an operation. -/
def operations (s : State n) : Nat :=
  tally (fun _ t => if t.isOpen then 1 else 0) s.thread

theorem operations_set (s : State n) (p : Fin n) (t : Thread) :
    (s.set p t).operations + (if (s.thread p).isOpen then 1 else 0) =
      s.operations + (if t.isOpen then 1 else 0) := tally_update _ s.thread p t

theorem wakeup_thread (s : State n) (p : Fin n) :
    s.wakeup.thread p = if s.thread p = .asleep then .begin else s.thread p := rfl

theorem operations_wakeup (s : State n) : s.wakeup.operations = s.operations := by
  apply tally_congr
  intro p
  rw [wakeup_thread]
  split
  case isTrue asleep => simp [asleep, Thread.isOpen]
  case isFalse => rfl

theorem operations_eq_zero {s : State n} :
    s.operations = 0 ↔ ∀ p, (s.thread p).isOpen = false := by
  simp [operations, tally_eq_zero]

theorem operations_pos {s : State n} {p : Fin n} (h : (s.thread p).isOpen = true) :
    1 ≤ s.operations := by
  by_contra none
  have closed := operations_eq_zero.mp (by omega : s.operations = 0) p
  simp [h] at closed

end State

/-- Who may be where, and what the counter, the flag and the header then are. -/
structure Grouped (s : State n) : Prop where
  count : s.outstanding = s.operations
  quiet : s.committing = true → s.operations = 0
  committer : ∀ p, (s.thread p).commits = true →
    s.committing = true ∧ ∀ q, (s.thread q).commits = true → q = p
  flushed : ∀ p, s.thread p = .committed → s.lh = .empty
  empty : s.operations = 0 → s.committing = false → s.lh = .empty
  sleeper : ∀ p, s.thread p = .asleep → s.committing = true ∨ 1 ≤ s.operations
  calm : s.stopped ≠ some .logCommitting

namespace Grouped
variable {s : State n} {p : Fin n}

theorem stop (inv : Grouped s) {why : Stop} (h : why ≠ .logCommitting) : Grouped (s.stop why) :=
  ⟨inv.count, inv.quiet, inv.committer, inv.flushed, inv.empty, inv.sleeper, by simpa [State.stop]⟩

theorem not_committing (inv : Grouped s) (here : (s.thread p).isOpen = true) :
    s.committing = false := by
  cases busy : s.committing with
  | false => rfl
  | true =>
    have closed := State.operations_eq_zero.mp (inv.quiet busy) p
    simp [here] at closed

theorem nobody_commits (inv : Grouped s) (calm : s.committing = false) (q : Fin n) :
    (s.thread q).commits = false := by
  cases h : (s.thread q).commits with
  | false => rfl
  | true =>
    have busy := (inv.committer q h).1
    simp [calm] at busy

/-- Between operations a thread may go to sleep if there is someone to wake it. -/
theorem outside (inv : Grouped s) {t : Thread} (before : (s.thread p).isOpen = false)
    (closed : t.isOpen = false) (after : t.commits = false)
    (sleep : t = .asleep → s.committing = true ∨ 1 ≤ s.operations) :
    Grouped (s.set p t) := by
  have same : (s.set p t).operations = s.operations := by
    have := s.operations_set p t
    simpa [before, closed] using this
  have committing (q : Fin n) (h : ((s.set p t).thread q).commits = true) :
      (s.thread q).commits = true := by
    by_cases here : q = p
    · subst here; simp [after] at h
    · rwa [s.set_of_ne here] at h
  constructor
  case count => rw [same]; exact inv.count
  case quiet => rw [same]; exact inv.quiet
  case committer =>
    intro q h
    obtain ⟨busy, unique⟩ := inv.committer q (committing q h)
    exact ⟨busy, fun r hr => unique r (committing r hr)⟩
  case flushed =>
    intro q h
    by_cases here : q = p
    · subst here
      rw [State.set_self] at h
      simp [h, Thread.commits] at after
    · rw [s.set_of_ne here] at h
      exact inv.flushed q h
  case empty => rw [same]; exact inv.empty
  case sleeper =>
    intro q h
    rw [same]
    by_cases here : q = p
    · subst here
      exact sleep (by simpa using h)
    · rw [s.set_of_ne here] at h
      exact inv.sleeper q h
  case calm => exact inv.calm

/-- A thread that enters or continues an operation. -/
theorem inside (inv : Grouped s) {s' : State n} {t : Thread} (opened : t.isOpen = true)
    (calm : s.committing = false) (threads : s'.thread = (s.set p t).thread)
    (count : s'.outstanding = s'.operations) (flag : s'.committing = s.committing)
    (running : s'.stopped = s.stopped) : Grouped s' := by
  have here : s'.thread p = t := by simp [threads]
  have some : 1 ≤ s'.operations := State.operations_pos (p := p) (by rw [here, opened])
  have nobody (q : Fin n) : (s'.thread q).commits = false := by
    by_cases eq : q = p
    · subst eq
      rw [here]
      cases t <;> simp_all [Thread.isOpen, Thread.commits]
    · rw [threads, s.set_of_ne eq]
      exact inv.nobody_commits calm q
  constructor
  case count => exact count
  case quiet => intro busy; simp [flag, calm] at busy
  case committer => intro q h; simp [nobody q] at h
  case flushed =>
    intro q h
    have := nobody q
    simp [h, Thread.commits] at this
  case empty => intro none; omega
  case sleeper => intro q _; exact .inr some
  case calm => rw [running]; exact inv.calm

/-- After wakeup(&log), with no commit going on. -/
theorem woken {s' : State n} (count : s'.outstanding = s'.operations)
    (flag : s'.committing = false) (nobody : ∀ q, (s'.thread q).commits = false)
    (empty : s'.operations = 0 → s'.lh = .empty) (calm : s'.stopped ≠ some .logCommitting) :
    Grouped s'.wakeup := by
  have quiet (q : Fin n) : s'.wakeup.thread q ≠ .asleep ∧
      (s'.wakeup.thread q).commits = false := by
    rw [State.wakeup_thread]
    split
    case isTrue => simp [Thread.commits]
    case isFalse awake => exact ⟨awake, nobody q⟩
  constructor
  case count => rw [State.operations_wakeup]; exact count
  case quiet => intro busy; simp [State.wakeup, flag] at busy
  case committer => intro q h; simp [(quiet q).2] at h
  case flushed =>
    intro q h
    have := (quiet q).2
    simp [h, Thread.commits] at this
  case empty => rw [State.operations_wakeup]; intro none _; exact empty none
  case sleeper => intro q h; exact absurd h (quiet q).1
  case calm => exact calm

end Grouped

theorem step_grouped {sb : Superblock} {s s' : State n} {p : Fin n} {act : Act}
    (step : Step sb s p act s') (inv : Grouped s) : Grouped s' := by
  have count := inv.count
  cases step with
  | beginOp here | wake here =>
    exact inv.outside (by simp [here, Thread.isOpen]) rfl rfl (by simp)
  | sleep here full =>
    apply inv.outside (by simp [here, Thread.isOpen]) rfl rfl
    intro _
    cases busy : s.committing with
    | true => exact .inl rfl
    | false =>
      -- with no operation going on the log is empty and there is room
      right
      by_contra none
      have zero : s.operations = 0 := by omega
      have lh := inv.empty zero busy
      simp [busy, lh, LogHeader.empty, count, zero, maxOpBlocks, logSize] at full
  | opens here calm room =>
    have more := s.operations_set p .inOp
    apply inv.inside (p := p) (t := .inOp) rfl calm
    case threads | flag | running => rfl
    case count =>
      change s.outstanding + 1 = ((s.set p .inOp).operations : Int)
      simp only [here, Thread.isOpen, Bool.false_eq_true, ↓reduceIte] at more
      omega
  | tooBig | outsideOfTrans | overrun => exact inv.stop (by simp)
  | logWrite b data here room =>
    have calm := inv.not_committing (p := p) (by simp [here, Thread.isOpen])
    have same := s.operations_set p (.logWrite b)
    apply inv.inside (p := p) (t := .logWrite b) rfl calm
    case threads | flag | running => rfl
    case count =>
      change s.outstanding = ((s.set p (.logWrite b)).operations : Int)
      simp only [here, Thread.isOpen, ↓reduceIte] at same
      omega
  | @record b lh here absorb =>
    have calm := inv.not_committing (p := p) (by simp [here, Thread.isOpen])
    have same := s.operations_set p .inOp
    apply inv.inside (p := p) (t := .inOp) rfl calm
    case threads | flag | running => rfl
    case count =>
      change s.outstanding = ((s.set p .inOp).operations : Int)
      simp only [here, Thread.isOpen, ↓reduceIte] at same
      omega
  | logCommitting here busy =>
    have calm := inv.not_committing (p := p) (by simp [here, Thread.isOpen])
    simp [calm] at busy
  | endLast here calm last =>
    have fewer := s.operations_set p .committing
    simp only [here, Thread.isOpen, Bool.false_eq_true, ↓reduceIte] at fewer
    have zero : (s.set p .committing).operations = 0 := by omega
    have only (q : Fin n) (h : ((s.set p .committing).thread q).commits = true) : q = p := by
      by_contra other
      rw [s.set_of_ne other, inv.nobody_commits calm q] at h
      cases h
    constructor
    case count => exact congrArg Nat.cast zero.symm
    case quiet => exact fun _ => zero
    case committer =>
      intro q h
      exact ⟨rfl, fun r hr => (only r hr).trans (only q h).symm⟩
    case flushed =>
      intro q h
      change (s.set p .committing).thread q = .committed at h
      have eq := only q (by rw [h]; rfl)
      subst eq
      cases (s.set_self q .committing).symm.trans h
    case empty => intro _ idle; cases idle
    case sleeper => exact fun _ _ => .inl rfl
    case calm => exact inv.calm
  | endOther here calm other =>
    have fewer := s.operations_set p .idle
    simp only [here, Thread.isOpen, Bool.false_eq_true, ↓reduceIte] at fewer
    apply Grouped.woken
    case count =>
      change s.outstanding - 1 = ((s.set p .idle).operations : Int)
      omega
    case flag => exact calm
    case nobody =>
      intro q
      change ((s.set p .idle).thread q).commits = false
      by_cases eq : q = p
      · subst eq; simp [Thread.commits]
      · rw [s.set_of_ne eq]; exact inv.nobody_commits calm q
    case empty =>
      intro zero
      change (s.set p .idle).operations = 0 at zero
      omega
    case calm => exact inv.calm
  | commit here =>
    have same := s.operations_set p .committed
    simp only [here, Thread.isOpen, Bool.false_eq_true, ↓reduceIte, Nat.add_zero] at same
    obtain ⟨busy, unique⟩ := inv.committer p (by rw [here]; rfl)
    have only (q : Fin n) (h : ((s.set p .committed).thread q).commits = true) : q = p := by
      by_contra other
      rw [s.set_of_ne other] at h
      exact other (unique q h)
    constructor
    case count => exact count.trans (congrArg Nat.cast same.symm)
    case quiet => exact fun _ => same.trans (inv.quiet busy)
    case committer =>
      intro q h
      exact ⟨busy, fun r hr => (only r hr).trans (only q h).symm⟩
    case flushed => exact fun _ _ => rfl
    case empty => exact fun _ _ => rfl
    case sleeper => exact fun _ _ => .inl busy
    case calm => exact inv.calm
  | finish here =>
    have same := s.operations_set p .idle
    simp only [here, Thread.isOpen, Bool.false_eq_true, ↓reduceIte, Nat.add_zero] at same
    obtain ⟨_, unique⟩ := inv.committer p (by rw [here]; rfl)
    apply Grouped.woken
    case count => exact count.trans (congrArg Nat.cast same.symm)
    case flag => rfl
    case nobody =>
      intro q
      change ((s.set p .idle).thread q).commits = false
      by_cases eq : q = p
      · subst eq; simp [Thread.commits]
      · rw [s.set_of_ne eq]
        cases h : (s.thread q).commits with
        | false => rfl
        | true => exact absurd (unique q h) eq
    case empty => exact fun _ => inv.flushed p here
    case calm => exact inv.calm

theorem init_grouped (n : Nat) (d : Disk) : Grouped (init n d) := by
  have zero : (init n d).operations = 0 := State.operations_eq_zero.mpr fun _ => rfl
  constructor
  case count => exact congrArg Nat.cast zero.symm
  case empty => exact fun _ _ => rfl
  case calm => simp [init]
  all_goals simp [init, Thread.commits]

end Xv6.Log
