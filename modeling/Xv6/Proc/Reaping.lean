import Xv6.Proc.Family
import Mathlib.Algebra.Group.Nat.Defs

/-! Pids and wait calls. `nextpid` counts up from 1 and is never reset, so pids
stay distinct until the counter has run through all of its values, and a pid
that has been returned by a wait call never comes up again. -/

namespace Xv6
open Kernel Lib
variable {n : Nat} {strategy : Nat}

/-! ## Pids -/

/-- Where a pid comes in the order `nextpid` runs through. -/
def serial (pid : Int32) : Nat := pid.toBitVec.toNat

theorem serial_succ {pid : Int32} (h : serial pid + 1 < 2 ^ 32) :
    serial (pid + 1) = serial pid + 1 := by
  unfold serial at *
  rw [Int32.toBitVec_add, BitVec.toNat_add]
  exact Nat.mod_eq_of_lt (by simpa using h)

theorem pos_of_serial {pid : Int32} (pos : 0 < serial pid) (small : serial pid < 2 ^ 31) :
    0 < pid := by
  unfold serial at *
  rw [Int32.lt_iff_toInt_lt, ← Int32.toInt_toBitVec pid, BitVec.toInt_eq_toNat_of_lt (by omega)]
  simp
  omega

theorem not_pos_of_serial {pid : Int32} (large : 2 ^ 31 ≤ serial pid) : ¬ 0 < pid := by
  unfold serial at large
  have := pid.toBitVec.isLt
  rw [Int32.lt_iff_toInt_lt, ← Int32.toInt_toBitVec pid, BitVec.toInt_eq_toNat_cond,
    if_neg (by omega)]
  simp
  omega

structure Numbered (k : Kernel n) : Prop where
  started : 0 < serial k.nextpid
  issued : ∀ p, (k.ptable p).state ≠ .unused →
    0 < serial (k.ptable p).pid ∧ serial (k.ptable p).pid < serial k.nextpid
  distinct : ∀ p q, (k.ptable p).state ≠ .unused → (k.ptable q).state ≠ .unused →
    (k.ptable p).pid = (k.ptable q).pid → p = q

theorem Move.pid_of {k : Kernel n} {a : Action n} {i : Slot} {v : Proc}
    (h : Move strategy k a i v) (other : a.act ≠ .fork) (used : v.state ≠ .unused) :
    (k.ptable i).state ≠ .unused ∧ v.pid = (k.ptable i).pid := by
  cases h with
  | passive h =>
    have queue := h.queue
    exact ⟨by grind, by rw [h.fixed]⟩
  | alloc act => exact absurd act other
  | reap => simp [Proc.reap] at used
  | abandon => simp at used
  | dispatch act event runnable => exact ⟨by simp [runnable], rfl⟩
  | link _ _ _ _ embryo | publish _ _ _ _ embryo => exact ⟨by simp [embryo], rfl⟩
  | nice act runs running => exact ⟨by simp [running], by unfold Proc.nice; grind⟩
  | charge _ _ running | yield _ _ running | sleep _ _ running | clear _ _ running
  | setcid _ _ running | exec _ _ running | exit _ _ running => exact ⟨by simp [running], rfl⟩

/-- Only fork() numbers a slot. -/
theorem step_pids {k k' : Kernel n} {a : Action n} (base : Base k) (step : Step strategy k a k') :
    (k'.nextpid = k.nextpid ∧ ∀ p, (k'.ptable p).state ≠ .unused →
      (k.ptable p).state ≠ .unused ∧ (k'.ptable p).pid = (k.ptable p).pid) ∨
    (a.act = .fork ∧ k'.nextpid = k.nextpid + 1 ∧ ∃ np, (k'.ptable np).pid = k.nextpid ∧
      (k'.ptable np).state = .embryo ∧ ∀ p, p ≠ np → k'.ptable p = k.ptable p) := by
  have kept (other : a.act ≠ .fork) (p : Slot) := (move_of_step base step p).pid_of other
  cases step with
  | @fork c p np runs task found =>
    refine .inr ⟨rfl, rfl, np, ?_, ?_, fun q other => ?_⟩
    · simp [setTask, setProc, Proc.alloc]
    · simp [setTask, setProc, Proc.alloc]
    · simp [setTask, setProc, other]
  | forkFull => exact .inl ⟨rfl, fun _ used => ⟨used, rfl⟩⟩
  | pass | back =>
    refine .inl ⟨?_, kept (by simp)⟩
    unfold follow
    split <;> rfl
  | resume =>
    refine .inl ⟨?_, kept (by simp)⟩
    unfold Kernel.resume
    split
    · rfl
    · rfl
    · rfl
    · unfold waitLoop; split <;> rfl
  | timer =>
    refine .inl ⟨?_, kept (by simp)⟩
    unfold Kernel.timer
    split <;> rfl
  | wait =>
    refine .inl ⟨?_, kept (by simp)⟩
    unfold waitLoop
    split <;> rfl
  | _ => exact .inl ⟨rfl, kept (by simp)⟩

/-- fork() does not use up the last value of `nextpid`. -/
def PidsLeft (k : Kernel n) (a : Action n) : Prop :=
  a.act = .fork → serial k.nextpid + 1 < 2 ^ 32

theorem step_numbered {k k' : Kernel n} {a : Action n} (base : Base k) (h : Numbered k)
    (left : PidsLeft k a) (step : Step strategy k a k') : Numbered k' := by
  obtain ⟨next, kept⟩ | ⟨act, next, np, pid, _, others⟩ := step_pids base step
  · refine ⟨next ▸ h.started, fun p used => ?_, fun p q usedp usedq eq => ?_⟩
    · obtain ⟨old, same⟩ := kept p used
      rw [same, next]
      exact h.issued p old
    · obtain ⟨oldp, samep⟩ := kept p usedp
      obtain ⟨oldq, sameq⟩ := kept q usedq
      exact h.distinct p q oldp oldq (samep.symm.trans (eq.trans sameq))
  · have succ := serial_succ (left act)
    have older {p : Slot} (other : p ≠ np) (used : (k'.ptable p).state ≠ .unused) :
        0 < serial (k'.ptable p).pid ∧ serial (k'.ptable p).pid < serial k.nextpid := by
      rw [others p other] at used ⊢
      exact h.issued p used
    refine ⟨by rw [next, succ]; omega, fun p used => ?_, fun p q usedp usedq eq => ?_⟩
    · rw [next, succ]
      by_cases new : p = np
      · subst new
        rw [pid]
        exact ⟨h.started, Nat.lt_succ_self _⟩
      · have := older new used
        omega
    · by_cases newp : p = np <;> by_cases newq : q = np
      · rw [newp, newq]
      · subst newp
        have := (older newq usedq).2
        rw [← eq, pid] at this
        omega
      · subst newq
        have := (older newp usedp).2
        rw [eq, pid] at this
        omega
      · rw [others p newp, others q newq] at eq
        rw [others p newp] at usedp
        rw [others q newq] at usedq
        exact h.distinct p q usedp usedq eq

theorem boot_serial (n : Nat) : serial (boot n).nextpid = 2 := rfl

theorem boot_numbered (n : Nat) : Numbered (boot n) := by
  have first (p : Slot) (used : ((boot n).ptable p).state ≠ .unused) : p = 0 := by
    by_contra other
    rw [boot_slot, if_neg other] at used
    exact used rfl
  refine ⟨by rw [boot_serial]; decide, fun p used => ?_, fun p q usedp usedq _ => ?_⟩
  · obtain rfl := first p used
    rw [boot_slot, boot_serial]
    decide
  · rw [first p usedp, first q usedq]

/-- How many times a run calls fork(). -/
def forks (as : List (Action n)) : Nat := as.countP fun a => a.act = .fork

/-- `nextpid` moves at most once for every call of fork(). -/
theorem pidsLeft_of_forks {k : Kernel n} (reachable : Reachable strategy n k)
    {as : List (Action n)} (legal : (kernel strategy n).Legal k as)
    (few : serial k.nextpid + forks as < 2 ^ 32) :
    (kernel strategy n).Every PidsLeft k as ∧
      serial ((kernel strategy n).after k as).nextpid ≤ serial k.nextpid + forks as := by
  induction as generalizing k with
  | nil => exact ⟨trivial, Nat.le_add_right _ _⟩
  | cons a as ih =>
    have base := reachable_base reachable
    have step := base.step strategy legal.1
    have count : forks (a :: as) = forks as + if a.act = .fork then 1 else 0 := by
      simp [forks, List.countP_cons]
    have left : PidsLeft k a := by
      intro act
      rw [if_pos act] at count
      omega
    have moved : serial (k.perform strategy a).nextpid ≤
        serial k.nextpid + if a.act = .fork then 1 else 0 := by
      obtain ⟨next, _⟩ | ⟨act, next, _⟩ := step_pids base step
      · rw [next]; exact Nat.le_add_right _ _
      · rw [next, serial_succ (left act), if_pos act]
    obtain ⟨every, bound⟩ := ih (.next reachable legal.1) legal.2 (by
      simp only [kernel_perform]
      omega)
    refine ⟨⟨left, every⟩, ?_⟩
    simp only [Lib.System.after_cons, kernel_perform] at bound ⊢
    omega

/-! ## Wait calls -/

/-- A wait call that returns a pid is made by the parent of a ZOMBIE with that
pid, and frees its slot. -/
theorem wait_event {k k' : Kernel n} {a : Action n} (base : Base k) (step : Step strategy k a k')
    {caller : Slot} {pid : Int32} (h : .wait caller pid ∈ k.emit strategy a) :
    (k.cpus a.cpu).proc = some caller ∧ k.emit strategy a = [.wait caller pid] ∧
    ∃ child, (k.ptable child).pid = pid ∧ (k.ptable child).state = .zombie ∧
      (k.ptable child).parent = some caller ∧ (k'.ptable child).state = .unused := by
  -- the scan of the loop, before or after the caller's channel is cleared
  have turn (c : Fin n) (p : Slot) (v : Proc) (call : WaitCall)
      (running : (k.ptable p).state = .running) (entry : v = { k.ptable p with chan := v.chan })
      (mem : .wait caller pid ∈ k.waitEvents p) :
      p = caller ∧ k.waitEvents p = [.wait caller pid] ∧
      ∃ child, (k.ptable child).pid = pid ∧ (k.ptable child).state = .zombie ∧
        (k.ptable child).parent = some caller ∧
        (((k.setProc p v).waitLoop c p call).ptable child).state = .unused := by
    have scan : waitScan (Function.update k.ptable p v) p = waitScan k.ptable p := by
      rw [entry]; exact waitScan_chan _ _ _
    unfold waitEvents at mem ⊢
    unfold waitLoop
    simp only [setProc, scan]
    cases found : waitScan k.ptable p with
    | zombie child =>
      obtain ⟨parent, zombie⟩ := waitScan_zombie found
      obtain ⟨rfl, rfl⟩ : caller = p ∧ pid = (k.ptable child).pid := by simpa [found] using mem
      exact ⟨rfl, rfl, child, rfl, zombie, parent, by simp [release, setCpu, Proc.reap]⟩
    | giveUp | block => simp [found] at mem
  cases step with
  | @wait c p call runs task =>
    have emits : k.emit strategy ⟨c, .wait call⟩ = k.waitEvents p := by simp [emit, runs.2.2]
    rw [emits] at h ⊢
    obtain ⟨rfl, event, child, rest⟩ := turn c p (k.ptable p) call
      (base.exclusive.running runs.acts) rfl h
    exact ⟨runs.2.2, event, child, by simpa [setProc] using rest⟩
  | @resume c p held switched runs =>
    have running := base.exclusive.running (k := k) (c := c) (p := p) ⟨runs, .inr ⟨held, switched⟩⟩
    unfold Kernel.resume
    cases point : (k.thread p).resume with
    | forkret | yield | sleep => simp [emit, runs, point] at h
    | wait call =>
      have emits : k.emit strategy ⟨c, .resume⟩ = k.waitEvents p := by simp [emit, runs, point]
      rw [emits] at h ⊢
      obtain ⟨rfl, event, child, rest⟩ := turn c p
        { k.ptable p with chan := none } call running rfl h
      exact ⟨runs, event, child, rest⟩
  | _ => grind [emit, dispatchEvents]

def Event.returns (pid : Int32) : Event n → Bool
  | .wait _ q => q = pid
  | _ => false

theorem Move.zombie_of {k : Kernel n} {a : Action n} {i : Slot} {v : Proc}
    (h : Move strategy k a i v) (zombie : v.state = .zombie) :
    v.pid = (k.ptable i).pid ∧
      ((k.ptable i).state = .zombie ∨ k.emit strategy a = [.exit i (k.ptable i).pid]) := by
  cases h with
  | passive h => exact ⟨by rw [h.fixed], .inl (h.zombie_iff.mp zombie)⟩
  | exit act runs running task event => exact ⟨rfl, .inr event⟩
  | nice act runs running => simp [running] at zombie
  | link _ _ _ _ embryo => simp [embryo] at zombie
  | charge _ _ running | clear _ _ running | setcid _ _ running | exec _ _ running =>
    exact absurd (running.symm.trans zombie) (by simp)
  | dispatch | yield | sleep | reap | alloc | abandon | publish => cases zombie

/-- What the events so far say about the table. -/
structure Ledger (k : Kernel n) (es : List (Event n)) : Prop where
  numbered : Numbered k
  exited : ∀ p, (k.ptable p).state = .zombie → ∃ s, .exit s (k.ptable p).pid ∈ es
  once : ∀ pid, es.countP (Event.returns pid) ≤ 1
  reaped : ∀ caller pid, .wait caller pid ∈ es → serial pid < serial k.nextpid ∧
    ∀ p, (k.ptable p).state ≠ .unused → (k.ptable p).pid ≠ pid

/-- A pid that is not in the table and has been issued does not come back. -/
theorem step_retired {k k' : Kernel n} {a : Action n} (base : Base k) (left : PidsLeft k a)
    (step : Step strategy k a k') {pid : Int32} (issued : serial pid < serial k.nextpid) :
    serial pid < serial k'.nextpid ∧ ∀ p, (k'.ptable p).state ≠ .unused →
      (k'.ptable p).pid = pid → (k.ptable p).state ≠ .unused ∧ (k.ptable p).pid = pid := by
  obtain ⟨next, kept⟩ | ⟨act, next, np, new, _, others⟩ := step_pids base step
  · refine ⟨next ▸ issued, fun p used eq => ?_⟩
    obtain ⟨old, same⟩ := kept p used
    exact ⟨old, same ▸ eq⟩
  · refine ⟨by rw [next, serial_succ (left act)]; omega, fun p used eq => ?_⟩
    by_cases h : p = np
    · subst h
      rw [← eq, new] at issued
      exact absurd issued (Nat.lt_irrefl _)
    · rw [others p h] at used eq
      exact ⟨used, eq⟩

theorem step_ledger {k k' : Kernel n} {a : Action n} {es : List (Event n)} (base : Base k)
    (left : PidsLeft k a) (step : Step strategy k a k') (h : Ledger k es) :
    Ledger k' (es ++ k.emit strategy a) := by
  -- a pid returned now was not returned before
  have fresh {caller : Slot} {pid : Int32} (event : .wait caller pid ∈ k.emit strategy a) :
      es.countP (Event.returns pid) = 0 := by
    obtain ⟨_, _, child, eq, zombie, _⟩ := wait_event base step event
    refine List.countP_eq_zero.mpr fun e mem returns => ?_
    cases e with
    | wait other q =>
      obtain rfl : q = pid := by simpa [Event.returns] using returns
      exact (h.reaped other q mem).2 child (by simp [zombie]) eq
    | _ => simp [Event.returns] at returns
  refine ⟨step_numbered base h.numbered left step, fun p zombie => ?_, fun pid => ?_,
    fun caller pid mem => ?_⟩
  · obtain ⟨pid, old | exits⟩ := (move_of_step base step p).zombie_of zombie
    · obtain ⟨s, mem⟩ := h.exited p old
      exact ⟨s, by rw [pid]; exact List.mem_append_left _ mem⟩
    · exact ⟨p, by rw [pid, exits]; simp⟩
  · rw [List.countP_append]
    by_cases some : ∃ caller, .wait caller pid ∈ k.emit strategy a
    · obtain ⟨caller, event⟩ := some
      rw [fresh event, (wait_event base step event).2.1]
      simp [Event.returns]
    · have none : (k.emit strategy a).countP (Event.returns pid) = 0 := by
        refine List.countP_eq_zero.mpr fun e mem returns => ?_
        cases e with
        | wait other q =>
          obtain rfl : q = pid := by simpa [Event.returns] using returns
          exact some ⟨other, mem⟩
        | _ => simp [Event.returns] at returns
      rw [none]
      exact h.once pid
  · obtain old | event := List.mem_append.mp mem
    · obtain ⟨issued, absent⟩ := h.reaped caller pid old
      obtain ⟨issued, back⟩ := step_retired base left step issued
      exact ⟨issued, fun p used eq => absent p (back p used eq).1 (back p used eq).2⟩
    · obtain ⟨_, _, child, eq, zombie, _, freed⟩ := wait_event base step event
      have used : (k.ptable child).state ≠ .unused := by simp [zombie]
      obtain ⟨issued, back⟩ := step_retired base left step (eq ▸ (h.numbered.issued child used).2)
      refine ⟨issued, fun p here same => ?_⟩
      obtain ⟨old, pid⟩ := back p here same
      obtain rfl := h.numbered.distinct p child old used (pid.trans eq.symm)
      exact here freed

/-- The ledger of a run from boot with fewer than 2^31 calls of fork(). -/
theorem ledger_of_run {as : List (Action n)} (legal : (kernel strategy n).Legal (boot n) as)
    (few : forks as < 2 ^ 31) :
    Ledger ((kernel strategy n).after (boot n) as)
      ((kernel strategy n).events (emit strategy) (boot n) as) := by
  have left := (pidsLeft_of_forks .start legal (by rw [boot_serial]; omega)).1
  have initial : Base (boot n) ∧ Ledger (boot n) [] := by
    refine ⟨boot_base n, boot_numbered n, fun p zombie => ?_, by simp, by simp⟩
    rw [boot_slot] at zombie
    split at zombie <;> cases zombie
  refine ((kernel strategy n).events_invariant (I := fun k es => Base k ∧ Ledger k es) ?_ legal
    left initial).2
  rintro k a es enabled left ⟨base, ledger⟩
  have step := base.step strategy enabled
  exact ⟨base_step base step, step_ledger base left step ledger⟩

/-- In every run with fewer than 2^31 calls of fork(): pids are distinct, and
positive if there is one call fewer; every process but init has a living
parent; and a pid is returned by at most one wait call, of the process that is
the parent at that moment, after the child has exited. -/
theorem family_tree {as : List (Action n)} (legal : (kernel strategy n).Legal (boot n) as)
    (few : forks as < 2 ^ 31) :
    let k := (kernel strategy n).after (boot n) as
    let es := (kernel strategy n).events (emit strategy) (boot n) as
    (∀ p q, (k.ptable p).state ≠ .unused → (k.ptable q).state ≠ .unused →
      (k.ptable p).pid = (k.ptable q).pid → p = q) ∧
    (forks as < 2 ^ 31 - 1 → ∀ p, (k.ptable p).state ≠ .unused → 0 < (k.ptable p).pid) ∧
    (∀ p, p ≠ k.initproc → (k.ptable p).Live ∨ (k.ptable p).state = .zombie →
      ∃ q, (k.ptable p).parent = some q ∧ (k.ptable q).Live) ∧
    (∀ pid, es.countP (Event.returns pid) ≤ 1) ∧
    ∀ a caller pid, k.Enabled a → .wait caller pid ∈ k.emit strategy a →
      (k.cpus a.cpu).proc = some caller ∧
      (∃ child, (k.ptable child).pid = pid ∧ (k.ptable child).state = .zombie ∧
        (k.ptable child).parent = some caller) ∧
      ∃ s, .exit s pid ∈ es := by
  intro k es
  have reachable : Reachable strategy n k := Lib.System.Reachable.start.after legal
  have base := reachable_base reachable
  have ledger : Ledger k es := ledger_of_run legal few
  refine ⟨ledger.numbered.distinct, fun fewer p used => ?_, (reachable_family reachable).parent,
    ledger.once, fun a caller pid enabled event => ?_⟩
  · obtain ⟨pos, below⟩ := ledger.numbered.issued p used
    have bound : serial k.nextpid ≤ serial (boot n).nextpid + forks as :=
      (pidsLeft_of_forks .start legal (by rw [boot_serial]; omega)).2
    rw [boot_serial] at bound
    exact pos_of_serial pos (by omega)
  · obtain ⟨proc, _, child, eq, zombie, parent, _⟩ :=
      wait_event base (base.step strategy enabled) event
    exact ⟨proc, ⟨child, eq, zombie, parent⟩, eq ▸ ledger.exited child zombie⟩

/-- init forks, sleeps in wait(), and is woken to return its child's pid once. -/
theorem init_reaps_child :
    let as := onCpu 0 [.pass, .resume, .fork, .forkStack true, .forkCopy true, .forkReady,
      .wait .wait, .back, .resume, .exitBegin true, .exit, .back, .pass, .resume]
    let es := (kernel 1 1).events (emit 1) (boot 1) as
    .wait 0 2 ∈ es ∧ es.countP (Event.returns 2) ≤ 1 := by
  intro as es
  have legal : (kernel 1 1).Legal (boot 1) as := by decide +kernel
  exact ⟨by decide +kernel, (family_tree legal (by decide)).2.2.2.1 2⟩

/-! ## The last pid -/

/-- init runs and has a slot to fork into; `j` is the next pid. -/
structure ReadyToFork (k : Kernel 1) (j : Nat) : Prop where
  runs : k.Runs 0 0
  task : (k.thread 0).task = .run
  running : (k.ptable 0).state = .running
  room : (k.ptable 1).state = .unused
  next : serial k.nextpid = j

theorem ReadyToFork.found {k : Kernel 1} {j : Nat} (h : ReadyToFork k j) :
    ∃ np, findUnused k.ptable = some np ∧ np ≠ 0 := by
  cases found : findUnused k.ptable with
  | none =>
    have := List.find?_eq_none.mp found 1 (mem_slots 1)
    simp [h.room] at this
  | some np =>
    refine ⟨np, rfl, ?_⟩
    rintro rfl
    have := findUnused_unused found
    simp [h.running] at this

theorem ReadyToFork.fork {k : Kernel 1} {j : Nat} (h : ReadyToFork k j) {np : Slot}
    (found : findUnused k.ptable = some np) :
    k.Enabled ⟨0, .fork⟩ ∧ k.perform 1 ⟨0, .fork⟩ =
      { k.setProc np ((k.ptable np).alloc k.ticks k.nextpid) with
        nextpid := k.nextpid + 1 }.setTask 0 (.forkStack np) := by
  have proc := h.runs.2.2
  refine ⟨⟨0, proc, h.runs, h.task⟩, ?_⟩
  simp [perform, withProc, proc, Kernel.fork, allocproc, found]

/-- A fork() that finds no memory for a kernel stack uses up a pid. -/
theorem ReadyToFork.fail {k : Kernel 1} {j : Nat} (h : ReadyToFork k j) (small : j + 1 < 2 ^ 32) :
    (kernel 1 1).Legal k (onCpu 0 [.fork, .forkStack false]) ∧
      ReadyToFork ((kernel 1 1).after k (onCpu 0 [.fork, .forkStack false])) (j + 1) := by
  obtain ⟨np, found, other⟩ := h.found
  obtain ⟨enabled, forked⟩ := h.fork found
  have proc := h.runs.2.2
  let k₁ : Kernel 1 := { k.setProc np ((k.ptable np).alloc k.ticks k.nextpid) with
    nextpid := k.nextpid + 1 }.setTask 0 (.forkStack np)
  have task : (k₁.thread 0).task = .forkStack np := by simp [k₁, setTask]
  have failed : k₁.perform 1 ⟨0, .forkStack false⟩ = k₁.forkFail 0 np := by
    have : (k₁.cpus 0).proc = some 0 := proc
    simp [perform, withProc, this, task, Kernel.forkStack]
  have after : (kernel 1 1).after k (onCpu 0 [.fork, .forkStack false]) = k₁.forkFail 0 np := by
    simp [onCpu, forked, ← failed, k₁]
  refine ⟨⟨enabled, ?_, trivial⟩, ?_⟩
  · have step : k.perform 1 ⟨0, .fork⟩ = k₁ := forked
    simp only [kernel_perform, step]
    exact ⟨0, proc, h.runs, by rw [task]⟩
  · rw [after]
    refine ⟨h.runs, by simp [forkFail, setTask], ?_, ?_, ?_⟩
    · simpa [forkFail, setTask, setProc, k₁, other.symm] using h.running
    · by_cases first : np = 1
      · subst first; simp [forkFail, setTask, setProc]
      · simpa [forkFail, setTask, setProc, k₁, Ne.symm first] using h.room
    · have : serial (k.nextpid + 1) = j + 1 := by
        rw [serial_succ (by rw [h.next]; exact small), h.next]
      simpa [forkFail, setTask, setProc, k₁] using this

/-- Failing calls of fork(), one after the other. -/
def failingForks (m : Nat) : List (Action 1) :=
  (List.replicate m (onCpu 0 [.fork, .forkStack false])).flatten

theorem forks_failingForks (m : Nat) : forks (failingForks m) = m := by
  induction m with
  | zero => rfl
  | succ m ih =>
    have split : failingForks (m + 1) = onCpu 0 [.fork, .forkStack false] ++ failingForks m := by
      simp [failingForks, List.replicate_succ]
    have one : forks (onCpu (0 : Fin 1) [.fork, .forkStack false]) = 1 := by decide
    unfold forks at *
    rw [split, List.countP_append, one, ih]
    omega

theorem ReadyToFork.fails {k : Kernel 1} {j : Nat} (h : ReadyToFork k j) (m : Nat)
    (small : j + m < 2 ^ 32) :
    (kernel 1 1).Legal k (failingForks m) ∧
      ReadyToFork ((kernel 1 1).after k (failingForks m)) (j + m) := by
  induction m generalizing k j with
  | zero => exact ⟨trivial, h⟩
  | succ m ih =>
    obtain ⟨legal, next⟩ := h.fail (by omega)
    obtain ⟨legal', last⟩ := ih next (by omega)
    have split : failingForks (m + 1) = onCpu 0 [.fork, .forkStack false] ++ failingForks m := by
      simp [failingForks, List.replicate_succ]
    rw [split, Lib.System.legal_append, Lib.System.after_append]
    exact ⟨⟨legal, legal'⟩, by simpa only [Nat.add_assoc, Nat.add_comm 1 m] using last⟩

theorem init_ready : (kernel 1 1).Legal (boot 1) (onCpu 0 [.pass, .resume]) ∧
    ReadyToFork ((kernel 1 1).after (boot 1) (onCpu 0 [.pass, .resume])) 2 :=
  ⟨by decide +kernel, by decide +kernel, by decide +kernel, by decide +kernel, by decide +kernel,
    by decide +kernel⟩

/-- After `m` failed calls, the slot of the next fork() gets the pid `m + 2`. -/
theorem pid_after_failing_forks (m : Nat) (small : m + 2 < 2 ^ 32) :
    ∃ as : List (Action 1), (kernel 1 1).Legal (boot 1) as ∧ forks as = m + 1 ∧
      ∃ p, (((kernel 1 1).after (boot 1) as).ptable p).state ≠ .unused ∧
        serial (((kernel 1 1).after (boot 1) as).ptable p).pid = m + 2 := by
  obtain ⟨legal, ready⟩ := init_ready
  obtain ⟨legal', last⟩ := ready.fails m (by omega)
  obtain ⟨np, found, _⟩ := last.found
  obtain ⟨enabled, forked⟩ := last.fork found
  refine ⟨onCpu 0 [.pass, .resume] ++ failingForks m ++ [⟨0, .fork⟩], ?_, ?_, np, ?_⟩
  · simp only [Lib.System.legal_append, Lib.System.after_append]
    exact ⟨⟨legal, legal'⟩, enabled, trivial⟩
  · have count := forks_failingForks m
    have none : forks (onCpu (0 : Fin 1) [.pass, .resume]) = 0 := by decide
    have one : forks [(⟨0, .fork⟩ : Action 1)] = 1 := by decide
    unfold forks at *
    rw [List.countP_append, List.countP_append, none, one, count]
    omega
  · simp only [Lib.System.after_append, Lib.System.after_cons, Lib.System.after_nil, kernel_perform,
      forked]
    refine ⟨by simp [setTask, setProc, Proc.alloc], ?_⟩
    simpa [setTask, setProc, Proc.alloc, Nat.add_comm 2 m] using last.next

/-- Fewer than 2^31 forks can still run out of positive pids: after 2^31 - 2
failed ones, the slot of the next one gets the pid -2^31. -/
theorem last_pid_negative :
    ∃ as : List (Action 1), (kernel 1 1).Legal (boot 1) as ∧ forks as < 2 ^ 31 ∧
      ∃ p, (((kernel 1 1).after (boot 1) as).ptable p).state ≠ .unused ∧
        ¬ 0 < (((kernel 1 1).after (boot 1) as).ptable p).pid := by
  obtain ⟨as, legal, count, p, used, pid⟩ := pid_after_failing_forks (2 ^ 31 - 2) (by omega)
  exact ⟨as, legal, by omega, p, used, not_pos_of_serial (by omega)⟩

end Xv6
