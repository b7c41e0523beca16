import Xv6.Proc.Lifecycle

/-! CPUs and RUNNING processes: what switching in and out of scheduler() keeps
true of the `proc` pointers of all CPUs. -/

namespace Xv6
open Kernel
variable {n : Nat} {strategy : Nat}

/-- The thread of `p` moves on CPU `c`: in a critical section it was switched
into, or with no critical section open. -/
def Kernel.Acts (k : Kernel n) (c : Fin n) (p : Slot) : Prop :=
  (k.cpus c).proc = some p ∧
    (k.lock = none ∧ (k.cpus c).mode = .thread ∨ k.lock = some c ∧ (k.cpus c).mode = .resumed)

/-- scheduler() moves on CPU `c`. -/
def Kernel.Schedules (k : Kernel n) (c : Fin n) : Prop :=
  k.lock = none ∧ (k.cpus c).mode = .scheduler ∨ k.lock = some c ∧ (k.cpus c).mode = .returned

theorem Kernel.Runs.acts {k : Kernel n} {c : Fin n} {p : Slot} (h : k.Runs c p) : k.Acts c p :=
  ⟨h.2.2, .inl ⟨h.1.1, h.2.1⟩⟩

theorem Exclusive.running {k : Kernel n} (h : Exclusive k) {c : Fin n} {p : Slot}
    (acts : k.Acts c p) : (k.ptable p).state = .running := by
  obtain ⟨q, hq, running⟩ := h.runs c (by grind [Kernel.Acts])
  obtain rfl : p = q := Option.some.inj (acts.1.symm.trans hq)
  exact running

/-- Nothing about CPUs changes, and the same processes are RUNNING. -/
theorem Exclusive.frame {k k' : Kernel n} (h : Exclusive k)
    (same : ∀ q, (k'.ptable q).state = .running ↔ (k.ptable q).state = .running)
    (lock : k'.lock = k.lock)
    (cpus : ∀ d, (k'.cpus d).mode = (k.cpus d).mode ∧ (k'.cpus d).proc = (k.cpus d).proc) :
    Exclusive k' := by
  obtain ⟨held, idle, runs, left, owner, once⟩ := h
  exact ⟨by grind, by grind, by grind, by grind, by grind, by grind⟩

/-- The process on `c` stops RUNNING and switches to scheduler(). -/
theorem Exclusive.leave {k k' : Kernel n} {c : Fin n} {p : Slot} (h : Exclusive k)
    (acts : k.Acts c p) (stopped : (k'.ptable p).state ≠ .running)
    (same : ∀ q, q ≠ p → ((k'.ptable q).state = .running ↔ (k.ptable q).state = .running))
    (lock : k'.lock = some c) (mode : (k'.cpus c).mode = .returned)
    (proc : (k'.cpus c).proc = (k.cpus c).proc) (cpus : ∀ d, d ≠ c → k'.cpus d = k.cpus d) :
    Exclusive k' := by
  obtain ⟨held, idle, runs, left, owner, once⟩ := h
  obtain ⟨here, acts⟩ := acts
  have procs : ∀ d, (k'.cpus d).proc = (k.cpus d).proc := by grind
  refine ⟨?_, by grind, ?_, ?_, ?_, by grind⟩
  · intro d
    by_cases eq : d = c <;> grind
  · intro d busy
    have : d ≠ c := by grind
    grind
  · intro d returned
    by_cases eq : d = c <;> grind
  · intro q running
    have : q ≠ p := by grind
    grind

/-- The thread on `c` leaves its critical section. -/
theorem Exclusive.settle {k k' : Kernel n} {c : Fin n} {p : Slot} (h : Exclusive k)
    (acts : k.Acts c p)
    (same : ∀ q, (k'.ptable q).state = .running ↔ (k.ptable q).state = .running)
    (lock : k'.lock = none) (mode : (k'.cpus c).mode = .thread)
    (proc : (k'.cpus c).proc = (k.cpus c).proc) (cpus : ∀ d, d ≠ c → k'.cpus d = k.cpus d) :
    Exclusive k' := by
  have running := h.running acts
  obtain ⟨held, idle, runs, left, owner, once⟩ := h
  obtain ⟨here, acts⟩ := acts
  have procs : ∀ d, (k'.cpus d).proc = (k.cpus d).proc := by grind
  refine ⟨?_, by grind, ?_, by grind, by grind, by grind⟩
  · intro d
    by_cases eq : d = c <;> grind
  · intro d busy
    by_cases eq : d = c <;> grind

/-- scheduler() on `c` switches to `p`. -/
theorem Exclusive.switch {k k' : Kernel n} {c : Fin n} {p : Slot} (h : Exclusive k)
    (schedules : k.Schedules c) (stopped : (k.ptable p).state ≠ .running)
    (started : (k'.ptable p).state = .running)
    (same : ∀ q, q ≠ p → ((k'.ptable q).state = .running ↔ (k.ptable q).state = .running))
    (lock : k'.lock = some c) (mode : (k'.cpus c).mode = .resumed)
    (proc : (k'.cpus c).proc = some p) (cpus : ∀ d, d ≠ c → k'.cpus d = k.cpus d) :
    Exclusive k' := by
  obtain ⟨held, idle, runs, left, owner, once⟩ := h
  unfold Kernel.Schedules at schedules
  -- no CPU runs `p`: the only one that may still point to a stopped process is `c`
  have nobody : ∀ d, d ≠ c → (k.cpus d).proc ≠ some p := by
    intro d other points
    cases m : (k.cpus d).mode <;> grind
  have gone : ∀ q, (k.ptable q).state = .running → (k.cpus c).proc ≠ some q := by grind
  refine ⟨?_, by grind, ?_, by grind, ?_, by grind⟩
  · intro d
    by_cases eq : d = c <;> grind
  · intro d busy
    by_cases eq : d = c
    · grind
    · obtain ⟨q, points, running⟩ := runs d (by grind)
      exact ⟨q, by grind, by grind⟩
  · intro q running
    by_cases eq : q = p
    · grind
    · obtain ⟨d, points⟩ := owner q (by grind)
      exact ⟨d, by grind⟩

/-- scheduler() on `c` ends an iteration with `proc` cleared. -/
theorem Exclusive.finish {k k' : Kernel n} {c : Fin n} (h : Exclusive k)
    (schedules : k.Schedules c)
    (same : ∀ q, (k'.ptable q).state = .running ↔ (k.ptable q).state = .running)
    (lock : k'.lock = none) (mode : (k'.cpus c).mode = .scheduler)
    (proc : (k'.cpus c).proc = none) (cpus : ∀ d, d ≠ c → k'.cpus d = k.cpus d) :
    Exclusive k' := by
  obtain ⟨held, idle, runs, left, owner, once⟩ := h
  unfold Kernel.Schedules at schedules
  refine ⟨?_, by grind, ?_, by grind, ?_, by grind⟩
  · intro d
    by_cases eq : d = c <;> grind
  · intro d busy
    have : d ≠ c := by grind
    obtain ⟨q, points, running⟩ := runs d (by grind)
    exact ⟨q, by grind, by grind⟩
  · intro q running
    obtain ⟨d, points⟩ := owner q (by grind)
    have : d ≠ c := by grind
    exact ⟨d, by grind⟩

theorem Passive.running_iff {ticks : UInt32} {p v : Proc} (h : Passive ticks p v) :
    v.state = .running ↔ p.state = .running := by
  obtain ⟨same, _⟩ | ⟨asleep, woken, _⟩ := h.queue
  · rw [same]
  · simp [asleep, woken]

@[simp] theorem Proc.nice_state (p : Proc) (ticks : UInt32) : (p.nice ticks).state = p.state := by
  unfold Proc.nice
  grind

/-- The steps in which a thread may switch away. -/
def Act.leaves : Act → Bool
  | .trapYield | .sleep _ | .resume | .wait _ | .exit => true
  | _ => false

/-- Outside scheduler(), only the acting process can stop being RUNNING. -/
theorem Move.running_iff {k : Kernel n} {a : Action n} {i : Slot} {v : Proc}
    (h : Move strategy k a i v) (pass : a.act ≠ .pass) (back : a.act ≠ .back)
    (other : (k.cpus a.cpu).proc ≠ some i ∨ a.act.leaves = false) :
    v.state = .running ↔ (k.ptable i).state = .running := by
  cases h with
  | passive h => exact h.running_iff
  | dispatch act => grind
  | charge act runs running => simp [Proc.charge, running]
  | yield act runs running => grind [Act.leaves]
  | sleep act runs running => grind [Act.leaves]
  | clear act runs running => rfl
  | reap act runs running event zombie => simp [Proc.reap, zombie]
  | nice act runs running => simp
  | setcid act runs running => rfl
  | exec act runs running => simp [Proc.exec]
  | alloc act unused => simp [Proc.alloc, unused]
  | abandon act embryo => simp [embryo]
  | link act runs running task embryo => simp [embryo]
  | publish act runs running task embryo => simp [Proc.ready, embryo]
  | exit act runs running => grind [Act.leaves]

theorem Graded.running_iff {t t' : Table} {except : Slot → Prop} (h : Graded t t' except) {q : Slot}
    (other : ¬ except q) : (t' q).state = .running ↔ (t q).state = .running := by
  obtain ⟨grt, eq⟩ := h q other
  simp [eq]

theorem exclusive_follow {k : Kernel n} {c : Fin n} {o : Outcome} {proc : Option Slot}
    (h : Exclusive k) (schedules : k.Schedules c)
    (outcome : (∃ p, o.Switches k.ticks k.ptable p) ∨ o.Ends k.ptable proc) (none : proc = none) :
    Exclusive (k.follow c o) := by
  obtain ⟨p, switches⟩ | ends := outcome
  · obtain ⟨ctx, next⟩ := Option.isSome_iff_exists.mp switches.next
    obtain ⟨grt, priority, _, entry⟩ := switches.entry
    refine h.switch (p := p) schedules (by simp [switches.runnable]) ?_ ?_ ?_ ?_ ?_ ?_
    · simp [follow_ptable, entry]
    · intro q other
      rw [follow_ptable]
      exact switches.others.running_iff other
    · simp [follow, next]
    · simp [follow, next, setCpu]
    · simp [follow, next, setCpu, switches.proc]
    · intro d other
      simp [follow, next, setCpu, other]
  · refine h.finish schedules ?_ ?_ ?_ ?_ ?_
    · intro q
      rw [follow_ptable]
      exact ends.others.running_iff id
    · simp [follow, ends.next]
    · simp [follow, ends.next, setCpu]
    · simp [follow, ends.next, setCpu, ends.proc, none]
    · intro d other
      simp [follow, ends.next, setCpu, other]

theorem exclusive_sched {k : Kernel n} {c : Fin n} {p : Slot} {resume : Resume} {t : Table}
    (h : Exclusive k) (acts : k.Acts c p) (stopped : (t p).state ≠ .running)
    (same : ∀ q, q ≠ p → ((t q).state = .running ↔ (k.ptable q).state = .running)) :
    Exclusive ({ k with ptable := t }.sched c p resume) := by
  refine h.leave acts stopped same rfl ?_ ?_ ?_
  · simp [sched, setCpu]
  · simp [sched, setCpu]
  · intro d other
    simp [sched, setCpu, other]

theorem exclusive_release {k : Kernel n} {c : Fin n} {p : Slot} {t : Table}
    (h : Exclusive k) (acts : k.Acts c p)
    (same : ∀ q, (t q).state = .running ↔ (k.ptable q).state = .running) :
    Exclusive ({ k with ptable := t }.release c .thread) := by
  refine h.settle acts same rfl ?_ ?_ ?_
  · simp [release, setCpu]
  · simp [release, setCpu]
  · intro d other
    simp [release, setCpu, other]

theorem update_running_iff {t : Table} {p : Slot} {v : Proc}
    (h : v.state = .running ↔ (t p).state = .running) (q : Slot) :
    (Function.update t p v q).state = .running ↔ (t q).state = .running := by
  by_cases eq : q = p
  · subst eq; simpa using h
  · simp [eq]

theorem exclusive_waitLoop {k : Kernel n} {c : Fin n} {p : Slot} (call : WaitCall) {v : Proc}
    (h : Exclusive k) (acts : k.Acts c p) (running : v.state = .running) :
    Exclusive ((k.setProc p v).waitLoop c p call) := by
  have alive := h.running acts
  have entered : Exclusive (k.setProc p v) :=
    h.frame (update_running_iff (by simp [running, alive])) rfl fun _ => ⟨rfl, rfl⟩
  have acts : (k.setProc p v).Acts c p := acts
  unfold waitLoop
  cases found : waitScan (k.setProc p v).ptable p with
  | zombie child =>
    have zombie := (waitScan_zombie found).2
    exact exclusive_release entered acts (update_running_iff (by simp [Proc.reap, zombie]))
  | giveUp => exact exclusive_release (k := k.setProc p v) entered acts fun _ => Iff.rfl
  | block => exact exclusive_sched entered acts (by simp) fun q other => by simp [other]

theorem exclusive_resume {k : Kernel n} {c : Fin n} {p : Slot} (h : Exclusive k)
    (acts : k.Acts c p) : Exclusive (k.resume c p) := by
  have alive := h.running acts
  unfold Kernel.resume
  cases (k.thread p).resume with
  | forkret | yield => exact exclusive_release h acts fun _ => Iff.rfl
  | sleep => exact exclusive_release h acts (update_running_iff Iff.rfl)
  | wait call => exact exclusive_waitLoop call h acts alive

/-- A step that neither schedules nor switches keeps the correspondence. -/
theorem exclusive_quiet {k k' : Kernel n} {a : Action n} (base : Base k)
    (step : Step strategy k a k') (pass : a.act ≠ .pass) (back : a.act ≠ .back)
    (leaves : a.act.leaves = false) (lock : k'.lock = k.lock)
    (cpus : ∀ d, (k'.cpus d).mode = (k.cpus d).mode ∧ (k'.cpus d).proc = (k.cpus d).proc) :
    Exclusive k' :=
  base.exclusive.frame (fun q => (move_of_step base step q).running_iff pass back (.inr leaves))
    lock cpus

theorem setIrq_cpu (k : Kernel n) (c : Fin n) (irq : Irq) (d : Fin n) :
    ((k.setIrq c irq).cpus d).mode = (k.cpus d).mode ∧
    ((k.setIrq c irq).cpus d).proc = (k.cpus d).proc := by
  by_cases h : d = c
  · subst h; simp [setIrq, setCpu]
  · simp [setIrq, setCpu, h]

theorem timer_cpu (k : Kernel n) (c d : Fin n) :
    ((k.timer c).cpus d).mode = (k.cpus d).mode ∧ ((k.timer c).cpus d).proc = (k.cpus d).proc := by
  unfold Kernel.timer
  split
  · exact setIrq_cpu { k with ticks := k.ticks + 1 } c .ticked d
  · exact setIrq_cpu k c .woken d

theorem timer_lock (k : Kernel n) (c : Fin n) : (k.timer c).lock = k.lock := by
  unfold Kernel.timer
  split <;> rfl

theorem step_exclusive {k k' : Kernel n} {a : Action n} (base : Base k)
    (step : Step strategy k a k') : Exclusive k' := by
  have h := base.exclusive
  have same {d : Fin n} : (k.cpus d).mode = (k.cpus d).mode ∧ (k.cpus d).proc = (k.cpus d).proc :=
    ⟨rfl, rfl⟩
  have quiet := exclusive_quiet base step
  cases step with
  | pass ready top =>
    exact exclusive_follow h (.inl ⟨ready.1, top⟩) (schedule_switches_or_ends ..) (h.idle _ top)
  | back held switched =>
    exact exclusive_follow h (.inr ⟨held, switched⟩) (reschedule_switches_or_ends ..) rfl
  | resume held switched runs => exact exclusive_resume h ⟨runs, .inr ⟨held, switched⟩⟩
  | timer ready takes => exact quiet (by simp) (by simp) rfl (timer_lock _ _) (timer_cpu _ _)
  | tickWakeup handler => exact quiet (by simp) (by simp) rfl rfl (setIrq_cpu _ _ _)
  | charge handler runs running => exact quiet (by simp) (by simp) rfl rfl (setIrq_cpu _ _ _)
  | uncharged handler free => exact quiet (by simp) (by simp) rfl rfl (setIrq_cpu _ _ _)
  | trapExit handler runs killed task notInit =>
    exact quiet (by simp) (by simp) rfl rfl (setIrq_cpu _ _ _)
  | @yield c p handler runs running used =>
    have irq : Exclusive (k.setIrq c .off) :=
      h.frame (fun _ => Iff.rfl) rfl (setIrq_cpu _ _ _)
    have acts : (k.setIrq c .off).Acts c p := by
      obtain ⟨mode, proc⟩ := setIrq_cpu k c .off c
      have free : (k.setIrq c .off).lock = none := handler.1
      refine ⟨proc.trans runs, .inl ⟨free, ?_⟩⟩
      cases m : ((k.setIrq c .off).cpus c).mode <;> grind [Exclusive]
    exact exclusive_sched irq acts (by simp [Proc.ready]) fun q other => by simp [other, setIrq, setCpu]
  | trapReturn handler left => exact h.frame (fun _ => Iff.rfl) rfl (setIrq_cpu _ _ _)
  | sleep runs may other =>
    exact exclusive_sched h runs.acts (by simp) fun q other => by simp [other]
  | fault | wakeup | kill | nice | setcid | exec | fork | forkStack | forkStackFail | forkCopy
  | forkCopyFail | forkReady | exitBegin =>
    exact quiet (by simp) (by simp) rfl rfl fun _ => same
  | forkFull => exact h
  | @wait c p call runs task =>
    have := exclusive_waitLoop (v := k.ptable p) call h runs.acts (h.running runs.acts)
    simpa [setProc] using this
  | @exit c p intr runs task =>
    have running := h.running runs.acts
    refine exclusive_sched h runs.acts ?_ ?_
    · rw [exitTable_self _ _ _ _ running (base.rooted.proper p)]
      simp
    · intro q other
      exact (exitTable_other _ _ _ _ _ other).1.running_iff

end Xv6
