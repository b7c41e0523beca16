import Xv6.Proc.Running

/-! The invariants every strategy keeps in every reachable state, and the rule
that proves further ones: one step at a time, knowing these. -/

namespace Xv6
open Kernel
variable {n : Nat} {strategy : Nat}

/-! ## Threads in fork() -/

theorem Passive.live_iff {ticks : UInt32} {p v : Proc} (h : Passive ticks p v) :
    v.Live ↔ p.Live := by
  have := h.queue
  grind

/-- A slot comes to life only in the last step of fork(). -/
theorem Move.live_of {k : Kernel n} {a : Action n} {i : Slot} {v : Proc}
    (h : Move strategy k a i v) (live : v.Live) :
    (k.ptable i).Live ∨
    a.act = .forkReady ∧ ∃ p, (k.ptable p).Live ∧ (k.thread p).task = .forkReady i := by
  cases h with
  | passive h => exact .inl (h.live_iff.mp live)
  | dispatch act event runnable => simp [Proc.Live, runnable]
  | reap => simp [Proc.Live, Proc.reap] at live
  | alloc => simp [Proc.Live, Proc.alloc] at live
  | abandon => simp [Proc.Live] at live
  | link act runs running task embryo => simp [Proc.Live, embryo] at live
  | publish act runs running task => exact .inr ⟨act, _, .inr (.inr running), task⟩
  | _ => simp [Proc.Live, *]

/-- A slot dies only in its own exit(). -/
theorem Move.live {k : Kernel n} {a : Action n} {i : Slot} {v : Proc} (h : Move strategy k a i v)
    (live : (k.ptable i).Live) :
    v.Live ∨ a.act = .exit ∧ (k.cpus a.cpu).proc = some i ∧
      ∃ intr, (k.thread i).task = .exiting intr := by
  cases h with
  | passive h => exact .inl (h.live_iff.mpr live)
  | reap act runs running event zombie => simp [Proc.Live, zombie] at live
  | alloc act unused => simp [Proc.Live, unused] at live
  | abandon act embryo => simp [Proc.Live, embryo] at live
  | link act runs running task embryo => simp [Proc.Live, embryo] at live
  | exit act runs running task => exact .inr ⟨act, runs, _, task⟩
  | _ => simp [Proc.Live, *, Proc.ready, Proc.charge, Proc.exec]

/-- An EMBRYO changes state only when the fork() filling it in ends. -/
theorem Move.embryo {k : Kernel n} {a : Action n} {i : Slot} {v : Proc} (h : Move strategy k a i v)
    (embryo : (k.ptable i).state = .embryo) (stack : a.act ≠ .forkStack false)
    (copy : a.act ≠ .forkCopy false) (ready : a.act ≠ .forkReady) : v.state = .embryo := by
  cases h with
  | passive h => have := h.queue; grind
  | dispatch act event runnable => simp [embryo] at runnable
  | reap act runs running event zombie => simp [embryo] at zombie
  | alloc act unused => simp [embryo] at unused
  | abandon act => grind
  | link => exact embryo
  | publish act => exact absurd act ready
  | _ => simp_all

/-- No thread starts or goes on with a fork(). -/
theorem Forks.frame {k k' : Kernel n} (h : Forks k)
    (live : ∀ q, (k'.ptable q).Live → (k.ptable q).Live)
    (embryo : ∀ q, (k.ptable q).state = .embryo → (k'.ptable q).state = .embryo)
    (task : ∀ q, (k'.thread q).task = (k.thread q).task ∨ (k'.thread q).task.child = none)
    (fresh : ∀ q, (k.ptable q).state = .embryo → k'.thread q = k.thread q) : Forks k' := by
  obtain ⟨emb, unique, fr⟩ := h
  have child : ∀ q np, (k'.thread q).task.child = some np → (k.thread q).task.child = some np := by
    grind
  refine ⟨by grind, by grind, ?_⟩
  intro q np alive stage
  have old : (k.thread q).task = .forkCopy np ∨ (k.thread q).task = .forkReady np := by
    grind [Task.child]
  have : (k.ptable np).state = .embryo := emb q np (live q alive) (by grind [Task.child])
  rw [fresh np this]
  exact fr q np (live q alive) old

/-- Only the thread of `p` is touched, and not its task. -/
def SameTasks (k k' : Kernel n) (p : Slot) : Prop :=
  ∀ q, (k'.thread q).task = (k.thread q).task ∧ (q ≠ p → k'.thread q = k.thread q)

theorem sameTasks_sched {k k' : Kernel n} {c : Fin n} {p : Slot} {resume : Resume}
    (eq : k'.thread = k.thread) : SameTasks k (k'.sched c p resume) p := by
  intro q
  by_cases h : q = p
  · subst h; simp [sched, setCpu, eq]
  · simp [sched, setCpu, h, eq]

theorem sameTasks_waitLoop {k k' : Kernel n} {c : Fin n} {p : Slot} {call : WaitCall}
    (eq : k'.thread = k.thread) : SameTasks k (k'.waitLoop c p call) p := by
  unfold waitLoop
  cases waitScan k'.ptable p with
  | zombie | giveUp => exact fun q => by simp [release, setCpu, setProc, eq]
  | block => exact sameTasks_sched eq

theorem sameTasks_resume {k : Kernel n} {c : Fin n} {p : Slot} :
    SameTasks k (k.resume c p) p := by
  unfold Kernel.resume
  cases (k.thread p).resume with
  | forkret | yield | sleep => exact fun q => by simp [release, setCpu, setProc]
  | wait call => exact sameTasks_waitLoop rfl

/-- A step that leaves fork() alone. -/
theorem forks_quiet {k k' : Kernel n} {a : Action n} (base : Base k) (step : Step strategy k a k')
    (stack : a.act ≠ .forkStack false) (copy : a.act ≠ .forkCopy false) (ready : a.act ≠ .forkReady)
    (task : ∀ q, (k'.thread q).task = (k.thread q).task ∨ (k'.thread q).task.child = none)
    (fresh : ∀ q, (k.ptable q).state = .embryo → k'.thread q = k.thread q) : Forks k' :=
  base.forks.frame
    (fun q live => ((move_of_step base step q).live_of live).resolve_right fun h => ready h.1)
    (fun q embryo => (move_of_step base step q).embryo embryo stack copy ready) task fresh

theorem forks_sameTasks {k k' : Kernel n} {a : Action n} {p : Slot} (base : Base k)
    (step : Step strategy k a k') (stack : a.act ≠ .forkStack false)
    (copy : a.act ≠ .forkCopy false) (ready : a.act ≠ .forkReady)
    (running : (k.ptable p).state = .running) (same : SameTasks k k' p) : Forks k' := by
  refine forks_quiet base step stack copy ready (fun q => .inl (same q).1) fun q embryo => ?_
  refine (same q).2 ?_
  rintro rfl
  simp [running] at embryo

theorem forks_setTask {k k' : Kernel n} {a : Action n} (base : Base k)
    (step : Step strategy k a k') (p : Slot) (task : Task) (stack : a.act ≠ .forkStack false)
    (copy : a.act ≠ .forkCopy false) (ready : a.act ≠ .forkReady)
    (running : (k.ptable p).state = .running) (child : task.child = none)
    (thread : k'.thread = (k.setTask p task).thread) : Forks k' := by
  refine forks_quiet base step stack copy ready (fun q => ?_) fun q embryo => ?_
  · by_cases h : q = p
    · subst h; simp [thread, setTask, child]
    · simp [thread, setTask, h]
  · have : q ≠ p := by rintro rfl; simp [running] at embryo
    simp [thread, setTask, this]

/-- The thread of `p` takes a step of the fork() that fills in `np`. -/
theorem Forks.stage {k k' : Kernel n} {p np : Slot} (h : Forks k) (live : (k.ptable p).Live)
    (other : p ≠ np) (state : ∀ q, q ≠ np → (k'.ptable q).state = (k.ptable q).state)
    (thread : ∀ q, q ≠ p → q ≠ np → k'.thread q = k.thread q)
    (mine : ∀ q, (k.ptable q).Live → (k.thread q).task.child = some np → q = p)
    (child : ∀ x, (k'.thread p).task.child = some x → x = np ∧ (k'.ptable np).state = .embryo)
    (fresh : ∀ x, (k'.thread p).task = .forkCopy x ∨ (k'.thread p).task = .forkReady x →
      k'.thread np = ⟨.forkret, .run⟩)
    (born : (k'.ptable np).Live → (k'.thread np).task = .run) : Forks k' := by
  -- a thread other than `p` that fills in a slot did so before, and not `np`
  have others : ∀ q x, q ≠ p → (k'.ptable q).Live → (k'.thread q).task.child = some x →
      q ≠ np ∧ (k.ptable q).Live ∧ (k.thread q).task.child = some x ∧ x ≠ np := by
    intro q x hq alive filling
    have notNew : q ≠ np := by
      rintro rfl
      simp [born alive, Task.child] at filling
    have alive : (k.ptable q).Live := by simpa only [Proc.Live, state q notNew] using alive
    rw [thread q hq notNew] at filling
    exact ⟨notNew, alive, filling, fun eq => hq (mine q alive (eq ▸ filling))⟩
  refine ⟨?_, ?_, ?_⟩
  · intro q x alive filling
    by_cases hq : q = p
    · subst hq
      obtain ⟨rfl, embryo⟩ := child x filling
      exact embryo
    · obtain ⟨_, alive, filling, hx⟩ := others q x hq alive filling
      rw [state x hx]
      exact h.embryo q x alive filling
  · intro q r x aliveq aliver fillq fillr
    by_cases hq : q = p <;> by_cases hr : r = p
    · rw [hq, hr]
    · subst hq
      exact absurd (child x fillq).1 (others r x hr aliver fillr).2.2.2
    · subst hr
      exact absurd (child x fillr).1 (others q x hq aliveq fillq).2.2.2
    · obtain ⟨_, aliveq, fillq, _⟩ := others q x hq aliveq fillq
      obtain ⟨_, aliver, fillr, _⟩ := others r x hr aliver fillr
      exact h.unique q r x aliveq aliver fillq fillr
  · intro q x alive stage
    have filling : (k'.thread q).task.child = some x := by
      obtain stage | stage := stage <;> simp [stage, Task.child]
    by_cases hq : q = p
    · subst hq
      rw [(child x filling).1]
      exact fresh x stage
    · obtain ⟨notNew, alive, filling, hx⟩ := others q x hq alive filling
      have embryo := h.embryo q x alive filling
      have : x ≠ p := by rintro rfl; simp [Proc.Live, embryo] at live
      rw [thread x this hx]
      exact h.fresh q x alive (thread q hq notNew ▸ stage)

theorem step_forks {k k' : Kernel n} {a : Action n} (base : Base k)
    (step : Step strategy k a k') : Forks k' := by
  have quiet := forks_quiet base step
  have tasks {p : Slot} := forks_sameTasks (p := p) base step
  have exits := forks_setTask base step
  have alive {c : Fin n} {p : Slot} (runs : k.Runs c p) : (k.ptable p).state = .running :=
    base.exclusive.running runs.acts
  have filling {c : Fin n} {p : Slot} (np : Slot) (runs : k.Runs c p)
      (child : (k.thread p).task.child = some np) :
      (k.ptable p).Live ∧ p ≠ np ∧ (k.ptable np).state = .embryo ∧
        ∀ q, (k.ptable q).Live → (k.thread q).task.child = some np → q = p := by
    have live : (k.ptable p).Live := .inr (.inr (alive runs))
    have embryo := base.forks.embryo p np live child
    refine ⟨live, by rintro rfl; simp [Proc.Live, embryo] at live, embryo, fun q lq cq => ?_⟩
    exact base.forks.unique q p np lq live cq child
  cases step with
  | pass | back =>
    refine quiet (by simp) (by simp) (by simp) (fun q => .inl ?_) fun q _ => ?_ <;>
      (unfold follow; split <;> rfl)
  | @resume c p held switched runs =>
    have running := base.exclusive.running (k := k) (c := c) (p := p) ⟨runs, .inr ⟨held, switched⟩⟩
    exact tasks (by simp) (by simp) (by simp) running sameTasks_resume
  | timer =>
    refine quiet (by simp) (by simp) (by simp) (fun q => .inl ?_) fun q _ => ?_ <;>
      (unfold Kernel.timer; split <;> rfl)
  | tickWakeup | charge | uncharged | trapReturn | wakeup | kill | nice | setcid | exec =>
    exact quiet (by simp) (by simp) (by simp) (fun _ => .inl rfl) fun _ _ => rfl
  | @trapExit c p handler runs killed task notInit =>
    obtain ⟨q, hq, running⟩ := base.exclusive.runs c (by
      have := base.exclusive.held c
      have := base.exclusive.idle c
      cases m : (k.cpus c).mode <;> grind [Handles])
    obtain rfl : p = q := Option.some.inj (runs.symm.trans hq)
    exact exits p (.exiting false) (by simp) (by simp) (by simp) running rfl rfl
  | yield handler runs running used =>
    exact tasks (by simp) (by simp) (by simp) running (sameTasks_sched rfl)
  | sleep runs may other =>
    exact tasks (by simp) (by simp) (by simp) (alive runs) (sameTasks_sched rfl)
  | @fork c p np runs task found =>
    have unused := findUnused_unused found
    have live : (k.ptable p).Live := .inr (.inr (alive runs))
    have other : p ≠ np := by rintro rfl; simp [Proc.Live, unused] at live
    have nobody : ∀ q, (k.ptable q).Live → (k.thread q).task.child = some np → q = p := by
      intro q lq cq
      have embryo := base.forks.embryo q np lq cq
      simp [unused] at embryo
    exact base.forks.stage live other (fun q hq => by simp [setTask, setProc, hq])
      (fun q hq _ => by simp [setTask, setProc, hq]) nobody
      (fun x hx => by simpa [setTask, setProc, Task.child, Proc.alloc, eq_comm] using hx)
      (fun x hx => by simp [setTask] at hx) (fun h => by simp [setTask, setProc, Proc.alloc, Proc.Live] at h)
  | forkFull => exact base.forks
  | @forkStack c p np runs task =>
    obtain ⟨live, other, embryo, mine⟩ := filling np runs (by simp [task, Task.child])
    exact base.forks.stage live other (fun q hq => rfl)
      (fun q hq hnp => by simp [setTask, hq, hnp]) mine
      (fun x hx => by simpa [setTask, Task.child, embryo, eq_comm] using hx)
      (fun x hx => by simp [setTask, other.symm]) (fun h => by simp [setTask, other.symm])
  | @forkStackFail c p np runs task | @forkCopyFail c p np runs task =>
    obtain ⟨live, other, embryo, mine⟩ := filling np runs (by simp [task, Task.child])
    exact base.forks.stage live other (fun q hq => by simp [forkFail, setTask, setProc, hq])
      (fun q hq _ => by simp [forkFail, setTask, setProc, hq]) mine
      (fun x hx => by simp [forkFail, setTask, Task.child] at hx)
      (fun x hx => by simp [forkFail, setTask] at hx)
      (fun h => by simp [forkFail, setTask, setProc, Proc.Live] at h)
  | @forkCopy c p np runs task =>
    obtain ⟨live, other, embryo, mine⟩ := filling np runs (by simp [task, Task.child])
    have fresh := base.forks.fresh p np live (.inl task)
    exact base.forks.stage live other (fun q hq => by simp [setTask, setProc, hq])
      (fun q hq _ => by simp [setTask, setProc, hq]) mine
      (fun x hx => by simpa [setTask, setProc, Task.child, embryo, eq_comm] using hx)
      (fun x hx => by simp [setTask, setProc, other.symm, fresh])
      (fun h => by simp [setTask, setProc, embryo, Proc.Live] at h)
  | @forkReady c p np runs task =>
    obtain ⟨live, other, embryo, mine⟩ := filling np runs (by simp [task, Task.child])
    have fresh := base.forks.fresh p np live (.inr task)
    exact base.forks.stage live other
      (fun q hq => by simp [Kernel.forkReady, setTask, setProc, hq])
      (fun q hq _ => by simp [Kernel.forkReady, setTask, setProc, hq]) mine
      (fun x hx => by simp [Kernel.forkReady, setTask, Task.child] at hx)
      (fun x hx => by simp [Kernel.forkReady, setTask] at hx)
      (fun h => by simp [Kernel.forkReady, setTask, setProc, other.symm, fresh])
  | wait runs task => exact tasks (by simp) (by simp) (by simp) (alive runs) (sameTasks_waitLoop rfl)
  | @fault c p runs task notInit =>
    exact exits p (.exiting false) (by simp) (by simp) (by simp) (alive runs) rfl rfl
  | @exitBegin c p intr runs task notInit =>
    exact exits p (.exiting intr) (by simp) (by simp) (by simp) (alive runs) rfl rfl
  | exit runs task => exact tasks (by simp) (by simp) (by simp) (alive runs) (sameTasks_sched rfl)

/-! ## The root of the family tree -/

theorem step_initproc {k k' : Kernel n} {a : Action n} (step : Step strategy k a k') :
    k'.initproc = k.initproc := by
  cases step with
  | pass | back => unfold follow; split <;> rfl
  | resume =>
    unfold Kernel.resume
    split
    · rfl
    · rfl
    · rfl
    · unfold waitLoop; split <;> rfl
  | timer => unfold Kernel.timer; split <;> rfl
  | wait => unfold waitLoop; split <;> rfl
  | _ => rfl

theorem setTask_task {k : Kernel n} {p q : Slot} {task task' : Task}
    (h : ((k.setTask p task).thread q).task = task') :
    q = p ∧ task = task' ∨ (k.thread q).task = task' := by
  by_cases eq : q = p
  · subst eq; exact .inl ⟨rfl, by simpa [setTask] using h⟩
  · exact .inr (by simpa [setTask, eq] using h)

/-- exit() is begun by the process itself, outside interrupt handlers, and not by init. -/
theorem step_exiting {k k' : Kernel n} {a : Action n} (step : Step strategy k a k') {q : Slot}
    {intr : Bool} (h : (k'.thread q).task = .exiting intr) :
    (k.thread q).task = .exiting intr ∨
    (k.cpus a.cpu).proc = some q ∧ q ≠ k.initproc ∧ (k'.cpus a.cpu).irq = .off := by
  have same {p : Slot} (tasks : SameTasks k k' p) : (k.thread q).task = .exiting intr :=
    (tasks q).1 ▸ h
  cases step with
  | pass | back => unfold follow at h; split at h <;> exact .inl h
  | timer => unfold Kernel.timer at h; split at h <;> exact .inl h
  | tickWakeup | charge | uncharged | trapReturn | wakeup | kill | nice | setcid | exec
  | forkFull => exact .inl h
  | resume => exact .inl (same sameTasks_resume)
  | wait => exact .inl (same (sameTasks_waitLoop rfl))
  | yield | sleep | exit => exact .inl (same (sameTasks_sched rfl))
  | trapExit _ runs _ _ notInit =>
    obtain ⟨rfl, _⟩ | old := setTask_task h
    · exact .inr ⟨runs, notInit, by simp [setIrq, setCpu]⟩
    · exact .inl old
  | fault runs _ notInit | exitBegin runs _ notInit =>
    obtain ⟨rfl, _⟩ | old := setTask_task h
    · exact .inr ⟨runs.2.2, notInit, runs.1.2⟩
    · exact .inl old
  | fork | forkCopy | forkReady | forkStackFail | forkCopyFail =>
    obtain ⟨_, eq⟩ | old := setTask_task h
    · cases eq
    · exact .inl old
  | @forkStack c p np =>
    obtain ⟨_, eq⟩ | old := setTask_task h
    · cases eq
    · by_cases eq : q = np
      · simp [eq] at old
      · exact .inl (by simpa [eq] using old)

/-- Whoever reaches the critical section of exit() has begun it. -/
theorem step_exit_caller {k k' : Kernel n} {a : Action n} (step : Step strategy k a k')
    (exits : a.act = .exit) : ∃ p intr, k.Runs a.cpu p ∧ (k.thread p).task = .exiting intr := by
  cases step with
  | exit runs task => exact ⟨_, _, runs, task⟩
  | _ => simp at exits

theorem Proc.nice_parent (p : Proc) (ticks : UInt32) : (p.nice ticks).parent = p.parent := by
  unfold Proc.nice
  grind

/-- Where a slot's parent comes from: it was there before, exit() passed the
slot on to init, or fork() has just linked it. -/
theorem Move.parent_of {k : Kernel n} {a : Action n} {i q : Slot} {v : Proc}
    (h : Move strategy k a i v) (eq : v.parent = some q) :
    (k.ptable i).parent = some q ∨
    (a.act = .exit ∧ (k.ptable i).parent = (k.cpus a.cpu).proc ∧ q = k.initproc) ∨
    (a.act = .forkCopy true ∧ (k.ptable q).state = .running ∧ (k.thread q).task = .forkCopy i ∧
      (k.ptable i).state = .embryo) := by
  cases h with
  | passive h parent =>
    rw [parent, heir] at eq
    split at eq
    · rename_i exits
      exact .inr (.inl ⟨exits.1, exits.2, (Option.some.inj eq).symm⟩)
    · exact .inl eq
  | reap => simp [Proc.reap] at eq
  | nice => exact .inl (by rwa [Proc.nice_parent] at eq)
  | link act runs running task embryo =>
    obtain rfl := Option.some.inj eq
    exact .inr (.inr ⟨act, running, task, embryo⟩)
  | _ => exact .inl eq

theorem step_rooted {k k' : Kernel n} {a : Action n} (base : Base k)
    (step : Step strategy k a k') : Rooted k' := by
  obtain ⟨live, stays, orphan, proper⟩ := base.rooted
  have initproc := step_initproc step
  have caller := step_exit_caller step
  refine ⟨?_, ?_, ?_, ?_⟩
  · rw [initproc]
    obtain alive | ⟨_, _, intr, exiting⟩ := (move_of_step base step k.initproc).live live
    · exact alive
    · exact absurd exiting (stays intr)
  · intro intr exiting
    rw [initproc] at exiting
    obtain old | ⟨_, ne, _⟩ := step_exiting step exiting
    · exact stays intr old
    · exact ne rfl
  · rw [initproc, Option.eq_none_iff_forall_ne_some]
    intro q eq
    obtain old | ⟨exits, child, _⟩ | ⟨_, _, _, embryo⟩ := (move_of_step base step _).parent_of eq
    · simp [orphan] at old
    · obtain ⟨p, _, runs, _⟩ := caller exits
      simp [orphan, runs.2.2] at child
    · simp [Proc.Live, embryo] at live
  · intro p eq
    obtain old | ⟨exits, child, rfl⟩ | ⟨_, running, _, embryo⟩ :=
      (move_of_step base step p).parent_of eq
    · exact proper p old
    · obtain ⟨p, _, runs, _⟩ := caller exits
      simp [orphan, runs.2.2] at child
    · simp [running] at embryo

theorem base_step {k k' : Kernel n} {a : Action n} (base : Base k)
    (step : Step strategy k a k') : Base k' :=
  ⟨step_exclusive base step, step_forks base step, step_rooted base step⟩

/-- The executable step is one of the listed ones. -/
theorem Base.step {k : Kernel n} {a : Action n} (base : Base k) (strategy : Nat)
    (enabled : k.Enabled a) : Step strategy k a (k.perform strategy a) :=
  step_of_enabled strategy enabled fun c switched =>
    (base.exclusive.runs c (.inl switched)).imp fun _ h => h.1

/-! ## Reachable states -/

/-- The entry userinit() makes. -/
def Proc.first : Proc := { (Proc.zero.alloc 0 1).ready 0 with sz := 4096 }

theorem boot_slot (n : Nat) (p : Slot) :
    (boot n).ptable p = if p = 0 then .first else .zero := by
  have table : (boot n).ptable = Function.update
      (Function.update (fun _ => Proc.zero) 0 (Proc.zero.alloc 0 1)) 0 .first := rfl
  by_cases h : p = 0
  · subst h; simp [table]
  · simp [table, h]

theorem boot_base (n : Nat) : Base (boot n) := by
  have state (p : Slot) : ((boot n).ptable p).state = if p = 0 then .runnable else .unused := by
    rw [boot_slot]
    split <;> rfl
  have cpu (c : Fin n) : (boot n).cpus c = ⟨none, .scheduler, .once, .off⟩ := rfl
  have thread (p : Slot) : (boot n).thread p = ⟨.forkret, .run⟩ := rfl
  have lock : (boot n).lock = none := rfl
  have initproc : (boot n).initproc = 0 := rfl
  have parent (p : Slot) : ((boot n).ptable p).parent = none := by
    rw [boot_slot]
    split <;> rfl
  refine ⟨⟨?_, ?_, ?_, ?_, ?_, ?_⟩, ⟨?_, ?_, ?_⟩, ⟨?_, ?_, ?_, ?_⟩⟩
  · simp [cpu, lock]
  · simp [cpu]
  · simp [cpu]
  · simp [cpu]
  · intro p
    rw [state]
    split <;> simp
  · simp [cpu]
  · simp [thread, Task.child]
  · simp [thread, Task.child]
  · simp [thread]
  · simp [Proc.Live, state, initproc]
  · simp [thread]
  · exact parent _
  · simp [parent]

theorem reachable_base {k : Kernel n} (h : Reachable strategy n k) : Base k :=
  h.invariant (boot_base n) fun _ _ enabled base => base_step base (base.step strategy enabled)

/-- A property that holds at boot and is kept by every step from a reachable
state holds in every reachable state. -/
theorem reachable_invariant {I : Kernel n → Prop} {k : Kernel n} (h : Reachable strategy n k)
    (boot : I (boot n))
    (step : ∀ k a k', Reachable strategy n k → Step strategy k a k' → I k → I k') : I k := by
  have both : Reachable strategy n k ∧ I k := by
    refine h.invariant (I := fun k => Reachable strategy n k ∧ I k) ⟨.start, boot⟩ ?_
    intro k a enabled ⟨reachable, inv⟩
    have taken := (reachable_base reachable).step strategy enabled
    exact ⟨.next reachable enabled, step k a _ reachable taken inv⟩
  exact both.2

/-! ## Exclusive running -/

/-- Only scheduler() dispatches, and only what is RUNNABLE. -/
theorem dispatch_cases {k k' : Kernel n} {a : Action n} (step : Step strategy k a k')
    {c : Fin n} {p : Slot} (h : .dispatch c p ∈ k.emit strategy a) :
    c = a.cpu ∧ (a.act = .pass ∨ a.act = .back) ∧ k.emit strategy a = [.dispatch c p] ∧
      (k.ptable p).state = .runnable ∧ (k'.ptable p).state = .running := by
  have outcome {o : Outcome} {proc : Option Slot}
      (emits : k.emit strategy a = dispatchEvents a.cpu o)
      (cases : (∃ q, o.Switches k.ticks k.ptable q) ∨ o.Ends k.ptable proc) :
      c = a.cpu ∧ k.emit strategy a = [.dispatch c p] ∧ (k.ptable p).state = .runnable ∧
        (o.table p).state = .running := by
    obtain ⟨q, switches⟩ | ends := cases
    · have event := emit_of_switches emits switches
      obtain ⟨rfl, rfl⟩ : c = a.cpu ∧ p = q := by simpa [event] using h
      obtain ⟨grt, priority, _, entry⟩ := switches.entry
      exact ⟨rfl, event, switches.runnable, by rw [entry]⟩
    · simp [emits, dispatchEvents, Outcome.dispatched, ends.next] at h
  cases step with
  | pass =>
    obtain ⟨cpu, event, runnable, running⟩ := outcome rfl (schedule_switches_or_ends ..)
    exact ⟨cpu, .inl rfl, event, runnable, by rwa [follow_ptable]⟩
  | back =>
    obtain ⟨cpu, event, runnable, running⟩ :=
      outcome rfl (reschedule_switches_or_ends strategy k.ticks ..)
    exact ⟨cpu, .inr rfl, event, runnable, by rwa [follow_ptable]⟩
  | _ => grind [emit, waitEvents]

/-- With `ptable.lock` free, RUNNING means being the `proc` of exactly one CPU;
and whatever is dispatched, by whichever CPU, is RUNNABLE. -/
theorem running_iff_one_cpu {k : Kernel n} (h : Reachable strategy n k) :
    (k.lock = none →
      (∀ p, (k.ptable p).state = .running ↔ ∃! c, (k.cpus c).proc = some p) ∧
      ∀ c d p, (k.cpus c).proc = some p → (k.cpus d).proc = some p → c = d) ∧
    ∀ a c p, k.Enabled a → .dispatch c p ∈ k.emit strategy a → (k.ptable p).state = .runnable := by
  have base := reachable_base h
  obtain ⟨held, idle, runs, left, owner, once⟩ := base.exclusive
  refine ⟨fun free => ⟨fun p => ⟨fun running => ?_, ?_⟩, once⟩, ?_⟩
  · obtain ⟨c, points⟩ := owner p running
    exact ⟨c, points, fun d other => once d c p other points⟩
  · rintro ⟨c, points, _⟩
    -- with the lock free the CPU is in scheduler(), pointing nowhere, or in a thread
    have unheld : ¬ ((k.cpus c).mode = .returned ∨ (k.cpus c).mode = .resumed) := by
      rw [← held c, free]; simp
    have busy : (k.cpus c).mode = .thread := by
      cases mode : (k.cpus c).mode with
      | scheduler => simp [idle c mode] at points
      | returned | resumed => simp [mode] at unheld
      | thread => rfl
    obtain ⟨q, points', running⟩ := runs c (.inr busy)
    obtain rfl : p = q := Option.some.inj (points.symm.trans points')
    exact running
  · intro a c p enabled event
    exact (dispatch_cases (base.step strategy enabled) event).2.2.2.1

/-- Of two CPUs, exactly one runs init once it has been dispatched. -/
theorem init_on_one_cpu :
    ∃ k : Kernel 2, Reachable 1 2 k ∧ k.lock = none ∧ ∃! c, (k.cpus c).proc = some 0 := by
  let k := (kernel 1 2).after (boot 2) (onCpu 1 [.pass, .resume])
  have reachable : Reachable 1 2 k := Lib.System.Reachable.start.after (by decide +kernel)
  have free : k.lock = none := by decide +kernel
  have running : (k.ptable 0).state = .running := by decide +kernel
  exact ⟨k, reachable, free, (((running_iff_one_cpu reachable).1 free).1 0).mp running⟩

end Xv6
