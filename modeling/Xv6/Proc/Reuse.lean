import Xv6.Proc.WaitReport
import Xv6.Proc.Alike

/-! What a process can see of its slot's previous occupant. getppid() reads
`etime`, which nothing sets before the process exits; the kill mark outlives a
fork() that failed; and the pid of an UNUSED slot can still be named by kill().
Two kernels that differ only in what UNUSED slots hold are run side by side: if
the leftovers agree in those, no system call tells the two apart. -/

namespace Xv6
open Kernel Lib
variable {n : Nat} {strategy : Nat}

/-! ## Kernels -/

/-- Two kernels that differ at most in what cannot be told apart. -/
structure Twins (k l : Kernel n) : Prop where
  table : AlikeTables k.ptable l.ptable
  thread : ∀ p, (k.ptable p).Live → l.thread p = k.thread p
  cpus : l.cpus = k.cpus
  lock : l.lock = k.lock
  nextpid : l.nextpid = k.nextpid
  initproc : l.initproc = k.initproc
  ticks : l.ticks = k.ticks

section
variable {k l : Kernel n} (h : Twins k l)
include h

theorem Twins.setTable {t u : Table} (alike : AlikeTables t u)
    (live : ∀ p, (t p).Live → (k.ptable p).Live) :
    Twins { k with ptable := t } { l with ptable := u } :=
  ⟨alike, fun p now => h.thread p (live p now), h.cpus, h.lock, h.nextpid, h.initproc, h.ticks⟩

theorem Twins.setProc {p : Slot} {v w : Proc} (alike : Alike v w)
    (live : v.Live → (k.ptable p).Live) : Twins (k.setProc p v) (l.setProc p w) := by
  refine h.setTable (h.table.update alike p) fun q now => ?_
  by_cases here : q = p
  · subst here
    exact live (by simpa using now)
  · simpa [here] using now

theorem Twins.setTask (p : Slot) (task : Task) : Twins (k.setTask p task) (l.setTask p task) := by
  refine ⟨h.table, fun q live => ?_, h.cpus, h.lock, h.nextpid, h.initproc, h.ticks⟩
  have same := h.thread q live
  by_cases here : q = p
  · subst here; simp [Kernel.setTask, same]
  · simpa [Kernel.setTask, here] using same

theorem Twins.setCpu (c : Fin n) (v : Cpu) : Twins (k.setCpu c v) (l.setCpu c v) :=
  ⟨h.table, h.thread, by simp [Kernel.setCpu, h.cpus], h.lock, h.nextpid, h.initproc, h.ticks⟩

theorem Twins.setIrq (c : Fin n) (irq : Irq) : Twins (k.setIrq c irq) (l.setIrq c irq) := by
  unfold Kernel.setIrq
  rw [h.cpus]
  exact h.setCpu c _

theorem Twins.release (c : Fin n) (mode : Mode) : Twins (k.release c mode) (l.release c mode) := by
  unfold Kernel.release
  rw [h.cpus]
  have cpu := h.setCpu c { k.cpus c with mode := mode }
  exact ⟨cpu.table, cpu.thread, cpu.cpus, rfl, cpu.nextpid, cpu.initproc, cpu.ticks⟩

theorem Twins.sched (c : Fin n) (p : Slot) (resume : Resume) :
    Twins (k.sched c p resume) (l.sched c p resume) := by
  unfold Kernel.sched
  rw [h.cpus]
  have cpu := h.setCpu c { k.cpus c with mode := .returned }
  refine ⟨cpu.table, fun q live => ?_, cpu.cpus, rfl, cpu.nextpid, cpu.initproc, cpu.ticks⟩
  have same := h.thread q live
  by_cases here : q = p
  · subst here; simp [same]
  · simpa [here] using same

theorem Twins.sleep {c : Fin n} {p : Slot} (running : (k.ptable p).state = .running) (chan : Chan)
    (resume : Resume) : Twins (k.sleep c p chan resume) (l.sleep c p chan resume) :=
  (h.setProc ((h.table p).sleep running chan) fun _ => .inr (.inr running)).sched c p resume

theorem Twins.waitLoop {c : Fin n} {p : Slot} (running : (k.ptable p).state = .running)
    (call : WaitCall) : Twins (k.waitLoop c p call) (l.waitLoop c p call) := by
  unfold Kernel.waitLoop
  rw [h.table.waitScan]
  cases found : Xv6.waitScan k.ptable p with
  | zombie child =>
    exact (h.setProc (h.table child).reap (by simp [Proc.Live, Proc.reap])).release c .thread
  | giveUp => exact h.release c .thread
  | block => exact h.sleep running _ _

theorem Twins.follow {c : Fin n} {o o' : Outcome} (outcomes : AlikeOutcomes o o')
    (live : ∀ p, (o.table p).Live → (k.ptable p).Live) : Twins (k.follow c o) (l.follow c o') := by
  unfold Kernel.follow
  rw [outcomes.next, outcomes.proc, h.cpus]
  have moved := h.setTable outcomes.table live
  split
  · exact ⟨moved.table, moved.thread, by simp [Kernel.setCpu, h.cpus], rfl, h.nextpid, h.initproc,
      h.ticks⟩
  · exact ⟨moved.table, moved.thread, by simp [Kernel.setCpu, h.cpus], rfl, h.nextpid, h.initproc,
      h.ticks⟩

end

theorem Twins.runs {k l : Kernel n} (h : Twins k l) {c : Fin n} {p : Slot} (runs : k.Runs c p) :
    l.Runs c p := by
  simpa only [Runs, Open, h.cpus, h.lock] using runs

theorem Twins.handles {k l : Kernel n} (h : Twins k l) {c : Fin n} {irq : Irq}
    (handler : k.Handles c irq) : l.Handles c irq := by
  simpa only [Handles, h.cpus, h.lock] using handler

/-- What a step of a thread does to twins, the step being an update of the slot
of the process itself. -/
theorem Twins.own {k l : Kernel n} (h : Twins k l) (base : Base k) {c : Fin n} {p : Slot}
    (runs : k.Runs c p) {v w : Proc} (alike : Alike v w) : Twins (k.setProc p v) (l.setProc p w) :=
  h.setProc alike fun _ => .inr (.inr (base.exclusive.running runs.acts))

theorem Twins.wakeup {k l : Kernel n} (h : Twins k l) (chan : Chan)
    (live : ∀ p, (wakeup1 k.ticks (some chan) k.ptable p).Live → (k.ptable p).Live) :
    Twins { k with ptable := wakeup1 k.ticks (some chan) k.ptable }
      { l with ptable := wakeup1 l.ticks (some chan) l.ptable } := by
  refine h.setTable ?_ live
  rw [h.ticks]
  exact h.table.wakeup1 k.ticks (some chan)

/-- The process of a CPU outside critical sections is RUNNING. -/
theorem Exclusive.running_of_free {k : Kernel n} (h : Exclusive k) {c : Fin n} {p : Slot}
    (free : k.lock = none) (proc : (k.cpus c).proc = some p) : (k.ptable p).state = .running := by
  have busy : (k.cpus c).mode = .thread := by
    have held := h.held c
    have idle := h.idle c
    cases mode : (k.cpus c).mode <;> simp_all
  exact h.running ⟨proc, .inl ⟨free, busy⟩⟩

/-- The pid given to kill() is not one that an UNUSED slot holds. -/
def KillFresh (k : Kernel n) (a : Action n) : Prop :=
  ∀ pid, a.act = .kill pid → ¬ Stale k.ptable pid

theorem Twins.performs {k l : Kernel n} (h : Twins k l) (base : Base k) {c : Fin n}
    {ok : Slot → Task → Prop} (performs : k.Performs c ok) : l.Performs c ok := by
  obtain ⟨p, runs, task⟩ := performs_cases performs
  have live : (k.ptable p).Live := .inr (.inr (base.exclusive.running runs.acts))
  exact ⟨p, (h.runs runs).2.2, h.runs runs, by rwa [h.thread p live]⟩

theorem Twins.enabled {k l : Kernel n} {a : Action n} (h : Twins k l) (base : Base k)
    (enabled : k.Enabled a) : l.Enabled a := by
  obtain ⟨c, act⟩ := a
  have performs {ok : Slot → Task → Prop} : k.Performs c ok → l.Performs c ok := h.performs base
  cases act with
  | pass | back | resume | tickWakeup | charge | trapYield | wakeup =>
    simpa [Enabled, Open, Handles, h.cpus, h.lock] using enabled
  | timer =>
    obtain ⟨ready, takes⟩ := enabled
    refine ⟨by simpa [Open, h.cpus, h.lock] using ready, fun p proc => ?_⟩
    rw [h.cpus] at proc
    have on := base.exclusive.running_of_free ready.1 proc
    rw [h.thread p (.inr (.inr on))]
    exact takes p proc
  | trapExit =>
    obtain ⟨handler, p, proc, killed, task, notInit⟩ := enabled
    have on := base.exclusive.running_of_free handler.1 proc
    refine ⟨h.handles handler, p, h.cpus ▸ proc, ?_, ?_, h.initproc ▸ notInit⟩
    · rw [(h.table p).killed]
      exact killed
    · rw [h.thread p (.inr (.inr on))]
      exact task
  | sleep chan =>
    simp only [Enabled] at enabled ⊢
    exact ⟨performs enabled.1, enabled.2⟩
  | fault | exitBegin =>
    simp only [Enabled, h.initproc] at enabled ⊢
    exact performs enabled
  | kill | nice | setcid | exec | fork | wait | forkStack | forkCopy | forkReady | exit =>
    simp only [Enabled] at enabled ⊢
    exact performs enabled

/-- Twins that take the same step stay twins. -/
theorem Twins.step {k l k' : Kernel n} {a : Action n} (h : Twins k l) (base : Base k)
    (base' : Base l) (family : Family k) (unlinked : Unlinked k) (fresh : KillFresh k a)
    (fresh' : KillFresh l a) (step : Step strategy k a k') : Twins k' (l.perform strategy a) := by
  have running {c : Fin n} {p : Slot} (runs : k.Runs c p) : (k.ptable p).state = .running :=
    base.exclusive.running runs.acts
  have thread {c : Fin n} {p : Slot} (runs : k.Runs c p) : l.thread p = k.thread p :=
    h.thread p (.inr (.inr (running runs)))
  have live (other : a.act ≠ .forkReady) (i : Slot) (now : (k'.ptable i).Live) :
      (k.ptable i).Live := by
    obtain alive | ⟨act, _⟩ := (move_of_step base step i).live_of now
    · exact alive
    · exact absurd act other
  cases step with
  | @pass c ready top =>
    simp only [perform, passOutcome, h.cpus, h.ticks]
    refine h.follow (h.table.schedule strategy k.ticks (k.cpus c).proc) fun i now => ?_
    exact live (by simp) i (by rwa [follow_ptable])
  | @back c held switched =>
    simp only [perform, backOutcome, h.cpus]
    refine h.follow (h.table.reschedule strategy (k.cpus c).ctx) fun i now => ?_
    exact live (by simp) i (by rwa [follow_ptable])
  | @resume c p held switched proc =>
    have on : (k.ptable p).state = .running :=
      base.exclusive.running ⟨proc, .inr ⟨held, switched⟩⟩
    have same := h.thread p (.inr (.inr on))
    have cleared : Twins (k.setProc p { k.ptable p with chan := none })
        (l.setProc p { l.ptable p with chan := none }) :=
      h.setProc ((h.table p).clear on) fun _ => .inr (.inr on)
    simp only [perform, withProc_of_some (h.cpus ▸ proc), Kernel.resume, same]
    cases resume : (k.thread p).resume with
    | forkret | yield => exact h.release c .thread
    | sleep => exact cleared.release c .thread
    | wait call => exact cleared.waitLoop (by simpa [Kernel.setProc] using on) call
  | @timer c ready takes =>
    simp only [perform, Kernel.timer]
    split
    · have ticked : Twins { k with ticks := k.ticks + 1 } { l with ticks := l.ticks + 1 } :=
        ⟨h.table, h.thread, h.cpus, h.lock, h.nextpid, h.initproc, by simp [h.ticks]⟩
      exact ticked.setIrq c .ticked
    · exact h.setIrq c .woken
  | @tickWakeup c handler =>
    exact (h.wakeup .ticks (live (by simp))).setIrq c .woken
  | @charge c p handler proc on =>
    have on' : (l.ptable p).state = .running := (h.table p).state.trans on
    simp only [perform, Kernel.charge, withProc_of_some (h.cpus ▸ proc), on', ↓reduceIte]
    exact (h.setProc ((h.table p).charge on) fun _ => .inr (.inr on)).setIrq c .charged
  | @uncharged c handler free =>
    have same : (l.withProc c fun p =>
        if (l.ptable p).state = .running then l.setProc p (l.ptable p).charge else l) = l := by
      unfold withProc
      split
      · rename_i p proc
        rw [h.cpus] at proc
        exact if_neg ((h.table p).state ▸ free p proc)
      · rfl
    simp only [perform, Kernel.charge, same]
    exact h.setIrq c .charged
  | @trapExit c p handler proc killed task notInit =>
    simp only [perform, withProc_of_some (h.cpus ▸ proc)]
    exact (h.setTask p _).setIrq c .off
  | @yield c p handler proc on used =>
    have go : (l.ptable p).state = .running ∧ (strategy = 1 → (l.ptable p).myquantum = quanta) := by
      obtain ⟨_, _, _, entry⟩ := (h.table p).awake (.inr on)
      rw [entry]
      exact ⟨on, used⟩
    simp only [perform, trapYield, h.cpus ▸ proc, if_pos go, Kernel.yield]
    have ready : Alike ((k.ptable p).ready k.ticks) ((l.ptable p).ready l.ticks) := by
      rw [h.ticks]
      exact (h.table p).yield on k.ticks
    exact ((h.setIrq c .off).setProc ready fun _ => .inr (.inr on)).sched c p .yield
  | @trapReturn c handler left =>
    simp only [perform, trapYield, h.cpus]
    split
    · rename_i p proc
      have on := base.exclusive.running_of_free handler.1 proc
      obtain ⟨_, _, _, entry⟩ := (h.table p).awake (.inr on)
      obtain ⟨one, unused⟩ := left p proc on
      rw [if_neg (by rw [entry]; exact fun go => unused (go.2 one))]
      exact h.setIrq c .off
    · exact h.setIrq c .off
  | @fault c p runs task notInit =>
    simp only [perform, withProc_of_some (h.runs runs).2.2]
    exact (h.own base runs ((h.table p).fault (running runs))).setTask p _
  | @wakeup c chan ready other =>
    exact h.wakeup chan (live (by simp))
  | @sleep c p chan runs may other =>
    simp only [perform, withProc_of_some (h.runs runs).2.2]
    exact h.sleep (running runs) chan .sleep
  | @kill c p pid runs task =>
    refine h.setTable ?_ (live (by simp))
    rw [h.ticks]
    exact h.table.kill (fresh pid rfl) (fresh' pid rfl) k.ticks
  | @nice c p runs task =>
    simp only [perform, withProc_of_some (h.runs runs).2.2, h.ticks]
    exact h.own base runs ((h.table p).nice (running runs) k.ticks)
  | @setcid c p cid runs task =>
    simp only [perform, withProc_of_some (h.runs runs).2.2]
    exact h.own base runs ((h.table p).setcid (running runs) cid)
  | @exec c p sz runs task =>
    simp only [perform, withProc_of_some (h.runs runs).2.2, h.ticks]
    exact h.own base runs ((h.table p).exec (running runs) k.ticks sz)
  | @fork c p np runs task found =>
    have unused := findUnused_unused found
    have alike := (h.table np).alloc (unlinked.unused np unused) k.ticks k.nextpid
    have filled := h.setProc (p := np) alike (by simp [Proc.Live, Proc.alloc])
    simp only [perform, withProc_of_some (h.runs runs).2.2, Kernel.fork, allocproc,
      h.table.findUnused, found, Option.map_some, h.ticks, h.nextpid]
    have counted : Twins
        { k.setProc np ((k.ptable np).alloc k.ticks k.nextpid) with nextpid := k.nextpid + 1 }
        { l.setProc np ((l.ptable np).alloc k.ticks k.nextpid) with nextpid := k.nextpid + 1 } :=
      ⟨filled.table, filled.thread, filled.cpus, filled.lock, rfl, filled.initproc, filled.ticks⟩
    exact counted.setTask p _
  | @forkFull c p runs task full =>
    simp only [perform, withProc_of_some (h.runs runs).2.2, Kernel.fork, allocproc,
      h.table.findUnused, full, Option.map_none]
    exact h
  | @forkStack c p np runs task =>
    simp only [perform, withProc_of_some (h.runs runs).2.2, thread runs, task, Kernel.forkStack,
      ↓reduceIte]
    have started : Twins { k with thread := Function.update k.thread np ⟨.forkret, .run⟩ }
        { l with thread := Function.update l.thread np ⟨.forkret, .run⟩ } := by
      refine ⟨h.table, fun q alive => ?_, h.cpus, h.lock, h.nextpid, h.initproc, h.ticks⟩
      by_cases here : q = np
      · subst here; simp
      · simpa [here] using h.thread q alive
    exact started.setTask p _
  | @forkStackFail c p np runs task | @forkCopyFail c p np runs task =>
    simp only [perform, withProc_of_some (h.runs runs).2.2, thread runs, task, Kernel.forkStack,
      Kernel.forkCopy, Bool.false_eq_true, ↓reduceIte]
    exact (h.setProc (h.table np).abandon (by simp [Proc.Live])).setTask p _
  | @forkCopy c p np runs task =>
    have embryo := base.forks.embryo p np (.inr (.inr (running runs))) (by simp [task, Task.child])
    have size : (l.ptable p).sz = (k.ptable p).sz := by
      obtain ⟨_, _, _, entry⟩ := (h.table p).awake (.inr (running runs))
      rw [entry]
    simp only [perform, withProc_of_some (h.runs runs).2.2, thread runs, task, Kernel.forkCopy,
      ↓reduceIte, size]
    exact (h.setProc ((h.table np).link embryo _ p) (by simp [Proc.Live, embryo])).setTask p _
  | @forkReady c p np runs task =>
    have alive : (k.ptable p).Live := .inr (.inr (running runs))
    have alive' : (l.ptable p).Live := .inr (.inr ((h.table p).state.trans (running runs)))
    have task' : (l.thread p).task = .forkReady np := by rw [thread runs]; exact task
    have embryo := base.forks.embryo p np alive (by simp [task, Task.child])
    have linked := family.linked p np alive task
    simp only [perform, withProc_of_some (h.runs runs).2.2, task', Kernel.forkReady, h.ticks]
    have table := h.table.update ((h.table np).publish embryo (by simp [linked]) k.ticks) np
    have published : Twins (k.setProc np ((k.ptable np).ready k.ticks))
        (l.setProc np ((l.ptable np).ready k.ticks)) := by
      refine ⟨table, fun q now => ?_, h.cpus, h.lock, h.nextpid, h.initproc, h.ticks⟩
      by_cases here : q = np
      · -- both threads are as allocproc() set them up
        subst here
        have fresh := base.forks.fresh p q alive (.inr task)
        exact (base'.forks.fresh p q alive' (.inr task')).trans fresh.symm
      · exact h.thread q (by simpa [Kernel.setProc, here] using now)
    exact published.setTask p .run
  | @wait c p call runs task =>
    simp only [perform, withProc_of_some (h.runs runs).2.2]
    exact h.waitLoop (running runs) call
  | @exitBegin c p intr runs task notInit =>
    simp only [perform, withProc_of_some (h.runs runs).2.2]
    exact h.setTask p _
  | @exit c p intr runs task =>
    simp only [perform, withProc_of_some (h.runs runs).2.2, Kernel.exit, thread runs]
    have table : AlikeTables (exitTable k.ticks k.initproc p k.ptable)
        (exitTable l.ticks l.initproc p l.ptable) := by
      rw [h.ticks, h.initproc]
      exact h.table.exitTable k.ticks k.initproc p (running runs)
    exact (h.setTable table (live (by simp))).sched c p (k.thread p).resume

/-! ## What system calls return -/

/-- sys_getppid(): two times of the caller, stored through `char *`. -/
def sysGetppid (t : Table) (me : Slot) (esp : UInt32) (m : Memory) : Int32 × Memory :=
  let arg := waitArg t me esp m
  (0, m.storeBytes [(arg 0, (t me).etime - (t me).ctime - (t me).rtime), (arg 1, (t me).rtime)])

theorem Alike.live {p q : Proc} (h : Alike p q) (live : p.Live) :
    ∃ chan etime, etime.toUInt8 = p.etime.toUInt8 ∧ q = { p with chan := chan, etime := etime } := by
  obtain ⟨sz, chan, etime, byte, size, _, _, rfl⟩ := h.used (by grind)
  obtain rfl := size (by grind)
  exact ⟨chan, etime, byte, rfl⟩

theorem Alike.zombie {p q : Proc} (h : Alike p q) (zombie : p.state = .zombie) :
    ∃ chan, q = { p with chan := chan } := by
  obtain ⟨sz, chan, etime, _, size, _, exited, rfl⟩ := h.used (by simp [zombie])
  obtain rfl := size (by simp [zombie])
  obtain rfl := exited zombie
  exact ⟨chan, rfl⟩

theorem AlikeTables.waitReport {t u : Table} (h : AlikeTables t u) (me : Slot) (m : Memory)
    {values : Proc → List UInt32} (blind : ∀ p chan, values { p with chan := chan } = values p)
    (ptrs : List UInt32) :
    (waitReport values ptrs u me m).map (fun r => (r.1, r.2.2)) =
      (waitReport values ptrs t me m).map (fun r => (r.1, r.2.2)) := by
  unfold Xv6.waitReport
  rw [h.waitScan]
  cases found : Xv6.waitScan t me with
  | zombie child =>
    obtain ⟨chan, eq⟩ := (h child).zombie (waitScan_zombie found).2
    simp [eq, blind]
  | giveUp | block => rfl

end Xv6
