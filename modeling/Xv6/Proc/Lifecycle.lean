import Xv6.Proc.Transitions

/-! What one step can do to one slot of the table. Every invariant of the
process table is proved by cases on `Move`, so the loops over the table are
looked into here and nowhere else. -/

namespace Xv6
open Kernel
variable {n : Nat}

/-! ## Slots a step touches in passing -/

/-- The entry of a slot the step is not about: apart from its stored share,
its parent and the kill flag, at most it is woken up. -/
structure Passive (ticks : UInt32) (p v : Proc) : Prop where
  fixed : v = { p with
    grt := v.grt, parent := v.parent, killed := v.killed, state := v.state, priority := v.priority }
  queue : v.state = p.state ∧ v.priority = p.priority ∨
    p.state = .sleeping ∧ v.state = .runnable ∧ v.priority = ticks

theorem Passive.refl (ticks : UInt32) (p : Proc) : Passive ticks p p := ⟨rfl, .inl ⟨rfl, rfl⟩⟩

theorem Passive.trans {ticks : UInt32} {p q v : Proc} (h : Passive ticks p q)
    (h' : Passive ticks q v) : Passive ticks p v := by
  refine ⟨?_, ?_⟩
  · have := h'.fixed
    rw [h.fixed] at this
    simpa using this
  · obtain ⟨same, prio⟩ | woken := h.queue
    · obtain ⟨same', prio'⟩ | woken' := h'.queue
      · exact .inl ⟨same'.trans same, prio'.trans prio⟩
      · exact .inr ⟨same ▸ woken'.1, woken'.2⟩
    · obtain ⟨same', prio'⟩ | woken' := h'.queue
      · exact .inr ⟨woken.1, same'.trans woken.2.1, prio'.trans woken.2.2⟩
      · exact .inr ⟨woken.1, woken'.2⟩

theorem passive_ready {ticks : UInt32} {p : Proc} (h : p.state = .sleeping) :
    Passive ticks p (p.ready ticks) := ⟨rfl, .inr ⟨h, rfl, rfl⟩⟩

theorem passive_parent (ticks : UInt32) (p : Proc) (parent : Option Slot) :
    Passive ticks p { p with parent := parent } := ⟨rfl, .inl ⟨rfl, rfl⟩⟩

theorem passive_killed (ticks : UInt32) (p : Proc) (killed : Bool) :
    Passive ticks p { p with killed := killed } := ⟨rfl, .inl ⟨rfl, rfl⟩⟩

theorem passive_graded (ticks : UInt32) (p : Proc) (grt : UInt32) :
    Passive ticks p { p with grt := grt } := ⟨rfl, .inl ⟨rfl, rfl⟩⟩

theorem passive_kill (ticks : UInt32) (p : Proc) : Passive ticks p (p.kill ticks) := by
  unfold Proc.kill
  split
  · rename_i h
    exact ⟨rfl, .inr ⟨h, rfl, rfl⟩⟩
  · exact ⟨rfl, .inl ⟨rfl, rfl⟩⟩

theorem passive_wakeup1 (ticks : UInt32) (chan : Option Chan) (t : Table) (i : Slot) :
    Passive ticks (t i) (wakeup1 ticks chan t i) := by
  unfold wakeup1
  split
  · rename_i h
    exact passive_ready h.1
  · exact .refl _ _

@[simp] theorem wakeup1_parent (ticks : UInt32) (chan : Option Chan) (t : Table) (i : Slot) :
    (wakeup1 ticks chan t i).parent = (t i).parent := by
  unfold wakeup1
  split <;> rfl

theorem kill_slot (ticks : UInt32) (pid : Int32) (t : Table) (i : Slot) :
    kill ticks pid t i = t i ∨ kill ticks pid t i = (t i).kill ticks := by
  unfold kill
  cases findPid pid t with
  | none => exact .inl rfl
  | some p =>
    by_cases h : i = p
    · subst h; simp
    · simp [h]

/-! ## The loop of exit() -/

theorem adopt_parent (ticks : UInt32) (initproc me : Slot) (t : Table) (p i : Slot) :
    (adopt ticks initproc me t p i).parent =
      if i = p ∧ (t p).parent = some me then some initproc else (t i).parent := by
  unfold adopt
  by_cases child : (t p).parent = some me
  · by_cases h : i = p
    · subst h
      by_cases z : (t i).state = .zombie <;> simp [child, z]
    · by_cases z : (t p).state = .zombie <;> simp [child, z, h]
  · simp [child]

theorem passive_adopt (ticks : UInt32) (initproc me : Slot) (t : Table) (p i : Slot) :
    Passive ticks (t i) (adopt ticks initproc me t p i) := by
  have linked : Passive ticks (t i)
      (Function.update t p { t p with parent := some initproc } i) := by
    by_cases h : i = p
    · subst h; simpa using passive_parent ticks (t i) _
    · simpa [h] using Passive.refl ticks (t i)
  unfold adopt
  by_cases child : (t p).parent = some me
  · by_cases z : (t p).state = .zombie
    · simpa only [child, z, ↓reduceIte] using linked.trans (passive_wakeup1 _ _ _ _)
    · simpa only [child, z, ↓reduceIte] using linked
  · simpa only [child, ↓reduceIte] using Passive.refl ticks (t i)

theorem foldl_adopt (ticks : UInt32) (initproc me : Slot) (l : List Slot) (nodup : l.Nodup)
    (t : Table) (i : Slot) :
    Passive ticks (t i) (l.foldl (adopt ticks initproc me) t i) ∧
    (l.foldl (adopt ticks initproc me) t i).parent =
      if i ∈ l ∧ (t i).parent = some me then some initproc else (t i).parent := by
  induction l generalizing t with
  | nil => exact ⟨.refl _ _, by simp⟩
  | cons p l ih =>
    obtain ⟨fresh, nodup⟩ := List.nodup_cons.mp nodup
    obtain ⟨passive, parent⟩ := ih nodup (adopt ticks initproc me t p)
    refine ⟨(passive_adopt ticks initproc me t p i).trans passive, ?_⟩
    rw [List.foldl_cons, parent, adopt_parent]
    by_cases h : i = p
    · subst h
      by_cases child : (t i).parent = some me <;> simp [fresh, child]
    · simp [h]

/-- exit() seen from another slot: its parent changes if it was a child. -/
theorem exitTable_other (ticks : UInt32) (initproc me : Slot) (t : Table) (i : Slot) (h : i ≠ me) :
    Passive ticks (t i) (exitTable ticks initproc me t i) ∧
    (exitTable ticks initproc me t i).parent =
      if (t i).parent = some me then some initproc else (t i).parent := by
  have nodup : slots.Nodup := slots_sorted.imp (fun h => ne_of_lt h)
  obtain ⟨passive, parent⟩ := foldl_adopt ticks initproc me slots nodup
    (wakeup1 ticks ((t me).parent.map .proc) t) i
  simp only [exitTable, Function.update_of_ne h]
  exact ⟨(passive_wakeup1 _ _ _ _).trans passive, by simpa using parent⟩

theorem wakeup1_awake {t : Table} {i : Slot} (h : (t i).state ≠ .sleeping) (ticks : UInt32)
    (chan : Option Chan) : wakeup1 ticks chan t i = t i := by
  simp [wakeup1, h]

theorem adopt_awake {t : Table} {me i : Slot} (awake : (t i).state ≠ .sleeping)
    (other : (t i).parent ≠ some me) (ticks : UInt32) (initproc p : Slot) :
    adopt ticks initproc me t p i = t i := by
  unfold adopt
  by_cases child : (t p).parent = some me
  · have h : i ≠ p := fun h => other (h ▸ child)
    by_cases z : (t p).state = .zombie
    · simp [child, z, wakeup1, h, awake]
    · simp [child, z, h]
  · simp [child]

theorem foldl_adopt_awake {t : Table} {me i : Slot} (awake : (t i).state ≠ .sleeping)
    (other : (t i).parent ≠ some me) (ticks : UInt32) (initproc : Slot) (l : List Slot) :
    l.foldl (adopt ticks initproc me) t i = t i := by
  induction l generalizing t with
  | nil => rfl
  | cons p l ih =>
    have same := adopt_awake awake other ticks initproc p
    rw [List.foldl_cons, ih (same ▸ awake) (same ▸ other), same]

/-- exit() seen from the exiting process, which is not its own parent. -/
theorem exitTable_self (ticks : UInt32) (initproc me : Slot) (t : Table)
    (running : (t me).state = .running) (notOwn : (t me).parent ≠ some me) :
    exitTable ticks initproc me t me = { t me with state := .zombie, etime := ticks } := by
  have awake : (t me).state ≠ .sleeping := by simp [running]
  have same := wakeup1_awake awake ticks ((t me).parent.map .proc)
  simp only [exitTable, Function.update_self]
  rw [foldl_adopt_awake (by rwa [same]) (by rwa [same]), same]

/-! ## The scan of the wait calls -/

theorem waitScan_zombie {t : Table} {me child : Slot} (h : waitScan t me = .zombie child) :
    (t child).parent = some me ∧ (t child).state = .zombie := by
  unfold waitScan at h
  split at h
  · rename_i p found
    cases h
    simpa using List.find?_some found
  · dsimp only at h
    split at h <;> cases h

theorem findUnused_unused {t : Table} {p : Slot} (h : findUnused t = some p) :
    (t p).state = .unused := by
  simpa [findUnused] using List.find?_some h

/-! ## Invariants the cases rest on -/

/-- SLEEPING, RUNNABLE or RUNNING: the slot has a thread that will go on. -/
abbrev Proc.Live (p : Proc) : Prop :=
  p.state = .sleeping ∨ p.state = .runnable ∨ p.state = .running

/-- The slot a thread in the middle of fork() is filling in. -/
def Task.child : Task → Option Slot
  | .forkStack np | .forkCopy np | .forkReady np => some np
  | .run | .exiting _ => none

/-- CPUs and RUNNING processes correspond one to one outside critical sections. -/
structure Exclusive (k : Kernel n) : Prop where
  held : ∀ c, k.lock = some c ↔ (k.cpus c).mode = .returned ∨ (k.cpus c).mode = .resumed
  idle : ∀ c, (k.cpus c).mode = .scheduler → (k.cpus c).proc = none
  runs : ∀ c, (k.cpus c).mode = .resumed ∨ (k.cpus c).mode = .thread →
    ∃ p, (k.cpus c).proc = some p ∧ (k.ptable p).state = .running
  left : ∀ c, (k.cpus c).mode = .returned →
    ∃ p, (k.cpus c).proc = some p ∧ (k.ptable p).state ≠ .running
  owner : ∀ p, (k.ptable p).state = .running → ∃ c, (k.cpus c).proc = some p
  once : ∀ c d p, (k.cpus c).proc = some p → (k.cpus d).proc = some p → c = d

/-- A slot being filled in by fork() is EMBRYO and belongs to one thread; its
own thread is set up once it has a stack. -/
structure Forks (k : Kernel n) : Prop where
  embryo : ∀ p np, (k.ptable p).Live → (k.thread p).task.child = some np →
    (k.ptable np).state = .embryo
  unique : ∀ p q np, (k.ptable p).Live → (k.ptable q).Live →
    (k.thread p).task.child = some np → (k.thread q).task.child = some np → p = q
  fresh : ∀ p np, (k.ptable p).Live →
    (k.thread p).task = .forkCopy np ∨ (k.thread p).task = .forkReady np →
    k.thread np = ⟨.forkret, .run⟩

/-- initproc never exits and has no parent; nobody is its own parent. -/
structure Rooted (k : Kernel n) : Prop where
  live : (k.ptable k.initproc).Live
  stays : ∀ intr, (k.thread k.initproc).task ≠ .exiting intr
  orphan : (k.ptable k.initproc).parent = none
  proper : ∀ p, (k.ptable p).parent ≠ some p

structure Base (k : Kernel n) : Prop where
  exclusive : Exclusive k
  forks : Forks k
  rooted : Rooted k

/-! ## The moves of a slot -/

/-- The parent a slot has after the step: exit() passes children to init. -/
def heir (k : Kernel n) (a : Action n) (parent : Option Slot) : Option Slot :=
  if a.act = .exit ∧ parent = (k.cpus a.cpu).proc then some k.initproc else parent

/-- What the step `a` can make of slot `i`. -/
inductive Move (strategy : Nat) (k : Kernel n) (a : Action n) (i : Slot) : Proc → Prop where
  | passive {v : Proc} (h : Passive k.ticks (k.ptable i) v)
      (parent : v.parent = heir k a (k.ptable i).parent) : Move strategy k a i v
  | dispatch {grt priority : UInt32} (act : a.act = .pass ∨ a.act = .back)
      (event : k.emit strategy a = [.dispatch a.cpu i])
      (runnable : (k.ptable i).state = .runnable)
      (stamp : priority = (k.ptable i).priority ∨ priority = k.ticks) :
      Move strategy k a i
        { k.ptable i with grt, priority, myquantum := 0, state := .running }
  | charge (act : a.act = .charge) (runs : (k.cpus a.cpu).proc = some i)
      (running : (k.ptable i).state = .running) : Move strategy k a i (k.ptable i).charge
  | yield (act : a.act = .trapYield) (runs : (k.cpus a.cpu).proc = some i)
      (running : (k.ptable i).state = .running) :
      Move strategy k a i ((k.ptable i).ready k.ticks)
  | sleep {chan : Chan} (act : a.act = .sleep chan ∨ a.act = .resume ∨ ∃ call, a.act = .wait call)
      (runs : (k.cpus a.cpu).proc = some i) (running : (k.ptable i).state = .running) :
      Move strategy k a i { k.ptable i with chan := some chan, state := .sleeping }
  | clear (act : a.act = .resume) (runs : (k.cpus a.cpu).proc = some i)
      (running : (k.ptable i).state = .running) :
      Move strategy k a i { k.ptable i with chan := none }
  | reap {p : Slot} (act : a.act = .resume ∨ ∃ call, a.act = .wait call)
      (runs : (k.cpus a.cpu).proc = some p) (running : (k.ptable p).state = .running)
      (event : k.emit strategy a = [.wait p (k.ptable i).pid])
      (zombie : (k.ptable i).state = .zombie) (parent : (k.ptable i).parent = some p) :
      Move strategy k a i (k.ptable i).reap
  | nice (act : a.act = .nice) (runs : (k.cpus a.cpu).proc = some i)
      (running : (k.ptable i).state = .running) : Move strategy k a i ((k.ptable i).nice k.ticks)
  | setcid {cid : Int32} (act : a.act = .setcid cid) (runs : (k.cpus a.cpu).proc = some i)
      (running : (k.ptable i).state = .running) : Move strategy k a i { k.ptable i with cid := cid }
  | exec {sz : UInt32} (act : a.act = .exec sz) (runs : (k.cpus a.cpu).proc = some i)
      (running : (k.ptable i).state = .running) :
      Move strategy k a i ((k.ptable i).exec k.ticks sz)
  | alloc (act : a.act = .fork) (unused : (k.ptable i).state = .unused) :
      Move strategy k a i ((k.ptable i).alloc k.ticks k.nextpid)
  | abandon (act : a.act = .forkStack false ∨ a.act = .forkCopy false)
      (embryo : (k.ptable i).state = .embryo) : Move strategy k a i { k.ptable i with state := .unused }
  | link {p : Slot} {sz : UInt32} (act : a.act = .forkCopy true)
      (runs : (k.cpus a.cpu).proc = some p) (running : (k.ptable p).state = .running)
      (task : (k.thread p).task = .forkCopy i) (embryo : (k.ptable i).state = .embryo) :
      Move strategy k a i { k.ptable i with sz := sz, parent := some p }
  | publish {p : Slot} (act : a.act = .forkReady) (runs : (k.cpus a.cpu).proc = some p)
      (running : (k.ptable p).state = .running) (task : (k.thread p).task = .forkReady i)
      (embryo : (k.ptable i).state = .embryo)
      (event : k.emit strategy a = [.fork p (k.ptable i).pid]) :
      Move strategy k a i ((k.ptable i).ready k.ticks)
  | exit {intr : Bool} (act : a.act = .exit) (runs : (k.cpus a.cpu).proc = some i)
      (running : (k.ptable i).state = .running) (task : (k.thread i).task = .exiting intr)
      (event : k.emit strategy a = [.exit i (k.ptable i).pid]) :
      Move strategy k a i { k.ptable i with state := .zombie, etime := k.ticks }

theorem heir_of_ne {k : Kernel n} {a : Action n} (h : a.act ≠ .exit) (parent : Option Slot) :
    heir k a parent = parent := by
  simp [heir, h]

/-- A slot the step leaves alone. -/
theorem Move.same {strategy : Nat} {k : Kernel n} {a : Action n} {i : Slot} {v : Proc}
    (h : a.act ≠ .exit) (eq : v = k.ptable i) : Move strategy k a i v := by
  subst eq
  exact .passive (.refl _ _) (heir_of_ne h _).symm

theorem Move.grade {strategy : Nat} {k : Kernel n} {a : Action n} {i : Slot} {v : Proc}
    (h : a.act ≠ .exit) (eq : ∃ grt, v = { k.ptable i with grt := grt }) : Move strategy k a i v := by
  obtain ⟨grt, rfl⟩ := eq
  exact .passive (passive_graded _ _ _) (heir_of_ne h _).symm

/-- A step that sets only slot `p`. -/
theorem move_update {strategy : Nat} {k : Kernel n} {a : Action n} {p : Slot} {v : Proc}
    (h : a.act ≠ .exit) (here : Move strategy k a p v) (i : Slot) :
    Move strategy k a i (Function.update k.ptable p v i) := by
  by_cases eq : i = p
  · subst eq; simpa using here
  · exact .same h (by simp [eq])

theorem move_wakeup {strategy : Nat} {k : Kernel n} {a : Action n} (h : a.act ≠ .exit)
    (chan : Option Chan) (i : Slot) : Move strategy k a i (wakeup1 k.ticks chan k.ptable i) :=
  .passive (passive_wakeup1 _ _ _ _) (by simp [heir_of_ne h])

theorem emit_of_switches {strategy : Nat} {k : Kernel n} {a : Action n} {o : Outcome} {p : Slot}
    (emits : k.emit strategy a = dispatchEvents a.cpu o) (h : o.Switches k.ticks k.ptable p) :
    k.emit strategy a = [.dispatch a.cpu p] := by
  obtain ⟨ctx, next⟩ := Option.isSome_iff_exists.mp h.next
  simp [emits, dispatchEvents, Outcome.dispatched, next, h.proc]

theorem follow_ptable (k : Kernel n) (c : Fin n) (o : Outcome) : (k.follow c o).ptable = o.table := by
  unfold follow
  split <;> rfl

theorem move_follow {strategy : Nat} {k : Kernel n} {a : Action n} {o : Outcome}
    {proc : Option Slot} (act : a.act = .pass ∨ a.act = .back)
    (emits : k.emit strategy a = dispatchEvents a.cpu o)
    (h : (∃ p, o.Switches k.ticks k.ptable p) ∨ o.Ends k.ptable proc) (i : Slot) :
    Move strategy k a i ((k.follow a.cpu o).ptable i) := by
  have notExit : a.act ≠ .exit := by grind
  rw [follow_ptable]
  obtain ⟨p, switches⟩ | ends := h
  · by_cases eq : i = p
    · subst eq
      obtain ⟨grt, priority, stamp, entry⟩ := switches.entry
      rw [entry]
      exact .dispatch act (emit_of_switches emits switches) switches.runnable stamp
    · exact .grade notExit (switches.others i eq)
  · exact .grade notExit (ends.others i id)

theorem emit_wait {strategy : Nat} {k : Kernel n} {a : Action n} {p child : Slot}
    (runs : (k.cpus a.cpu).proc = some p)
    (act : (a.act = .resume ∧ ∃ call, (k.thread p).resume = .wait call) ∨ ∃ call, a.act = .wait call)
    (scan : waitScan k.ptable p = .zombie child) :
    k.emit strategy a = [.wait p (k.ptable child).pid] := by
  obtain ⟨act, call, resume⟩ | ⟨call, act⟩ := act
  · simp [emit, act, runs, resume, waitEvents, scan]
  · simp [emit, act, runs, waitEvents, scan]

/-- The scan of the wait calls does not look at the caller's channel. -/
theorem waitScan_chan (t : Table) (p : Slot) (chan : Option Chan) :
    waitScan (Function.update t p { t p with chan := chan }) p = waitScan t p := by
  have parent (q : Slot) :
      (Function.update t p { t p with chan := chan } q).parent = (t q).parent := by
    by_cases h : q = p
    · subst h; simp
    · simp [h]
  have state (q : Slot) :
      (Function.update t p { t p with chan := chan } q).state = (t q).state := by
    by_cases h : q = p
    · subst h; simp
    · simp [h]
  simp only [waitScan, parent, state, Function.update_self]

/-- One turn of the wait loop, entered with the caller's channel changed or not. -/
theorem move_waitLoop {strategy : Nat} {k : Kernel n} {a : Action n} {p : Slot} {v : Proc}
    (call : WaitCall) (runs : (k.cpus a.cpu).proc = some p) (running : (k.ptable p).state = .running)
    (act : (a.act = .resume ∧ ∃ call, (k.thread p).resume = .wait call) ∨ ∃ call, a.act = .wait call)
    (entry : v = { k.ptable p with chan := v.chan })
    (here : Move strategy k a p v) (i : Slot) :
    Move strategy k a i (((k.setProc p v).waitLoop a.cpu p call).ptable i) := by
  have notExit : a.act ≠ .exit := by grind
  have scan : waitScan (Function.update k.ptable p v) p = waitScan k.ptable p := by
    rw [entry]; exact waitScan_chan _ _ _
  unfold waitLoop
  simp only [setProc, scan]
  cases found : waitScan k.ptable p with
  | zombie child =>
    obtain ⟨parent, zombie⟩ := waitScan_zombie found
    have other : child ≠ p := by rintro rfl; simp [running] at zombie
    by_cases eq : i = child
    · subst eq
      simpa [release, setCpu, other] using
        Move.reap (by grind) runs running (emit_wait runs act found) zombie parent
    · simpa [release, setCpu, eq] using move_update notExit here i
  | giveUp => exact move_update notExit here i
  | block =>
    have asleep : Move strategy k a p { v with chan := some (.proc p), state := .sleeping } := by
      rw [entry]
      exact .sleep (by grind) runs running
    simpa [Kernel.sleep, sched, setCpu, setProc] using move_update notExit asleep i

/-- Every step moves every slot in one of the listed ways. -/
theorem move_of_step {strategy : Nat} {k k' : Kernel n} {a : Action n} (base : Base k)
    (step : Step strategy k a k') (i : Slot) : Move strategy k a i (k'.ptable i) := by
  have runningOf {c : Fin n} {p : Slot} (runs : k.Runs c p) : (k.ptable p).state = .running := by
    obtain ⟨q, hq, running⟩ := base.exclusive.runs c (.inr runs.2.1)
    obtain rfl : p = q := Option.some.inj (runs.2.2.symm.trans hq)
    exact running
  have embryoOf {c : Fin n} {p np : Slot} (runs : k.Runs c p)
      (child : (k.thread p).task.child = some np) : (k.ptable np).state = .embryo :=
    base.forks.embryo p np (.inr (.inr (runningOf runs))) child
  cases step with
  | pass ready top =>
    exact move_follow (.inl rfl) rfl (schedule_switches_or_ends strategy k.ticks k.ptable _) i
  | back held switched =>
    exact move_follow (.inr rfl) rfl (reschedule_switches_or_ends strategy k.ticks k.ptable _) i
  | @resume c p held switched runs =>
    obtain ⟨q, hq, running⟩ := base.exclusive.runs c (.inl switched)
    obtain rfl : p = q := Option.some.inj (runs.symm.trans hq)
    have cleared : Move strategy k ⟨c, .resume⟩ p { k.ptable p with chan := none } :=
      .clear rfl runs running
    unfold Kernel.resume
    cases resume : (k.thread p).resume with
    | forkret | yield => exact .same (by simp) rfl
    | sleep => exact move_update (by simp) cleared i
    | wait call =>
      exact move_waitLoop call runs running (.inl ⟨rfl, call, resume⟩) rfl cleared i
  | timer ready takes =>
    refine .same (by simp) ?_
    unfold Kernel.timer
    split <;> rfl
  | tickWakeup handler => exact move_wakeup (by simp) _ i
  | charge handler runs running => exact move_update (by simp) (.charge rfl runs running) i
  | uncharged handler free => exact .same (by simp) rfl
  | trapExit handler runs killed task notInit => exact .same (by simp) rfl
  | yield handler runs running used => exact move_update (by simp) (.yield rfl runs running) i
  | trapReturn handler left => exact .same (by simp) rfl
  | @fault c p runs task notInit =>
    have here : Move strategy k ⟨c, .fault⟩ p { k.ptable p with killed := true } :=
      .passive (passive_killed _ _ _) (heir_of_ne (by simp) _).symm
    exact move_update (by simp) here i
  | wakeup ready other => exact move_wakeup (by simp) _ i
  | sleep runs may other =>
    exact move_update (by simp) (.sleep (.inl rfl) runs.2.2 (runningOf runs)) i
  | @kill c p pid runs task =>
    change Move strategy k _ i (Xv6.kill k.ticks pid k.ptable i)
    obtain eq | eq := kill_slot k.ticks pid k.ptable i
    · exact .same (by simp) eq
    · rw [eq]
      refine .passive (passive_kill _ _) ?_
      rw [heir_of_ne (by simp), Proc.kill]
      split <;> rfl
  | nice runs task => exact move_update (by simp) (.nice rfl runs.2.2 (runningOf runs)) i
  | setcid runs task => exact move_update (by simp) (.setcid rfl runs.2.2 (runningOf runs)) i
  | exec runs task => exact move_update (by simp) (.exec rfl runs.2.2 (runningOf runs)) i
  | fork runs task found =>
    exact move_update (by simp) (.alloc rfl (findUnused_unused found)) i
  | forkFull runs task full => exact .same (by simp) rfl
  | forkStack runs task => exact .same (by simp) rfl
  | forkStackFail runs task =>
    exact move_update (by simp) (.abandon (.inl rfl) (embryoOf runs (by simp [task, Task.child]))) i
  | forkCopy runs task =>
    exact move_update (by simp)
      (.link rfl runs.2.2 (runningOf runs) task (embryoOf runs (by simp [task, Task.child]))) i
  | forkCopyFail runs task =>
    exact move_update (by simp) (.abandon (.inr rfl) (embryoOf runs (by simp [task, Task.child]))) i
  | forkReady runs task =>
    exact move_update (by simp)
      (.publish rfl runs.2.2 (runningOf runs) task (embryoOf runs (by simp [task, Task.child]))
        (by simp [emit, runs.2.2, task])) i
  | @wait c p call runs task =>
    have turn : Move strategy k ⟨c, .wait call⟩ i
        (((k.setProc p (k.ptable p)).waitLoop c p call).ptable i) :=
      move_waitLoop call runs.2.2 (runningOf runs) (.inr ⟨call, rfl⟩) rfl (.same (by simp) rfl) i
    simpa [setProc] using turn
  | exitBegin runs task notInit => exact .same (by simp) rfl
  | @exit c p intr runs task =>
    have running := runningOf runs
    by_cases eq : i = p
    · subst eq
      have self := exitTable_self k.ticks k.initproc i k.ptable running (base.rooted.proper i)
      have exits : Move strategy k ⟨c, .exit⟩ i
          { k.ptable i with state := .zombie, etime := k.ticks } :=
        .exit rfl runs.2.2 running task (by simp [emit, runs.2.2])
      simpa only [Kernel.exit, sched, setCpu, self] using exits
    · obtain ⟨passive, parent⟩ := exitTable_other k.ticks k.initproc p k.ptable i eq
      exact .passive passive (by simpa [heir, runs.2.2, Kernel.exit, sched, setCpu] using parent)

end Xv6
