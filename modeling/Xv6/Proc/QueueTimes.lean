import Xv6.Proc.WaitReport
import Xv6.Proc.Accounting

/-! The times that nice() records. On one CPU, the run time and the age of a
process that never calls exec() are split at its first two calls of nice(), and
in each part the run time is within the age. -/

namespace Xv6
open Kernel Lib
variable {strategy : Nat}

/-! ## The calls of a process -/

/-- What the process in a slot has called since its fork(). -/
structure Calls where
  nices : Nat
  exec : Bool

/-- One step of the record; a slot that is UNUSED starts over. -/
def noteCalls {n : Nat} (k : Kernel n) (a : Action n) (calls : Slot → Calls) : Slot → Calls :=
  fun p =>
    if (k.ptable p).state = .unused then ⟨0, false⟩
    else if (k.cpus a.cpu).proc = some p then
      match a.act with
      | .nice => { calls p with nices := (calls p).nices + 1 }
      | .exec _ => { calls p with exec := true }
      | _ => calls p
    else calls p

/-- The calls of the processes in a run from boot. -/
def callsOf (strategy : Nat) (as : List (Action 1)) : Slot → Calls :=
  (kernel strategy 1).track noteCalls (boot 1) as fun _ => ⟨0, false⟩

/-! ## The property -/

/-- The times recorded after that many calls of nice(). -/
structure Partitioned (p : Proc) (ticks : UInt32) (nices : Nat) : Prop where
  once : 1 ≤ nices → p.q3rtime ≤ p.q3tatime
  twice : 2 ≤ nices → p.q2rtime ≤ p.q2tatime ∧
    p.q3rtime.toNat + p.q2rtime.toNat ≤ p.rtime.toNat ∧
    p.q3tatime.toNat + p.q2tatime.toNat ≤ ticks.toNat - p.ctime.toNat

/-- No subtraction of sys_nice() wraps, and from the third call on it leaves the
times as they are. -/
structure NiceExact (p : Proc) (ticks : UInt32) (nices : Nat) : Prop where
  first : p.queuelevel = 3 → p.ctime ≤ ticks
  second : p.queuelevel = 2 →
    p.q3rtime ≤ p.rtime ∧ p.ctime ≤ ticks ∧ p.q3tatime ≤ ticks - p.ctime
  further : 2 ≤ nices → (p.nice ticks).q3rtime = p.q3rtime ∧
    (p.nice ticks).q3tatime = p.q3tatime ∧ (p.nice ticks).q2rtime = p.q2rtime ∧
    (p.nice ticks).q2tatime = p.q2tatime

/-- Every call of nice() by a process that has not called exec() is exact. -/
def NicesExact {n : Nat} (k : Kernel n) (calls : Slot → Calls) (a : Action n) : Prop :=
  a.act = .nice → ∀ p, (k.cpus a.cpu).proc = some p → (calls p).exec = false →
    NiceExact (k.ptable p) k.ticks (calls p).nices

/-! ## One process -/

/-- The times of a process that is at least `late` ticks behind the clock, and
that has run since its first nice() no longer than it has lived since. -/
structure Timed (p : Proc) (ticks : UInt32) (late nices : Nat) : Prop where
  behind : p.spent + late ≤ ticks.toNat
  level : p.queuelevel = if nices = 0 then 3 else if nices = 1 then 2 else 1
  first : 1 ≤ nices → p.q3rtime.toNat ≤ p.q3tatime.toNat ∧
    p.q3rtime.toNat ≤ p.rtime.toNat ∧ p.ctime.toNat + p.q3tatime.toNat ≤ ticks.toNat ∧
    p.spent + p.q3tatime.toNat + late ≤ ticks.toNat + p.q3rtime.toNat
  second : 2 ≤ nices → p.q2rtime.toNat ≤ p.q2tatime.toNat ∧
    p.q3rtime.toNat + p.q2rtime.toNat ≤ p.rtime.toNat ∧
    p.ctime.toNat + p.q3tatime.toNat + p.q2tatime.toNat ≤ ticks.toNat

/-- The fields the times are computed from. -/
def Proc.times (p : Proc) : List UInt32 × Int32 :=
  ([p.ctime, p.rtime, p.q3rtime, p.q3tatime, p.q2rtime, p.q2tatime], p.queuelevel)

section
variable {p v : Proc} {ticks ticks' : UInt32} {late nices : Nat}

theorem Timed.partitioned (h : Timed p ticks late nices) : Partitioned p ticks nices where
  once after := UInt32.le_iff_toNat_le.mpr (h.first after).1
  twice after := by
    obtain ⟨times, run, age⟩ := h.second after
    exact ⟨UInt32.le_iff_toNat_le.mpr times, run, by omega⟩

theorem Timed.age (h : Timed p ticks late nices) :
    p.ctime ≤ ticks ∧ (ticks - p.ctime).toNat = ticks.toNat - p.ctime.toNat := by
  have behind := h.behind
  unfold Proc.spent at behind
  have le : p.ctime ≤ ticks := UInt32.le_iff_toNat_le.mpr (by omega)
  exact ⟨le, UInt32.toNat_sub_of_le _ _ le⟩

/-- The clock moves on, and the timer handler with it. -/
theorem Timed.later {late' : Nat} (h : Timed p ticks late nices)
    (forward : ticks.toNat ≤ ticks'.toNat)
    (more : ticks.toNat + late' ≤ ticks'.toNat + late) : Timed p ticks' late' nices where
  behind := by have := h.behind; omega
  level := h.level
  first after := by have := h.first after; omega
  second after := by have := h.second after; omega

theorem Timed.of_times (h : Timed p ticks late nices) (same : v.times = p.times) :
    Timed v ticks late nices := by
  simp only [Proc.times, Prod.mk.injEq, List.cons.injEq, and_true] at same
  obtain ⟨⟨ctime, rtime, q3rtime, q3tatime, q2rtime, q2tatime⟩, level⟩ := same
  obtain ⟨behind, was, first, second⟩ := h
  constructor
  · simpa only [Proc.spent, ctime, rtime] using behind
  · rw [level, was]
  · simpa only [Proc.spent, ctime, rtime, q3rtime, q3tatime] using first
  · simpa only [ctime, rtime, q3rtime, q3tatime, q2rtime, q2tatime] using second

/-- The charge for a tick the process is behind. -/
theorem Timed.charge (h : Timed p ticks 1 nices) : Timed p.charge ticks 0 nices := by
  have behind := h.behind
  have spent : p.charge.spent = p.spent + 1 :=
    spent_charge (show p.spent < ticks.toNat by omega)
  have run : p.charge.rtime.toNat = p.rtime.toNat + 1 := by
    simp only [Proc.spent, Proc.charge] at spent ⊢
    omega
  constructor
  · omega
  · exact h.level
  · intro after
    have := h.first after
    rw [spent, run]
    simp only [Proc.charge]
    omega
  · intro after
    have := h.second after
    rw [run]
    simp only [Proc.charge]
    omega

/-- nice() writes down what the process has spent since its last nice(). -/
theorem Timed.nice (h : Timed p ticks 0 nices) : Timed (p.nice ticks) ticks 0 (nices + 1) := by
  obtain ⟨old, age⟩ := h.age
  have behind := h.behind
  have level := h.level
  obtain none | one | more : nices = 0 ∨ nices = 1 ∨ 2 ≤ nices := by omega
  · subst none
    have entry : p.nice ticks =
        { p with q3rtime := p.rtime, q3tatime := ticks - p.ctime, queuelevel := 2 } := by
      simp [Proc.nice, show p.queuelevel = 3 from level]
    rw [entry]
    refine ⟨behind, rfl, fun _ => ?_, fun after => by omega⟩
    simp only [Proc.spent, age] at behind ⊢
    omega
  · subst one
    obtain ⟨times, run, life, since⟩ := h.first (Nat.le_refl 1)
    have entry : p.nice ticks = { p with
        q2rtime := p.rtime - p.q3rtime, q2tatime := ticks - p.ctime - p.q3tatime
        queuelevel := 1 } := by
      simp [Proc.nice, show p.queuelevel = 2 from level]
    have ran : (p.rtime - p.q3rtime).toNat = p.rtime.toNat - p.q3rtime.toNat :=
      UInt32.toNat_sub_of_le _ _ (UInt32.le_iff_toNat_le.mpr run)
    have lived : (ticks - p.ctime - p.q3tatime).toNat =
        ticks.toNat - p.ctime.toNat - p.q3tatime.toNat := by
      rw [UInt32.toNat_sub_of_le _ _ (UInt32.le_iff_toNat_le.mpr (by omega)), age]
    rw [entry]
    refine ⟨behind, rfl, fun _ => ⟨times, run, life, since⟩, fun _ => ?_⟩
    simp only [Proc.spent, ran, lived] at since ⊢
    omega
  · have bottom : p.queuelevel = 1 := by
      rw [level, if_neg (by omega), if_neg (by omega)]
    have entry : p.nice ticks = p := by simp [Proc.nice, bottom]
    rw [entry]
    refine ⟨behind, ?_, fun _ => h.first (by omega), fun _ => h.second more⟩
    rw [bottom, if_neg (by omega), if_neg (by omega)]

theorem Timed.niceExact (h : Timed p ticks late nices) : NiceExact p ticks nices := by
  obtain ⟨old, age⟩ := h.age
  have level := h.level
  refine ⟨fun _ => old, fun two => ?_, fun more => ?_⟩
  · have after : 1 ≤ nices := by
      rcases Nat.eq_zero_or_pos nices with none | some
      · rw [two, none] at level
        exact absurd level (by decide)
      · exact some
    obtain ⟨_, run, life, _⟩ := h.first after
    exact ⟨UInt32.le_iff_toNat_le.mpr run, old, UInt32.le_iff_toNat_le.mpr (by omega)⟩
  · have bottom : p.queuelevel = 1 := by
      rw [level, if_neg (by omega), if_neg (by omega)]
    simp [Proc.nice, bottom]

/-- A new process has spent nothing. -/
theorem timed_alloc (p : Proc) (ticks : UInt32) (pid : Int32) :
    Timed (p.alloc ticks pid) ticks 0 0 :=
  ⟨by simp [Proc.spent, Proc.alloc], rfl, fun after => absurd after (by decide),
    fun after => absurd after (by decide)⟩

end

/-! ## One step -/

/-- What a step that is not the process's own nice() or exec() does to the times
of a slot in use after it. -/
theorem Move.times_of {n : Nat} {k : Kernel n} {a : Action n} {i : Slot} {v : Proc}
    (h : Move strategy k a i v) (nice : ¬ (a.act = .nice ∧ (k.cpus a.cpu).proc = some i))
    (used : v.state ≠ .unused) :
    (k.ptable i).state ≠ .unused ∧ v.times = (k.ptable i).times ∨
    (a.act = .charge ∧ (k.ptable i).state ≠ .unused ∧ v = (k.ptable i).charge) ∨
    (a.act = .fork ∧ (k.ptable i).state = .unused ∧ v = (k.ptable i).alloc k.ticks k.nextpid) ∨
    (∃ sz, a.act = .exec sz) ∧ (k.cpus a.cpu).proc = some i ∧ (k.ptable i).state ≠ .unused := by
  cases h with
  | passive h =>
    have queue := h.queue
    refine .inl ⟨fun unused => ?_, by rw [h.fixed]; rfl⟩
    obtain ⟨same, _⟩ | ⟨sleeping, _⟩ := queue
    · exact used (same.trans unused)
    · simp [unused] at sleeping
  | charge act runs running => exact .inr (.inl ⟨act, by simp [running], rfl⟩)
  | alloc act unused => exact .inr (.inr (.inl ⟨act, unused, rfl⟩))
  | exec act runs running => exact .inr (.inr (.inr ⟨⟨_, act⟩, runs, by simp [running]⟩))
  | nice act runs => exact absurd ⟨act, runs⟩ nice
  | reap => simp [Proc.reap] at used
  | abandon => simp at used
  | dispatch act event runnable => exact .inl ⟨by simp [runnable], rfl⟩
  | link _ _ _ _ embryo | publish _ _ _ _ embryo => exact .inl ⟨by simp [embryo], rfl⟩
  | yield _ _ running | sleep _ _ running | clear _ _ running | setcid _ _ running
  | exit _ _ running => exact .inl ⟨by simp [running], rfl⟩

/-- The ticks that the timer handler has counted and not charged yet. -/
def late (k : Kernel 1) : Nat :=
  if (k.cpus (Fin.last 0)).irq = .ticked ∨ (k.cpus (Fin.last 0)).irq = .woken then 1 else 0

theorem late_of {k : Kernel 1} (h : (k.cpus 0).irq = .ticked ∨ (k.cpus 0).irq = .woken) :
    late k = 1 := if_pos h

/-- A tick is charged for only after the clock has moved. -/
theorem step_late {k k' : Kernel 1} {a : Action 1} (handlers : Handlers k)
    (step : Step strategy k a k') (forward : k.ticks ≤ k'.ticks) :
    k.ticks.toNat + late k' ≤ k'.ticks.toNat ∨ a.act = .tickWakeup ∧ late k = 1 ∧
      k.ticks.toNat + late k' ≤ k'.ticks.toNat + late k := by
  have forward := UInt32.le_iff_toNat_le.mp forward
  by_cases inside : (k'.cpus 0).irq = .ticked ∨ (k'.cpus 0).irq = .woken
  · rw [late_of inside]
    obtain ⟨ticked, _⟩ | ⟨act, was, still⟩ := step_behind handlers step inside
    · have moved : k.ticks.toNat ≠ k'.ticks.toNat := by
        intro eq
        have := UInt32.toNat_inj.mp eq
        grind
      exact .inl (by omega)
    · exact .inr ⟨act, late_of (.inl was), by rw [late_of (.inl was)]; omega⟩
  · exact .inl (by simpa [late, inside] using forward)

/-- Every process that has not called exec() has its times in order. -/
def TimesSplit (k : Kernel 1) (calls : Slot → Calls) : Prop :=
  ∀ p, (k.ptable p).state ≠ .unused → (calls p).exec = false →
    Timed (k.ptable p) k.ticks (late k) (calls p).nices

theorem noteCalls_of {n : Nat} {k : Kernel n} {a : Action n} {calls : Slot → Calls} {p : Slot}
    (used : (k.ptable p).state ≠ .unused)
    (nice : ¬ (a.act = .nice ∧ (k.cpus a.cpu).proc = some p))
    (same : (noteCalls k a calls p).exec = false) : noteCalls k a calls p = calls p := by
  unfold noteCalls at same ⊢
  rw [if_neg used] at same ⊢
  split
  · rename_i own
    rw [if_pos own] at same
    split
    · rename_i act
      exact absurd ⟨act, own⟩ nice
    · rename_i sz act
      simp [act] at same
    · rfl
  · rfl

theorem step_nice_used {n : Nat} {k k' : Kernel n} {a : Action n} (base : Base k)
    (step : Step strategy k a k') (act : a.act = .nice) {p : Slot}
    (own : (k.cpus a.cpu).proc = some p) : (k.ptable p).state ≠ .unused := by
  cases step with
  | @nice c q runs =>
    obtain rfl : p = q := Option.some.inj (own.symm.trans runs.2.2)
    simp [base.exclusive.running runs.acts]
  | _ => simp at act

theorem step_timesSplit {k k' : Kernel 1} {a : Action 1} {calls : Slot → Calls}
    (base : Base k) (handlers : Handlers k) (step : Step strategy k a k')
    (forward : k.ticks ≤ k'.ticks) (h : TimesSplit k calls) :
    TimesSplit k' (noteCalls k a calls) := by
  have here : a.cpu = 0 := Subsingleton.elim _ _
  have clock := step_late handlers step forward
  have forward := UInt32.le_iff_toNat_le.mp forward
  intro p used called
  by_cases nice : a.act = .nice ∧ (k.cpus a.cpu).proc = some p
  · obtain ⟨act, own⟩ := nice
    have entry := step_nice step act own
    have old := step_nice_used base step act own
    have noted : noteCalls k a calls p = { calls p with nices := (calls p).nices + 1 } := by
      simp [noteCalls, old, own, act]
    have off : late k = 0 := by
      cases step with
      | nice runs => simp [late, ← here, runs.1.2]
      | _ => simp at act
    rw [noted] at called ⊢
    have timed := h p old called
    rw [off] at timed
    rw [entry]
    exact timed.nice.later forward (by simp [act] at clock; omega)
  · obtain ⟨old, same⟩ | ⟨act, old, entry⟩ | ⟨act, unused, entry⟩ | ⟨⟨sz, act⟩, own, old⟩ :=
      (move_of_step base step p).times_of nice used
    · have noted := noteCalls_of old nice called
      rw [noted] at called ⊢
      exact ((h p old called).of_times same).later forward (by omega)
    · have noted := noteCalls_of old nice called
      rw [noted] at called ⊢
      have timed := h p old called
      rw [late_of (.inr (here ▸ (step_charge_irq step act).1))] at timed
      rw [entry]
      exact timed.charge.later forward (by simp [act] at clock; omega)
    · have noted : noteCalls k a calls p = ⟨0, false⟩ := by simp [noteCalls, unused]
      rw [noted, entry]
      exact (timed_alloc _ _ _).later forward (by simp [act] at clock; omega)
    · simp [noteCalls, old, own, act] at called

theorem boot_timesSplit : TimesSplit (boot 1) fun _ => ⟨0, false⟩ := by
  intro p used _
  rw [boot_slot] at used ⊢
  split
  · exact ⟨Nat.le_refl 0, rfl, fun after => absurd after (by simp),
      fun after => absurd after (by simp)⟩
  · rename_i other
    simp [other, Proc.zero] at used

/-! ## Every run -/

/-- On one CPU, in every run in which the clock does not wrap, the times of a
process that has not called exec() are split by its calls of nice(), each of
which is exact. -/
theorem queue_times_partition {as : List (Action 1)}
    (legal : (kernel strategy 1).Legal (boot 1) as)
    (forward : (kernel strategy 1).Every (NoWrap strategy) (boot 1) as) :
    (∀ p, (((kernel strategy 1).after (boot 1) as).ptable p).state ≠ .unused →
      (callsOf strategy as p).exec = false →
      Partitioned (((kernel strategy 1).after (boot 1) as).ptable p)
        ((kernel strategy 1).after (boot 1) as).ticks (callsOf strategy as p).nices) ∧
    (kernel strategy 1).EveryTracked noteCalls NicesExact (boot 1) (fun _ => ⟨0, false⟩) as := by
  have keep : ∀ k a calls, (kernel strategy 1).Enabled k a → NoWrap strategy k a →
      Reachable strategy 1 k ∧ TimesSplit k calls →
      Reachable strategy 1 ((kernel strategy 1).perform k a) ∧
        TimesSplit ((kernel strategy 1).perform k a) (noteCalls k a calls) := by
    rintro k a calls enabled forward ⟨reachable, split⟩
    have base := reachable_base reachable
    exact ⟨.next reachable enabled, step_timesSplit base (reachable_handlers reachable)
      (base.step strategy enabled) forward split⟩
  constructor
  · intro p used called
    obtain ⟨_, split⟩ := (kernel strategy 1).track_invariant_of_every keep legal forward
      ⟨.start, boot_timesSplit⟩
    exact (split p used called).partitioned
  · refine (kernel strategy 1).everyTracked_of_every keep ?_ legal forward ⟨.start, boot_timesSplit⟩
    rintro k a calls enabled _ ⟨reachable, split⟩ act p own called
    have base := reachable_base reachable
    have step := base.step strategy enabled
    exact (split p (step_nice_used base step act own) called).niceExact

/-- init is charged a tick and calls nice(), twice; a third nice() changes nothing. -/
theorem queue_times_init :
    let as := onCpu 0 ([.pass, .resume] ++ tick ++ [.nice] ++ tick ++ [.nice, .nice])
    let k := (kernel 1 1).after (boot 1) as
    (callsOf 1 as 0).nices = 3 ∧ (k.ptable 0).state = .running ∧
      Partitioned (k.ptable 0) k.ticks 3 := by
  refine ⟨by decide +kernel, by decide +kernel, ?_⟩
  have legal : (kernel 1 1).Legal (boot 1)
      (onCpu 0 ([.pass, .resume] ++ tick ++ [.nice] ++ tick ++ [.nice, .nice])) := by
    decide +kernel
  exact (queue_times_partition legal (by decide +kernel)).1 0 (by decide +kernel)
    (by decide +kernel)

end Xv6
