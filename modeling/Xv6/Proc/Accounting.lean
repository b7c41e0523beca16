import Xv6.Proc.Interrupts
import Xv6.Proc.Waiting

/-! Time accounting on one CPU. A process is charged a tick of run time at most
once for every tick of the clock, so creation time and run time together stay
behind the clock, unless exec() moves the creation time forward. -/

namespace Xv6
open Kernel Lib
variable {strategy : Nat}

/-- Creation time and run time, as exact numbers. -/
def Proc.spent (p : Proc) : Nat := p.ctime.toNat + p.rtime.toNat

/-- The waiting times wait22() and wait33() compute do not underflow. -/
def TimesOk {n : Nat} (k : Kernel n) : Prop :=
  ∀ p, ((k.ptable p).state ≠ .unused → (k.ptable p).spent ≤ k.ticks.toNat) ∧
    ((k.ptable p).state = .zombie → (k.ptable p).spent ≤ (k.ptable p).etime.toNat)

/-- exec() is called by a process that has not been charged yet. -/
def ExecFresh {n : Nat} (k : Kernel n) (a : Action n) : Prop :=
  match a.act with
  | .exec _ => ∀ p ∈ (k.cpus a.cpu).proc, (k.ptable p).rtime = 0
  | _ => True

/-- What a step can do to the times of a slot that is in use after it. -/
theorem Move.times {n : Nat} {k : Kernel n} {a : Action n} {i : Slot} {v : Proc}
    (h : Move strategy k a i v) (used : v.state ≠ .unused) :
    ((k.ptable i).state ≠ .unused ∧ v.ctime = (k.ptable i).ctime ∧ v.rtime = (k.ptable i).rtime ∧
      (v.state = .zombie →
        (k.ptable i).state = .zombie ∧ v.etime = (k.ptable i).etime ∨ v.etime = k.ticks)) ∨
    (a.act = .charge ∧ (k.cpus a.cpu).proc = some i ∧ (k.ptable i).state = .running ∧
      v = (k.ptable i).charge) ∨
    (a.act = .fork ∧ v.ctime = k.ticks ∧ v.rtime = 0 ∧ v.state = .embryo) ∨
    ((∃ sz, a.act = .exec sz) ∧ (k.cpus a.cpu).proc = some i ∧ (k.ptable i).state = .running ∧
      v.ctime = k.ticks ∧ v.rtime = (k.ptable i).rtime ∧ v.state = .running) := by
  cases h with
  | passive h =>
    left
    have queue := h.queue
    refine ⟨by grind, by rw [h.fixed], by rw [h.fixed], fun zombie => .inl ⟨by grind, by rw [h.fixed]⟩⟩
  | charge act runs running => exact .inr (.inl ⟨act, runs, running, rfl⟩)
  | alloc act => exact .inr (.inr (.inl ⟨act, rfl, rfl, rfl⟩))
  | exec act runs running =>
    exact .inr (.inr (.inr ⟨⟨_, act⟩, runs, running, rfl, rfl, running⟩))
  | reap => simp [Proc.reap] at used
  | abandon => simp at used
  | dispatch act event runnable => exact .inl ⟨by simp [runnable], rfl, rfl, by simp⟩
  | yield act runs running => exact .inl ⟨by simp [running], rfl, rfl, by simp [Proc.ready]⟩
  | sleep act runs running => exact .inl ⟨by simp [running], rfl, rfl, by simp⟩
  | clear act runs running | setcid act runs running =>
    exact .inl ⟨by simp [running], rfl, rfl, by simp [running]⟩
  | nice act runs running =>
    refine .inl ⟨by simp [running], ?_, ?_, by simp [running]⟩ <;>
      (unfold Proc.nice; grind)
  | link act runs running task embryo =>
    exact .inl ⟨by simp [embryo], rfl, rfl, by simp [embryo]⟩
  | publish act runs running task embryo =>
    exact .inl ⟨by simp [embryo], rfl, rfl, by simp [Proc.ready]⟩
  | exit act runs running task => exact .inl ⟨by simp [running], rfl, rfl, fun _ => .inr rfl⟩

/-- Between the tick of the clock and the charge for it, every process is
behind the clock. -/
structure Accounted (k : Kernel 1) : Prop where
  ok : TimesOk k
  behind : (k.cpus 0).irq = .ticked ∨ (k.cpus 0).irq = .woken →
    ∀ p, (k.ptable p).state ≠ .unused → (k.ptable p).spent < k.ticks.toNat

/-- On one CPU, the handler is between tick and charge because the clock has
just moved or because it has just woken the clock's sleepers. -/
theorem step_behind {k k' : Kernel 1} {a : Action 1} (handlers : Handlers k)
    (step : Step strategy k a k')
    (inside : (k'.cpus 0).irq = .ticked ∨ (k'.cpus 0).irq = .woken) :
    (k'.ticks = k.ticks + 1 ∧ k'.ptable = k.ptable) ∨
    (a.act = .tickWakeup ∧ (k.cpus 0).irq = .ticked ∧ k'.ticks = k.ticks) := by
  have here : a.cpu = 0 := Subsingleton.elim _ _
  obtain off | ⟨act | act | act, _⟩ := step_irq handlers step
  · simp [← here, off] at inside
  · cases step with
    | @timer c =>
      exact .inl (by simp [Kernel.timer, setIrq, setCpu])
    | _ => simp at act
  · cases step with
    | tickWakeup handler => exact .inr ⟨rfl, here ▸ handler.2, rfl⟩
    | _ => simp at act
  · simp [← here, (step_charge_irq step act).2] at inside

/-- The charge for a tick does not overtake the clock. -/
theorem spent_charge {p : Proc} {ticks : UInt32} (h : p.spent < ticks.toNat) :
    p.charge.spent = p.spent + 1 := by
  have small := ticks.toNat_lt
  unfold Proc.spent at *
  have : (p.rtime + 1).toNat = p.rtime.toNat + 1 := by
    rw [UInt32.toNat_add]
    exact Nat.mod_eq_of_lt (by simp; omega)
  simp only [Proc.charge, this]
  omega

theorem step_accounted {k k' : Kernel 1} {a : Action 1} (base : Base k) (handlers : Handlers k)
    (step : Step strategy k a k') (forward : k.ticks ≤ k'.ticks) (fresh : ExecFresh k a)
    (h : Accounted k) : Accounted k' := by
  have here : a.cpu = 0 := Subsingleton.elim _ _
  have forward := UInt32.le_iff_toNat_le.mp forward
  have times (p : Slot) := (move_of_step base step p).times
  refine ⟨fun p => ⟨fun used => ?_, fun zombie => ?_⟩, fun inside p used => ?_⟩
  · obtain ⟨old, ctime, rtime, _⟩ | ⟨act, _, running, entry⟩ | ⟨_, ctime, rtime, _⟩ |
      ⟨⟨sz, act⟩, proc, _, ctime, rtime, _⟩ := times p used
    · have := (h.ok p).1 old
      simp only [Proc.spent, ctime, rtime] at *
      omega
    · have := h.behind (.inr (here ▸ (step_charge_irq step act).1)) p (by simp [running])
      rw [entry, spent_charge this]
      omega
    · simpa [Proc.spent, ctime, rtime] using forward
    · have uncharged : (k.ptable p).rtime = 0 := by
        simp only [ExecFresh, act] at fresh
        exact fresh p proc
      simpa [Proc.spent, ctime, rtime, uncharged] using forward
  · obtain ⟨old, ctime, rtime, etime⟩ | ⟨_, _, running, entry⟩ | ⟨_, _, _, embryo⟩ |
      ⟨_, _, _, _, _, running⟩ := times p (by simp [zombie])
    · have spent : (k'.ptable p).spent = (k.ptable p).spent := by
        simp only [Proc.spent, ctime, rtime]
      obtain ⟨was, etime⟩ | etime := etime zombie
      · rw [spent, etime]
        exact (h.ok p).2 was
      · rw [spent, etime]
        exact (h.ok p).1 old
    · simp [entry, Proc.charge, running] at zombie
    · simp [embryo] at zombie
    · simp [running] at zombie
  · obtain ⟨ticked, same⟩ | ⟨act, inside, still⟩ := step_behind handlers step inside
    · have moved : k.ticks.toNat ≠ k'.ticks.toNat := by
        intro eq
        have := UInt32.toNat_inj.mp eq
        grind
      have := (h.ok p).1 (same ▸ used)
      rw [same]
      omega
    · rw [still]
      obtain ⟨old, ctime, rtime, _⟩ | ⟨other, _⟩ | ⟨other, _⟩ | ⟨⟨sz, other⟩, _⟩ := times p used
      · simpa only [Proc.spent, ctime, rtime] using h.behind (.inl inside) p old
      · simp [act] at other
      · simp [act] at other
      · simp [act] at other

theorem boot_accounted : Accounted (boot 1) := by
  refine ⟨fun p => ?_, fun inside => ?_⟩
  · rw [boot_slot]
    split
    · exact ⟨fun _ => Nat.le_refl 0, by simp [Proc.first, Proc.ready]⟩
    · simp [Proc.zero]
  · obtain h | h := inside <;> cases h

/-- After exec() the clock leaves no room for run time charged before it. -/
theorem execFresh_of_ok {n : Nat} {k k' : Kernel n} {a : Action n} (base : Base k)
    (step : Step strategy k a k') (ok : TimesOk k') : ExecFresh k a := by
  unfold ExecFresh
  split
  · rename_i sz act
    cases step with
    | @exec c p sz runs task =>
      intro q proc
      obtain rfl : p = q := Option.some.inj (runs.2.2.symm.trans proc)
      have running := base.exclusive.running runs.acts
      have behind := (ok p).1 (by simp [setProc, Proc.exec, running])
      simp only [setProc, Function.update_self, Proc.exec, Proc.spent] at behind
      exact UInt32.toNat_inj.mp (by simp; omega)
    | _ => simp at act
  · trivial

/-- On one CPU, in every run in which the clock does not wrap, the times of
every process stay in order if and only if exec() is only ever called by
processes that have not been charged yet. -/
theorem times_ok_iff_exec_fresh {as : List (Action 1)}
    (legal : (kernel strategy 1).Legal (boot 1) as)
    (forward : (kernel strategy 1).Every (NoWrap strategy) (boot 1) as) :
    (kernel strategy 1).Stays TimesOk (boot 1) as ↔
      (kernel strategy 1).Every ExecFresh (boot 1) as := by
  constructor
  · intro stays
    refine (kernel strategy 1).every_imp (I := Reachable strategy 1)
      (fun k a enabled reachable => .next reachable enabled) ?_ legal .start
      ((kernel strategy 1).every_of_stays stays).2
    intro k a enabled reachable ok
    have base := reachable_base reachable
    exact execFresh_of_ok base (base.step strategy enabled) ok
  · intro fresh
    refine (kernel strategy 1).stays_of_every
      (I := fun k => Reachable strategy 1 k ∧ Accounted k) ?_ (fun k h => h.2.ok) legal
      ⟨.start, boot_accounted⟩ ((kernel strategy 1).every_and forward fresh)
    rintro k a enabled ⟨reachable, accounted⟩ ⟨forward, fresh⟩
    have base := reachable_base reachable
    exact ⟨.next reachable enabled, step_accounted base (reachable_handlers reachable)
      (base.step strategy enabled) forward fresh accounted⟩

instance {n : Nat} (k : Kernel n) : Decidable (TimesOk k) := inferInstanceAs (Decidable (∀ _, _))

def Act.isExec : Act → Bool
  | .exec _ => true
  | _ => false

theorem execFresh_iff {n : Nat} (k : Kernel n) (a : Action n) :
    (a.act.isExec = true → ∀ p, p ∈ (k.cpus a.cpu).proc → (k.ptable p).rtime = 0) ↔
      ExecFresh k a := by
  unfold ExecFresh Act.isExec
  split
  · exact ⟨fun h => h rfl, fun h _ => h⟩
  · exact ⟨fun _ => trivial, fun _ h => nomatch h⟩

instance {n : Nat} (k : Kernel n) (a : Action n) : Decidable (ExecFresh k a) :=
  decidable_of_iff _ (execFresh_iff k a)

/-- init calls exec() before its first tick and is charged afterwards. -/
theorem times_ok_exec_first :
    (kernel 1 1).Stays TimesOk (boot 1) (onCpu 0 ([.pass, .resume, .exec 8192] ++ tick)) :=
  (times_ok_iff_exec_fresh (by decide +kernel) (by decide +kernel)).mpr (by decide +kernel)

/-- A child is charged one tick, calls exec() and exits in that tick: as a ZOMBIE
it has creation time 1, run time 1 and exit time 1, and the waiting time wait2()
computes for it is -1. -/
theorem waiting_time_underflows :
    ∃ k : Kernel 1, (∃ as, (kernel 1 1).Legal (boot 1) as ∧
        (kernel 1 1).Every (NoWrap 1) (boot 1) as ∧ (kernel 1 1).after (boot 1) as = k) ∧
      (k.ptable 1).state = .zombie ∧ ¬ (k.ptable 1).spent ≤ (k.ptable 1).etime.toNat ∧
      (k.ptable 1).etime - (k.ptable 1).ctime - (k.ptable 1).rtime = -1 := by
  refine ⟨_, ⟨onCpu 0 ([.pass, .resume, .fork, .forkStack true, .forkCopy true, .forkReady,
    .wait .wait22, .back, .resume] ++ tick ++ [.exec 8192, .exitBegin true, .exit]),
    by decide +kernel, by decide +kernel, rfl⟩, by decide +kernel, by decide +kernel,
    by decide +kernel⟩

end Xv6
