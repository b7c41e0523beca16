import Xv6.Proc.Base

/-! The timer handler of a CPU: what a step can do to how far it has come, and
which threads it can interrupt. -/

namespace Xv6
open Kernel
variable {n : Nat} {strategy : Nat}

theorem step_other_cpu {k k' : Kernel n} {a : Action n}
    (step : Step strategy k a k') {d : Fin n} (other : d ≠ a.cpu) : k'.cpus d = k.cpus d := by
  have set {k : Kernel n} {v : Cpu} : (k.setCpu a.cpu v).cpus d = k.cpus d := by
    simp [setCpu, other]
  have loop {k : Kernel n} {p : Slot} {call : WaitCall} :
      (k.waitLoop a.cpu p call).cpus d = k.cpus d := by
    unfold waitLoop
    split <;> exact set
  cases step with
  | pass | back => unfold follow; split <;> exact set
  | resume =>
    unfold Kernel.resume
    split
    · exact set
    · exact set
    · exact set
    · exact loop
  | timer => unfold Kernel.timer; split <;> exact set
  | wait => exact loop
  | yield => exact set.trans set
  | tickWakeup | charge | uncharged | trapExit | trapReturn | sleep | exit => exact set
  | _ => rfl

/-- Timer handlers run outside critical sections, and never for a thread that
has interrupts off. -/
structure Handlers (k : Kernel n) : Prop where
  quiet : ∀ c, (k.cpus c).mode = .returned ∨ (k.cpus c).mode = .resumed → (k.cpus c).irq = .off
  takes : ∀ c p, (k.cpus c).proc = some p → (k.cpus c).irq ≠ .off →
    (k.thread p).task ≠ .exiting false

/-- A CPU is in the timer handler after a step only if the handler itself took
the step or an interrupt just came in. -/
theorem step_irq {k k' : Kernel n} {a : Action n} (h : Handlers k)
    (step : Step strategy k a k') :
    (k'.cpus a.cpu).irq = .off ∨
    (a.act = .timer ∨ a.act = .tickWakeup ∨ a.act = .charge) ∧ k.lock = none ∧
      (k'.cpus a.cpu).mode = (k.cpus a.cpu).mode ∧ (k'.cpus a.cpu).proc = (k.cpus a.cpu).proc ∧
      k'.thread = k.thread ∧
      ((k.cpus a.cpu).irq ≠ .off ∨
        ∀ p ∈ (k.cpus a.cpu).proc, (k.thread p).task.takesInterrupts = true) := by
  have loop {k : Kernel n} {c : Fin n} {p : Slot} {call : WaitCall}
      (off : (k.cpus c).irq = .off) : ((k.waitLoop c p call).cpus c).irq = .off := by
    unfold waitLoop
    split <;> simpa [release, setCpu, setProc, Kernel.sleep, sched] using off
  cases step with
  | @pass c ready =>
    left
    unfold follow
    split <;> simpa [setCpu] using ready.2
  | @back c held switched =>
    left
    have off := h.quiet c (.inl switched)
    unfold follow
    split <;> simpa [setCpu] using off
  | @resume c p held switched =>
    left
    have off := h.quiet c (.inr switched)
    unfold Kernel.resume
    split
    · simpa [release, setCpu] using off
    · simpa [release, setCpu] using off
    · simpa [release, setCpu, setProc] using off
    · exact loop off
  | @timer c ready takes =>
    right
    obtain ⟨mode, proc⟩ := timer_cpu k c c
    exact ⟨.inl rfl, ready.1, mode, proc, by unfold Kernel.timer; split <;> rfl, .inr takes⟩
  | @tickWakeup c handler =>
    exact .inr ⟨.inr (.inl rfl), handler.1, by simp [setIrq, setCpu], by simp [setIrq, setCpu],
      rfl, .inl (by simp [handler.2])⟩
  | @charge c p handler | @uncharged c handler =>
    exact .inr ⟨.inr (.inr rfl), handler.1, by simp [setIrq, setCpu, setProc],
      by simp [setIrq, setCpu, setProc], rfl, .inl (by simp [handler.2])⟩
  | trapExit | trapReturn => exact .inl (by simp [setIrq, setCpu])
  | yield => exact .inl (by simp [Kernel.yield, sched, setProc, setIrq, setCpu])
  | wakeup ready => exact .inl ready.2
  | sleep runs | exit runs =>
    exact .inl (by simpa [Kernel.sleep, Kernel.exit, sched, setProc, setCpu] using runs.1.2)
  | wait runs => exact .inl (loop runs.1.2)
  | fault runs | kill runs | nice runs | setcid runs | exec runs | fork runs | forkFull runs | forkStack runs
  | forkStackFail runs | forkCopy runs | forkCopyFail runs | forkReady runs | exitBegin runs =>
    exact .inl runs.1.2

theorem step_handlers {k k' : Kernel n} {a : Action n} (base : Base k)
    (h : Handlers k) (step : Step strategy k a k') : Handlers k' := by
  refine ⟨fun c away => ?_, fun c p proc busy exiting => ?_⟩
  · by_cases here : c = a.cpu
    · subst here
      obtain off | ⟨_, free, mode, _⟩ := step_irq h step
      · exact off
      · have := base.exclusive.held a.cpu
        grind
    · rw [step_other_cpu step here] at away ⊢
      exact h.quiet c away
  · by_cases here : c = a.cpu
    · subst here
      obtain off | ⟨_, _, _, same, thread, inside | takes⟩ := step_irq h step
      · exact busy off
      · exact h.takes a.cpu p (same ▸ proc) inside (thread ▸ exiting)
      · have := takes p (same ▸ proc)
        rw [← thread, exiting] at this
        cases this
    · rw [step_other_cpu step here] at proc busy
      obtain old | ⟨own, _⟩ := step_exiting step exiting
      · exact h.takes c p proc busy old
      · exact here (base.exclusive.once c a.cpu p proc own)

theorem reachable_handlers {k : Kernel n} (h : Reachable strategy n k) :
    Handlers k := by
  apply reachable_invariant h
  case boot => exact ⟨fun _ _ => rfl, fun c p proc => by cases proc⟩
  case step =>
    exact fun k a k' reachable step inv => step_handlers (reachable_base reachable) inv step

theorem step_charge_irq {k k' : Kernel n} {a : Action n}
    (step : Step strategy k a k') (act : a.act = .charge) :
    (k.cpus a.cpu).irq = .woken ∧ (k'.cpus a.cpu).irq = .charged := by
  cases step with
  | charge handler | uncharged handler => exact ⟨handler.2, by simp [setIrq, setCpu]⟩
  | _ => simp at act

end Xv6
