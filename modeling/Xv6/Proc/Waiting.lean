import Xv6.Proc.Base

/-! Waiting for a CPU: how a slot becomes RUNNABLE, that it stays RUNNABLE
until it is dispatched, and how the clock moves meanwhile. -/

namespace Xv6
open Kernel Lib
variable {n : Nat} {strategy : Nat}

/-! ## The clock -/

/-- The clock does not wrap around in this step. -/
def NoWrap (strategy : Nat) (k : Kernel n) (a : Action n) : Prop :=
  k.ticks ≤ (k.perform strategy a).ticks

instance (strategy : Nat) (k : Kernel n) (a : Action n) : Decidable (NoWrap strategy k a) :=
  inferInstanceAs (Decidable (_ ≤ _))

/-- A step that moves the clock leaves the table alone. -/
theorem step_ticks {k k' : Kernel n} {a : Action n} (step : Step strategy k a k') :
    k'.ticks = k.ticks ∨ k'.ticks = k.ticks + 1 ∧ k'.ptable = k.ptable := by
  cases step with
  | pass | back => left; unfold follow; split <;> rfl
  | resume =>
    left
    unfold Kernel.resume
    split
    · rfl
    · rfl
    · rfl
    · unfold waitLoop; split <;> rfl
  | timer =>
    unfold Kernel.timer
    split
    · exact .inr ⟨rfl, rfl⟩
    · exact .inl rfl
  | wait => left; unfold waitLoop; split <;> rfl
  | _ => exact .inl rfl

/-! ## Becoming and staying RUNNABLE -/

/-- A RUNNABLE slot was RUNNABLE before, with the same stamp, or has just
become so and is stamped with the current tick. -/
theorem Move.runnable_of {k : Kernel n} {a : Action n} {i : Slot} {v : Proc}
    (h : Move strategy k a i v) (runnable : v.state = .runnable) :
    (k.ptable i).state = .runnable ∧ v.priority = (k.ptable i).priority ∨
    (k.ptable i).state ≠ .runnable ∧ v.priority = k.ticks := by
  cases h with
  | passive h => have := h.queue; grind
  | dispatch | reap | alloc | abandon | sleep | exit => cases runnable
  | yield act runs running => exact .inr ⟨by simp [running], rfl⟩
  | publish act runs running task embryo => exact .inr ⟨by simp [embryo], rfl⟩
  | link act runs running task embryo => simp [embryo] at runnable
  | nice act runs running => simp [running] at runnable
  | charge act runs running | clear act runs running | setcid act runs running
  | exec act runs running => exact absurd (running.symm.trans runnable) (by simp)

/-- Nothing but a dispatch takes a RUNNABLE slot out of the queue. -/
theorem Move.runnable_until {k : Kernel n} {a : Action n} {i : Slot} {v : Proc}
    (h : Move strategy k a i v) (runnable : (k.ptable i).state = .runnable)
    (waits : .dispatch a.cpu i ∉ k.emit strategy a) :
    v.state = .runnable ∧ v.priority = (k.ptable i).priority := by
  cases h with
  | passive h => have := h.queue; grind
  | dispatch act event => simp [event] at waits
  | reap act runs running event zombie => simp [runnable] at zombie
  | alloc act unused => simp [runnable] at unused
  | abandon act embryo => simp [runnable] at embryo
  | link act runs running task embryo => simp [runnable] at embryo
  | publish act runs running task embryo => simp [runnable] at embryo
  | charge act runs running | yield act runs running | sleep act runs running
  | clear act runs running | nice act runs running | setcid act runs running
  | exec act runs running | exit act runs running => simp [runnable] at running

/-- A step dispatches at most one slot. -/
theorem countP_dispatch {k k' : Kernel n} {a : Action n} (step : Step strategy k a k')
    (counted : Event n → Bool)
    (dispatches : ∀ e, counted e = true → ∃ c p, e = .dispatch c p) :
    (k.emit strategy a).countP counted = 0 ∨
    (k.emit strategy a).countP counted = 1 ∧
      ∃ p, counted (.dispatch a.cpu p) = true ∧ .dispatch a.cpu p ∈ k.emit strategy a := by
  by_cases some : ∃ e ∈ k.emit strategy a, counted e = true
  · obtain ⟨e, mem, here⟩ := some
    obtain ⟨c, p, rfl⟩ := dispatches e here
    obtain ⟨rfl, _, event, _⟩ := dispatch_cases step mem
    exact .inr ⟨by simp [event, here], p, here, mem⟩
  · exact .inl (List.countP_eq_zero.mpr fun e mem here => some ⟨e, mem, here⟩)

/-! ## Where scheduler() goes on -/

/-- A CPU keeps its `proc` and the place its loop in scheduler() goes on from. -/
def SamePlace (k k' : Kernel n) (d : Fin n) : Prop :=
  (k'.cpus d).proc = (k.cpus d).proc ∧ (k'.cpus d).ctx = (k.cpus d).ctx

theorem SamePlace.trans {k k' k'' : Kernel n} {d : Fin n} (h : SamePlace k k' d)
    (h' : SamePlace k' k'' d) : SamePlace k k'' d := ⟨h'.1.trans h.1, h'.2.trans h.2⟩

theorem samePlace_mode {k : Kernel n} {c d : Fin n} {mode : Mode} {irq : Irq} :
    SamePlace k (k.setCpu c { k.cpus c with mode := mode, irq := irq }) d := by
  unfold SamePlace
  by_cases h : d = c
  · subst h; simp [setCpu]
  · simp [setCpu, h]

theorem samePlace_setIrq {k : Kernel n} {c d : Fin n} {irq : Irq} :
    SamePlace k (k.setIrq c irq) d := samePlace_mode

theorem samePlace_waitLoop {k : Kernel n} {c d : Fin n} {p : Slot} {call : WaitCall} :
    SamePlace k (k.waitLoop c p call) d := by
  unfold waitLoop
  split <;> exact samePlace_mode

theorem samePlace_follow {k : Kernel n} {c d : Fin n} {o : Outcome} (h : d ≠ c) :
    SamePlace k (k.follow c o) d := by
  unfold SamePlace follow
  split <;> simp [setCpu, h]

/-- Only scheduler() moves a CPU's place. -/
theorem step_place {k k' : Kernel n} {a : Action n} (step : Step strategy k a k') (d : Fin n) :
    SamePlace k k' d ∨ d = a.cpu ∧ ∃ o, k' = k.follow d o ∧
      (a.act = .pass ∧ o = k.passOutcome strategy d ∨
        a.act = .back ∧ o = k.backOutcome strategy d) := by
  cases step with
  | @pass c =>
    by_cases h : d = c
    · subst h; exact .inr ⟨rfl, _, rfl, .inl ⟨rfl, rfl⟩⟩
    · exact .inl (samePlace_follow h)
  | @back c =>
    by_cases h : d = c
    · subst h; exact .inr ⟨rfl, _, rfl, .inr ⟨rfl, rfl⟩⟩
    · exact .inl (samePlace_follow h)
  | resume =>
    left
    unfold Kernel.resume
    split
    · exact samePlace_mode
    · exact samePlace_mode
    · exact samePlace_mode
    · exact samePlace_waitLoop (k := k.setProc _ _)
  | timer =>
    left
    unfold Kernel.timer
    split <;> exact samePlace_mode
  | yield => exact .inl (samePlace_setIrq.trans samePlace_mode)
  | wait => exact .inl samePlace_waitLoop
  | tickWakeup | charge | uncharged | trapExit | trapReturn | sleep | exit =>
    exact .inl samePlace_mode
  | _ => exact .inl ⟨rfl, rfl⟩

end Xv6
