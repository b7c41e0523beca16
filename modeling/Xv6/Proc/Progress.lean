import Xv6.Proc.Base

/-! When an iteration of scheduler() finds something to run. Strategies 2, 3
and 4 start their running minimum at `ticks` and take only what is strictly
below it, so a RUNNABLE process can be passed over. -/

namespace Xv6
open Kernel Lib
variable {n : Nat}

/-- A process one of the scans of the strategy takes on its own. -/
def Accepts (strategy : Nat) (ticks : UInt32) (p : Proc) : Prop :=
  match strategy with
  | 1 => p.state = .runnable
  | 2 => p.state = .runnable ∧ p.priority < ticks
  | 3 => p.state = .runnable ∧ p.share ticks < ticks
  | 4 => p.state = .runnable ∧
      (p.queuelevel = 3 ∧ p.share ticks < ticks ∨ p.queuelevel = 2 ∧ p.priority < ticks ∨
        p.queuelevel = 1)
  | _ => False

instance (strategy : Nat) (ticks : UInt32) (p : Proc) : Decidable (Accepts strategy ticks p) := by
  unfold Accepts
  split <;> infer_instance

theorem isRunnable_iff (p : Proc) : p.isRunnable = true ↔ p.state = .runnable := by
  simp [Proc.isRunnable]

theorem onLevel_iff (level : Int32) (p : Proc) :
    p.onLevel level = true ↔ p.state = .runnable ∧ p.queuelevel = level := by
  simp [Proc.onLevel]

theorem rrLoop_dispatched (sel : Proc → Bool) (t : Table) (proc : Option Slot) (l : List Slot) :
    (rrLoop sel t proc l).dispatched = l.find? fun p => sel (t p) := by
  unfold rrLoop
  cases l.find? fun p => sel (t p) <;> rfl

/-- A pass that ends on a first minimum below `ticks` has something to take. -/
theorem isSome_of_cases {o : Outcome} {accepted : Slot → Prop}
    (h : (∀ p, ¬ accepted p) ∧ o.next = none ∨ ∃ p, accepted p ∧ o.dispatched = some p) :
    o.dispatched.isSome = true ↔ ∃ p, accepted p := by
  obtain ⟨nobody, ends⟩ | ⟨p, accepted, dispatched⟩ := h
  · simp [Outcome.dispatched, ends, nobody]
  · simpa [dispatched] using ⟨p, accepted⟩

/-- An iteration dispatches exactly when some slot is accepted. -/
theorem schedule_dispatched_isSome {strategy : Nat} (known : 1 ≤ strategy ∧ strategy ≤ 4)
    (ticks : UInt32) (t : Table) (proc : Option Slot) :
    (schedule strategy ticks t proc).dispatched.isSome = true ↔
      ∃ p, Accepts strategy ticks (t p) := by
  obtain rfl | rfl | rfl | rfl : strategy = 1 ∨ strategy = 2 ∨ strategy = 3 ∨ strategy = 4 := by
    omega
  · simp [schedule, rrLoop_dispatched, Accepts, isRunnable_iff]
  · refine isSome_of_cases ?_
    obtain ⟨unbeaten, eq⟩ | ⟨p, below, least, eq⟩ := fifoPass_cases ticks t proc
    · exact .inl ⟨by grind [Accepts, isRunnable_iff], by simp [schedule, eq]⟩
    · exact .inr ⟨p, ⟨isRunnable_state least.selected, below⟩,
        by simp [schedule, eq, Outcome.dispatched]⟩
  · refine isSome_of_cases ?_
    obtain ⟨unbeaten, eq⟩ | ⟨p, below, least, eq⟩ := guaranteedPass_cases ticks t proc
    · exact .inl ⟨by grind [Accepts, isRunnable_iff], by simp [schedule, eq]⟩
    · exact .inr ⟨p, ⟨isRunnable_state least.selected, below⟩,
        by simp [schedule, eq, Outcome.dispatched]⟩
  · refine isSome_of_cases ?_
    obtain ⟨p, below, least, eq⟩ | ⟨unbeaten3, ⟨p, below, least, eq⟩ | ⟨unbeaten2, eq⟩⟩ :=
      multiLevelPass_cases ticks t proc
    · obtain ⟨runnable, level⟩ := (onLevel_iff _ _).mp least.selected
      exact .inr ⟨p, ⟨runnable, .inl ⟨level, below⟩⟩,
        by simp [schedule, eq, Outcome.dispatched]⟩
    · obtain ⟨runnable, level⟩ := (onLevel_iff _ _).mp least.selected
      exact .inr ⟨p, ⟨runnable, .inr (.inl ⟨level, below⟩)⟩,
        by simp [schedule, eq, Outcome.dispatched]⟩
    · obtain ⟨nobody, eq'⟩ | ⟨p, _, selected, eq'⟩ :=
        rrLoop_cases (Proc.onLevel 1) (storeShares (Proc.onLevel 3) ticks t) proc slots
      · refine .inl ⟨?_, by simp [schedule, eq, eq']⟩
        have nobody (p : Slot) : (t p).onLevel 1 = false := by simpa using nobody p (mem_slots p)
        grind [Accepts, onLevel_iff]
      · obtain ⟨runnable, level⟩ := (onLevel_iff 1 (t p)).mp (by simpa using selected)
        exact .inr ⟨p, ⟨runnable, .inr (.inr level)⟩,
          by simp [schedule, eq, eq', Outcome.dispatched]⟩

/-! ## No idle CPU with ready work -/

/-- An iteration that starts with a RUNNABLE process dispatches one. -/
def Progresses (strategy : Nat) (k : Kernel n) (a : Action n) : Prop :=
  a.act = .pass → (∃ p, (k.ptable p).state = .runnable) →
    ∃ c p, .dispatch c p ∈ k.emit strategy a

/-- An iteration that starts with a RUNNABLE process starts with an accepted one. -/
def StartsAccepted (strategy : Nat) (k : Kernel n) (a : Action n) : Prop :=
  a.act = .pass → (∃ p, (k.ptable p).state = .runnable) →
    ∃ p, Accepts strategy k.ticks (k.ptable p)

instance (strategy : Nat) (k : Kernel n) (a : Action n) :
    Decidable (StartsAccepted strategy k a) :=
  inferInstanceAs (Decidable (_ → _ → _))

theorem progresses_iff {strategy : Nat} (known : 1 ≤ strategy ∧ strategy ≤ 4) (k : Kernel n)
    (a : Action n) : Progresses strategy k a ↔ StartsAccepted strategy k a := by
  unfold Progresses StartsAccepted
  refine imp_congr_right fun act => imp_congr_right fun _ => ?_
  rw [← schedule_dispatched_isSome known k.ticks k.ptable (k.cpus a.cpu).proc]
  simp only [emit, act, dispatchEvents, passOutcome]
  cases (schedule strategy k.ticks k.ptable (k.cpus a.cpu).proc).dispatched with
  | none => simp
  | some p => simp

/-- In every run, no iteration idles on ready work if and only if each of those
iterations starts with a process the strategy accepts. -/
theorem every_progresses_iff {strategy : Nat} (known : 1 ≤ strategy ∧ strategy ≤ 4)
    {as : List (Action n)} (legal : (kernel strategy n).Legal (boot n) as) :
    (kernel strategy n).Every (Progresses strategy) (boot n) as ↔
      (kernel strategy n).Every (StartsAccepted strategy) (boot n) as :=
  (kernel strategy n).every_iff (I := fun _ => True) (fun _ _ _ _ => trivial)
    (fun k a _ _ => progresses_iff known k a) legal trivial

/-- With one tick gone by before the first iteration, strategy 2 starts init. -/
theorem every_progresses_first_dispatch :
    (kernel 2 1).Every (Progresses 2) (boot 1)
      (onCpu 0 (tick ++ [.pass])) :=
  (every_progresses_iff (by decide) (by decide +kernel)).mpr (by decide +kernel)

/-- Under strategy 2 init runs until the clock makes it yield; the iteration
that follows in the same tick leaves it RUNNABLE and dispatches nothing. -/
theorem idle_after_yield :
    ∃ k : Kernel 1, Reachable 2 1 k ∧ k.Enabled ⟨0, .pass⟩ ∧ ¬ Progresses 2 k ⟨0, .pass⟩ := by
  refine ⟨(kernel 2 1).after (boot 1) (onCpu 0 (tick ++ [.pass, .resume] ++ tick ++ [.back])),
    Lib.System.Reachable.start.after (by decide +kernel), by decide +kernel, ?_⟩
  rw [progresses_iff (by decide)]
  decide +kernel

end Xv6
