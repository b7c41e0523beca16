import Xv6.Proc.Progress

/-! The multi-level queue of strategy 4. A process is on level 3, 2 or 1; an
iteration serves the highest level that has a process it accepts, and the loop
over level 1 goes on from slot to slot without looking at the other levels
again. -/

namespace Xv6
open Kernel Lib
variable {n : Nat} {strategy : Nat}

/-! ## Levels -/

def Proc.Leveled (p : Proc) : Prop := p.queuelevel = 1 ∨ p.queuelevel = 2 ∨ p.queuelevel = 3

theorem Proc.nice_leveled {p : Proc} (h : p.Leveled) (ticks : UInt32) : (p.nice ticks).Leveled := by
  unfold Proc.Leveled at *
  unfold Proc.nice
  obtain h | h | h := h <;> simp [h]

theorem Move.leveled {k : Kernel n} {a : Action n} {i : Slot} {v : Proc}
    (h : Move strategy k a i v)
    (old : (k.ptable i).state ≠ .unused → (k.ptable i).Leveled) :
    v.state ≠ .unused → v.Leveled := by
  have run (running : (k.ptable i).state = .running) := old (by simp [running])
  intro used
  cases h with
  | passive h =>
    have level : v.queuelevel = (k.ptable i).queuelevel := by rw [h.fixed]
    have queue := h.queue
    unfold Proc.Leveled at *
    grind
  | dispatch act event runnable => exact old (by simp [runnable])
  | reap => simp [Proc.reap] at used
  | nice act runs running => exact Proc.nice_leveled (run running) _
  | alloc => exact .inr (.inr rfl)
  | abandon => simp at used
  | link act runs running task embryo => exact old (by simp [embryo])
  | publish act runs running task embryo => exact old (by simp [embryo])
  | charge act runs running | yield act runs running | sleep act runs running
  | clear act runs running | setcid act runs running | exec act runs running
  | exit act runs running => exact run running

theorem reachable_leveled {k : Kernel n} (h : Reachable strategy n k) :
    ∀ p, (k.ptable p).state ≠ .unused → (k.ptable p).Leveled := by
  apply reachable_invariant h
  case boot =>
    intro p used
    rw [boot_slot] at used ⊢
    split
    · exact .inr (.inr rfl)
    · rename_i other
      simp [other, Proc.zero] at used
  case step =>
    intro k a k' reachable step inv p
    exact (move_of_step (reachable_base reachable) step p).leveled (inv p)

/-! ## Strict priority -/

/-- Nothing RUNNABLE sits on a higher level than what the step dispatches. -/
def Strict (k : Kernel n) (a : Action n) : Prop :=
  ∀ c p, .dispatch c p ∈ k.emit 4 a →
    ∀ q, (k.ptable q).state = .runnable → ¬ (k.ptable p).queuelevel < (k.ptable q).queuelevel

/-- Some process is RUNNABLE on the level. -/
def Kernel.Waiting (k : Kernel n) (level : Int32) : Prop :=
  ∃ p, (k.ptable p).state = .runnable ∧ (k.ptable p).queuelevel = level

/-- The first queue has a process whose share is below the clock. -/
def Kernel.ShareDue (k : Kernel n) : Prop :=
  ∃ p, (k.ptable p).state = .runnable ∧ (k.ptable p).queuelevel = 3 ∧
    (k.ptable p).share k.ticks < k.ticks

/-- The second queue has a process queued before the current tick. -/
def Kernel.QueueDue (k : Kernel n) : Prop :=
  ∃ p, (k.ptable p).state = .runnable ∧ (k.ptable p).queuelevel = 2 ∧
    (k.ptable p).priority < k.ticks

/-- The loop over level 1 will find another process behind slot `p`. -/
def Kernel.GoesOn (k : Kernel n) (p : Slot) : Prop :=
  ∃ q, p < q ∧ (k.ptable q).state = .runnable ∧ (k.ptable q).queuelevel = 1

/-- A new iteration does not skip a level on which somebody waits, and the loop
over level 1 does not go on while somebody waits above it. -/
def NothingSkipped (k : Kernel n) (a : Action n) : Prop :=
  match a.act with
  | .pass => ¬ k.ShareDue →
      (k.QueueDue ∨ k.Waiting 1 → ¬ k.Waiting 3) ∧ (¬ k.QueueDue → k.Waiting 1 → ¬ k.Waiting 2)
  | .back => ∀ p, (k.cpus a.cpu).ctx = .loop p → k.GoesOn p → ¬ k.Waiting 3 ∧ ¬ k.Waiting 2
  | _ => True

theorem strict_of_dispatched {k : Kernel n} {a : Action n} {o : Outcome} {p : Slot}
    (emits : k.emit 4 a = dispatchEvents a.cpu o) (h : o.dispatched = some p) :
    Strict k a ↔
      ∀ q, (k.ptable q).state = .runnable → ¬ (k.ptable p).queuelevel < (k.ptable q).queuelevel := by
  simp [Strict, emits, dispatchEvents, h]

theorem strict_of_idle {k : Kernel n} {a : Action n} {o : Outcome}
    (emits : k.emit 4 a = dispatchEvents a.cpu o) (h : o.dispatched = none) : Strict k a := by
  simp [Strict, emits, dispatchEvents, h]

/-- Nothing waits above a level, counted out. -/
theorem nothing_above {k : Kernel n}
    (leveled : ∀ p, (k.ptable p).state ≠ .unused → (k.ptable p).Leveled) (level : Int32) :
    (∀ q, (k.ptable q).state = .runnable → ¬ level < (k.ptable q).queuelevel) ↔
      (level < 3 → ¬ k.Waiting 3) ∧ (level < 2 → ¬ k.Waiting 2) ∧ (level < 1 → ¬ k.Waiting 1) := by
  unfold Kernel.Waiting
  constructor
  · intro h
    refine ⟨?_, ?_, ?_⟩ <;>
    · rintro below ⟨q, runnable, eq⟩
      exact h q runnable (eq ▸ below)
  · rintro ⟨three, two, one⟩ q runnable below
    obtain eq | eq | eq := leveled q (by simp [runnable])
    · exact one (eq ▸ below) ⟨q, runnable, eq⟩
    · exact two (eq ▸ below) ⟨q, runnable, eq⟩
    · exact three (eq ▸ below) ⟨q, runnable, eq⟩

theorem strict_pass_iff {k : Kernel n}
    (leveled : ∀ p, (k.ptable p).state ≠ .unused → (k.ptable p).Leveled) (c : Fin n) :
    Strict k ⟨c, .pass⟩ ↔ NothingSkipped k ⟨c, .pass⟩ := by
  have above := nothing_above leveled
  have emits : k.emit 4 ⟨c, .pass⟩ =
      dispatchEvents c (multiLevelPass k.ticks k.ptable (k.cpus c).proc) := by
    simp [emit, passOutcome, schedule]
  have dispatched {p : Slot} {level : Int32} (sel : (k.ptable p).onLevel level = true)
      (h : (multiLevelPass k.ticks k.ptable (k.cpus c).proc).dispatched = some p) :
      Strict k ⟨c, .pass⟩ ↔
        (level < 3 → ¬ k.Waiting 3) ∧ (level < 2 → ¬ k.Waiting 2) ∧ (level < 1 → ¬ k.Waiting 1) := by
    rw [strict_of_dispatched emits h, ((onLevel_iff _ _).mp sel).2, above level]
  unfold NothingSkipped
  obtain ⟨p, below, least, eq⟩ | ⟨unbeaten3, rest⟩ :=
    multiLevelPass_cases k.ticks k.ptable (k.cpus c).proc
  · obtain ⟨runnable, level⟩ := (onLevel_iff _ _).mp least.selected
    have due : k.ShareDue := ⟨p, runnable, level, below⟩
    rw [dispatched least.selected (by simp [eq, Outcome.dispatched])]
    simp [due]
  have notDue : ¬ k.ShareDue := by
    rintro ⟨p, runnable, level, below⟩
    have := unbeaten3 p ((onLevel_iff _ _).mpr ⟨runnable, level⟩)
    grind
  obtain ⟨p, below, least, eq⟩ | ⟨unbeaten2, eq⟩ := rest
  · obtain ⟨runnable, level⟩ := (onLevel_iff _ _).mp least.selected
    have due : k.QueueDue := ⟨p, runnable, level, below⟩
    rw [dispatched least.selected (by simp [eq, Outcome.dispatched])]
    simp [notDue, due]
  have notQueued : ¬ k.QueueDue := by
    rintro ⟨p, runnable, level, below⟩
    have := unbeaten2 p ((onLevel_iff _ _).mpr ⟨runnable, level⟩)
    grind
  obtain ⟨nobody, eq'⟩ | ⟨p, _, selected, eq'⟩ :=
    rrLoop_cases (Proc.onLevel 1) (storeShares (Proc.onLevel 3) k.ticks k.ptable)
      (k.cpus c).proc slots
  · have empty : ¬ k.Waiting 1 := by
      rintro ⟨p, runnable, level⟩
      have := nobody p (mem_slots p)
      rw [storeShares_onLevel, (onLevel_iff _ _).mpr ⟨runnable, level⟩] at this
      cases this
    have := strict_of_idle emits (by simp [eq, eq', Outcome.dispatched])
    simp [this, notQueued, empty]
  · rw [storeShares_onLevel] at selected
    obtain ⟨runnable, level⟩ := (onLevel_iff _ _).mp selected
    have waiting : k.Waiting 1 := ⟨p, runnable, level⟩
    rw [dispatched selected (by simp [eq, eq', Outcome.dispatched])]
    simp [notDue, notQueued, waiting]

theorem strict_back_iff {k : Kernel n}
    (leveled : ∀ p, (k.ptable p).state ≠ .unused → (k.ptable p).Leveled) (c : Fin n) :
    Strict k ⟨c, .back⟩ ↔ NothingSkipped k ⟨c, .back⟩ := by
  have emits : k.emit 4 ⟨c, .back⟩ =
      dispatchEvents c (reschedule 4 k.ptable (k.cpus c).ctx) := rfl
  unfold NothingSkipped
  cases ctx : (k.cpus c).ctx with
  | once =>
    have := strict_of_idle emits (by simp [ctx, reschedule, Outcome.dispatched])
    simp [this]
  | loop p =>
    have eq : reschedule 4 k.ptable (.loop p) =
        rrLoop (Proc.onLevel 1) k.ptable none (slots.filter fun q => p < q) := by
      simp [reschedule]
    obtain ⟨nobody, eq'⟩ | ⟨q, found, selected, eq'⟩ :=
      rrLoop_cases (Proc.onLevel 1) k.ptable none (slots.filter fun q => p < q)
    · have := strict_of_idle emits (by simp [ctx, eq, eq', Outcome.dispatched])
      have last : ¬ k.GoesOn p := by
        rintro ⟨q, behind, here⟩
        have := nobody q (by simpa using behind)
        rw [(onLevel_iff _ _).mpr here] at this
        cases this
      simp [this, last]
    · have behind : p < q := by simpa using List.mem_of_find?_eq_some found
      obtain ⟨runnable, level⟩ := (onLevel_iff _ _).mp selected
      rw [strict_of_dispatched emits (by simp [ctx, eq, eq', Outcome.dispatched]; rfl), level,
        nothing_above leveled]
      have more : k.GoesOn p := ⟨q, behind, runnable, level⟩
      simp [more]

theorem strict_iff {k : Kernel n}
    (leveled : ∀ p, (k.ptable p).state ≠ .unused → (k.ptable p).Leveled) {a : Action n}
    (step : Step 4 k a (k.perform 4 a)) : Strict k a ↔ NothingSkipped k a := by
  obtain ⟨c, act⟩ := a
  by_cases pass : act = .pass
  · exact pass ▸ strict_pass_iff leveled c
  by_cases back : act = .back
  · exact back ▸ strict_back_iff leveled c
  have quiet : Strict k ⟨c, act⟩ := by
    intro d p event
    obtain h | h := (dispatch_cases step event).2.1
    · exact absurd h pass
    · exact absurd h back
  simp [quiet, NothingSkipped]

/-- In every run of strategy 4, every dispatch respects strict priority if and
only if no step of scheduler() skips a level on which somebody waits. -/
theorem every_strict_iff {as : List (Action n)} (legal : (kernel 4 n).Legal (boot n) as) :
    (kernel 4 n).Every Strict (boot n) as ↔ (kernel 4 n).Every NothingSkipped (boot n) as :=
  (kernel 4 n).every_iff (I := Reachable 4 n) (fun _ _ enabled reachable => .next reachable enabled)
    (fun _ _ enabled reachable => strict_iff (reachable_leveled reachable)
      ((reachable_base reachable).step 4 enabled))
    legal .start

section
variable (k : Kernel n)

instance (level : Int32) : Decidable (k.Waiting level) := inferInstanceAs (Decidable (∃ _, _))

instance : Decidable k.ShareDue := inferInstanceAs (Decidable (∃ _, _))

instance : Decidable k.QueueDue := inferInstanceAs (Decidable (∃ _, _))

instance (p : Slot) : Decidable (k.GoesOn p) := inferInstanceAs (Decidable (∃ _, _))

instance (a : Action n) : Decidable (NothingSkipped k a) := by
  obtain ⟨c, act⟩ := a
  cases act
  case pass => exact inferInstanceAs (Decidable (¬ k.ShareDue → _ ∧ _))
  case back =>
    exact inferInstanceAs
      (Decidable (∀ p, (k.cpus c).ctx = .loop p → k.GoesOn p → ¬ k.Waiting 3 ∧ ¬ k.Waiting 2))
  all_goals exact instDecidableTrue

end

/-- Alone on level 2 after nice(), init is dispatched again a tick later. -/
theorem strict_when_alone :
    (kernel 4 1).Every Strict (boot 1)
      (onCpu 0 (tick ++ [.pass, .resume, .nice] ++ tick ++ [.back] ++ tick ++ [.pass])) :=
  (every_strict_iff (by decide +kernel)).mpr (by decide +kernel)

/-- init drops to level 1 and forks; its child drops to level 2 and is made to
yield. In that same tick the next iteration finds nothing due on levels 3 and 2
and dispatches init, on level 1, past the RUNNABLE child on level 2. -/
theorem level_two_skipped :
    ∃ k : Kernel 1, Reachable 4 1 k ∧ k.Enabled ⟨0, .pass⟩ ∧ ¬ Strict k ⟨0, .pass⟩ := by
  let k := (kernel 4 1).after (boot 1)
    (onCpu 0 (tick ++ [.pass, .resume, .nice, .nice,
      .fork, .forkStack true, .forkCopy true, .forkReady] ++
      tick ++ [.back, .pass, .resume, .nice] ++ tick ++ [.back]))
  have reachable : Reachable 4 1 k := Lib.System.Reachable.start.after (by decide +kernel)
  refine ⟨k, reachable, by decide +kernel, ?_⟩
  rw [strict_pass_iff (reachable_leveled reachable)]
  decide +kernel

end Xv6
