import Xv6.Proc.Waiting
import Xv6.Proc.Progress

/-! The FIFO queue of strategy 2. The queue is implicit: every operation that
makes a process RUNNABLE stamps it with the current tick, and an iteration takes
the first slot with the oldest stamp, if that stamp is not of the current tick. -/

namespace Xv6
open Kernel Lib
variable {n : Nat} {strategy : Nat}

/-! ## Stamps -/

/-- One step of the record of when each slot last became RUNNABLE. -/
def noteReady (strategy : Nat) (k : Kernel n) (a : Action n) (ready : Slot → UInt32) :
    Slot → UInt32 := fun p =>
  if (k.ptable p).state ≠ .runnable ∧ ((k.perform strategy a).ptable p).state = .runnable then
    k.ticks
  else ready p

/-- The tick at which each slot last became RUNNABLE in a run from boot, where
init became RUNNABLE at tick 0. -/
def lastReady (strategy : Nat) (as : List (Action n)) : Slot → UInt32 :=
  (kernel strategy n).track (noteReady strategy) (boot n) as fun _ => 0

/-- The stamp of a RUNNABLE process is the tick at which it became RUNNABLE. -/
theorem priority_eq_lastReady {as : List (Action n)} (legal : (kernel strategy n).Legal (boot n) as)
    (p : Slot) (runnable : (((kernel strategy n).after (boot n) as).ptable p).state = .runnable) :
    (((kernel strategy n).after (boot n) as).ptable p).priority = lastReady strategy as p := by
  have both := (kernel strategy n).track_invariant (f := noteReady strategy)
    (I := fun k ready => Base k ∧
      ∀ p, (k.ptable p).state = .runnable → (k.ptable p).priority = ready p)
    ?step legal (h := fun _ => 0) ⟨boot_base n, ?boot⟩
  case boot =>
    intro p runnable
    rw [boot_slot]
    split <;> rfl
  case step =>
    rintro k a ready enabled ⟨base, stamped⟩
    have step := base.step strategy enabled
    refine ⟨base_step base step, fun p runnable => ?_⟩
    simp only [kernel_perform] at runnable ⊢
    obtain ⟨was, same⟩ | ⟨new, stamp⟩ := (move_of_step base step p).runnable_of runnable
    · simpa [noteReady, was, same] using stamped p was
    · simpa [noteReady, new, runnable] using stamp
  exact both.2 p runnable

/-! ## Whom strategy 2 dispatches -/

/-- Under strategy 2 an iteration ends with the process it dispatched. -/
theorem reachable_once {k : Kernel n} (h : Reachable 2 n k) (c : Fin n) :
    (k.cpus c).ctx = .once := by
  revert c
  apply reachable_invariant h
  case boot => exact fun _ => rfl
  case step =>
    intro k a k' _ step once c
    obtain ⟨_, same⟩ | ⟨_, o, rfl, outcome⟩ := step_place step c
    · exact same.trans (once c)
    · have next : o.next = none ∨ o.next = some .once := by
        obtain ⟨_, rfl⟩ | ⟨_, rfl⟩ := outcome
        · obtain ⟨_, eq⟩ | ⟨p, _, _, eq⟩ := fifoPass_cases k.ticks k.ptable (k.cpus c).proc
          · exact .inl (by simp [passOutcome, schedule, eq])
          · exact .inr (by simp [passOutcome, schedule, eq])
        · exact .inl (by simp [backOutcome, reschedule, once c])
      obtain next | next := next
      · simpa [follow, next, setCpu] using once c
      · simp [follow, next, setCpu]

/-- The dispatched process was queued before the current tick, and no later
than any other RUNNABLE one. -/
theorem fifo_dispatch {k k' : Kernel n} {a : Action n} (reachable : Reachable 2 n k)
    (step : Step 2 k a k') {c : Fin n} {p : Slot} (h : .dispatch c p ∈ k.emit 2 a) :
    (k.ptable p).priority < k.ticks ∧
      ∀ q, (k.ptable q).state = .runnable → (k.ptable p).priority ≤ (k.ptable q).priority := by
  obtain ⟨c, act⟩ := a
  obtain ⟨_, rfl | rfl, _⟩ := dispatch_cases step h
  · obtain ⟨_, eq⟩ | ⟨q, below, least, eq⟩ := fifoPass_cases k.ticks k.ptable (k.cpus c).proc
    · simp [emit, passOutcome, schedule, eq, dispatchEvents, Outcome.dispatched] at h
    · obtain ⟨rfl, rfl⟩ : _ ∧ p = q := by
        simpa [emit, passOutcome, schedule, eq, dispatchEvents, Outcome.dispatched] using h
      exact ⟨below, fun r runnable => least.least r (mem_slots r) ((isRunnable_iff _).mpr runnable)⟩
  · simp [emit, backOutcome, reachable_once reachable c, reschedule, dispatchEvents,
      Outcome.dispatched] at h

/-! ## Bounded overtaking -/

def Event.dispatches (j : Slot) : Event n → Bool
  | .dispatch _ p => p = j
  | _ => false

/-- How often slot `j` can still be dispatched before the RUNNABLE slot `i`. In
the tick `i` was queued in, `j` may go twice: once for an older stamp it has, and
once more after it is queued again in that same tick. -/
def overtakings (i j : Slot) (k : Kernel n) : Nat :=
  if k.ticks = (k.ptable i).priority then
    if (k.ptable j).state = .runnable ∧ (k.ptable j).priority < (k.ptable i).priority then 2 else 1
  else if (k.ptable j).state = .runnable ∧ (k.ptable j).priority ≤ (k.ptable i).priority then 1
  else 0

theorem overtakings_le (i j : Slot) (k : Kernel n) : overtakings i j k ≤ 2 := by
  unfold overtakings
  split
  · split <;> simp
  · split <;> simp

/-- A kernel under strategy 2 in which slot `i` waits and no stamp is ahead of the clock. -/
structure Queued (i : Slot) (k : Kernel n) : Prop where
  reachable : Reachable 2 n k
  waits : (k.ptable i).state = .runnable
  stamped : ∀ p, (k.ptable p).state = .runnable → (k.ptable p).priority ≤ k.ticks

/-- A step in which the clock does not wrap and slot `i` is not dispatched. -/
def LeavesQueued (i : Slot) (k : Kernel n) (a : Action n) : Prop :=
  NoWrap 2 k a ∧ ∀ e ∈ k.emit 2 a, ∀ c, e ≠ .dispatch c i

theorem step_stamped {k k' : Kernel n} {a : Action n} (base : Base k) (step : Step strategy k a k')
    (forward : k.ticks ≤ k'.ticks)
    (stamped : ∀ p, (k.ptable p).state = .runnable → (k.ptable p).priority ≤ k.ticks) (p : Slot)
    (runnable : (k'.ptable p).state = .runnable) : (k'.ptable p).priority ≤ k'.ticks := by
  obtain ⟨was, same⟩ | ⟨_, stamp⟩ := (move_of_step base step p).runnable_of runnable
  · have := stamped p was
    grind
  · grind

theorem queued_step {i : Slot} {k : Kernel n} {a : Action n} (enabled : k.Enabled a)
    (h : Queued i k) (leaves : LeavesQueued i k a) : Queued i (k.perform 2 a) := by
  have base := reachable_base h.reachable
  have step := base.step 2 enabled
  have stays := (move_of_step base step i).runnable_until h.waits fun mem => leaves.2 _ mem _ rfl
  exact ⟨.next h.reachable enabled, stays.1, step_stamped base step leaves.1 h.stamped⟩

/-- Every dispatch of `j` uses up one of its overtakings, and no step adds one. -/
theorem overtakings_step {i j : Slot} {k : Kernel n} {a : Action n} (enabled : k.Enabled a)
    (h : Queued i k) (leaves : LeavesQueued i k a) :
    overtakings i j (k.perform 2 a) + (k.emit 2 a).countP (Event.dispatches j) ≤
      overtakings i j k := by
  have base := reachable_base h.reachable
  have step := base.step 2 enabled
  have forward : k.ticks ≤ (k.perform 2 a).ticks := leaves.1
  have stays := (move_of_step base step i).runnable_until h.waits fun mem => leaves.2 _ mem _ rfl
  have stampi := h.stamped i h.waits
  have count := countP_dispatch step (Event.dispatches j) (by
    intro e he
    cases e <;> simp_all [Event.dispatches])
  -- a slot that becomes RUNNABLE does so while the clock stands still
  have joins (runnable : ((k.perform 2 a).ptable j).state = .runnable) :
      (k.ptable j).state = .runnable ∧
        ((k.perform 2 a).ptable j).priority = (k.ptable j).priority ∨
      ((k.perform 2 a).ptable j).priority = k.ticks ∧ (k.perform 2 a).ticks = k.ticks := by
    obtain was | ⟨new, stamp⟩ := (move_of_step base step j).runnable_of runnable
    · exact .inl was
    · obtain still | ⟨_, same⟩ := step_ticks step
      · exact .inr ⟨stamp, still⟩
      · exact absurd (same ▸ runnable) new
  obtain none | ⟨one, p, here, mem⟩ := count
  · rw [none]
    unfold overtakings
    grind
  · obtain rfl : p = j := by simpa [Event.dispatches] using here
    obtain ⟨_, _, _, runnable, running⟩ := dispatch_cases step mem
    obtain ⟨below, least⟩ := fifo_dispatch h.reachable step mem
    have least := least i h.waits
    have still : (k.perform 2 a).ticks = k.ticks := by
      obtain still | ⟨_, same⟩ := step_ticks step
      · exact still
      · simp [same, runnable] at running
    rw [one]
    unfold overtakings
    grind

theorem overtaken_at_most_twice {i : Slot} {k : Kernel n} (h : Queued i k) {as : List (Action n)}
    (legal : (kernel 2 n).Legal k as) (leaves : (kernel 2 n).Every (LeavesQueued i) k as) (j : Slot) :
    ((kernel 2 n).events (emit 2) k as).countP (Event.dispatches j) ≤ 2 :=
  ((kernel 2 n).countP_events_le (fun _ _ => queued_step) (fun _ _ => overtakings_step) legal h
    leaves).trans (overtakings_le i j k)

theorem boot_stamped (n : Nat) (p : Slot) (_ : ((boot n).ptable p).state = .runnable) :
    ((boot n).ptable p).priority ≤ (boot n).ticks := by
  rw [boot_slot]
  split <;> exact UInt32.le_refl 0

theorem stamped_after {k : Kernel n} (reachable : Reachable strategy n k)
    (stamped : ∀ p, (k.ptable p).state = .runnable → (k.ptable p).priority ≤ k.ticks)
    {as : List (Action n)} (legal : (kernel strategy n).Legal k as)
    (forward : (kernel strategy n).Every (NoWrap strategy) k as) :
    let k' := (kernel strategy n).after k as
    ∀ p, (k'.ptable p).state = .runnable → (k'.ptable p).priority ≤ k'.ticks := by
  induction as generalizing k with
  | nil => exact stamped
  | cons a as ih =>
    have base := reachable_base reachable
    exact ih (.next reachable legal.1)
      (step_stamped base (base.step strategy legal.1) forward.1 stamped) legal.2 forward.2

/-- Strategy 2, in every run in which the clock does not wrap. Stamps are the
ticks at which processes became RUNNABLE; a dispatched process became RUNNABLE
no later than any other that is RUNNABLE; and while one process waits, every
other slot is dispatched at most twice. -/
theorem fifo_order {as : List (Action n)} (legal : (kernel 2 n).Legal (boot n) as)
    (forward : (kernel 2 n).Every (NoWrap 2) (boot n) as) :
    let k := (kernel 2 n).after (boot n) as
    (∀ p, (k.ptable p).state = .runnable → (k.ptable p).priority = lastReady 2 as p) ∧
    (∀ a c p, k.Enabled a → .dispatch c p ∈ k.emit 2 a →
      ∀ q, (k.ptable q).state = .runnable → ¬ lastReady 2 as q < lastReady 2 as p) ∧
    ∀ bs i, (kernel 2 n).Legal k bs → (kernel 2 n).Every (NoWrap 2) k bs →
      (k.ptable i).state = .runnable → (∀ c, .dispatch c i ∉ (kernel 2 n).events (emit 2) k bs) →
      ∀ j, j ≠ i → ((kernel 2 n).events (emit 2) k bs).countP (Event.dispatches j) ≤ 2 := by
  intro k
  have reachable : Reachable 2 n k := Lib.System.Reachable.start.after legal
  have stamps := priority_eq_lastReady legal
  refine ⟨stamps, ?_, ?_⟩
  · intro a c p enabled event q runnable earlier
    have step := (reachable_base reachable).step 2 enabled
    have least := (fifo_dispatch reachable step event).2 q runnable
    rw [stamps p (dispatch_cases step event).2.2.2.1, stamps q runnable] at least
    grind
  · intro bs i legal' forward' waits undispatched j _
    have stamped := stamped_after .start (boot_stamped n) legal forward
    have leaves : (kernel 2 n).Every (LeavesQueued i) k bs :=
      (kernel 2 n).every_and forward' ((kernel 2 n).every_of_forall_events fun e mem c eq =>
        undispatched c (eq ▸ mem))
    exact overtaken_at_most_twice ⟨reachable, waits, stamped⟩ legal' leaves j

/-- init forks, sleeps, is woken in the same tick as its child was queued and
goes first: it has the lower slot. -/
theorem init_overtakes_child :
    let as := onCpu 0 (tick ++ [.pass, .resume, .fork, .forkStack true, .forkCopy true, .forkReady])
    let k := (kernel 2 1).after (boot 1) as
    let bs := onCpu 0 ([.sleep (.other 0), .back, .wakeup (.other 0)] ++ tick ++ [.pass])
    .dispatch 0 0 ∈ (kernel 2 1).events (emit 2) k bs ∧
      ((kernel 2 1).events (emit 2) k bs).countP (Event.dispatches 0) ≤ 2 := by
  intro as k bs
  have legal : (kernel 2 1).Legal (boot 1) as := by decide +kernel
  exact ⟨by decide +kernel, (fifo_order legal (by decide +kernel)).2.2 bs 1 (by decide +kernel)
    (by decide +kernel) (by decide +kernel) (by decide +kernel) 0 (by decide)⟩

end Xv6
