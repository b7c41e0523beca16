import Xv6.Proc.Waiting
import Xv6.Proc.Progress
import Xv6.Proc.Interrupts

/-! The round robin of strategy 1. Every CPU walks the table with its own
position, which it keeps while the process it dispatched runs; a process is
made to yield when the timer has charged it `quanta` times. -/

namespace Xv6
open Kernel Lib
variable {n : Nat}

/-! ## The walk over the table -/

/-- A CPU's `proc` is its position in the loop. -/
def Placed (k : Kernel n) : Prop :=
  ∀ c p, (k.cpus c).proc = some p → (k.cpus c).ctx = .loop p

/-- A slot that CPU `c` has still to look at in its current walk. -/
def Kernel.Unvisited (k : Kernel n) (c : Fin n) (q : Slot) : Prop :=
  ∀ p, (k.cpus c).proc = some p → p < q

/-- What one turn of scheduler() on CPU `c` does under strategy 1. -/
inductive Turn (k k' : Kernel n) (c : Fin n) (events : List (Event n)) : Prop where
  | elsewhere (same : SamePlace k k' c) (quiet : ∀ p, .dispatch c p ∉ events)
  | next (q : Slot) (unvisited : k.Unvisited c q)
      (first : ∀ r, k.Unvisited c r → (k.ptable r).state = .runnable → q ≤ r)
      (proc : (k'.cpus c).proc = some q) (ctx : (k'.cpus c).ctx = .loop q)
      (event : events = [.dispatch c q])
  | finish (nobody : ∀ r, k.Unvisited c r → (k.ptable r).state ≠ .runnable)
      (proc : (k'.cpus c).proc = none) (event : events = [])

/-- The loop of strategy 1 over slots that come in order. -/
theorem turn_of_loop {k : Kernel n} {c : Fin n} {o : Outcome} {l : List Slot}
    (sorted : l.Pairwise (· < ·)) (mem : ∀ q, q ∈ l ↔ k.Unvisited c q)
    (loop : o = rrLoop Proc.isRunnable k.ptable none l) :
    Turn k (k.follow c o) c (dispatchEvents c o) := by
  obtain ⟨nobody, eq⟩ | ⟨q, found, selected, eq⟩ := rrLoop_cases Proc.isRunnable k.ptable none l
  · rw [loop, eq]
    refine .finish ?_ (by simp [follow, setCpu]) rfl
    intro r unvisited runnable
    have := nobody r ((mem r).mpr unvisited)
    simp [(isRunnable_iff _).mpr runnable] at this
  · rw [loop, eq]
    refine .next q ((mem q).mp (List.mem_of_find?_eq_some found)) ?_ (by simp [follow, setCpu])
      (by simp [follow, setCpu]) rfl
    intro r unvisited runnable
    obtain rfl | behind := find?_first sorted found r ((mem r).mpr unvisited)
      ((isRunnable_iff _).mpr runnable)
    · exact le_rfl
    · exact behind.le

theorem step_turn {k k' : Kernel n} {a : Action n} (base : Base k) (placed : Placed k)
    (step : Step 1 k a k') (c : Fin n) : Turn k k' c (k.emit 1 a) := by
  by_cases here : c = a.cpu ∧ (a.act = .pass ∨ a.act = .back)
  · obtain ⟨rfl, act⟩ := here
    cases step with
    | @pass c ready top =>
      have idle := base.exclusive.idle c top
      refine turn_of_loop slots_sorted ?_ (by simp [passOutcome, schedule, idle])
      simp [Kernel.Unvisited, idle]
    | @back c held switched =>
      obtain ⟨p, proc, _⟩ := base.exclusive.left c switched
      refine turn_of_loop (slots_sorted.filter _) (l := slots.filter fun q => p < q) ?_
        (by simp [backOutcome, placed c p proc, reschedule])
      simp [Kernel.Unvisited, proc]
    | _ => simp at act
  · have quiet : ∀ p, .dispatch c p ∉ k.emit 1 a := by
      intro p mem
      obtain ⟨rfl, act, _⟩ := dispatch_cases step mem
      exact here ⟨rfl, act⟩
    obtain same | ⟨rfl, _, _, outcome⟩ := step_place step c
    · exact .elsewhere same quiet
    · exact absurd ⟨rfl, outcome.imp And.left And.left⟩ here

theorem reachable_placed {k : Kernel n} (h : Reachable 1 n k) : Placed k := by
  apply reachable_invariant h
  case boot => exact fun c p proc => by cases proc
  case step =>
    intro k a k' reachable step placed c p proc
    cases step_turn (reachable_base reachable) placed step c with
    | elsewhere same => exact same.2.trans (placed c p (same.1 ▸ proc))
    | next q _ _ proc' ctx =>
      obtain rfl : q = p := Option.some.inj (proc'.symm.trans proc)
      exact ctx
    | finish _ none => simp [none] at proc

/-- Whether CPU `c` can still dispatch slot `j` before the RUNNABLE slot `i`:
ahead of its position and before `i`, or, once it has passed `i`, anywhere
ahead or anywhere before `i` in the walk after that. -/
def turnsLeft (c : Fin n) (i j : Slot) (k : Kernel n) : Nat :=
  match (k.cpus c).proc with
  | none => if j < i then 1 else 0
  | some p => if p < j ∧ (j < i ∨ i ≤ p) ∨ j < i ∧ i ≤ p then 1 else 0

theorem turnsLeft_le (c : Fin n) (i j : Slot) (k : Kernel n) : turnsLeft c i j k ≤ 1 := by
  unfold turnsLeft
  split
  · split <;> simp
  · split <;> simp

theorem turnsLeft_turn {k k' : Kernel n} {c : Fin n} {i j : Slot} {events : List (Event n)}
    (turn : Turn k k' c events) (waits : (k.ptable i).state = .runnable)
    (undispatched : .dispatch c i ∉ events) :
    turnsLeft c i j k' + events.countP (· = .dispatch c j) ≤ turnsLeft c i j k := by
  cases turn with
  | elsewhere same quiet =>
    have none : events.countP (· = .dispatch c j) = 0 := by
      refine List.countP_eq_zero.mpr fun e mem => ?_
      simp only [decide_eq_true_eq]
      rintro rfl
      exact quiet j mem
    simp [turnsLeft, same.1, none]
  | next q unvisited first proc ctx event =>
    have other : q ≠ i := by
      rintro rfl
      simp [event] at undispatched
    have count : events.countP (· = .dispatch c j) = if q = j then 1 else 0 := by
      simp [event]
    have before : k.Unvisited c i → q < i := fun h => lt_of_le_of_ne (first i h waits) other
    rw [count]
    unfold turnsLeft Kernel.Unvisited at *
    simp only [proc]
    cases position : (k.cpus c).proc <;> grind
  | finish nobody proc event =>
    have passed : ¬ k.Unvisited c i := fun h => nobody i h waits
    simp only [event, List.countP_nil]
    unfold turnsLeft Kernel.Unvisited at *
    simp only [proc]
    cases position : (k.cpus c).proc <;> grind

/-- A kernel under strategy 1 in which slot `i` waits. -/
structure InLine (i : Slot) (k : Kernel n) : Prop where
  reachable : Reachable 1 n k
  waits : (k.ptable i).state = .runnable

/-- While a process waits, a CPU dispatches every other slot at most once. -/
theorem overtaken_once_per_cpu {i : Slot} {k : Kernel n} (h : InLine i k) {as : List (Action n)}
    (legal : (kernel 1 n).Legal k as)
    (undispatched : ∀ c, .dispatch c i ∉ (kernel 1 n).events (emit 1) k as) (c : Fin n) (j : Slot) :
    ((kernel 1 n).events (emit 1) k as).countP (· = .dispatch c j) ≤ 1 := by
  have every : (kernel 1 n).Every (fun k a => ∀ e ∈ k.emit 1 a, ∀ c, e ≠ .dispatch c i) k as :=
    (kernel 1 n).every_of_forall_events fun e mem c eq => undispatched c (eq ▸ mem)
  refine ((kernel 1 n).countP_events_le (I := InLine i) ?_ ?_ legal h every).trans
    (turnsLeft_le c i j k)
  · intro k a enabled h leaves
    have base := reachable_base h.reachable
    exact ⟨.next h.reachable enabled, ((move_of_step base (base.step 1 enabled) i).runnable_until
      h.waits fun mem => leaves _ mem _ rfl).1⟩
  · intro k a enabled h leaves
    have base := reachable_base h.reachable
    exact turnsLeft_turn (step_turn base (reachable_placed h.reachable) (base.step 1 enabled) c)
      h.waits fun mem => leaves _ mem _ rfl

/-! ## The quantum -/

/-- A thread inside exit() stays there. -/
theorem step_keeps_exiting {strategy : Nat} {k k' : Kernel n} {a : Action n} (base : Base k)
    (step : Step strategy k a k') {q : Slot} {intr : Bool} (live : (k.ptable q).Live)
    (h : (k.thread q).task = .exiting intr) : (k'.thread q).task = .exiting intr := by
  have same {p : Slot} (tasks : SameTasks k k' p) : (k'.thread q).task = .exiting intr :=
    (tasks q).1.trans h
  have set {k : Kernel n} {p : Slot} {task : Task} (other : q ≠ p)
      (h : (k.thread q).task = .exiting intr) :
      ((k.setTask p task).thread q).task = .exiting intr := by
    simpa [setTask, other] using h
  cases step with
  | pass | back => unfold follow; split <;> exact h
  | timer => unfold Kernel.timer; split <;> exact h
  | tickWakeup | charge | uncharged | trapReturn | wakeup | kill | nice | setcid | exec
  | forkFull => exact h
  | resume => exact same sameTasks_resume
  | wait => exact same (sameTasks_waitLoop rfl)
  | yield | sleep | exit => exact same (sameTasks_sched rfl)
  | trapExit _ _ _ task | fault _ task | exitBegin _ task | fork _ task | forkStackFail _ task | forkCopy _ task
  | forkCopyFail _ task | forkReady _ task =>
    exact set (by rintro rfl; simp [task] at h) h
  | @forkStack c p np runs task =>
    have running := base.exclusive.running runs.acts
    have embryo := base.forks.embryo p np (.inr (.inr running)) (by simp [task, Task.child])
    have other : q ≠ np := by rintro rfl; simp [Proc.Live, embryo] at live
    exact set (by rintro rfl; simp [task] at h) (by simpa [other] using h)

/-- After the timer has charged a process, the handler makes it exit or, once
its quantum is used up, yield. -/
theorem step_charged {k k' : Kernel n} {a : Action n} (h : Handlers k) (step : Step 1 k a k')
    {c : Fin n} {p : Slot} (proc : (k.cpus c).proc = some p) (charged : (k.cpus c).irq = .charged) :
    (k'.cpus c).irq = .charged ∨ (k'.thread p).task = .exiting false ∨
      (k'.ptable p).state ≠ .running ∨ (k.ptable p).myquantum ≠ quanta := by
  by_cases here : c = a.cpu
  · subst here
    have inside {irq : Irq} (eq : (k.cpus a.cpu).irq = irq) (other : irq ≠ .charged) : False :=
      other (eq.symm.trans charged)
    cases step with
    | @trapExit c q handler runs =>
      obtain rfl : p = q := Option.some.inj (proc.symm.trans runs)
      exact .inr (.inl (by simp [setTask, setIrq, setCpu]))
    | @yield c q handler runs =>
      obtain rfl : p = q := Option.some.inj (proc.symm.trans runs)
      exact .inr (.inr (.inl (by simp [Kernel.yield, sched, setProc, setCpu, Proc.ready])))
    | trapReturn handler left =>
      by_cases running : (k.ptable p).state = .running
      · exact .inr (.inr (.inr (left p proc running).2))
      · exact .inr (.inr (.inl running))
    | pass ready | timer ready | wakeup ready => exact (inside ready.2 (by simp)).elim
    | back _ switched => exact (inside (h.quiet _ (.inl switched)) (by simp)).elim
    | resume _ switched => exact (inside (h.quiet _ (.inr switched)) (by simp)).elim
    | tickWakeup handler | charge handler | uncharged handler =>
      exact (inside handler.2 (by simp)).elim
    | fault runs | sleep runs | exit runs | wait runs | kill runs | nice runs | setcid runs | exec runs
    | fork runs | forkFull runs | forkStack runs | forkStackFail runs | forkCopy runs
    | forkCopyFail runs | forkReady runs | exitBegin runs =>
      exact (inside runs.1.2 (by simp)).elim
  · exact .inl (by rw [step_other_cpu step here]; exact charged)

/-- How a step moves the meter of a slot. -/
theorem Move.myquantum {strategy : Nat} {k : Kernel n} {a : Action n} {i : Slot} {v : Proc}
    (h : Move strategy k a i v) :
    ((k.ptable i).state ≠ .running ∧ v.myquantum = 0) ∨
    (a.act = .charge ∧ (k.cpus a.cpu).proc = some i ∧ (k.ptable i).state = .running ∧
      v.myquantum = (k.ptable i).myquantum + 1) ∨
    v.myquantum = (k.ptable i).myquantum := by
  cases h with
  | passive h => exact .inr (.inr (by rw [h.fixed]))
  | dispatch act event runnable => exact .inl ⟨by simp [runnable], rfl⟩
  | alloc act unused => exact .inl ⟨by simp [unused], rfl⟩
  | charge act runs running => exact .inr (.inl ⟨act, runs, running, rfl⟩)
  | nice => exact .inr (.inr (by unfold Proc.nice; grind))
  | _ => exact .inr (.inr rfl)

/-- A process starts RUNNING with a fresh quantum. -/
theorem Move.running_of {strategy : Nat} {k : Kernel n} {a : Action n} {i : Slot} {v : Proc}
    (h : Move strategy k a i v) (running : v.state = .running) :
    (k.ptable i).state = .running ∨ v.myquantum = 0 := by
  cases h with
  | passive h => exact .inl (h.running_iff.mp running)
  | dispatch => exact .inr rfl
  | reap | alloc | abandon | publish | exit | yield | sleep => cases running
  | link act runs _ task embryo => simp [embryo] at running
  | charge _ _ old | clear _ _ old | nice _ _ old | setcid _ _ old | exec _ _ old => exact .inl old

/-- A process that is RUNNING before and after a step stays on its CPU. -/
theorem step_proc_of_running {strategy : Nat} {k k' : Kernel n} {a : Action n} (base : Base k)
    (step : Step strategy k a k') {c : Fin n} {p : Slot} (proc : (k'.cpus c).proc = some p)
    (running : (k.ptable p).state = .running) : (k.cpus c).proc = some p := by
  obtain ⟨d, owner⟩ := base.exclusive.owner p running
  by_cases here : c = a.cpu
  · by_cases there : d = a.cpu
    · exact here ▸ there ▸ owner
    · have : (k'.cpus d).proc = some p := by rw [step_other_cpu step there]; exact owner
      exact (step_exclusive base step).once d c p this proc ▸ owner
  · rw [← step_other_cpu step here]
    exact proc

/-- Under strategy 1 a RUNNING process has quantum left, except between the
charge that uses it up and the yield or exit that follows. -/
structure Metered (k : Kernel n) : Prop where
  capped : ∀ p, (k.ptable p).myquantum ≤ quanta
  left : ∀ c p, (k.cpus c).proc = some p → (k.ptable p).state = .running →
    (k.ptable p).myquantum < quanta ∨
      (k.cpus c).irq = .charged ∨ (k.thread p).task = .exiting false

/-- The process a charge hits has quantum left. -/
theorem Metered.charge {strategy : Nat} {k k' : Kernel n} {a : Action n} (h : Metered k)
    (handlers : Handlers k) (step : Step strategy k a k') (act : a.act = .charge) {p : Slot}
    (proc : (k.cpus a.cpu).proc = some p) (running : (k.ptable p).state = .running) :
    (k.ptable p).myquantum < quanta := by
  obtain ⟨woken, _⟩ := step_charge_irq step act
  obtain left | charged | exiting := h.left a.cpu p proc running
  · exact left
  · simp [woken] at charged
  · exact absurd exiting (handlers.takes a.cpu p proc (by simp [woken]))

theorem succ_le_quanta {m : UInt32} (h : m < quanta) :
    m + 1 ≤ quanta ∧ (m + 1).toNat = m.toNat + 1 := by
  have small : m.toNat < 5 := UInt32.lt_iff_toNat_lt.mp h
  have succ : (m + 1).toNat = m.toNat + 1 := by
    rw [UInt32.toNat_add]
    exact Nat.mod_eq_of_lt (by simp; omega)
  refine ⟨UInt32.le_iff_toNat_le.mpr ?_, succ⟩
  rw [succ]
  exact small

theorem step_metered {k k' : Kernel n} {a : Action n} (base : Base k) (handlers : Handlers k)
    (h : Metered k) (step : Step 1 k a k') : Metered k' := by
  refine ⟨fun p => ?_, fun c p proc' running' => ?_⟩
  · obtain ⟨_, fresh⟩ | ⟨act, proc, running, charged⟩ | same := (move_of_step base step p).myquantum
    · rw [fresh]; decide
    · rw [charged]
      exact (succ_le_quanta (h.charge handlers step act proc running)).1
    · rw [same]; exact h.capped p
  · obtain running | fresh := (move_of_step base step p).running_of running'
    · have proc := step_proc_of_running base step proc' running
      obtain ⟨idle, _⟩ | ⟨act, own, _, _⟩ | same := (move_of_step base step p).myquantum
      · exact absurd running idle
      · obtain rfl := base.exclusive.once c a.cpu p proc own
        exact .inr (.inl (step_charge_irq step act).2)
      · rw [same]
        obtain left | charged | exiting := h.left c p proc running
        · exact .inl left
        · obtain still | exits | away | notUp := step_charged handlers step proc charged
          · exact .inr (.inl still)
          · exact .inr (.inr exits)
          · exact absurd running' away
          · have := h.capped p
            exact .inl (by grind)
        · exact .inr (.inr (step_keeps_exiting base step (.inr (.inr running)) exiting))
    · left; rw [fresh]; decide

theorem reachable_metered {k : Kernel n} (h : Reachable 1 n k) : Metered k := by
  apply reachable_invariant h
  case boot =>
    refine ⟨fun p => ?_, fun c p proc => by cases proc⟩
    rw [boot_slot]
    split <;> decide
  case step =>
    exact fun k a k' reachable step inv =>
      step_metered (reachable_base reachable) (reachable_handlers reachable) inv step

/-- A charge event is the timer handler's increment. -/
theorem charge_event {strategy : Nat} {k k' : Kernel n} {a : Action n}
    (step : Step strategy k a k') {p : Slot} (h : .charge p ∈ k.emit strategy a) :
    a.act = .charge ∧ (k.cpus a.cpu).proc = some p ∧ (k.ptable p).state = .running ∧
      k.emit strategy a = [.charge p] ∧
      (k'.ptable p).myquantum = (k.ptable p).myquantum + 1 := by
  cases step with
  | @charge c q handler runs running =>
    have event : k.emit strategy ⟨c, .charge⟩ = [.charge q] := by simp [emit, runs, running]
    obtain rfl : p = q := by simpa [event] using h
    exact ⟨rfl, runs, running, event, by simp [setIrq, setCpu, setProc, Proc.charge]⟩
  | _ => grind [emit, waitEvents, dispatchEvents]

/-- While a process stays RUNNING, the timer charges it at most `quanta` times. -/
theorem charged_at_most_quanta {p : Slot} {k : Kernel n} (h : Reachable 1 n k)
    {as : List (Action n)} (legal : (kernel 1 n).Legal k as)
    (stays : (kernel 1 n).Stays (fun k => (k.ptable p).state = .running) k as) :
    ((kernel 1 n).events (emit 1) k as).countP (· = .charge p) ≤ quanta.toNat := by
  obtain ⟨running, every⟩ := (kernel 1 n).every_of_stays stays
  refine ((kernel 1 n).countP_events_le (m := fun k => quanta.toNat - (k.ptable p).myquantum.toNat)
    (I := fun k => Reachable 1 n k ∧ (k.ptable p).state = .running) ?_ ?_ legal ⟨h, running⟩
    every).trans (Nat.sub_le _ _)
  · exact fun k a enabled h running => ⟨.next h.1 enabled, running⟩
  · rintro k a enabled ⟨reachable, running⟩ _
    have base := reachable_base reachable
    have step := base.step 1 enabled
    have left (act : a.act = .charge) (proc : (k.cpus a.cpu).proc = some p) :
        (k.ptable p).myquantum < quanta :=
      (reachable_metered reachable).charge (reachable_handlers reachable) step act proc running
    simp only [kernel_perform]
    by_cases charged : .charge p ∈ k.emit 1 a
    · obtain ⟨act, proc, _, event, succ⟩ := charge_event step charged
      have one : (k.emit 1 a).countP (· = .charge p) = 1 := by simp [event]
      have below := UInt32.lt_iff_toNat_lt.mp (left act proc)
      rw [one, succ, (succ_le_quanta (left act proc)).2]
      omega
    · have none : (k.emit 1 a).countP (· = .charge p) = 0 := by
        refine List.countP_eq_zero.mpr fun e mem => ?_
        simp only [decide_eq_true_eq]
        rintro rfl
        exact charged mem
      rw [none]
      obtain ⟨idle, _⟩ | ⟨act, proc, _, succ⟩ | same := (move_of_step base step p).myquantum
      · exact absurd running idle
      · rw [succ, (succ_le_quanta (left act proc)).2]
        omega
      · rw [same, Nat.add_zero]

/-- Strategy 1, from every reachable state. While a process waits, every CPU
dispatches each other slot at most once; while a process runs, the timer
charges it at most `quanta` times, and no meter ever exceeds `quanta`. -/
theorem round_robin_fair {k : Kernel n} (h : Reachable 1 n k) :
    (∀ as i, (kernel 1 n).Legal k as → (k.ptable i).state = .runnable →
      (∀ c, .dispatch c i ∉ (kernel 1 n).events (emit 1) k as) →
      ∀ c j, j ≠ i → ((kernel 1 n).events (emit 1) k as).countP (· = .dispatch c j) ≤ 1) ∧
    (∀ as p, (kernel 1 n).Legal k as →
      (kernel 1 n).Stays (fun k => (k.ptable p).state = .running) k as →
      ((kernel 1 n).events (emit 1) k as).countP (· = .charge p) ≤ quanta.toNat) ∧
    ∀ p, (k.ptable p).myquantum ≤ quanta :=
  ⟨fun _ _ legal waits undispatched c j _ =>
      overtaken_once_per_cpu ⟨h, waits⟩ legal undispatched c j,
    fun _ _ legal stays => charged_at_most_quanta h legal stays,
    (reachable_metered h).capped⟩

/-- init uses up its whole quantum: five charges before it is made to yield. -/
theorem init_uses_quantum :
    let k := (kernel 1 1).after (boot 1) (onCpu 0 [.pass, .resume])
    let as := onCpu 0 (tick ++ tick ++ tick ++ tick ++ [.timer, .tickWakeup, .charge])
    ((kernel 1 1).events (emit 1) k as).countP (· = .charge 0) = 5 ∧
      ((kernel 1 1).events (emit 1) k as).countP (· = .charge 0) ≤ quanta.toNat := by
  intro k as
  have reachable : Reachable 1 1 k := Lib.System.Reachable.start.after (by decide +kernel)
  exact ⟨by decide +kernel,
    (round_robin_fair reachable).2.1 as 0 (by decide +kernel) (by decide +kernel)⟩

end Xv6
