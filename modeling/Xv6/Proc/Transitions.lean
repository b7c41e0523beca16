import Xv6.Proc.Step
import Xv6.Proc.Selection

/-! Every step of the kernel, case by case, with its guard and its result
spelled out. Proofs about steps split on `Step` and never unfold `perform`. -/

namespace Xv6
open Kernel
variable {n : Nat}

inductive Step (strategy : Nat) (k : Kernel n) : Action n → Kernel n → Prop where
  | pass {c : Fin n} (ready : k.Open c) (top : (k.cpus c).mode = .scheduler) :
      Step strategy k ⟨c, .pass⟩ (k.follow c (k.passOutcome strategy c))
  | back {c : Fin n} (held : k.lock = some c) (switched : (k.cpus c).mode = .returned) :
      Step strategy k ⟨c, .back⟩ (k.follow c (k.backOutcome strategy c))
  | resume {c : Fin n} {p : Slot} (held : k.lock = some c) (switched : (k.cpus c).mode = .resumed)
      (runs : (k.cpus c).proc = some p) :
      Step strategy k ⟨c, .resume⟩ (k.resume c p)
  | timer {c : Fin n} (ready : k.Open c)
      (takes : ∀ p ∈ (k.cpus c).proc, (k.thread p).task.takesInterrupts = true) :
      Step strategy k ⟨c, .timer⟩ (k.timer c)
  | tickWakeup {c : Fin n} (handler : k.Handles c .ticked) :
      Step strategy k ⟨c, .tickWakeup⟩
        ({ k with ptable := wakeup1 k.ticks (some .ticks) k.ptable }.setIrq c .woken)
  | charge {c : Fin n} {p : Slot} (handler : k.Handles c .woken) (runs : (k.cpus c).proc = some p)
      (running : (k.ptable p).state = .running) :
      Step strategy k ⟨c, .charge⟩ ((k.setProc p (k.ptable p).charge).setIrq c .charged)
  | uncharged {c : Fin n} (handler : k.Handles c .woken)
      (free : ∀ p ∈ (k.cpus c).proc, (k.ptable p).state ≠ .running) :
      Step strategy k ⟨c, .charge⟩ (k.setIrq c .charged)
  | trapExit {c : Fin n} {p : Slot} (handler : k.Handles c .charged)
      (runs : (k.cpus c).proc = some p) (killed : (k.ptable p).killed = true)
      (task : (k.thread p).task = .run) (notInit : p ≠ k.initproc) :
      Step strategy k ⟨c, .trapExit⟩ ((k.setTask p (.exiting false)).setIrq c .off)
  | yield {c : Fin n} {p : Slot} (handler : k.Handles c .charged)
      (runs : (k.cpus c).proc = some p) (running : (k.ptable p).state = .running)
      (used : strategy = 1 → (k.ptable p).myquantum = quanta) :
      Step strategy k ⟨c, .trapYield⟩ ((k.setIrq c .off).yield c p)
  | trapReturn {c : Fin n} (handler : k.Handles c .charged)
      (left : ∀ p ∈ (k.cpus c).proc, (k.ptable p).state = .running →
        strategy = 1 ∧ (k.ptable p).myquantum ≠ quanta) :
      Step strategy k ⟨c, .trapYield⟩ (k.setIrq c .off)
  | fault {c : Fin n} {p : Slot} (runs : k.Runs c p) (task : (k.thread p).task = .run)
      (notInit : p ≠ k.initproc) :
      Step strategy k ⟨c, .fault⟩
        ((k.setProc p { k.ptable p with killed := true }).setTask p (.exiting false))
  | wakeup {c : Fin n} {chan : Chan} (ready : k.Open c) (other : chan.isProc = false) :
      Step strategy k ⟨c, .wakeup chan⟩
        { k with ptable := wakeup1 k.ticks (some chan) k.ptable }
  | sleep {c : Fin n} {p : Slot} {chan : Chan} (runs : k.Runs c p)
      (may : (k.thread p).task.maySleep = true) (other : chan.isProc = false) :
      Step strategy k ⟨c, .sleep chan⟩ (k.sleep c p chan .sleep)
  | kill {c : Fin n} {p : Slot} {pid : Int32} (runs : k.Runs c p)
      (task : (k.thread p).task = .run) :
      Step strategy k ⟨c, .kill pid⟩ { k with ptable := Xv6.kill k.ticks pid k.ptable }
  | nice {c : Fin n} {p : Slot} (runs : k.Runs c p) (task : (k.thread p).task = .run) :
      Step strategy k ⟨c, .nice⟩ (k.setProc p ((k.ptable p).nice k.ticks))
  | setcid {c : Fin n} {p : Slot} {cid : Int32} (runs : k.Runs c p)
      (task : (k.thread p).task = .run) :
      Step strategy k ⟨c, .setcid cid⟩ (k.setProc p { k.ptable p with cid := cid })
  | exec {c : Fin n} {p : Slot} {sz : UInt32} (runs : k.Runs c p)
      (task : (k.thread p).task = .run) :
      Step strategy k ⟨c, .exec sz⟩ (k.setProc p ((k.ptable p).exec k.ticks sz))
  | fork {c : Fin n} {p np : Slot} (runs : k.Runs c p) (task : (k.thread p).task = .run)
      (found : findUnused k.ptable = some np) :
      Step strategy k ⟨c, .fork⟩
        ({ k.setProc np ((k.ptable np).alloc k.ticks k.nextpid) with
          nextpid := k.nextpid + 1 }.setTask p (.forkStack np))
  | forkFull {c : Fin n} {p : Slot} (runs : k.Runs c p) (task : (k.thread p).task = .run)
      (full : findUnused k.ptable = none) : Step strategy k ⟨c, .fork⟩ k
  | forkStack {c : Fin n} {p np : Slot} (runs : k.Runs c p)
      (task : (k.thread p).task = .forkStack np) :
      Step strategy k ⟨c, .forkStack true⟩
        ({ k with thread := Function.update k.thread np ⟨.forkret, .run⟩ }.setTask p (.forkCopy np))
  | forkStackFail {c : Fin n} {p np : Slot} (runs : k.Runs c p)
      (task : (k.thread p).task = .forkStack np) :
      Step strategy k ⟨c, .forkStack false⟩ (k.forkFail p np)
  | forkCopy {c : Fin n} {p np : Slot} (runs : k.Runs c p)
      (task : (k.thread p).task = .forkCopy np) :
      Step strategy k ⟨c, .forkCopy true⟩
        ((k.setProc np { k.ptable np with sz := (k.ptable p).sz, parent := some p }).setTask p
          (.forkReady np))
  | forkCopyFail {c : Fin n} {p np : Slot} (runs : k.Runs c p)
      (task : (k.thread p).task = .forkCopy np) :
      Step strategy k ⟨c, .forkCopy false⟩ (k.forkFail p np)
  | forkReady {c : Fin n} {p np : Slot} (runs : k.Runs c p)
      (task : (k.thread p).task = .forkReady np) :
      Step strategy k ⟨c, .forkReady⟩ (k.forkReady p np)
  | wait {c : Fin n} {p : Slot} {call : WaitCall} (runs : k.Runs c p)
      (task : (k.thread p).task = .run) :
      Step strategy k ⟨c, .wait call⟩ (k.waitLoop c p call)
  | exitBegin {c : Fin n} {p : Slot} {intr : Bool} (runs : k.Runs c p)
      (task : (k.thread p).task = .run) (notInit : p ≠ k.initproc) :
      Step strategy k ⟨c, .exitBegin intr⟩ (k.setTask p (.exiting intr))
  | exit {c : Fin n} {p : Slot} {intr : Bool} (runs : k.Runs c p)
      (task : (k.thread p).task = .exiting intr) :
      Step strategy k ⟨c, .exit⟩ (k.exit c p)

theorem withProc_of_some {k : Kernel n} {c : Fin n} {p : Slot} (h : (k.cpus c).proc = some p)
    (f : Slot → Kernel n) : k.withProc c f = f p := by
  simp [withProc, h]

/-- The process a thread step is taken by. -/
theorem performs_cases {k : Kernel n} {c : Fin n} {ok : Slot → Task → Prop}
    (h : k.Performs c ok) : ∃ p, k.Runs c p ∧ ok p (k.thread p).task := by
  obtain ⟨p, _, runs, task⟩ := h
  exact ⟨p, runs, task⟩

theorem step_charge (strategy : Nat) {k : Kernel n} {c : Fin n} (h : k.Handles c .woken) :
    Step strategy k ⟨c, .charge⟩ (k.charge c) := by
  unfold Kernel.charge withProc
  cases hp : (k.cpus c).proc with
  | none => exact .uncharged h (by simp [hp])
  | some p =>
    by_cases running : (k.ptable p).state = .running
    · simpa only [running, ↓reduceIte] using Step.charge h hp running
    · simpa only [running, ↓reduceIte] using Step.uncharged h (by simpa [hp] using running)

theorem step_trapYield (strategy : Nat) {k : Kernel n} {c : Fin n} (h : k.Handles c .charged) :
    Step strategy k ⟨c, .trapYield⟩ (k.trapYield strategy c) := by
  unfold trapYield
  cases hp : (k.cpus c).proc with
  | none => exact .trapReturn h (by simp [hp])
  | some p =>
    dsimp only
    by_cases go : (k.ptable p).state = .running ∧
        (strategy = 1 → (k.ptable p).myquantum = quanta)
    · rw [if_pos go]
      exact .yield h hp go.1 go.2
    · rw [if_neg go]
      refine .trapReturn h ?_
      intro q hq running
      obtain rfl : p = q := by simpa [hp] using hq
      exact Classical.not_imp.mp fun used => go ⟨running, used⟩

theorem step_fork (strategy : Nat) {k : Kernel n} {c : Fin n} {p : Slot} (runs : k.Runs c p)
    (task : (k.thread p).task = .run) : Step strategy k ⟨c, .fork⟩ (k.fork p) := by
  unfold Kernel.fork allocproc
  cases found : findUnused k.ptable with
  | none => exact .forkFull runs task found
  | some np => exact .fork runs task found

/-- The executable step takes one of the cases. A CPU that has switched to a
thread runs some process; that is an invariant of the kernel, not of this step. -/
theorem step_of_enabled (strategy : Nat) {k : Kernel n} {a : Action n} (h : k.Enabled a)
    (busy : ∀ c, (k.cpus c).mode = .resumed → ∃ p, (k.cpus c).proc = some p) :
    Step strategy k a (k.perform strategy a) := by
  obtain ⟨c, act⟩ := a
  cases act with
  | pass => exact .pass h.1 h.2
  | back => exact .back h.1 h.2
  | resume =>
    obtain ⟨p, hp⟩ := busy c h.2
    simpa only [perform, withProc_of_some hp] using Step.resume h.1 h.2 hp
  | timer => exact .timer h.1 h.2
  | tickWakeup => exact .tickWakeup h
  | charge => exact step_charge strategy h
  | trapExit =>
    obtain ⟨handler, p, hp, killed, task, notInit⟩ := h
    simpa only [perform, withProc_of_some hp] using Step.trapExit handler hp killed task notInit
  | trapYield => exact step_trapYield strategy h
  | fault =>
    simp only [Enabled] at h
    obtain ⟨p, runs, task, notInit⟩ := performs_cases h
    simpa only [perform, withProc_of_some runs.2.2] using Step.fault runs task notInit
  | wakeup chan => exact .wakeup h.1 (by simpa using h.2)
  | sleep chan =>
    simp only [Enabled] at h
    obtain ⟨p, runs, may⟩ := performs_cases h.1
    simpa only [perform, withProc_of_some runs.2.2] using Step.sleep runs may (by simpa using h.2)
  | kill pid =>
    simp only [Enabled] at h
    obtain ⟨p, runs, task⟩ := performs_cases h
    exact .kill runs task
  | nice =>
    simp only [Enabled] at h
    obtain ⟨p, runs, task⟩ := performs_cases h
    simpa only [perform, withProc_of_some runs.2.2] using Step.nice runs task
  | setcid cid =>
    simp only [Enabled] at h
    obtain ⟨p, runs, task⟩ := performs_cases h
    simpa only [perform, withProc_of_some runs.2.2] using Step.setcid runs task
  | exec sz =>
    simp only [Enabled] at h
    obtain ⟨p, runs, task⟩ := performs_cases h
    simpa only [perform, withProc_of_some runs.2.2] using Step.exec runs task
  | fork =>
    simp only [Enabled] at h
    obtain ⟨p, runs, task⟩ := performs_cases h
    simpa only [perform, withProc_of_some runs.2.2] using step_fork strategy runs task
  | forkStack kalloc =>
    simp only [Enabled] at h
    obtain ⟨p, runs, task⟩ := performs_cases h
    simp only [perform, withProc_of_some runs.2.2]
    split at task <;> try contradiction
    rename_i np stage
    cases kalloc
    · exact .forkStackFail runs stage
    · exact .forkStack runs stage
  | forkCopy copyuvm =>
    simp only [Enabled] at h
    obtain ⟨p, runs, task⟩ := performs_cases h
    simp only [perform, withProc_of_some runs.2.2]
    split at task <;> try contradiction
    rename_i np stage
    cases copyuvm
    · exact .forkCopyFail runs stage
    · exact .forkCopy runs stage
  | forkReady =>
    simp only [Enabled] at h
    obtain ⟨p, runs, task⟩ := performs_cases h
    simp only [perform, withProc_of_some runs.2.2]
    split at task <;> try contradiction
    rename_i np stage
    exact .forkReady runs stage
  | wait call =>
    simp only [Enabled] at h
    obtain ⟨p, runs, task⟩ := performs_cases h
    simpa only [perform, withProc_of_some runs.2.2] using Step.wait runs task
  | exitBegin intr =>
    simp only [Enabled] at h
    obtain ⟨p, runs, task, notInit⟩ := performs_cases h
    simpa only [perform, withProc_of_some runs.2.2] using Step.exitBegin runs task notInit
  | exit =>
    simp only [Enabled] at h
    obtain ⟨p, runs, task⟩ := performs_cases h
    split at task <;> try contradiction
    rename_i intr stage
    simpa only [perform, withProc_of_some runs.2.2] using Step.exit runs stage

end Xv6
