import Xv6.Proc.Base

/-! Parents, pids and reaping: every process that is not init has a living
parent, no two processes have the same pid, and a child is returned by one wait
call, of its parent, after it has exited. -/

namespace Xv6
open Kernel Lib
variable {n : Nat} {strategy : Nat}

/-! ## Parents -/

structure Family (k : Kernel n) : Prop where
  parent : ∀ p, p ≠ k.initproc → (k.ptable p).Live ∨ (k.ptable p).state = .zombie →
    ∃ q, (k.ptable p).parent = some q ∧ (k.ptable q).Live
  linked : ∀ p np, (k.ptable p).Live → (k.thread p).task = .forkReady np →
    (k.ptable np).parent = some p

theorem Passive.zombie_iff {ticks : UInt32} {p v : Proc} (h : Passive ticks p v) :
    v.state = .zombie ↔ p.state = .zombie := by
  have := h.queue
  grind

/-- A process has the parent it had, or init once that parent has exited; and a
process new to the table is being published by its fork(). -/
theorem Move.kin {k : Kernel n} {a : Action n} {i : Slot} {v : Proc} (h : Move strategy k a i v)
    (proper : (k.ptable i).parent ≠ some i) (alive : v.Live ∨ v.state = .zombie) :
    ((k.ptable i).Live ∨ (k.ptable i).state = .zombie) ∧
      v.parent = heir k a (k.ptable i).parent ∨
    ∃ p, a.act = .forkReady ∧ (k.ptable p).Live ∧ (k.thread p).task = .forkReady i ∧
      v.parent = (k.ptable i).parent := by
  have lives (running : (k.ptable i).state = .running) :
      (k.ptable i).Live ∨ (k.ptable i).state = .zombie := .inl (.inr (.inr running))
  have kept (other : a.act ≠ .exit) := (heir_of_ne (k := k) other (k.ptable i).parent).symm
  cases h with
  | passive h parent =>
    left
    rw [h.live_iff, h.zombie_iff] at alive
    exact ⟨alive, parent⟩
  | dispatch act event runnable =>
    exact .inl ⟨.inl (.inr (.inl runnable)), kept (by grind)⟩
  | charge act runs running | yield act runs running | clear act runs running
  | setcid act runs running | exec act runs running =>
    exact .inl ⟨lives running, kept (by simp [act])⟩
  | sleep act runs running => exact .inl ⟨lives running, kept (by grind)⟩
  | nice act runs running =>
    exact .inl ⟨lives running, (Proc.nice_parent _ _).trans (kept (by simp [act]))⟩
  | reap => simp [Proc.Live, Proc.reap] at alive
  | alloc => simp [Proc.Live, Proc.alloc] at alive
  | abandon => simp [Proc.Live] at alive
  | link act runs running task embryo => simp [Proc.Live, embryo] at alive
  | publish act runs running task embryo =>
    exact .inr ⟨_, act, .inr (.inr running), task, rfl⟩
  | exit act runs running task =>
    refine .inl ⟨lives running, ?_⟩
    simp [heir, runs, proper]

/-- The slot a fork() has linked keeps its parent until the fork() is done. -/
theorem Move.embryo_parent {k : Kernel n} {a : Action n} {i : Slot} {v : Proc}
    (h : Move strategy k a i v) (embryo : (k.ptable i).state = .embryo) :
    v.parent = heir k a (k.ptable i).parent ∨
    ∃ p, a.act = .forkCopy true ∧ (k.cpus a.cpu).proc = some p ∧ (k.ptable p).Live ∧
      (k.thread p).task = .forkCopy i := by
  have kept (other : a.act ≠ .exit) := (heir_of_ne (k := k) other (k.ptable i).parent).symm
  cases h with
  | passive h parent => exact .inl parent
  | abandon act => exact .inl (kept (by grind))
  | link act runs running task => exact .inr ⟨_, act, runs, .inr (.inr running), task⟩
  | publish act => exact .inl (kept (by simp [act]))
  | dispatch act event runnable => simp [embryo] at runnable
  | alloc act unused => simp [embryo] at unused
  | reap act runs running event zombie => simp [embryo] at zombie
  | charge _ _ running | yield _ _ running | sleep _ _ running | clear _ _ running
  | nice _ _ running | setcid _ _ running | exec _ _ running | exit _ _ running =>
    simp [embryo] at running

/-- fork() reaches its last stage by linking the child. -/
theorem step_linked {k k' : Kernel n} {a : Action n} (step : Step strategy k a k') {q np : Slot}
    (h : (k'.thread q).task = .forkReady np) :
    (k.thread q).task = .forkReady np ∨ (k'.ptable np).parent = some q := by
  have same {p : Slot} (tasks : SameTasks k k' p) : (k.thread q).task = .forkReady np :=
    (tasks q).1 ▸ h
  cases step with
  | pass | back => unfold follow at h; split at h <;> exact .inl h
  | timer => unfold Kernel.timer at h; split at h <;> exact .inl h
  | tickWakeup | charge | uncharged | trapReturn | wakeup | kill | nice | setcid | exec
  | forkFull => exact .inl h
  | resume => exact .inl (same sameTasks_resume)
  | wait => exact .inl (same (sameTasks_waitLoop rfl))
  | yield | sleep | exit => exact .inl (same (sameTasks_sched rfl))
  | trapExit | fault | exitBegin | fork | forkReady | forkStackFail | forkCopyFail =>
    obtain ⟨_, eq⟩ | old := setTask_task h
    · cases eq
    · exact .inl old
  | @forkStack c p new =>
    obtain ⟨_, eq⟩ | old := setTask_task h
    · cases eq
    · by_cases eq : q = new
      · simp [eq] at old
      · exact .inl (by simpa [eq] using old)
  | forkCopy =>
    obtain ⟨rfl, eq⟩ | old := setTask_task h
    · cases eq
      exact .inr (by simp [setTask, setProc])
    · exact .inl old

theorem step_family {k k' : Kernel n} {a : Action n} (base : Base k) (family : Family k)
    (step : Step strategy k a k') : Family k' := by
  have caller := step_exit_caller step
  refine ⟨fun p notInit alive => ?_, fun p np live task => ?_⟩
  · rw [step_initproc step] at notInit
    -- a parent dies only in its own exit(), which passes its children on
    have heirs {q : Slot} (live : (k.ptable q).Live) (same : heir k a (some q) = some q) :
        (k'.ptable q).Live := by
      obtain alive | ⟨exits, proc, intr, task⟩ := (move_of_step base step q).live live
      · exact alive
      · rw [heir, if_pos ⟨exits, proc.symm⟩] at same
        obtain rfl := Option.some.inj same
        exact absurd task (base.rooted.stays intr)
    obtain ⟨old, parent⟩ | ⟨q, act, live, task, parent⟩ :=
      (move_of_step base step p).kin (base.rooted.proper p) alive
    · obtain ⟨q, eq, live⟩ := family.parent p notInit old
      rw [eq] at parent
      by_cases same : heir k a (some q) = some q
      · exact ⟨q, parent.trans same, heirs live same⟩
      · have init : heir k a (some q) = some k.initproc := by
          unfold heir at same ⊢
          split <;> simp_all
        exact ⟨k.initproc, parent.trans init,
          step_initproc step ▸ (step_rooted base step).live⟩
    · refine ⟨q, parent.trans (family.linked q p live task), heirs live ?_⟩
      exact heir_of_ne (by simp [act]) _
  · obtain old | new := step_linked step task
    · have alive : (k.ptable p).Live := by
        obtain alive | ⟨_, q, liveq, filling⟩ := (move_of_step base step p).live_of live
        · exact alive
        · simp [base.forks.fresh q p liveq (.inr filling)] at old
      have embryo := base.forks.embryo p np alive (by simp [old, Task.child])
      have parent := family.linked p np alive old
      obtain kept | ⟨q, _, _, liveq, filling⟩ := (move_of_step base step np).embryo_parent embryo
      · rw [kept, parent, heir]
        split
        · rename_i exits
          obtain ⟨e, intr, runs, exiting⟩ := caller exits.1
          obtain rfl : p = e := Option.some.inj (exits.2.trans runs.2.2)
          simp [old] at exiting
        · rfl
      · obtain rfl := base.forks.unique p q np alive liveq (by simp [old, Task.child])
          (by simp [filling, Task.child])
        simp [old] at filling
    · exact new

theorem reachable_family {k : Kernel n} (h : Reachable strategy n k) : Family k := by
  apply reachable_invariant h
  case boot =>
    refine ⟨fun p notInit alive => ?_, fun p np _ task => by cases task⟩
    have other : p ≠ 0 := notInit
    rw [boot_slot, if_neg other] at alive
    simp [Proc.Live, Proc.zero] at alive
  case step =>
    exact fun k a k' reachable step family => step_family (reachable_base reachable) family step

/-! ## UNUSED slots -/

theorem Move.unused {k : Kernel n} {a : Action n} {i : Slot} {v : Proc}
    (h : Move strategy k a i v) (used : (k.ptable i).state ≠ .unused) (unused : v.state = .unused) :
    v = (k.ptable i).reap ∨ a.act = .forkStack false ∨ a.act = .forkCopy false := by
  cases h with
  | passive h =>
    obtain ⟨state, _⟩ | ⟨_, woken, _⟩ := h.queue
    · exact absurd (state ▸ unused) used
    · simp [unused] at woken
  | reap => exact .inl rfl
  | abandon act => exact .inr act
  | charge _ _ running => simp [Proc.charge, running] at unused
  | nice _ _ running => simp [running] at unused
  | clear _ _ running | setcid _ _ running | exec _ _ running =>
    simp [Proc.exec, running] at unused
  | link _ _ _ _ embryo => simp [embryo] at unused
  | dispatch | yield | sleep | alloc | publish | exit =>
    simp [Proc.ready, Proc.alloc] at unused

/-- A slot that becomes UNUSED is reaped or given up by the fork() that was
filling it in. -/
theorem step_freed {k k' : Kernel n} {a : Action n} (base : Base k)
    (step : Step strategy k a k') {i : Slot} (used : (k.ptable i).state ≠ .unused)
    (unused : (k'.ptable i).state = .unused) :
    k'.ptable i = (k.ptable i).reap ∨
    (a.act = .forkStack false ∨ a.act = .forkCopy false) ∧
      k'.ptable i = { k.ptable i with state := .unused } ∧
      ∃ p, k.Runs a.cpu p ∧ ((k.thread p).task = .forkStack i ∨ (k.thread p).task = .forkCopy i) := by
  obtain reaped | act := (move_of_step base step i).unused used unused
  · exact .inl reaped
  · right
    refine ⟨act, ?_⟩
    cases step with
    | @forkStackFail c p np runs task | @forkCopyFail c p np runs task =>
      by_cases here : i = np
      · subst here
        exact ⟨by simp [forkFail, setTask, setProc], p, runs, by simp [task]⟩
      · simp [forkFail, setTask, setProc, here] at unused
        exact absurd unused used
    | _ => simp at act

/-- A slot has a parent only between the forkCopy stage of its fork() and its
reaping. -/
structure Unlinked (k : Kernel n) : Prop where
  unused : ∀ p, (k.ptable p).state = .unused → (k.ptable p).parent = none
  filling : ∀ p np, (k.ptable p).Live →
    (k.thread p).task = .forkStack np ∨ (k.thread p).task = .forkCopy np →
    (k.ptable np).parent = none

end Xv6
