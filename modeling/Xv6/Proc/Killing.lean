import Xv6.Proc.Family

/-! kill(). It compares pids without looking at the state of a slot, so it can
also mark an UNUSED slot, whose pid field is 0 or left over from a fork() that
failed; and allocproc() does not clear the mark. Here its effect is set against
what a caller expects of it. -/

namespace Xv6
open Kernel Lib
variable {n : Nat} {strategy : Nat}

/-- What kill() returns. -/
def killResult (pid : Int32) (t : Table) : Int32 :=
  if (findPid pid t).isSome then 0 else -1

/-- The process in slot `p` is the one called `pid`. -/
def Owns (t : Table) (pid : Int32) (p : Slot) : Prop :=
  (t p).state ≠ .unused ∧ (t p).pid = pid

/-- An UNUSED slot still holds `pid`. -/
def Stale (t : Table) (pid : Int32) : Prop :=
  ∃ u, (t u).state = .unused ∧ (t u).pid = pid

instance (t : Table) (pid : Int32) (p : Slot) : Decidable (Owns t pid p) :=
  inferInstanceAs (Decidable (_ ∧ _))

instance (t : Table) (pid : Int32) : Decidable (Stale t pid) := inferInstanceAs (Decidable (∃ _, _))

/-- The entry of a process after it has been killed. -/
def Proc.hit (p : Proc) (ticks : UInt32) : Proc :=
  { p with
    killed := true
    state := if p.state = .sleeping then .runnable else p.state
    priority := if p.state = .sleeping then ticks else p.priority }

/-- kill(pid) hits a process called `pid` and nothing else; if there is none it
fails and changes nothing. -/
def HitsTarget (ticks : UInt32) (pid : Int32) (t : Table) : Prop :=
  ((∃ p, Owns t pid p) → killResult pid t = 0 ∧
    ∃ p, Owns t pid p ∧ kill ticks pid t = Function.update t p ((t p).hit ticks)) ∧
  ((∀ p, ¬ Owns t pid p) → killResult pid t = -1 ∧ kill ticks pid t = t)

theorem Proc.kill_eq_hit (p : Proc) (ticks : UInt32) : p.kill ticks = p.hit ticks := by
  unfold Proc.kill Proc.hit
  split <;> simp_all [Proc.ready]

theorem findPid_some {pid : Int32} {t : Table} {p : Slot} (h : findPid pid t = some p) :
    (t p).pid = pid := by
  simpa [findPid] using List.find?_some h

theorem findPid_none {pid : Int32} {t : Table} (h : findPid pid t = none) (p : Slot) :
    (t p).pid ≠ pid := by
  have := List.find?_eq_none.mp h p (mem_slots p)
  simpa using this

theorem hitsTarget_of_fresh {ticks : UInt32} {pid : Int32} {t : Table} (fresh : ¬ Stale t pid) :
    HitsTarget ticks pid t := by
  cases found : findPid pid t with
  | none =>
    refine ⟨?_, fun _ => ⟨by simp [killResult, found], by simp [kill, found]⟩⟩
    rintro ⟨p, _, named⟩
    exact absurd named (findPid_none found p)
  | some p =>
    have named := findPid_some found
    have used : (t p).state ≠ .unused := fun unused => fresh ⟨p, unused, named⟩
    constructor
    · intro _
      refine ⟨by simp [killResult, found], p, ⟨used, named⟩, ?_⟩
      simp [kill, found, Proc.kill_eq_hit]
    · intro nobody
      exact absurd ⟨used, named⟩ (nobody p)

/-- For a pid that no process has, the call fails as it should just when no
UNUSED slot holds the pid. -/
theorem hitsTarget_iff_fresh {ticks : UInt32} {pid : Int32} {t : Table}
    (nobody : ∀ p, ¬ Owns t pid p) : HitsTarget ticks pid t ↔ ¬ Stale t pid := by
  constructor
  · rintro hits ⟨u, unused, named⟩
    obtain ⟨result, _⟩ := hits.2 nobody
    have found : findPid pid t ≠ none := fun none => findPid_none none u named
    have returned : killResult pid t = 0 := by
      simp [killResult, Option.isSome_iff_ne_none.mpr found]
    rw [returned] at result
    exact absurd result (by decide)
  · exact hitsTarget_of_fresh

/-! ## The mark along a run -/

theorem Proc.nice_killed (p : Proc) (ticks : UInt32) : (p.nice ticks).killed = p.killed := by
  unfold Proc.nice
  grind

theorem wakeup1_killed (ticks : UInt32) (chan : Option Chan) (t : Table) (i : Slot) :
    (wakeup1 ticks chan t i).killed = (t i).killed := by
  unfold wakeup1
  split <;> rfl

theorem adopt_killed (ticks : UInt32) (initproc me : Slot) (t : Table) (p i : Slot) :
    (adopt ticks initproc me t p i).killed = (t i).killed := by
  have linked : (Function.update t p { t p with parent := some initproc } i).killed =
      (t i).killed := by
    by_cases here : i = p
    · subst here; simp
    · simp [here]
  unfold adopt
  split
  · dsimp only
    split
    · rw [wakeup1_killed, linked]
    · exact linked
  · rfl

theorem foldl_adopt_killed (ticks : UInt32) (initproc me : Slot) (l : List Slot) (t : Table)
    (i : Slot) : (l.foldl (adopt ticks initproc me) t i).killed = (t i).killed := by
  induction l generalizing t with
  | nil => rfl
  | cons p l ih => rw [List.foldl_cons, ih, adopt_killed]

theorem exitTable_killed (ticks : UInt32) (initproc me : Slot) (t : Table) (i : Slot) :
    (exitTable ticks initproc me t i).killed = (t i).killed := by
  have folded := foldl_adopt_killed ticks initproc me slots
    (wakeup1 ticks ((t me).parent.map .proc) t) i
  rw [wakeup1_killed] at folded
  by_cases here : i = me
  · subst here; simpa [exitTable] using folded
  · simpa [exitTable, here] using folded

theorem follow_killed {k : Kernel n} {c : Fin n} {o : Outcome} {proc : Option Slot}
    (h : (∃ p, o.Switches k.ticks k.ptable p) ∨ o.Ends k.ptable proc) (i : Slot) :
    ((k.follow c o).ptable i).killed = (k.ptable i).killed := by
  rw [follow_ptable]
  obtain ⟨p, switches⟩ | ends := h
  · by_cases here : i = p
    · subst here
      obtain ⟨_, _, _, entry⟩ := switches.entry
      rw [entry]
    · obtain ⟨_, entry⟩ := switches.others i here
      rw [entry]
  · obtain ⟨_, entry⟩ := ends.others i id
    rw [entry]

theorem update_killed {t : Table} {p : Slot} {v : Proc} (same : v.killed = (t p).killed)
    (i : Slot) : (Function.update t p v i).killed = (t i).killed := by
  by_cases here : i = p
  · subst here; simpa using same
  · simp [here]

theorem waitLoop_killed {k : Kernel n} {c : Fin n} {p i : Slot} {call : WaitCall}
    (h : ((k.waitLoop c p call).ptable i).killed = true) : (k.ptable i).killed = true := by
  unfold waitLoop at h
  cases found : waitScan k.ptable p with
  | zombie child =>
    by_cases here : i = child
    · subst here; simp [found, release, setCpu, setProc, Proc.reap] at h
    · simpa [found, release, setCpu, setProc, here] using h
  | giveUp => simpa [found, release, setCpu] using h
  | block =>
    by_cases here : i = p
    · subst here; simpa [found, Kernel.sleep, sched, setCpu, setProc] using h
    · simpa [found, Kernel.sleep, sched, setCpu, setProc, here] using h

/-- A slot is marked by kill() or by trap() or was marked before. -/
theorem step_killed {k k' : Kernel n} {a : Action n} (step : Step strategy k a k') {i : Slot}
    (marked : (k'.ptable i).killed = true) :
    (k.ptable i).killed = true ∨
    (∃ pid, a.act = .kill pid ∧ findPid pid k.ptable = some i) ∨
    (a.act = .fault ∧ k.Runs a.cpu i) := by
  have set {p : Slot} {v : Proc} (eq : k'.ptable = Function.update k.ptable p v)
      (same : v.killed = (k.ptable p).killed) : (k.ptable i).killed = true := by
    rwa [eq, update_killed same] at marked
  cases step with
  | @pass c =>
    have outcome := schedule_switches_or_ends strategy k.ticks k.ptable (k.cpus c).proc
    exact .inl ((follow_killed (c := c) outcome i).symm.trans marked)
  | @back c =>
    have outcome := reschedule_switches_or_ends strategy k.ticks k.ptable (k.cpus c).ctx
    exact .inl ((follow_killed (c := c) outcome i).symm.trans marked)
  | @resume c p =>
    left
    unfold Kernel.resume at marked
    cases resume : (k.thread p).resume with
    | forkret | yield => simpa [resume, release, setCpu] using marked
    | sleep =>
      simp only [resume] at marked
      rwa [← update_killed (t := k.ptable) (p := p) (v := { k.ptable p with chan := none }) rfl i]
    | wait call =>
      simp only [resume] at marked
      have before := waitLoop_killed marked
      rwa [← update_killed (t := k.ptable) (p := p) (v := { k.ptable p with chan := none }) rfl i]
  | @timer c =>
    have same : (k.timer c).ptable = k.ptable := by unfold Kernel.timer; split <;> rfl
    exact .inl (same ▸ marked)
  | tickWakeup | wakeup => exact .inl ((wakeup1_killed _ _ _ _).symm.trans marked)
  | @fault c p runs =>
    by_cases here : i = p
    · subst here
      exact .inr (.inr ⟨rfl, runs⟩)
    · exact .inl (by simpa [setTask, setProc, here] using marked)
  | @kill c p pid =>
    change (Xv6.kill k.ticks pid k.ptable i).killed = true at marked
    unfold Xv6.kill at marked
    cases found : findPid pid k.ptable with
    | none => exact .inl (by simpa [found] using marked)
    | some q =>
      by_cases here : i = q
      · subst here
        exact .inr (.inl ⟨pid, rfl, found⟩)
      · exact .inl (by simpa [found, here] using marked)
  | wait => exact .inl (waitLoop_killed marked)
  | exit => exact .inl ((exitTable_killed _ _ _ _ _).symm.trans marked)
  | uncharged | trapExit | trapReturn | forkFull | forkStack | exitBegin => exact .inl marked
  | nice => exact .inl (set rfl (Proc.nice_killed _ _))
  | charge | yield | sleep | setcid | exec | fork | forkStackFail | forkCopy | forkCopyFail
  | forkReady => exact .inl (set rfl rfl)

/-- Which processes have been killed since their fork(), by a caller of kill()
or by trap(). -/
def noteKill (k : Kernel n) (a : Action n) (killed : Slot → Bool) (p : Slot) : Bool :=
  match a.act with
  | .kill pid => killed p || decide (Owns k.ptable pid p)
  | .fault => killed p || decide ((k.cpus a.cpu).proc = some p)
  | .fork => killed p && decide (findUnused k.ptable ≠ some p)
  | _ => killed p

theorem noteKill_of_noted {k : Kernel n} {a : Action n} {killed : Slot → Bool} {p : Slot}
    (used : (k.ptable p).state ≠ .unused) (noted : killed p = true) :
    noteKill k a killed p = true := by
  unfold noteKill
  cases a.act with
  | kill pid | fault => simp [noted]
  | fork =>
    have other : findUnused k.ptable ≠ some p := fun found => used (findUnused_unused found)
    simp [noted, other]
  | _ => exact noted

/-- The step leaves no mark in an UNUSED slot: a pid given to kill() is not one
that an UNUSED slot holds, and a child whose fork() fails has not been killed. -/
def LeavesNoMark (k : Kernel n) (a : Action n) : Prop :=
  match a.act with
  | .kill pid => ¬ Stale k.ptable pid
  | .forkStack false | .forkCopy false =>
    ∀ p np, (k.cpus a.cpu).proc = some p → (k.thread p).task.child = some np →
      (k.ptable np).killed = false
  | _ => True

theorem LeavesNoMark.fresh {k : Kernel n} {a : Action n} {pid : Int32} (h : LeavesNoMark k a)
    (act : a.act = .kill pid) : ¬ Stale k.ptable pid := by
  simpa only [LeavesNoMark, act] using h

theorem LeavesNoMark.failed {k : Kernel n} {a : Action n} {p np : Slot} (h : LeavesNoMark k a)
    (act : a.act = .forkStack false ∨ a.act = .forkCopy false)
    (proc : (k.cpus a.cpu).proc = some p) (child : (k.thread p).task.child = some np) :
    (k.ptable np).killed = false := by
  obtain act | act := act
  · simp only [LeavesNoMark, act] at h
    exact h p np proc child
  · simp only [LeavesNoMark, act] at h
    exact h p np proc child

def KillHits (k : Kernel n) (a : Action n) : Prop :=
  ∀ pid, a.act = .kill pid → HitsTarget k.ticks pid k.ptable

/-- Only processes carry the mark, and only those that have been killed. -/
def MarksKilled (k : Kernel n) (killed : Slot → Bool) : Prop :=
  ∀ p, (k.ptable p).killed = true → (k.ptable p).state ≠ .unused ∧ killed p = true

theorem step_marksKilled {k k' : Kernel n} {a : Action n} (base : Base k)
    (step : Step strategy k a k') (clean : LeavesNoMark k a) {killed : Slot → Bool}
    (h : MarksKilled k killed) : MarksKilled k' (noteKill k a killed) := by
  intro i marked
  have stays (used : (k.ptable i).state ≠ .unused)
      (kept : a.act = .forkStack false ∨ a.act = .forkCopy false → (k.ptable i).killed = true) :
      (k'.ptable i).state ≠ .unused := by
    intro unused
    obtain reaped | ⟨act, _, p, runs, task⟩ := step_freed base step used unused
    · simp [reaped, Proc.reap] at marked
    · have child : (k.thread p).task.child = some i := by
        obtain task | task := task <;> simp [task, Task.child]
      have unmarked := clean.failed act runs.2.2 child
      simp [unmarked] at kept
      simp [kept] at act
  obtain before | ⟨pid, act, found⟩ | ⟨act, runs⟩ := step_killed step marked
  · obtain ⟨used, noted⟩ := h i before
    exact ⟨stays used fun _ => before, noteKill_of_noted used noted⟩
  · have named := findPid_some found
    have used : (k.ptable i).state ≠ .unused :=
      fun unused => clean.fresh act ⟨i, unused, named⟩
    exact ⟨stays used (by simp [act]), by simp [noteKill, act, Owns, used, named]⟩
  · have used : (k.ptable i).state ≠ .unused := by
      simp [base.exclusive.running runs.acts]
    exact ⟨stays used (by simp [act]), by simp [noteKill, act, runs.2.2]⟩

/-- The processes that have been killed since their fork(), at the end of a run
from boot. -/
def killedSince (strategy n : Nat) (as : List (Action n)) : Slot → Bool :=
  (kernel strategy n).track noteKill (boot n) as fun _ => false

/-- In every run in which no step leaves a mark in an UNUSED slot, every call of
kill() hits its target and nothing else, and at its end a process that nobody
has killed since its fork() is not marked. For a pid that no process has, not
being held by an UNUSED slot is also necessary. -/
theorem kill_hits_target {as : List (Action n)} (legal : (kernel strategy n).Legal (boot n) as)
    (clean : (kernel strategy n).Every LeavesNoMark (boot n) as) :
    (kernel strategy n).Every KillHits (boot n) as ∧
    (∀ p, (((kernel strategy n).after (boot n) as).ptable p).state ≠ .unused →
      killedSince strategy n as p = false →
      (((kernel strategy n).after (boot n) as).ptable p).killed = false) ∧
    ∀ (ticks : UInt32) (pid : Int32) (t : Table), (∀ p, ¬ Owns t pid p) →
      (HitsTarget ticks pid t ↔ ¬ Stale t pid) := by
  have marks := (kernel strategy n).track_invariant_of_every (f := noteKill)
    (I := fun k killed => Reachable strategy n k ∧ MarksKilled k killed)
    (fun k a killed enabled clean inv =>
      have base := reachable_base inv.1
      ⟨.next inv.1 enabled, step_marksKilled base (base.step strategy enabled) clean inv.2⟩)
    (h := fun _ => false) legal clean ⟨.start, by
      intro p marked
      rw [boot_slot] at marked
      split at marked <;> simp [Proc.first, Proc.ready, Proc.alloc, Proc.zero] at marked⟩
  refine ⟨?_, ?_, fun ticks pid t nobody => hitsTarget_iff_fresh nobody⟩
  · apply (kernel strategy n).every_imp (I := fun _ => True) (fun _ _ _ _ => trivial) ?_ legal
      trivial clean
    intro k a _ _ clean pid act
    exact hitsTarget_of_fresh (clean.fresh act)
  · intro p _ spared
    by_contra marked
    have noted := (marks.2 p (by simpa using marked)).2
    have spared : (kernel strategy n).track noteKill (boot n) as (fun _ => false) p = false := spared
    simp [spared] at noted

/-- init kills the child it has just forked. -/
theorem init_kills_child :
    let as := onCpu 0 [.pass, .resume, .fork, .forkStack true, .forkCopy true, .forkReady, .kill 2]
    let k := (kernel 1 1).after (boot 1) as
    (kernel 1 1).Every KillHits (boot 1) as ∧ (k.ptable 1).killed = true ∧
      killedSince 1 1 as 0 = false ∧ (k.ptable 0).killed = false := by
  intro as k
  have legal : (kernel 1 1).Legal (boot 1) as := by decide +kernel
  have fresh : ¬ Stale ((kernel 1 1).after (boot 1) (as.take 6)).ptable 2 := by decide +kernel
  have clean : (kernel 1 1).Every LeavesNoMark (boot 1) as :=
    ⟨trivial, trivial, trivial, trivial, trivial, trivial, fresh, trivial⟩
  obtain ⟨hits, spared, _⟩ := kill_hits_target legal clean
  have unhurt : killedSince 1 1 as 0 = false := by decide +kernel
  exact ⟨hits, by decide +kernel, unhurt, spared 0 (by decide +kernel) unhurt⟩

/-- kill(0) succeeds although no process is called 0, and the process that
fork() then creates in the slot it hit is born killed. -/
theorem kill_zero_marks_newborn :
    let before := onCpu 0 [.pass, .resume]
    let as := before ++ onCpu 0 [.kill 0, .fork, .forkStack true, .forkCopy true, .forkReady]
    let t := ((kernel 1 1).after (boot 1) before).ptable
    let k := (kernel 1 1).after (boot 1) as
    (kernel 1 1).Legal (boot 1) as ∧ (∀ p, ¬ Owns t 0 p) ∧ killResult 0 t = 0 ∧
      (t 1).killed = false ∧ (kill 0 0 t 1).killed = true ∧
      (k.ptable 1).state = .runnable ∧ killedSince 1 1 as 1 = false ∧ (k.ptable 1).killed = true := by
  decide +kernel

end Xv6
