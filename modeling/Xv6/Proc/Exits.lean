import Xv6.Proc.Family

/-! No exit() is lost on a waiting parent: a process blocked in a wait call has
no ZOMBIE child. exit() wakes the parent and makes the caller a ZOMBIE in one
critical section, and in the same section it wakes init for the zombies init
inherits; a wait call scans its children and goes to sleep in another. -/

namespace Xv6
open Kernel Lib
variable {n : Nat} {strategy : Nat}

/-- SLEEPING on the address of its own `struct proc`. -/
def InWait (t : Table) (p : Slot) : Prop :=
  (t p).state = .sleeping ∧ (t p).chan = some (.proc p)

theorem Passive.inWait {ticks : UInt32} {t t' : Table} {p : Slot} (h : Passive ticks (t p) (t' p))
    (asleep : InWait t' p) : InWait t p := by
  obtain ⟨sleeping, chan⟩ := asleep
  have same : (t' p).chan = (t p).chan := by rw [h.fixed]
  obtain ⟨state, _⟩ | ⟨_, woken, _⟩ := h.queue
  · exact ⟨state ▸ sleeping, same ▸ chan⟩
  · simp [sleeping] at woken

theorem wakeup1_not_inWait (ticks : UInt32) (t : Table) (p : Slot) :
    ¬ InWait (wakeup1 ticks (some (.proc p)) t) p := by
  unfold InWait wakeup1
  split
  · simp [Proc.ready]
  · rename_i awake
    exact awake

/-! ## exit() -/

theorem exitTable_wakes_parent {ticks : UInt32} {initproc me p : Slot} {t : Table}
    (parent : (t me).parent = some p) (other : p ≠ me) :
    ¬ InWait (exitTable ticks initproc me t) p := by
  intro asleep
  have nodup : slots.Nodup := slots_sorted.imp (fun h => ne_of_lt h)
  have rest := (foldl_adopt ticks initproc me slots nodup
    (wakeup1 ticks ((t me).parent.map .proc) t) p).1
  have woken : ¬ InWait (wakeup1 ticks ((t me).parent.map .proc) t) p := by
    rw [parent]
    exact wakeup1_not_inWait ticks t p
  apply woken
  apply rest.inWait
  simpa [InWait, exitTable, Function.update_of_ne other] using asleep

/-- The loop of exit() wakes init when it passes a ZOMBIE on to it. -/
theorem foldl_adopt_wakes_init (ticks : UInt32) (initproc : Slot) {me z : Slot} {l : List Slot}
    (nodup : l.Nodup) (mem : z ∈ l) {t : Table} (parent : (t z).parent = some me)
    (zombie : (t z).state = .zombie) :
    ¬ InWait (l.foldl (adopt ticks initproc me) t) initproc := by
  induction l generalizing t with
  | nil => cases mem
  | cons p l ih =>
    have nodup' := (List.nodup_cons.mp nodup).2
    rw [List.foldl_cons]
    by_cases here : z = p
    · subst here
      intro asleep
      have later := (foldl_adopt ticks initproc me l nodup' (adopt ticks initproc me t z) initproc).1
      have now := later.inWait asleep
      simp only [adopt, parent, zombie, ↓reduceIte] at now
      exact wakeup1_not_inWait _ _ _ now
    · have mem : z ∈ l := (List.mem_cons.mp mem).resolve_left here
      apply ih nodup' mem
      · rw [adopt_parent, if_neg (fun h => here h.1)]
        exact parent
      · exact (passive_adopt ticks initproc me t p z).zombie_iff.mpr zombie

theorem exitTable_wakes_init {ticks : UInt32} {initproc me z : Slot} {t : Table}
    (parent : (t z).parent = some me) (zombie : (t z).state = .zombie) (other : initproc ≠ me) :
    ¬ InWait (exitTable ticks initproc me t) initproc := by
  intro asleep
  have nodup : slots.Nodup := slots_sorted.imp (fun h => ne_of_lt h)
  apply foldl_adopt_wakes_init ticks initproc nodup (mem_slots z)
    (t := wakeup1 ticks ((t me).parent.map .proc) t)
  · simpa using parent
  · exact (passive_wakeup1 _ _ _ _).zombie_iff.mpr zombie
  · simpa [InWait, exitTable, Function.update_of_ne other] using asleep

/-! ## Falling asleep in a wait call -/

theorem waitScan_block {t : Table} {me z : Slot} (h : waitScan t me = .block)
    (parent : (t z).parent = some me) : (t z).state ≠ .zombie := by
  intro zombie
  unfold waitScan at h
  split at h
  · cases h
  · rename_i none
    have := List.find?_eq_none.mp none z (mem_slots z)
    simp [parent, zombie] at this

/-- A turn of the wait loop that leaves its caller asleep found no ZOMBIE child. -/
theorem waitLoop_inWait {k : Kernel n} {c : Fin n} {p z : Slot} {call : WaitCall}
    (running : (k.ptable p).state = .running) (asleep : InWait (k.waitLoop c p call).ptable p)
    (zombie : ((k.waitLoop c p call).ptable z).state = .zombie) :
    ((k.waitLoop c p call).ptable z).parent ≠ some p := by
  unfold waitLoop at asleep zombie ⊢
  cases found : waitScan k.ptable p with
  | zombie child =>
    obtain ⟨_, exited⟩ := waitScan_zombie found
    have other : p ≠ child := by rintro rfl; simp [running] at exited
    simp [InWait, found, release, setCpu, setProc, other, running] at asleep
  | giveUp => simp [InWait, found, release, setCpu, running] at asleep
  | block =>
    simp only [found] at zombie ⊢
    have other : z ≠ p := by
      rintro rfl
      simp [Kernel.sleep, sched, setCpu, setProc] at zombie
    simp only [Kernel.sleep, sched, setCpu, setProc, Function.update_of_ne other] at zombie ⊢
    intro parent
    exact waitScan_block found parent zombie

/-- A slot is SLEEPING after a step if it was, or if its process has just
called sleep(). -/
theorem Move.sleeping {k : Kernel n} {a : Action n} {i : Slot} {v : Proc}
    (h : Move strategy k a i v) (sleeping : v.state = .sleeping) :
    (k.ptable i).state = .sleeping ∧ v.chan = (k.ptable i).chan ∨
    (k.ptable i).state = .running ∧ (k.cpus a.cpu).proc = some i ∧
      ∃ chan, v.chan = some chan ∧
        (a.act = .sleep chan ∨ a.act = .resume ∨ ∃ call, a.act = .wait call) := by
  cases h with
  | passive h =>
    left
    obtain ⟨state, _⟩ | ⟨_, woken, _⟩ := h.queue
    · exact ⟨state ▸ sleeping, by rw [h.fixed]⟩
    · simp [sleeping] at woken
  | sleep act runs running => exact .inr ⟨running, runs, _, rfl, act⟩
  | charge _ _ running => simp [Proc.charge, running] at sleeping
  | nice _ _ running => simp [running] at sleeping
  | clear _ _ running | setcid _ _ running | exec _ _ running =>
    simp [Proc.exec, running] at sleeping
  | link _ _ _ _ embryo => simp [embryo] at sleeping
  | dispatch | yield | reap | alloc | abandon | publish | exit =>
    simp [Proc.ready, Proc.reap, Proc.alloc] at sleeping

/-- Whoever is blocked in a wait call after a step was so before, or has no
ZOMBIE child. -/
theorem step_inWait {k k' : Kernel n} {a : Action n} (base : Base k)
    (step : Step strategy k a k') {p z : Slot} (asleep : InWait k'.ptable p)
    (zombie : (k'.ptable z).state = .zombie) :
    InWait k.ptable p ∨ (k'.ptable z).parent ≠ some p := by
  obtain ⟨sleeping, same⟩ | ⟨running, runs, chan, eq, act⟩ :=
    (move_of_step base step p).sleeping asleep.1
  · exact .inl ⟨sleeping, same ▸ asleep.2⟩
  · right
    obtain rfl : chan = .proc p := Option.some.inj (eq.symm.trans asleep.2)
    cases step with
    | sleep _ _ other =>
      simp only [Act.sleep.injEq, reduceCtorEq, exists_false, or_false] at act
      simp [act, Chan.isProc] at other
    | @wait c q call runs' =>
      obtain rfl : p = q := Option.some.inj (runs.symm.trans runs'.2.2)
      exact waitLoop_inWait running asleep zombie
    | @resume c q _ _ runs' =>
      obtain rfl : p = q := Option.some.inj (runs.symm.trans runs')
      unfold Kernel.resume at asleep zombie ⊢
      cases resume : (k.thread p).resume with
      | forkret | yield | sleep =>
        simp [resume, InWait, release, setCpu, setProc, running] at asleep
      | wait call =>
        simp only [resume] at asleep zombie ⊢
        exact waitLoop_inWait (by simp [setProc, running]) asleep zombie
    | _ => simp at act

/-! ## Zombies -/

theorem Move.zombie {k : Kernel n} {a : Action n} {i : Slot} {v : Proc}
    (h : Move strategy k a i v) (zombie : v.state = .zombie) :
    (k.ptable i).state = .zombie ∧ v.parent = heir k a (k.ptable i).parent ∨
    a.act = .exit ∧ (k.cpus a.cpu).proc = some i ∧ v.parent = (k.ptable i).parent := by
  cases h with
  | passive h parent => exact .inl ⟨h.zombie_iff.mp zombie, parent⟩
  | exit act runs => exact .inr ⟨act, runs, rfl⟩
  | charge _ _ running => simp [Proc.charge, running] at zombie
  | nice _ _ running => simp [running] at zombie
  | clear _ _ running | setcid _ _ running | exec _ _ running =>
    simp [Proc.exec, running] at zombie
  | link _ _ _ _ embryo => simp [embryo] at zombie
  | dispatch | yield | sleep | reap | alloc | abandon | publish =>
    simp [Proc.ready, Proc.reap, Proc.alloc] at zombie

/-- The critical section of exit() leaves nobody blocked over its new ZOMBIE,
nor init over one it inherits. -/
theorem exit_wakes {k k' : Kernel n} {a : Action n} (base : Base k)
    (step : Step strategy k a k') {p z : Slot} (exits : a.act = .exit)
    (asleep : InWait k'.ptable p) :
    ((k.cpus a.cpu).proc = some z → (k.ptable z).parent ≠ some p) ∧
    ((k.ptable z).state = .zombie → (k.ptable z).parent = (k.cpus a.cpu).proc →
      p ≠ k.initproc) := by
  cases step with
  | @exit c me intr runs task =>
    have table : (k.exit c me).ptable = exitTable k.ticks k.initproc me k.ptable := rfl
    rw [table] at asleep
    constructor
    · intro proc parent
      obtain rfl : me = z := Option.some.inj (runs.2.2.symm.trans proc)
      have other : p ≠ me := by rintro rfl; exact base.rooted.proper p parent
      exact exitTable_wakes_parent parent other asleep
    · rintro zombie parent rfl
      have other : k.initproc ≠ me := by rintro rfl; exact base.rooted.stays intr task
      exact exitTable_wakes_init (parent.trans runs.2.2) zombie other asleep
  | _ => simp at exits

/-- No process blocked in a wait call has a ZOMBIE child. -/
def NoLostExit (k : Kernel n) : Prop :=
  ∀ p z, InWait k.ptable p → (k.ptable z).state = .zombie → (k.ptable z).parent ≠ some p

theorem step_noLostExit {k k' : Kernel n} {a : Action n} (base : Base k) (h : NoLostExit k)
    (step : Step strategy k a k') : NoLostExit k' := by
  intro p z asleep zombie
  obtain before | childless := step_inWait base step asleep zombie
  · obtain ⟨was, parent⟩ | ⟨exits, proc, parent⟩ := (move_of_step base step z).zombie zombie
    · rw [parent, heir]
      split
      · rename_i inherits
        intro eq
        exact (exit_wakes base step inherits.1 asleep).2 was inherits.2 (Option.some.inj eq).symm
      · exact h p z before was
    · rw [parent]
      exact (exit_wakes base step exits asleep).1 proc
  · exact childless

/-- In every state the kernel can reach, a process that is SLEEPING on its own
address, as the wait calls do, has no ZOMBIE child: neither one of its own nor,
if it is init, one inherited from a process that has exited. -/
theorem no_lost_exit {k : Kernel n} (h : Reachable strategy n k) (p z : Slot)
    (sleeping : (k.ptable p).state = .sleeping) (chan : (k.ptable p).chan = some (.proc p))
    (zombie : (k.ptable z).state = .zombie) : (k.ptable z).parent ≠ some p := by
  have none : NoLostExit k := by
    apply reachable_invariant h
    case boot =>
      intro p z asleep
      have := asleep.2
      rw [boot_slot] at this
      split at this <;> simp [Proc.first, Proc.ready, Proc.alloc, Proc.zero] at this
    case step =>
      intro k a k' reachable step none
      exact step_noLostExit (reachable_base reachable) none step
  exact none p z ⟨sleeping, chan⟩ zombie

/-- A grandchild of init has exited while its parent is not waiting and init is. -/
theorem init_waits_on_live_child :
    let as := onCpu 0 [.pass, .resume, .fork, .forkStack true, .forkCopy true, .forkReady,
      .wait .wait22, .back, .resume, .fork, .forkStack true, .forkCopy true, .forkReady,
      .sleep (.other 0), .back, .resume, .exitBegin true, .exit, .back]
    let k := (kernel 1 1).after (boot 1) as
    k.lock = none ∧ (k.ptable 0).state = .sleeping ∧ (k.ptable 0).chan = some (.proc 0) ∧
      (k.ptable 2).state = .zombie ∧ (k.ptable 2).parent ≠ some 0 := by
  intro as k
  have legal : (kernel 1 1).Legal (boot 1) as := by decide +kernel
  have reachable : Reachable 1 1 k := System.Reachable.start.after legal
  have sleeping : (k.ptable 0).state = .sleeping := by decide +kernel
  have chan : (k.ptable 0).chan = some (.proc 0) := by decide +kernel
  have zombie : (k.ptable 2).state = .zombie := by decide +kernel
  exact ⟨by decide +kernel, sleeping, chan, zombie,
    no_lost_exit reachable 0 2 sleeping chan zombie⟩

end Xv6
