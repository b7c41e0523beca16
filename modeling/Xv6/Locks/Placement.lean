import Xv6.Locks.SleepLock

/-! Which CPU runs which process, and who holds the two spinlocks. -/

namespace Xv6.SleepLock
open Lib
variable {n m : Nat}

/-! ## Where a process is -/

namespace Pc

/-- It holds `lk->lk`. -/
def lk : Pc n → Bool
  | .test | .sleepAcquire | .sleepRelease | .setLocked | .setPid | .acquired | .clearLocked
  | .clearPid | .wakeAcquire | .wakeLoop _ | .released => true
  | _ => false

/-- If it runs, its CPU holds `ptable.lock`. -/
def ptable : Pc n → Bool
  | .sleepRelease | .sleepChan | .sleepState | .sleepSwtch | .sleepTidy | .sleepDrop | .wakeLoop _
  | .yieldState _ | .yieldSwtch _ | .yieldDrop _ => true
  | _ => false

/-- Where a process is while it does not run. -/
def parked : Pc n → Bool
  | .sleepTidy | .yieldDrop _ => true
  | _ => false

def spotInside : Spot → Bool
  | .holds | .release => true
  | _ => false

/-- It has the sleeplock. -/
def inside : Pc n → Bool
  | .setPid | .acquired | .clearLocked => true
  | .spot s | .yieldState s | .yieldSwtch s | .yieldDrop s => spotInside s
  | _ => false

/-- It has found the sleeplock taken and is about to sleep. -/
def dozing : Pc n → Bool
  | .sleepAcquire | .sleepRelease | .sleepChan | .sleepState => true
  | _ => false

/-- It is going to wake `q` if `q` sleeps. -/
def wakes (q : Fin n) : Pc n → Bool
  | .clearPid | .wakeAcquire => true
  | .wakeLoop rest => rest.contains q
  | _ => false

/-- The state of a process that runs. -/
def state : Pc n → ProcState
  | .sleepSwtch => .sleeping
  | .yieldSwtch _ => .runnable
  | _ => .running

theorem state_eq_sleeping {pc : Pc n} : pc.state = .sleeping ↔ pc = .sleepSwtch := by
  cases pc <;> simp [state]

/-- Whoever runs without being RUNNING is about to enter the scheduler. -/
theorem ptable_of_state {pc : Pc n} (h : pc.state ≠ .running) : pc.ptable = true := by
  cases pc <;> simp_all [state, ptable]

theorem running_of_parked {pc : Pc n} (h : pc.parked = true) : pc.state = .running := by
  cases pc <;> simp_all [state, parked]

theorem ptable_of_parked {pc : Pc n} (h : pc.parked = true) : pc.ptable = true := by
  cases pc <;> simp_all [ptable, parked]

end Pc

/-- The CPU has chosen the process, or runs it. -/
def Cpu.has (p : Fin n) : Cpu n → Bool
  | .switching q | .running q => q == p
  | _ => false

theorem Cpu.has_running {p q : Fin n} : (Cpu.running p).has q = true ↔ p = q := by
  simp [Cpu.has]

theorem Cpu.has_switching {p q : Fin n} : (Cpu.switching p).has q = true ↔ p = q := by
  simp [Cpu.has]

/-- The CPU is in a stretch of code under `ptable.lock`. -/
def State.holdsTable (s : State n m) (c : Fin m) : Bool :=
  match s.cpu c with
  | .idle => false
  | .scanning | .switching _ => true
  | .running p => (s.proc p).pc.ptable

/-! ## CPUs, processes and spinlocks -/

/-- A process runs on one CPU at most, and the spinlocks are held by those that
are in the code between acquire and release. -/
structure Placed (s : State n m) : Prop where
  one : ∀ p c c', (s.cpu c).has p = true → (s.cpu c').has p = true → c = c'
  parked : ∀ p, (∀ c, s.cpu c ≠ .running p) → (s.proc p).pc.parked = true
  marked : ∀ c p, s.cpu c = .switching p → (s.proc p).state = .running
  runs : ∀ c p, s.cpu c = .running p → (s.proc p).state = (s.proc p).pc.state
  off : ∀ p, (∀ c, (s.cpu c).has p = false) → (s.proc p).state ≠ .running
  lk : ∀ p, s.lk = some p ↔ (s.proc p).pc.lk = true
  ptable : ∀ c, s.ptable = some c ↔ s.holdsTable c = true

namespace Placed
variable {s s' : State n m} {c c' : Fin m} {p q : Fin n}

theorem lk_unique (h : Placed s) (hp : (s.proc p).pc.lk = true) (hq : (s.proc q).pc.lk = true) :
    p = q :=
  Option.some.inj (((h.lk p).mpr hp).symm.trans ((h.lk q).mpr hq))

theorem ptable_unique (h : Placed s) (hc : s.holdsTable c = true)
    (hc' : s.holdsTable c' = true) : c = c' :=
  Option.some.inj (((h.ptable c).mpr hc).symm.trans ((h.ptable c').mpr hc'))

/-- A process that is not parked runs. -/
theorem runs_of_not_parked (h : Placed s) (hp : (s.proc p).pc.parked = false) :
    ∃ c, s.cpu c = .running p := by
  by_contra none
  have parked := h.parked p (not_exists.mp none)
  simp [hp] at parked

/-- Two processes in code under `ptable.lock` that is never left for the
scheduler are one. -/
theorem table_unique (h : Placed s) (hp : (s.proc p).pc.ptable = true)
    (hp' : (s.proc p).pc.parked = false) (hq : (s.proc q).pc.ptable = true)
    (hq' : (s.proc q).pc.parked = false) : p = q := by
  obtain ⟨c, hc⟩ := h.runs_of_not_parked hp'
  obtain ⟨c', hc'⟩ := h.runs_of_not_parked hq'
  have same : c = c' := by
    apply h.ptable_unique
    · simpa [State.holdsTable, hc] using hp
    · simpa [State.holdsTable, hc'] using hq
  subst same
  simpa [hc] using hc'

/-- A sleeping process is on its way into the scheduler or off the CPUs. -/
theorem sleeping_off (h : Placed s) (asleep : (s.proc p).state = .sleeping)
    (other : (s.proc p).pc ≠ .sleepSwtch) : ∀ c, (s.cpu c).has p = false := by
  intro c
  cases at_c : s.cpu c with
  | idle => rfl
  | scanning => rfl
  | switching q =>
    by_contra has
    have eq : q = p := by simpa [Cpu.has] using has
    have marked := h.marked c q at_c
    rw [eq, asleep] at marked
    cases marked
  | running q =>
    by_contra has
    have eq : q = p := by simpa [Cpu.has] using has
    have state := h.runs c q at_c
    rw [eq, asleep] at state
    exact other (Pc.state_eq_sleeping.mp state.symm)

end Placed

/-- A step of CPU `c` that touches the processes in `T`, among them those that
`c` has before or after. The invariant has to be checked for these only. -/
theorem Placed.of_local {s s' : State n m} {c : Fin m} {T : Fin n → Prop} (h : Placed s)
    (cpu : ∀ c', c' ≠ c → s'.cpu c' = s.cpu c')
    (others : ∀ q, ¬ T q → s'.proc q = s.proc q)
    (elsewhere : ∀ q, T q → ∀ c', c' ≠ c → (s.cpu c').has q = false)
    (before : ∀ q, (s.cpu c).has q = true → T q)
    (after : ∀ q, (s'.cpu c).has q = true → T q)
    (parked : ∀ q, T q → s'.cpu c = .running q ∨ (s'.proc q).pc.parked = true)
    (marked : ∀ q, s'.cpu c = .switching q → (s'.proc q).state = .running)
    (runs : ∀ q, s'.cpu c = .running q → (s'.proc q).state = (s'.proc q).pc.state)
    (off : ∀ q, T q → (s'.cpu c).has q = true ∨ (s'.proc q).state ≠ .running)
    (lk : ∀ q, T q → (s'.lk = some q ↔ (s'.proc q).pc.lk = true))
    (lk' : ∀ q, ¬ T q → (s'.lk = some q ↔ s.lk = some q))
    (ptable : s'.ptable = some c ↔ s'.holdsTable c = true)
    (ptable' : ∀ c', c' ≠ c → (s'.ptable = some c' ↔ s.ptable = some c')) : Placed s' := by
  -- a process that another CPU has is not touched
  have apart (c' : Fin m) (other : c' ≠ c) (q : Fin n) (has : (s.cpu c').has q = true) : ¬ T q := by
    intro touched
    simp [elsewhere q touched c' other] at has
  have has_running (x : Cpu n) (q : Fin n) (eq : x = .running q) : x.has q = true := by
    simp [eq, Cpu.has]
  have has_switching (x : Cpu n) (q : Fin n) (eq : x = .switching q) : x.has q = true := by
    simp [eq, Cpu.has]
  constructor
  case one =>
    intro q c₁ c₂ h₁ h₂
    by_cases first : c₁ = c
    · by_cases second : c₂ = c
      · rw [first, second]
      · rw [cpu c₂ second] at h₂
        exact absurd (after q (first ▸ h₁)) (apart c₂ second q h₂)
    · rw [cpu c₁ first] at h₁
      by_cases second : c₂ = c
      · exact absurd (after q (second ▸ h₂)) (apart c₁ first q h₁)
      · rw [cpu c₂ second] at h₂
        exact h.one q c₁ c₂ h₁ h₂
  case parked =>
    intro q none
    by_cases touched : T q
    · exact (parked q touched).resolve_left (none c)
    · rw [others q touched]
      apply h.parked
      intro c' at_c'
      by_cases here : c' = c
      · exact touched (before q (here ▸ has_running _ q at_c'))
      · exact none c' ((cpu c' here).trans at_c')
  case marked =>
    intro c' q at_c'
    by_cases here : c' = c
    · exact marked q (here ▸ at_c')
    · rw [cpu c' here] at at_c'
      rw [others q (apart c' here q (has_switching _ q at_c'))]
      exact h.marked c' q at_c'
  case runs =>
    intro c' q at_c'
    by_cases here : c' = c
    · exact runs q (here ▸ at_c')
    · rw [cpu c' here] at at_c'
      rw [others q (apart c' here q (has_running _ q at_c'))]
      exact h.runs c' q at_c'
  case off =>
    intro q none
    by_cases touched : T q
    · refine (off q touched).resolve_left ?_
      simp [none c]
    · rw [others q touched]
      apply h.off
      intro c'
      by_cases here : c' = c
      · by_contra has
        exact touched (before q (by simpa [here] using has))
      · rw [← cpu c' here]
        exact none c'
  case lk =>
    intro q
    by_cases touched : T q
    · exact lk q touched
    · rw [lk' q touched, others q touched]
      exact h.lk q
  case ptable =>
    intro c'
    by_cases here : c' = c
    · rw [here]
      exact ptable
    · have same : s'.holdsTable c' = s.holdsTable c' := by
        unfold State.holdsTable
        rw [cpu c' here]
        cases at_c' : s.cpu c' with
        | running q => simp only [others q (apart c' here q (has_running _ q at_c'))]
        | _ => rfl
      rw [ptable' c' here, same]
      exact h.ptable c'

/-- The process goes on within its time on the CPU, and takes or gives up the
spinlocks that it holds from here on or no longer. -/
structure Moves (s s' : State n m) (c : Fin m) (p : Fin n) : Prop where
  cpu : s'.cpu = s.cpu
  others : ∀ q, q ≠ p → s'.proc q = s.proc q
  state : (s'.proc p).state = (s'.proc p).pc.state
  lk : s'.lk = if (s'.proc p).pc.lk then some p else if (s.proc p).pc.lk then none else s.lk
  lkFree : (s'.proc p).pc.lk = true → (s.proc p).pc.lk = true ∨ s.lk = none
  ptable : s'.ptable =
    if (s'.proc p).pc.ptable then some c else if (s.proc p).pc.ptable then none else s.ptable
  ptableFree : (s'.proc p).pc.ptable = true → (s.proc p).pc.ptable = true ∨ s.ptable = none

/-- An owner that changes as in `Moves` is the same for everybody else. -/
theorem owner_other {α : Type} [DecidableEq α] {before after : Bool} {old new : Option α} {a b : α}
    (eq : new = if after then some a else if before then none else old)
    (owned : old = some a ↔ before = true)
    (free : after = true → before = true ∨ old = none) (other : b ≠ a) :
    new = some b ↔ old = some b := by
  cases after with
  | true =>
    have none : old ≠ some b := by
      intro taken
      obtain mine | none := free rfl
      · rw [owned.mpr mine] at taken
        exact other (by simpa using taken.symm)
      · rw [none] at taken
        cases taken
    simp [eq, none, Ne.symm other]
  | false =>
    cases before with
    | true => simp [eq, owned.mpr rfl, Ne.symm other]
    | false => simp [eq]

theorem owner_self {α : Type} [DecidableEq α] {before after : Bool} {old new : Option α} {a : α}
    (eq : new = if after then some a else if before then none else old)
    (owned : old = some a ↔ before = true) : new = some a ↔ after = true := by
  cases after with
  | true => simp [eq]
  | false =>
    cases before with
    | true => simp [eq]
    | false => simpa [eq] using owned

theorem Placed.elsewhere {s : State n m} {c c' : Fin m} {p : Fin n} (h : Placed s)
    (here : (s.cpu c).has p = true) (other : c' ≠ c) : (s.cpu c').has p = false := by
  by_contra has
  exact other (h.one p c' c (by simpa using has) here)

theorem Moves.placed {s s' : State n m} {c : Fin m} {p : Fin n} (moves : Moves s s' c p)
    (at_c : s.cpu c = .running p) (h : Placed s) : Placed s' := by
  have at_c' : s'.cpu c = .running p := by rw [moves.cpu, at_c]
  have here : (s.cpu c).has p = true := by simp [at_c, Cpu.has]
  have table : s.ptable = some c ↔ (s.proc p).pc.ptable = true := by
    simpa [State.holdsTable, at_c] using h.ptable c
  apply h.of_local (T := (· = p)) (c := c)
  case cpu => intro c' _; rw [moves.cpu]
  case others => exact moves.others
  case elsewhere => rintro q rfl c' other; exact h.elsewhere here other
  case before => intro q has; exact ((Cpu.has_running).mp (at_c ▸ has)).symm
  case after => intro q has; exact ((Cpu.has_running).mp (at_c' ▸ has)).symm
  case parked => rintro q rfl; exact .inl at_c'
  case marked => intro q eq; rw [at_c'] at eq; cases eq
  case runs =>
    intro q eq
    obtain rfl : p = q := by simpa [at_c'] using eq
    exact moves.state
  case off => rintro q rfl; exact .inl (by simp [at_c', Cpu.has])
  case lk => rintro q rfl; exact owner_self moves.lk (h.lk q)
  case lk' => intro q other; exact owner_other moves.lk (h.lk p) moves.lkFree other
  case ptable =>
    rw [owner_self moves.ptable table]
    simp [State.holdsTable, at_c']
  case ptable' => intro c' other; exact owner_other moves.ptable table moves.ptableFree other

/-! ## The steps -/

/-- Steps that stay on the CPU and touch no other process. -/
def Pc.plain : Pc n → Bool
  | .sleepSwtch | .yieldSwtch _ | .wakeLoop (_ :: _) => false
  | _ => true

theorem step_moves {s : State n m} {c : Fin m} {p : Fin n} (h : Placed s)
    (at_c : s.cpu c = .running p) (can : s.canStep p = true)
    (plain : (s.proc p).pc.plain = true) : Moves s (s.step c p) c p := by
  have state := h.runs c p at_c
  have table : s.ptable = some c ↔ (s.proc p).pc.ptable = true := by
    simpa [State.holdsTable, at_c] using h.ptable c
  have lk := h.lk p
  cases pc : (s.proc p).pc with
  | test =>
    rw [pc] at state table lk
    cases locked : s.locked
    all_goals
      constructor <;> simp_all [State.step, State.go, Pc.state, Pc.lk, Pc.ptable]
  | spot spot =>
    cases spot
    all_goals
      constructor <;> simp_all [State.step, State.go, State.canStep, Pc.state, Pc.lk, Pc.ptable]
  | wakeLoop rest =>
    cases rest
    all_goals
      constructor <;> simp_all [State.step, State.go, State.canStep, Pc.state, Pc.lk, Pc.ptable, Pc.plain]
  | _ =>
    constructor <;> simp_all [State.step, State.go, State.canStep, State.setChan, State.setState, Pc.state, Pc.lk, Pc.ptable, Pc.plain]

/-- sched(): the process is parked, and its CPU goes on in the scheduler. -/
theorem swtch_placed {s : State n m} {c : Fin m} {p : Fin n} {pc : Pc n} (h : Placed s)
    (at_c : s.cpu c = .running p) (table : (s.proc p).pc.ptable = true)
    (lk : (s.proc p).pc.lk = false) (state : (s.proc p).pc.state ≠ .running)
    (parked : pc.parked = true) (lk' : pc.lk = false) :
    Placed ((s.go p pc).setCpu c .scanning) := by
  have here : (s.cpu c).has p = true := by rw [at_c]; exact Cpu.has_running.mpr rfl
  have self : ((s.go p pc).setCpu c .scanning).proc p = { s.proc p with pc := pc } :=
    Function.update_self ..
  have at_c' : ((s.go p pc).setCpu c .scanning).cpu c = .scanning := Function.update_self ..
  apply h.of_local (T := (· = p)) (c := c)
  case cpu => intro c' other; exact Function.update_of_ne other ..
  case others => intro q other; exact Function.update_of_ne other ..
  case elsewhere => rintro q rfl c' other; exact h.elsewhere here other
  case before => intro q has; exact (Cpu.has_running.mp (at_c ▸ has)).symm
  case after => intro q has; rw [at_c'] at has; cases has
  case parked => rintro q rfl; rw [self]; exact .inr parked
  case marked => intro q eq; rw [at_c'] at eq; cases eq
  case runs => intro q eq; rw [at_c'] at eq; cases eq
  case off =>
    rintro q rfl
    rw [self]
    refine .inr ?_
    change (s.proc q).state ≠ .running
    rw [h.runs c q at_c]
    exact state
  case lk =>
    rintro q rfl
    rw [self]
    change s.lk = some q ↔ pc.lk = true
    rw [h.lk q, lk, lk']
  case lk' => exact fun _ _ => Iff.rfl
  case ptable =>
    change s.ptable = some c ↔ _
    rw [h.ptable c]
    simp [State.holdsTable, at_c, at_c', table]
  case ptable' => exact fun _ _ => Iff.rfl

/-- The CPU has no process before and after. -/
theorem scan_placed {s s' : State n m} {c : Fin m} (h : Placed s) (proc : s'.proc = s.proc)
    (lk : s'.lk = s.lk) (cpu : ∀ c', c' ≠ c → s'.cpu c' = s.cpu c')
    (before : ∀ q, (s.cpu c).has q = false) (after : ∀ q, (s'.cpu c).has q = false)
    (ptable : s'.ptable = some c ↔ s'.holdsTable c = true)
    (ptable' : ∀ c', c' ≠ c → (s'.ptable = some c' ↔ s.ptable = some c')) : Placed s' := by
  apply h.of_local (T := fun _ => False) (c := c)
  case cpu => exact cpu
  case others => intro q _; rw [proc]
  case elsewhere => intro q none; exact none.elim
  case before => intro q has; rw [before q] at has; cases has
  case after => intro q has; rw [after q] at has; cases has
  case parked => intro q none; exact none.elim
  case marked =>
    intro q eq
    have none := after q
    simp [eq, Cpu.has] at none
  case runs =>
    intro q eq
    have none := after q
    simp [eq, Cpu.has] at none
  case off => intro q none; exact none.elim
  case lk => intro q none; exact none.elim
  case lk' => intro q _; rw [lk]
  case ptable => exact ptable
  case ptable' => exact ptable'

/-- The scheduler marks a process that no CPU has. -/
theorem pick_placed {s : State n m} {c : Fin m} {p : Fin n} (h : Placed s)
    (at_c : s.cpu c = .scanning) (runnable : (s.proc p).state = .runnable) :
    Placed ((s.setState p .running).setCpu c (.switching p)) := by
  have held : s.holdsTable c = true := by simp [State.holdsTable, at_c]
  have nowhere (c' : Fin m) : (s.cpu c').has p = false := by
    cases at_c' : s.cpu c' with
    | idle => rfl
    | scanning => rfl
    | switching q =>
      by_contra has
      have eq : q = p := by simpa [Cpu.has] using has
      have state := h.marked c' q at_c'
      rw [eq, runnable] at state
      cases state
    | running q =>
      -- a process that runs and is RUNNABLE is in yield(), under the lock
      by_contra has
      have eq : q = p := by simpa [Cpu.has] using has
      have state := h.runs c' q at_c'
      rw [eq, runnable] at state
      have table : s.holdsTable c' = true := by
        have waiting : (s.proc p).pc.state ≠ .running := by
          rw [← state]
          simp
        simpa [State.holdsTable, at_c', eq] using Pc.ptable_of_state waiting
      have same := h.ptable_unique table held
      rw [same, at_c] at at_c'
      cases at_c'
  have self : ((s.setState p .running).setCpu c (.switching p)).proc p =
      { s.proc p with state := .running } := Function.update_self ..
  have at_c' : ((s.setState p .running).setCpu c (.switching p)).cpu c = .switching p :=
    Function.update_self ..
  apply h.of_local (T := (· = p)) (c := c)
  case cpu => intro c' other; exact Function.update_of_ne other ..
  case others => intro q other; exact Function.update_of_ne other ..
  case elsewhere => rintro q rfl c' _; exact nowhere c'
  case before => intro q has; rw [at_c] at has; cases has
  case after => intro q has; exact (Cpu.has_switching.mp (at_c' ▸ has)).symm
  case parked =>
    rintro q rfl
    rw [self]
    refine .inr (h.parked q ?_)
    intro c' eq
    have none := nowhere c'
    simp [eq, Cpu.has] at none
  case marked =>
    intro q eq
    obtain rfl : p = q := by simpa [at_c'] using eq
    rw [self]
  case runs => intro q eq; rw [at_c'] at eq; cases eq
  case off => rintro q rfl; exact .inl (by simp [at_c', Cpu.has])
  case lk =>
    rintro q rfl
    rw [self]
    exact h.lk q
  case lk' => exact fun _ _ => Iff.rfl
  case ptable =>
    change s.ptable = some c ↔ _
    rw [h.ptable c]
    simp [State.holdsTable, at_c, at_c']
  case ptable' => exact fun _ _ => Iff.rfl

/-- swtch() to the process: it goes on where it was parked, under the lock. -/
theorem switch_placed {s : State n m} {c : Fin m} {p : Fin n} (h : Placed s)
    (at_c : s.cpu c = .switching p) : Placed (s.setCpu c (.running p)) := by
  have here : (s.cpu c).has p = true := by simp [at_c, Cpu.has]
  have parked : (s.proc p).pc.parked = true := by
    apply h.parked
    intro c' at_c'
    have same := h.one p c' c (by simp [at_c', Cpu.has]) here
    rw [same, at_c] at at_c'
    cases at_c'
  have at_c' : (s.setCpu c (.running p)).cpu c = .running p := Function.update_self ..
  apply h.of_local (T := (· = p)) (c := c)
  case cpu => intro c' other; exact Function.update_of_ne other ..
  case others => exact fun _ _ => rfl
  case elsewhere => rintro q rfl c' other; exact h.elsewhere here other
  case before => intro q has; exact (Cpu.has_switching.mp (at_c ▸ has)).symm
  case after => intro q has; exact (Cpu.has_running.mp (at_c' ▸ has)).symm
  case parked => rintro q rfl; exact .inl at_c'
  case marked => intro q eq; rw [at_c'] at eq; cases eq
  case runs =>
    intro q eq
    obtain rfl : p = q := by simpa [at_c'] using eq
    change (s.proc p).state = (s.proc p).pc.state
    rw [h.marked c p at_c]
    exact (Pc.running_of_parked parked).symm
  case off => rintro q rfl; exact .inl (by simp [at_c', Cpu.has])
  case lk => exact fun q _ => h.lk q
  case lk' => exact fun _ _ => Iff.rfl
  case ptable =>
    change s.ptable = some c ↔ _
    rw [h.ptable c]
    simpa [State.holdsTable, at_c, at_c', State.setCpu] using Pc.ptable_of_parked parked
  case ptable' => exact fun _ _ => Iff.rfl

/-- wakeup1() makes processes RUNNABLE that no CPU has. -/
theorem wakeup1_placed {s : State n m} {c : Fin m} {p q : Fin n} {rest : List (Fin n)}
    (h : Placed s) (at_c : s.cpu c = .running p) (pc : (s.proc p).pc = .wakeLoop rest) :
    Placed (s.wakeup1 q) := by
  unfold State.wakeup1
  split
  case isFalse => exact h
  case isTrue asleep =>
    have awake : (s.proc p).state = .running := by
      rw [h.runs c p at_c, pc]
      rfl
    have other : p ≠ q := by
      rintro rfl
      rw [awake] at asleep
      cases asleep.1
    have here : (s.cpu c).has p = true := by rw [at_c]; exact Cpu.has_running.mpr rfl
    have nowhere : ∀ c', (s.cpu c').has q = false := by
      apply h.sleeping_off asleep.1
      intro swtch
      apply other
      apply h.table_unique
      · rw [pc]; rfl
      · rw [pc]; rfl
      · rw [swtch]; rfl
      · rw [swtch]; rfl
    have self : (s.setState q .runnable).proc q = { s.proc q with state := .runnable } :=
      Function.update_self ..
    have kept : (s.setState q .runnable).proc p = s.proc p := Function.update_of_ne other ..
    apply h.of_local (T := fun r => r = p ∨ r = q) (c := c)
    case cpu => exact fun _ _ => rfl
    case others =>
      intro r neither
      exact Function.update_of_ne (fun eq => neither (.inr eq)) ..
    case elsewhere =>
      rintro r (rfl | rfl) c' apart
      · exact h.elsewhere here apart
      · exact nowhere c'
    case before => intro r has; exact .inl (Cpu.has_running.mp (at_c ▸ has)).symm
    case after => intro r has; exact .inl (Cpu.has_running.mp (at_c ▸ has)).symm
    case parked =>
      rintro r (rfl | rfl)
      · exact .inl at_c
      · rw [self]
        refine .inr (h.parked r ?_)
        intro c' at_c'
        have none := nowhere c'
        simp [at_c', Cpu.has] at none
    case marked =>
      intro r eq
      cases at_c.symm.trans eq
    case runs =>
      intro r eq
      obtain rfl : p = r := by simpa using at_c.symm.trans eq
      rw [kept]
      exact h.runs c p at_c
    case off =>
      rintro r (rfl | rfl)
      · exact .inl here
      · rw [self]
        exact .inr (by simp)
    case lk =>
      rintro r (rfl | rfl)
      · rw [kept]; exact h.lk r
      · rw [self]; exact h.lk r
    case lk' => exact fun _ _ => Iff.rfl
    case ptable =>
      have same : (s.setState q .runnable).holdsTable c = s.holdsTable c := by
        have at_c' : (s.setState q .runnable).cpu c = .running p := at_c
        unfold State.holdsTable
        rw [at_c', at_c]
        simp only [kept]
      rw [same]
      exact h.ptable c
    case ptable' => exact fun _ _ => Iff.rfl

theorem call_moves {s : State n m} {c : Fin m} {p : Fin n} (h : Placed s)
    (at_c : s.cpu c = .running p)
    (ready : (s.proc p).pc = .spot .out ∨ (s.proc p).pc = .spot .holds) :
    Moves s (s.call p) c p := by
  have state := h.runs c p at_c
  obtain pc | pc := ready
  · constructor <;> simp_all [State.call, State.go, Pc.state, Pc.lk, Pc.ptable]
  · constructor <;> simp_all [State.call, State.go, Pc.state, Pc.lk, Pc.ptable]

theorem yield_moves {s : State n m} {c : Fin m} {p : Fin n} {spot : Spot} (h : Placed s)
    (at_c : s.cpu c = .running p) (pc : (s.proc p).pc = .spot spot) (free : s.ptable = none) :
    Moves s (s.yield c p) c p := by
  have state := h.runs c p at_c
  constructor <;> simp_all [State.yield, State.go, Pc.state, Pc.lk, Pc.ptable]

/-- What a step can be. -/
inductive Step (s : State n m) : State n m → Prop where
  | enter (c : Fin m) : s.cpu c = .idle → s.ptable = none →
      Step s ({ s with ptable := some c }.setCpu c .scanning)
  | leave (c : Fin m) : s.cpu c = .scanning → Step s ({ s with ptable := none }.setCpu c .idle)
  | pick (c : Fin m) (p : Fin n) : s.cpu c = .scanning → (s.proc p).state = .runnable →
      Step s ((s.setState p .running).setCpu c (.switching p))
  | switch (c : Fin m) (p : Fin n) : s.cpu c = .switching p → Step s (s.setCpu c (.running p))
  | plain (c : Fin m) (p : Fin n) : s.cpu c = .running p → s.canStep p = true →
      (s.proc p).pc.plain = true → Step s (s.step c p)
  | sleep (c : Fin m) (p : Fin n) : s.cpu c = .running p → (s.proc p).pc = .sleepSwtch →
      Step s ((s.go p .sleepTidy).setCpu c .scanning)
  | giveUp (c : Fin m) (p : Fin n) (spot : Spot) : s.cpu c = .running p →
      (s.proc p).pc = .yieldSwtch spot → Step s ((s.go p (.yieldDrop spot)).setCpu c .scanning)
  | wake (c : Fin m) (p q : Fin n) (rest : List (Fin n)) : s.cpu c = .running p →
      (s.proc p).pc = .wakeLoop (q :: rest) → Step s ((s.wakeup1 q).go p (.wakeLoop rest))
  | call (c : Fin m) (p : Fin n) : s.cpu c = .running p →
      ((s.proc p).pc = .spot .out ∨ (s.proc p).pc = .spot .holds) → Step s (s.call p)
  | yield (c : Fin m) (p : Fin n) (spot : Spot) : s.cpu c = .running p → s.ptable = none →
      (s.proc p).pc = .spot spot → Step s (s.yield c p)

theorem step_of_enabled {s : State n m} {a : Action n m} (enabled : Enabled s a) :
    Step s (perform s a) := by
  obtain ⟨c, act⟩ := a
  unfold Enabled State.ready at enabled
  unfold perform
  cases at_c : s.cpu c with
  | idle =>
    simp only [at_c] at enabled ⊢
    cases act with
    | step => exact .enter c at_c (by simpa using enabled)
    | _ => cases enabled
  | scanning =>
    simp only [at_c] at enabled ⊢
    cases act with
    | step => exact .leave c at_c
    | pick p => exact .pick c p at_c (by simpa using enabled)
    | _ => cases enabled
  | switching p =>
    simp only [at_c] at enabled ⊢
    cases act with
    | step => exact .switch c p at_c
    | _ => cases enabled
  | running p =>
    simp only [at_c] at enabled ⊢
    cases act with
    | step =>
      by_cases plain : (s.proc p).pc.plain = true
      · exact .plain c p at_c enabled plain
      cases pc : (s.proc p).pc with
      | sleepSwtch => simpa [State.step, pc] using Step.sleep c p at_c pc
      | yieldSwtch spot => simpa [State.step, pc] using Step.giveUp c p spot at_c pc
      | wakeLoop rest =>
        cases rest with
        | nil => simp [pc, Pc.plain] at plain
        | cons q rest => simpa [State.step, pc] using Step.wake c p q rest at_c pc
      | _ => simp [pc, Pc.plain] at plain
    | call => exact .call c p at_c (by simpa using enabled)
    | yield =>
      obtain ⟨free, at_spot⟩ : s.ptable = none ∧ (s.proc p).pc.isSpot = true := by
        simpa using enabled
      cases pc : (s.proc p).pc with
      | spot spot => exact .yield c p spot at_c free pc
      | _ => simp [pc, Pc.isSpot] at at_spot
    | pick q => cases enabled

/-- One round of the loop of wakeup1(), once the process is RUNNABLE. -/
theorem wake_moves {s : State n m} {c : Fin m} {p q : Fin n} {rest : List (Fin n)} (h : Placed s)
    (at_c : s.cpu c = .running p) (pc : (s.proc p).pc = .wakeLoop (q :: rest)) :
    Moves (s.wakeup1 q) ((s.wakeup1 q).go p (.wakeLoop rest)) c p := by
  have placed := wakeup1_placed (q := q) h at_c pc
  have at_c' : (s.wakeup1 q).cpu c = .running p := by
    unfold State.wakeup1
    split <;> exact at_c
  have pc' : ((s.wakeup1 q).proc p).pc = .wakeLoop (q :: rest) := by
    unfold State.wakeup1
    split
    · by_cases here : p = q
      · simp [State.setState, here, ← pc]
      · simp [State.setState, here, pc]
    · exact pc
  have state := placed.runs c p at_c'
  have table : (s.wakeup1 q).ptable = some c ↔ ((s.wakeup1 q).proc p).pc.ptable = true := by
    simpa [State.holdsTable, at_c'] using placed.ptable c
  have lk := placed.lk p
  constructor <;> simp_all [State.go, Pc.state, Pc.lk, Pc.ptable]

theorem step_placed {s s' : State n m} (step : Step s s') (h : Placed s) : Placed s' := by
  cases step with
  | enter c at_c free =>
    apply scan_placed h (c := c)
    case proc => rfl
    case lk => rfl
    case cpu => intro c' other; exact Function.update_of_ne other ..
    case before => intro q; rw [at_c]; rfl
    case after => intro q; simp [State.setCpu, Cpu.has]
    case ptable => simp [State.setCpu, State.holdsTable]
    case ptable' =>
      intro c' other
      change some c = some c' ↔ s.ptable = some c'
      simp [free, Ne.symm other]
  | leave c at_c =>
    have held : s.ptable = some c := (h.ptable c).mpr (by simp [State.holdsTable, at_c])
    apply scan_placed h (c := c)
    case proc => rfl
    case lk => rfl
    case cpu => intro c' other; exact Function.update_of_ne other ..
    case before => intro q; rw [at_c]; rfl
    case after => intro q; simp [State.setCpu, Cpu.has]
    case ptable => simp [State.setCpu, State.holdsTable]
    case ptable' =>
      intro c' other
      change none = some c' ↔ s.ptable = some c'
      simp [held, Ne.symm other]
  | pick c p at_c runnable => exact pick_placed h at_c runnable
  | switch c p at_c => exact switch_placed h at_c
  | plain c p at_c can plain => exact (step_moves h at_c can plain).placed at_c h
  | sleep c p at_c pc =>
    apply swtch_placed h at_c <;> simp [pc, Pc.ptable, Pc.lk, Pc.state, Pc.parked]
  | giveUp c p spot at_c pc =>
    apply swtch_placed h at_c <;> simp [pc, Pc.ptable, Pc.lk, Pc.state, Pc.parked]
  | wake c p q rest at_c pc =>
    have at_c' : (s.wakeup1 q).cpu c = .running p := by
      unfold State.wakeup1
      split <;> exact at_c
    exact (wake_moves h at_c pc).placed at_c' (wakeup1_placed h at_c pc)
  | call c p at_c ready => exact (call_moves h at_c ready).placed at_c h
  | yield c p spot at_c free pc => exact (yield_moves h at_c pc free).placed at_c h

theorem init_placed : Placed (init n m) := by
  constructor
  case one => intro p c c' has _; cases has
  case parked => intro p _; rfl
  case marked => intro c p at_c; cases at_c
  case runs => intro c p at_c; cases at_c
  case off => intro p _ running; cases running
  case lk =>
    intro p
    constructor
    · intro h; cases h
    · intro h; cases h
  case ptable =>
    intro c
    constructor
    · intro h; cases h
    · intro h; cases h

end Xv6.SleepLock
