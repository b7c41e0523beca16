import Xv6.Locks.Placement

/-! The sleeplock excludes, and no wakeup is lost. -/

namespace Xv6.SleepLock
open Lib
variable {n m : Nat}

/-- It sleeps on the lock, or is past its last look at `lk->locked`. -/
def State.waits (s : State n m) (p : Fin n) : Prop :=
  (s.proc p).pc.dozing = true ∨ (s.proc p).state = .sleeping

/-- `lk->locked` is set exactly while somebody has the lock, nobody else has it,
and whoever waits for it will be woken: the lock is taken, or somebody is on
the way to the waiting process in wakeup1(). -/
structure Guarded (s : State n m) : Prop where
  inside : ∀ p q, (s.proc p).pc.inside = true → (s.proc q).pc.inside = true → p = q
  locked : s.locked = true ↔ ∃ p, (s.proc p).pc.inside = true
  free : ∀ p, (s.proc p).pc = .setLocked → s.locked = false
  chan : ∀ p, (s.proc p).state = .sleeping ∨ (s.proc p).pc = .sleepState → (s.proc p).chan = true
  woken : ∀ p, s.waits p → s.locked = true ∨ ∃ q, (s.proc q).pc.wakes p = true

/-- A step that touches process `p` only and leaves `lk->locked` as it is. -/
theorem Guarded.of_move {s s' : State n m} {p : Fin n} (h : Guarded s)
    (others : ∀ q, q ≠ p → s'.proc q = s.proc q) (locked : s'.locked = s.locked)
    (inside : (s'.proc p).pc.inside = (s.proc p).pc.inside)
    (free : (s'.proc p).pc = .setLocked → s.locked = false)
    (chan : (s'.proc p).state = .sleeping ∨ (s'.proc p).pc = .sleepState →
      (s'.proc p).chan = true)
    (waits : s'.waits p → s.locked = true ∨ s.waits p)
    (wakes : ∀ q, (s.proc p).pc.wakes q = true →
      (s'.proc p).pc.wakes q = true ∨ s.locked = true ∨ ¬ s'.waits q) : Guarded s' := by
  have inside' (q : Fin n) : (s'.proc q).pc.inside = (s.proc q).pc.inside := by
    by_cases here : q = p
    · rw [here, inside]
    · rw [others q here]
  constructor
  case inside =>
    intro q r hq hr
    rw [inside'] at hq hr
    exact h.inside q r hq hr
  case locked => simp only [locked, inside', h.locked]
  case free =>
    intro q pc
    rw [locked]
    by_cases here : q = p
    · exact free (here ▸ pc)
    · rw [others q here] at pc
      exact h.free q pc
  case chan =>
    intro q asleep
    by_cases here : q = p
    · rw [here] at asleep ⊢
      exact chan asleep
    · rw [others q here] at asleep ⊢
      exact h.chan q asleep
  case woken =>
    intro q waiting
    rw [locked]
    have before : s.locked = true ∨ s.waits q := by
      by_cases here : q = p
      · rw [here] at waiting ⊢
        exact waits waiting
      · right
        rwa [State.waits, others q here] at waiting
    obtain taken | before := before
    · exact .inl taken
    obtain taken | ⟨r, will⟩ := h.woken q before
    · exact .inl taken
    by_cases here : r = p
    · obtain still | taken | no := wakes q (here ▸ will)
      · exact .inr ⟨p, still⟩
      · exact .inl taken
      · exact absurd waiting no
    · exact .inr ⟨r, by rw [others r here]; exact will⟩

/-- Only the CPUs and `ptable.lock` change. -/
theorem Guarded.of_same {s s' : State n m} (h : Guarded s) (proc : s'.proc = s.proc)
    (locked : s'.locked = s.locked) : Guarded s' := by
  constructor
  case inside => rw [proc]; exact h.inside
  case locked => rw [proc, locked]; exact h.locked
  case free => rw [proc, locked]; exact h.free
  case chan => rw [proc]; exact h.chan
  case woken =>
    intro p waiting
    rw [State.waits, proc] at waiting
    rw [proc, locked]
    exact h.woken p waiting

theorem setLocked_guarded {s : State n m} {p : Fin n} (placed : Placed s) (h : Guarded s)
    (pc : (s.proc p).pc = .setLocked) : Guarded ({ s with locked := true }.go p .setPid) := by
  have unlocked := h.free p pc
  have nobody (q : Fin n) : (s.proc q).pc.inside ≠ true := by
    intro inside
    have := h.locked.mpr ⟨q, inside⟩
    simp [unlocked] at this
  have others (q : Fin n) (other : q ≠ p) :
      (({ s with locked := true } : State n m).go p .setPid).proc q = s.proc q :=
    Function.update_of_ne other ..
  have self : (({ s with locked := true } : State n m).go p .setPid).proc p =
      { s.proc p with pc := .setPid } := Function.update_self ..
  have only (q : Fin n)
      (inside : ((({ s with locked := true } : State n m).go p .setPid).proc q).pc.inside = true) :
      q = p := by
    by_contra other
    rw [others q other] at inside
    exact nobody q inside
  constructor
  case inside =>
    intro q r hq hr
    rw [only q hq, only r hr]
  case locked =>
    refine ⟨fun _ => ⟨p, ?_⟩, fun _ => rfl⟩
    rw [self]
    rfl
  case free =>
    intro q eq
    by_cases here : q = p
    · rw [here, self] at eq
      cases eq
    · rw [others q here] at eq
      exact absurd (placed.lk_unique (by rw [eq]; rfl) (by rw [pc]; rfl)) here
  case chan =>
    intro q asleep
    by_cases here : q = p
    · rw [here, self] at asleep ⊢
      exact h.chan p (asleep.imp_right fun eq => by cases eq)
    · rw [others q here] at asleep ⊢
      exact h.chan q asleep
  case woken => exact fun _ _ => .inl rfl

theorem clearLocked_guarded {s : State n m} {p : Fin n} (h : Guarded s)
    (pc : (s.proc p).pc = .clearLocked) :
    Guarded ({ s with locked := false }.go p .clearPid) := by
  have mine : (s.proc p).pc.inside = true := by rw [pc]; rfl
  have others (q : Fin n) (other : q ≠ p) :
      (({ s with locked := false } : State n m).go p .clearPid).proc q = s.proc q :=
    Function.update_of_ne other ..
  have self : (({ s with locked := false } : State n m).go p .clearPid).proc p =
      { s.proc p with pc := .clearPid } := Function.update_self ..
  have nobody (q : Fin n) :
      ((({ s with locked := false } : State n m).go p .clearPid).proc q).pc.inside ≠ true := by
    intro inside
    by_cases here : q = p
    · rw [here, self] at inside
      cases inside
    · rw [others q here] at inside
      exact here (h.inside q p inside mine)
  constructor
  case inside => intro q r hq _; exact absurd hq (nobody q)
  case locked =>
    constructor
    · intro locked; cases locked
    · rintro ⟨q, inside⟩; exact absurd inside (nobody q)
  case free => exact fun _ _ => rfl
  case chan =>
    intro q asleep
    by_cases here : q = p
    · rw [here, self] at asleep ⊢
      exact h.chan p (asleep.imp_right fun eq => by cases eq)
    · rw [others q here] at asleep ⊢
      exact h.chan q asleep
  case woken =>
    intro q _
    refine .inr ⟨p, ?_⟩
    rw [self]
    rfl

theorem plain_guarded {s : State n m} {c : Fin m} {p : Fin n} (placed : Placed s) (h : Guarded s)
    (at_c : s.cpu c = .running p) (plain : (s.proc p).pc.plain = true) :
    Guarded (s.step c p) := by
  have state := placed.runs c p at_c
  have chan := h.chan p
  cases pc : (s.proc p).pc with
  | setLocked => simpa [State.step, pc] using setLocked_guarded placed h pc
  | clearLocked => simpa [State.step, pc] using clearLocked_guarded h pc
  | test =>
    rw [pc] at state
    cases locked : s.locked
    all_goals
      apply h.of_move (p := p) <;>
        simp_all [State.step, State.go, State.waits, Pc.state, Pc.inside, Pc.dozing, Pc.wakes]
  | spot spot =>
    cases spot
    all_goals
      rw [pc] at state
      apply h.of_move (p := p) <;>
        simp_all [State.step, State.go, State.waits, Pc.state, Pc.inside, Pc.dozing, Pc.wakes, Pc.spotInside]
  | wakeLoop rest =>
    cases rest
    all_goals
      rw [pc] at state
      apply h.of_move (p := p) <;>
        simp_all [State.step, State.go, State.waits, Pc.state, Pc.inside, Pc.dozing, Pc.wakes, Pc.plain]
  | _ =>
      rw [pc] at state
      apply h.of_move (p := p) <;>
        simp_all [State.step, State.go, State.setChan, State.setState, State.waits, Pc.state, Pc.inside, Pc.dozing, Pc.wakes, Pc.plain, Pc.spotInside]

/-- wakeup1() has come to `q`, which does not wait any more. -/
theorem wake_guarded {s : State n m} {c : Fin m} {p q : Fin n} {rest : List (Fin n)}
    (placed : Placed s) (h : Guarded s) (at_c : s.cpu c = .running p)
    (pc : (s.proc p).pc = .wakeLoop (q :: rest)) :
    Guarded ((s.wakeup1 q).go p (.wakeLoop rest)) := by
  have awake : (s.proc p).state = .running := by
    rw [placed.runs c p at_c, pc]
    rfl
  have kept : (s.wakeup1 q).proc p = s.proc p := by
    unfold State.wakeup1
    split
    case isTrue asleep =>
      apply Function.update_of_ne
      rintro rfl
      rw [awake] at asleep
      cases asleep.1
    case isFalse => rfl
  have unlocked : (s.wakeup1 q).locked = s.locked := by
    unfold State.wakeup1
    split <;> rfl
  have first : Guarded (s.wakeup1 q) := by
    unfold State.wakeup1
    split
    case isFalse => exact h
    case isTrue asleep =>
      have self : (s.setState q .runnable).proc q = { s.proc q with state := .runnable } :=
        Function.update_self ..
      apply h.of_move (p := q)
      case others => intro r other; exact Function.update_of_ne other ..
      case locked => rfl
      case inside => rw [self]
      case free => rw [self]; exact h.free q
      case chan => intro _; rw [self]; exact asleep.2
      case waits =>
        intro _
        exact .inr (.inr asleep.1)
      case wakes => intro r will; rw [self]; exact .inl will
  have done : ¬ (s.wakeup1 q).waits q := by
    rintro (dozing | asleep)
    · have pc_q : ((s.wakeup1 q).proc q).pc = (s.proc q).pc := by
        unfold State.wakeup1
        split
        · rw [State.proc_setState]
        · rfl
      rw [pc_q] at dozing
      have other : p ≠ q := by
        rintro rfl
        rw [pc] at dozing
        cases dozing
      -- a process that is falling asleep holds one of the locks held here
      apply other
      cases eq : (s.proc q).pc with
      | sleepAcquire => exact placed.lk_unique (by rw [pc]; rfl) (by rw [eq]; rfl)
      | sleepRelease => exact placed.lk_unique (by rw [pc]; rfl) (by rw [eq]; rfl)
      | sleepChan =>
        exact placed.table_unique (by rw [pc]; rfl) (by rw [pc]; rfl) (by rw [eq]; rfl) (by rw [eq]; rfl)
      | sleepState =>
        exact placed.table_unique (by rw [pc]; rfl) (by rw [pc]; rfl) (by rw [eq]; rfl) (by rw [eq]; rfl)
      | _ => rw [eq] at dozing; cases dozing
    · unfold State.wakeup1 at asleep
      split at asleep
      case isTrue =>
        rw [State.proc_setState] at asleep
        cases asleep
      case isFalse no => exact no ⟨asleep, h.chan q (.inl asleep)⟩
  have self : ((s.wakeup1 q).go p (.wakeLoop rest)).proc p =
      { (s.wakeup1 q).proc p with pc := .wakeLoop rest } := Function.update_self ..
  have others (r : Fin n) (other : r ≠ p) :
      ((s.wakeup1 q).go p (.wakeLoop rest)).proc r = (s.wakeup1 q).proc r :=
    Function.update_of_ne other ..
  have waits (r : Fin n) (waiting : ((s.wakeup1 q).go p (.wakeLoop rest)).waits r) :
      (s.wakeup1 q).waits r := by
    by_cases here : r = p
    · rw [State.waits, here, self, kept] at waiting
      obtain dozing | asleep := waiting
      · cases dozing
      · cases awake.symm.trans asleep
    · rwa [State.waits, others r here] at waiting
  apply first.of_move (p := p)
  case others => exact others
  case locked => rfl
  case inside => rw [self, kept, pc]; rfl
  case free => rw [self]; intro eq; cases eq
  case chan =>
    rw [self, kept]
    rintro (asleep | eq)
    · cases awake.symm.trans asleep
    · cases eq
  case waits => intro waiting; exact .inr (waits p waiting)
  case wakes =>
    intro r will
    rw [kept, pc] at will
    rw [self]
    have mem : r = q ∨ r ∈ rest := by simpa [Pc.wakes] using will
    obtain rfl | mem := mem
    · exact .inr (.inr fun waiting => done (waits r waiting))
    · exact .inl (by simpa [Pc.wakes] using mem)

theorem step_guarded {s s' : State n m} (step : Step s s') (placed : Placed s) (h : Guarded s) :
    Guarded s' := by
  cases step with
  | enter c => exact h.of_same rfl rfl
  | leave c => exact h.of_same rfl rfl
  | switch c p => exact h.of_same rfl rfl
  | pick c p at_c runnable =>
    have self : ((s.setState p .running).setCpu c (.switching p)).proc p =
        { s.proc p with state := .running } := Function.update_self ..
    apply h.of_move (p := p)
    case others => intro q other; exact Function.update_of_ne other ..
    case locked => rfl
    case inside => rw [self]
    case free => rw [self]; exact h.free p
    case chan =>
      rw [self]
      rintro (asleep | eq)
      · cases asleep
      · exact h.chan p (.inr eq)
    case waits =>
      rw [State.waits, self]
      rintro (dozing | asleep)
      · exact .inr (.inl dozing)
      · cases asleep
    case wakes => intro q will; rw [self]; exact .inl will
  | plain c p at_c _ plain => exact plain_guarded placed h at_c plain
  | sleep c p at_c pc =>
    have asleep : (s.proc p).state = .sleeping := by rw [placed.runs c p at_c, pc]; rfl
    apply h.of_move (p := p) <;>
      simp_all [State.go, State.setCpu, State.waits, Pc.inside, Pc.dozing, Pc.wakes, h.chan p]
  | giveUp c p spot at_c pc =>
    have state : (s.proc p).state = .runnable := by rw [placed.runs c p at_c, pc]; rfl
    apply h.of_move (p := p) <;>
      simp_all [State.go, State.setCpu, State.waits, Pc.inside, Pc.dozing, Pc.wakes]
  | wake c p q rest at_c pc => exact wake_guarded placed h at_c pc
  | call c p at_c ready =>
    have state := placed.runs c p at_c
    obtain pc | pc := ready
    all_goals
      apply h.of_move (p := p) <;>
        simp_all [State.call, State.go, State.waits, Pc.state, Pc.inside, Pc.dozing, Pc.wakes, Pc.spotInside]
  | yield c p spot at_c free pc =>
    have state := placed.runs c p at_c
    apply h.of_move (p := p) <;>
      simp_all [State.yield, State.go, State.waits, Pc.state, Pc.inside, Pc.dozing, Pc.wakes]

theorem init_guarded : Guarded (init n m) := by
  constructor
  case inside => intro p q inside _; cases inside
  case locked =>
    constructor
    · intro locked; cases locked
    · rintro ⟨p, inside⟩; cases inside
  case free => intro p eq; cases eq
  case chan =>
    rintro p (asleep | eq)
    · cases asleep
    · cases eq
  case woken =>
    rintro p (dozing | asleep)
    · cases dozing
    · cases asleep

/-- The process is between the return of acquiresleep() and what releasesleep()
does first. -/
def Pc.between : Pc n → Bool
  | .spot s | .yieldState s | .yieldSwtch s | .yieldDrop s => spotInside s
  | _ => false

theorem Pc.inside_of_between {pc : Pc n} (h : pc.between = true) : pc.inside = true := by
  cases pc with
  | spot s => exact h
  | yieldState s => exact h
  | yieldSwtch s => exact h
  | yieldDrop s => exact h
  | _ => cases h

/-- In every state that any number of processes and CPUs reach, at most one
process has the sleeplock, and nobody sleeps on it when it is free. -/
theorem sleeplock_safe {s : State n m} (reachable : (system n m).Reachable (init n m) s) :
    (∀ p q, (s.proc p).pc.between = true → (s.proc q).pc.between = true → p = q) ∧
    (s.locked = false → s.lk = none →
      ∀ p, ¬ ((s.proc p).state = .sleeping ∧ (s.proc p).chan = true)) := by
  have inv : Placed s ∧ Guarded s := by
    apply reachable.invariant ⟨init_placed, init_guarded⟩
    intro t a enabled inv
    have step := step_of_enabled enabled
    exact ⟨step_placed step inv.1, step_guarded step inv.1 inv.2⟩
  obtain ⟨placed, guarded⟩ := inv
  refine ⟨?_, ?_⟩
  · intro p q hp hq
    exact guarded.inside p q (Pc.inside_of_between hp) (Pc.inside_of_between hq)
  · rintro unlocked free p ⟨asleep, _⟩
    obtain locked | ⟨q, will⟩ := guarded.woken p (.inr asleep)
    · rw [unlocked] at locked
      cases locked
    · -- whoever is going to wake it holds lk->lk
      have held : (s.proc q).pc.lk = true := by
        cases eq : (s.proc q).pc with
        | clearPid => rfl
        | wakeAcquire => rfl
        | wakeLoop rest => rfl
        | _ => rw [eq] at will; cases will
      rw [(placed.lk q).mpr held] at free
      cases free

/-- The first of two processes takes the lock. -/
theorem first_process_holds :
    let as : List (Action 2 1) := [⟨0, .step⟩, ⟨0, .pick 0⟩, ⟨0, .step⟩, ⟨0, .step⟩, ⟨0, .call⟩,
      ⟨0, .step⟩, ⟨0, .step⟩, ⟨0, .step⟩, ⟨0, .step⟩, ⟨0, .step⟩]
    let s := (system 2 1).after (init 2 1) as
    (s.proc 0).pc.between = true ∧ (s.proc 1).pc.between ≠ true := by
  intro as s
  have reachable : (system 2 1).Reachable (init 2 1) s := System.Reachable.start.after (by decide)
  have mine : (s.proc 0).pc.between = true := by decide
  refine ⟨mine, ?_⟩
  intro other
  have same := (sleeplock_safe reachable).1 0 1 mine other
  cases same

end Xv6.SleepLock
