import Xv6.Locks.Cli

/-! Threads that go from CPU to CPU: `cpu->ncli` counts the locks of the CPU, and
`cpu->intena` follows the thread through sched(). -/

namespace Xv6.Cli
open Lib
variable {C T L : Type}

/-! ## The locks of all CPUs -/

def Owns (th : Thread L) (l : L) : Prop := l ∈ th.held ∨ th.pc.unmarked = some l

/-- `view` is the thread each CPU runs. -/
structure Owned (lock : L → Lock C) (view : C → Thread L) : Prop where
  marked : ∀ c l, (lock l).cpu = some c ↔ l ∈ (view c).held
  nodup : ∀ c, (view c).held.Nodup
  locked : ∀ c l, Owns (view c) l → (lock l).locked = true
  bare : ∀ c l, (view c).pc.unmarked = some l → (lock l).cpu = none
  alone : ∀ c c' l, (view c).pc.unmarked = some l → (view c').pc.unmarked = some l → c = c'

namespace Owned

variable {lock lock' : L → Lock C} {view : C → Thread L} {c c' : C} {l : L}

theorem at_cpu (h : Owned lock view) (c : C) : Marked lock c (view c).held :=
  ⟨h.marked c, fun l mem => h.locked c l (.inl mem), h.nodup c⟩

theorem unique (h : Owned lock view) (mine : Owns (view c) l) (yours : Owns (view c') l) :
    c = c' := by
  rcases mine with held | bare <;> rcases yours with held' | bare'
  · exact Option.some.inj (((h.marked c l).mpr held).symm.trans ((h.marked c' l).mpr held'))
  · have marked := (h.marked c l).mpr held
    rw [h.bare c' l bare'] at marked
    cases marked
  · have marked := (h.marked c' l).mpr held'
    rw [h.bare c l bare] at marked
    cases marked
  · exact h.alone c c' l bare bare'

/-- A thread goes on without touching its locks. -/
theorem same [DecidableEq C] (h : Owned lock view) {th : Thread L} (held : th.held = (view c).held)
    (bare : th.pc.unmarked = (view c).pc.unmarked) : Owned lock (Function.update view c th) := by
  have heldEq (x : C) : (Function.update view c th x).held = (view x).held := by
    by_cases eq : x = c
    · rw [eq, Function.update_self, held]
    · rw [Function.update_of_ne eq]
  have bareEq (x : C) : (Function.update view c th x).pc.unmarked = (view x).pc.unmarked := by
    by_cases eq : x = c
    · rw [eq, Function.update_self, bare]
    · rw [Function.update_of_ne eq]
  constructor
  · intro x l
    rw [heldEq, h.marked]
  · intro x
    rw [heldEq]
    exact h.nodup x
  · intro x l owns
    rw [Owns, heldEq, bareEq] at owns
    exact h.locked x l owns
  · intro x l eq
    rw [bareEq] at eq
    exact h.bare x l eq
  · intro x y l eq eq'
    rw [bareEq] at eq eq'
    exact h.alone x y l eq eq'

/-- One access, of a lock that is free or the CPU's own. -/
theorem change [DecidableEq C] [DecidableEq L] (h : Owned lock view) {th : Thread L} {v : Lock C}
    (mine : (lock l).locked = false ∨ Owns (view c) l)
    (others : ∀ x, x ≠ l → (x ∈ th.held ↔ x ∈ (view c).held) ∧ th.pc.unmarked ≠ some x)
    (nodup : th.held.Nodup)
    (cpu : ∀ c', v.cpu = some c' → c' = c)
    (marked : v.cpu = some c ↔ l ∈ th.held)
    (locked : Owns th l → v.locked = true)
    (bare : th.pc.unmarked = some l → v.cpu = none) :
    Owned (Function.update lock l v) (Function.update view c th) := by
  -- no other CPU has a part in `l`
  have apart (x : C) (other : x ≠ c) : ¬ Owns (view x) l := by
    intro owns
    rcases mine with free | own
    · rw [h.locked x l owns] at free
      cases free
    · exact other (h.unique owns own)
  constructor
  · intro x k
    by_cases here : k = l
    · subst here
      rw [Function.update_self]
      by_cases eq : x = c
      · rw [eq, Function.update_self, marked]
      · rw [Function.update_of_ne eq]
        exact ⟨fun set => absurd (cpu x set) eq, fun mem => absurd (.inl mem) (apart x eq)⟩
    · rw [Function.update_of_ne here]
      by_cases eq : x = c
      · rw [eq, Function.update_self, (others k here).1, h.marked]
      · rw [Function.update_of_ne eq, h.marked]
  · intro x
    by_cases eq : x = c
    · rw [eq, Function.update_self]
      exact nodup
    · rw [Function.update_of_ne eq]
      exact h.nodup x
  · intro x k owns
    by_cases eq : x = c
    · rw [eq, Function.update_self] at owns
      by_cases here : k = l
      · subst here
        rw [Function.update_self]
        exact locked owns
      · rw [Function.update_of_ne here]
        rcases owns with held | bare
        · exact h.locked c k (.inl ((others k here).1.mp held))
        · exact absurd bare (others k here).2
    · rw [Function.update_of_ne eq] at owns
      have here : k ≠ l := fun here => apart x eq (here ▸ owns)
      rw [Function.update_of_ne here]
      exact h.locked x k owns
  · intro x k unmarked
    by_cases eq : x = c
    · rw [eq, Function.update_self] at unmarked
      by_cases here : k = l
      · subst here
        rw [Function.update_self]
        exact bare unmarked
      · exact absurd unmarked (others k here).2
    · rw [Function.update_of_ne eq] at unmarked
      have here : k ≠ l := fun here => apart x eq (here ▸ .inr unmarked)
      rw [Function.update_of_ne here]
      exact h.bare x k unmarked
  · intro x y k hx hy
    have both (z : C) (hz : (Function.update view c th z).pc.unmarked = some k) (other : z ≠ c) :
        (view z).pc.unmarked = some k ∧ k ≠ l := by
      rw [Function.update_of_ne other] at hz
      exact ⟨hz, fun here => apart z other (here ▸ .inr hz)⟩
    by_cases eqx : x = c <;> by_cases eqy : y = c
    · rw [eqx, eqy]
    · obtain ⟨-, here⟩ := both y hy eqy
      rw [eqx, Function.update_self] at hx
      exact absurd hx (others k here).2
    · obtain ⟨-, here⟩ := both x hx eqx
      rw [eqy, Function.update_self] at hy
      exact absurd hy (others k here).2
    · exact h.alone x y k (both x hx eqx).1 (both y hy eqy).1

end Owned

/-- A process that no CPU runs. -/
structure Waits (ptable : L) (th : Thread L) : Prop where
  waits : th.pc.waits = true
  held : th.held = [ptable]
  saved : ∀ b, th.before = some b → th.pc = .parked b
  stack : ∀ f ∈ th.stack, Resumable f

/-- The thread of a scheduler() whose CPU runs a process. -/
structure Away (ptable : L) (th : Thread L) : Prop where
  held : th.held = [ptable]
  stack : ∀ f ∈ th.stack, Resumable f

structure Kept (ptable : L) (s : State C T L) : Prop where
  one : ∀ c c' t, s.running c = some t → s.running c' = some t → c = c'
  ok : ∀ c, Ok ptable (s.cpu c) (s.on c)
  off : ∀ t, (∀ c, s.running c ≠ some t) → Waits ptable (s.thread (.proc t))
  away : ∀ c t, s.running c = some t → Away ptable (s.thread (.scheduler c))
  locks : Owned s.lock s.on

section
variable {ptable : L} {s : State C T L}

theorem current_of_none {c : C} (idle : s.running c = none) : s.current c = .scheduler c := by
  rw [State.current, idle]

theorem current_of_some {c : C} {t : T} (runs : s.running c = some t) : s.current c = .proc t := by
  rw [State.current, runs]

theorem current_scheduler {c c' : C} (h : s.current c = .scheduler c') :
    c = c' ∧ s.running c = none := by
  cases runs : s.running c with
  | none =>
    rw [current_of_none runs] at h
    exact ⟨Who.scheduler.inj h, rfl⟩
  | some t =>
    rw [current_of_some runs] at h
    cases h

theorem current_proc {c : C} {t : T} (h : s.current c = .proc t) : s.running c = some t := by
  cases runs : s.running c with
  | none =>
    rw [current_of_none runs] at h
    cases h
  | some t' =>
    rw [current_of_some runs] at h
    cases h
    rfl

/-- Two CPUs do not run one thread. -/
theorem Kept.current_inj (h : Kept ptable s) {c c' : C} (same : s.current c = s.current c') :
    c = c' := by
  cases runs : s.running c' with
  | none =>
    rw [current_of_none runs] at same
    exact (current_scheduler same).1
  | some t =>
    rw [current_of_some runs] at same
    exact h.one c c' t (current_proc same) runs

variable [DecidableEq C] [DecidableEq T]

theorem Kept.on_put (h : Kept ptable s) (c : C) (k : Cpu) (th : Thread L) (lock : L → Lock C) :
    (s.put c k th lock).on = Function.update s.on c th := by
  funext x
  show Function.update s.thread (s.current c) th (s.current x) = _
  by_cases eq : x = c
  · rw [eq, Function.update_self, Function.update_self]
  · rw [Function.update_of_ne eq, Function.update_of_ne fun same => eq (h.current_inj same)]
    rfl

/-- The thread of one CPU goes on. -/
theorem Kept.put (h : Kept ptable s) {c : C} {k : Cpu} {th : Thread L} {lock : L → Lock C}
    (ok : Ok ptable k th) (locks : Owned lock (Function.update s.on c th)) :
    Kept ptable (s.put c k th lock) where
  one := h.one
  ok x := by
    rw [h.on_put]
    show Ok ptable (Function.update s.cpu c k x) _
    by_cases eq : x = c
    · rw [eq, Function.update_self, Function.update_self]
      exact ok
    · rw [Function.update_of_ne eq, Function.update_of_ne eq]
      exact h.ok x
  off t none := by
    have other : Who.proc t ≠ s.current c := fun same => none c (current_proc same.symm)
    show Waits ptable (Function.update s.thread (s.current c) th (.proc t))
    rw [Function.update_of_ne other]
    exact h.off t none
  away x t runs := by
    have runs : s.running x = some t := runs
    have other : Who.scheduler x ≠ s.current c := by
      intro same
      obtain ⟨rfl, idle⟩ := current_scheduler same.symm
      rw [runs] at idle
      cases idle
    show Away ptable (Function.update s.thread (s.current c) th (.scheduler x))
    rw [Function.update_of_ne other]
    exact h.away x t runs
  locks := by
    rw [h.on_put]
    exact locks

/-- A call: nothing is done yet, to a lock least of all. -/
theorem Kept.call (h : Kept ptable s) {c : C} {k : Cpu} {th : Thread L}
    (ok : Ok ptable k th) (held : th.held = (s.on c).held)
    (bare : th.pc.unmarked = (s.on c).pc.unmarked) : Kept ptable (s.put c k th s.lock) :=
  h.put ok (h.locks.same held bare)

end

/-! ## The two context switches -/

section
variable {ptable : L} {s : State C T L}

/-- A CPU exchanges its thread for another that holds ptable.lock as well. -/
theorem Kept.exchange [DecidableEq C] (h : Kept ptable s) {c : C} {s' : State C T L}
    (cpu : s'.cpu = s.cpu) (lock : s'.lock = s.lock)
    (held : (s.on c).held = [ptable]) (bare : (s.on c).pc.unmarked = none)
    (extra : (s.on c).pc.extra = 0)
    (on : ∀ x, x ≠ c → s'.on x = s.on x)
    (one : ∀ x y t, s'.running x = some t → s'.running y = some t → x = y)
    (off : ∀ t, (∀ x, s'.running x ≠ some t) → Waits ptable (s'.thread (.proc t)))
    (away : ∀ x t, s'.running x = some t → Away ptable (s'.thread (.scheduler x)))
    (held' : (s'.on c).held = [ptable]) (bare' : (s'.on c).pc.unmarked = none)
    (extra' : (s'.on c).pc.extra = 0) (fits : Fits ptable (s.cpu c) (s'.on c))
    (saved : ∀ b, (s'.on c).before = some b → Saved (s.cpu c) (s'.on c) b)
    (stack : ∀ f ∈ (s'.on c).stack, Resumable f) : Kept ptable s' where
  one := one
  off := off
  away := away
  ok x := by
    by_cases eq : x = c
    · rw [eq, cpu]
      refine ⟨?_, fun _ => ?_, fits, saved, stack⟩
      · rw [held', extra', (h.ok c).count, held, extra]
      · exact (h.ok c).off (.inl (by rw [held]; exact List.cons_ne_nil _ _))
    · rw [on x eq, cpu]
      exact h.ok x
  locks := by
    have view : s'.on = Function.update s.on c (s'.on c) := by
      funext x
      by_cases eq : x = c
      · rw [eq, Function.update_self]
      · rw [Function.update_of_ne eq, on x eq]
    rw [view, lock]
    exact h.locks.same (by rw [held', held]) (by rw [bare', bare])

/-- A process that waits is on no CPU. -/
theorem Kept.waits_off (h : Kept ptable s) {t : T} (waits : (s.thread (.proc t)).pc.waits = true)
    (c : C) : s.running c ≠ some t := by
  intro runs
  have fits := (h.ok c).fits
  rw [show s.on c = s.thread (.proc t) from congrArg s.thread (current_of_some runs)] at fits
  generalize s.thread (.proc t) = th at waits fits
  obtain ⟨pc, held, before, stack⟩ := th
  cases pc <;> first | exact fits | cases waits

theorem Kept.ncard [DecidableEq C] [DecidableEq L] (h : Kept ptable s) (c : C) :
    {l | State.holding s.lock c l = true}.ncard = (s.on c).held.length := by
  have same : {l | State.holding s.lock c l = true} = ((s.on c).held.toFinset : Set L) := by
    ext l
    rw [Set.mem_ofPred_eq, (h.locks.at_cpu c).holding_iff, Finset.mem_coe, List.mem_toFinset]
  rw [same, Set.ncard_coe_finset, List.toFinset_card_of_nodup (h.locks.nodup c)]

/-- The count of a CPU outside the bodies of acquire(), release() and switchuvm(). -/
theorem Kept.count [DecidableEq C] [DecidableEq L] (h : Kept ptable s) {c : C} (outside : (s.on c).pc.outsideBodies = true) :
    (s.cpu c).ncli = {l | State.holding s.lock c l = true}.ncard := by
  have extra : (s.on c).pc.extra = 0 := by
    generalize (s.on c).pc = pc at outside
    cases pc <;> first | rfl | cases outside
  rw [(h.ok c).count, extra, h.ncard, Int.add_zero]

/-- Just after a swtch() to a process. -/
theorem Kept.resumed (h : Kept ptable s) {c : C}
    (at_ : (s.on c).pc = .forkret ∨ ∃ i, (s.on c).pc = .resumed i) : (s.cpu c).ncli = 1 := by
  have ok := h.ok c
  have fits := ok.fits
  rcases at_ with at_ | ⟨i, at_⟩ <;>
  · rw [Fits, at_] at fits
    rw [ok.count, at_, show (s.on c).held = [ptable] from fits]
    rfl

/-- It goes on where it stopped, or in forkret(). -/
theorem Waits.goes {th : Thread L} (h : Waits ptable th) (k : Cpu) :
    th.pc.dispatch.unmarked = none ∧ th.pc.dispatch.extra = 0 ∧
      Fits ptable k { th with pc := th.pc.dispatch } ∧
      ∀ b, th.before = some b → Saved k { th with pc := th.pc.dispatch } b := by
  obtain ⟨pc, held, before, stack⟩ := th
  obtain ⟨waits, held, saved, -⟩ := h
  cases pc with
  | newborn =>
    refine ⟨rfl, rfl, held, fun b noted => ?_⟩
    cases saved b noted
  | parked i =>
    refine ⟨rfl, rfl, held, fun b noted => ?_⟩
    cases saved b noted
    rfl
  | _ => cases waits

variable [DecidableEq C] [DecidableEq T] [DecidableEq L]

/-- swtch() in sched() -/
theorem Kept.swtch (h : Kept ptable s) {c : C} {t : T} {i : Bool} (runs : s.running c = some t)
    (at_ : (s.on c).pc = .swtch i) : Kept ptable (perform ptable s (.swtch c)) := by
  have ok := h.ok c
  have held : (s.on c).held = [ptable] := by
    have fits := ok.fits
    rw [Fits, at_] at fits
    exact fits
  have cur := current_of_some runs
  have away := h.away c t runs
  let parked : Thread L := { s.on c with pc := .parked i }
  let back : Thread L := { s.thread (.scheduler c) with pc := .outside, before := none }
  let s' : State C T L :=
    { s with
      running := Function.update s.running c none
      thread := Function.update (Function.update s.thread (.proc t) parked) (.scheduler c) back }
  have state : perform ptable s (.swtch c) = s' := by
    simp only [perform, at_, cur]
    rfl
  have running {x : C} (other : x ≠ c) : s'.running x = s.running x := Function.update_of_ne other _ _
  have stopped {x : C} {t' : T} (on : s'.running x = some t') : x ≠ c ∧ s.running x = some t' := by
    by_cases eq : x = c
    · rw [eq, show s'.running c = none from Function.update_self ..] at on
      cases on
    · exact ⟨eq, (running eq).symm.trans on⟩
  have mine : s'.on c = back := by
    have idle : s'.running c = none := Function.update_self ..
    show s'.thread (s'.current c) = back
    rw [current_of_none idle]
    exact Function.update_self ..
  rw [state]
  refine h.exchange rfl rfl held (by rw [at_]; rfl) (by rw [at_]; rfl) ?_ ?_ ?_ ?_
    (by rw [mine]; exact away.held) (by rw [mine]; rfl) (by rw [mine]; rfl) (by rw [mine]; trivial)
    (by rw [mine]; rintro _ ⟨⟩) (by rw [mine]; exact away.stack)
  · intro x other
    have same : s'.current x = s.current x := by
      rw [State.current, State.current, running other]
    show s'.thread (s'.current x) = s.thread (s.current x)
    rw [same]
    have notBack : s.current x ≠ .scheduler c := fun eq => other (current_scheduler eq).1
    have notParked : s.current x ≠ .proc t := fun eq =>
      other (h.one x c t (current_proc eq) runs)
    exact (Function.update_of_ne notBack _ _).trans (Function.update_of_ne notParked _ _)
  · intro x y t' hx hy
    exact h.one x y t' (stopped hx).2 (stopped hy).2
  · intro t' none
    have slot : s'.thread (.proc t') = Function.update s.thread (.proc t) parked (.proc t') :=
      Function.update_of_ne (show Who.proc t' ≠ Who.scheduler c by rintro ⟨⟩) back _
    rw [slot]
    by_cases eq : t' = t
    · rw [eq, Function.update_self]
      refine ⟨rfl, held, ?_, ok.stack⟩
      intro b noted
      have saved := ok.saved b noted
      rw [Saved, at_] at saved
      exact congrArg Pc.parked saved
    · rw [Function.update_of_ne fun same => eq (Who.proc.inj same)]
      refine h.off t' fun x on => ?_
      by_cases here : x = c
      · rw [here, runs] at on
        exact eq (Option.some.inj on).symm
      · exact none x ((running here).trans on)
  · intro x t' on
    obtain ⟨other, before⟩ := stopped on
    have slot : s'.thread (.scheduler x) = s.thread (.scheduler x) :=
      (Function.update_of_ne (fun same => other (Who.scheduler.inj same)) _ _).trans
        (Function.update_of_ne (by rintro ⟨⟩) _ _)
    rw [slot]
    exact h.away x t' before

/-- swtch() in scheduler() -/
theorem Kept.dispatch (h : Kept ptable s) {c : C} {t : T} (idle : s.running c = none)
    (at_ : (s.on c).pc = .outside) (held : (s.on c).held = [ptable])
    (waits : (s.thread (.proc t)).pc.waits = true) :
    Kept ptable (perform ptable s (.dispatch c t)) := by
  have ok := h.ok c
  have wait := h.off t (h.waits_off waits)
  let gone : Thread L := { s.on c with pc := .dispatched }
  let next : Thread L := { s.thread (.proc t) with pc := (s.thread (.proc t)).pc.dispatch }
  let s' : State C T L :=
    { s with
      running := Function.update s.running c (some t)
      thread := Function.update (Function.update s.thread (.scheduler c) gone) (.proc t) next }
  have running {x : C} (other : x ≠ c) : s'.running x = s.running x := Function.update_of_ne other _ _
  have started : s'.running c = some t := Function.update_self ..
  have mine : s'.on c = next := by
    show s'.thread (s'.current c) = next
    rw [current_of_some started]
    exact Function.update_self ..
  have goes := wait.goes (s.cpu c)
  show Kept ptable s'
  refine h.exchange rfl rfl held (by rw [at_]; rfl) (by rw [at_]; rfl) ?_ ?_ ?_ ?_
    (by rw [mine]; exact wait.held) (by rw [mine]; exact goes.1) (by rw [mine]; exact goes.2.1)
    (by rw [mine]; exact goes.2.2.1) (by rw [mine]; exact goes.2.2.2) (by rw [mine]; exact wait.stack)
  · intro x other
    have same : s'.current x = s.current x := by
      rw [State.current, State.current, running other]
    show s'.thread (s'.current x) = s.thread (s.current x)
    rw [same]
    have notNext : s.current x ≠ .proc t := fun eq => h.waits_off waits x (current_proc eq)
    have notGone : s.current x ≠ .scheduler c := fun eq => other (current_scheduler eq).1
    exact (Function.update_of_ne notNext _ _).trans (Function.update_of_ne notGone _ _)
  · intro x y t' hx hy
    have only {z : C} (here : t' = t) (on : s'.running z = some t') : z = c := by
      by_contra other
      rw [running other, here] at on
      exact h.waits_off waits z on
    by_cases here : t' = t
    · rw [only here hx, only here hy]
    · have apart {z : C} (on : s'.running z = some t') : s.running z = some t' := by
        by_cases eq : z = c
        · rw [eq, started] at on
          exact absurd (Option.some.inj on).symm here
        · exact (running eq).symm.trans on
      exact h.one x y t' (apart hx) (apart hy)
  · intro t' none
    have other : t' ≠ t := fun eq => none c (eq ▸ started)
    have slot : s'.thread (.proc t') = s.thread (.proc t') :=
      (Function.update_of_ne (fun same => other (Who.proc.inj same)) _ _).trans
        (Function.update_of_ne (by nofun) _ _)
    rw [slot]
    refine h.off t' fun x on => ?_
    by_cases here : x = c
    · rw [here, idle] at on
      cases on
    · exact none x ((running here).trans on)
  · intro x t' on
    have slot : s'.thread (.scheduler x) =
        Function.update s.thread (.scheduler c) gone (.scheduler x) :=
      Function.update_of_ne (show Who.scheduler x ≠ Who.proc t from nofun) next _
    rw [slot]
    by_cases here : x = c
    · rw [here, Function.update_self]
      exact ⟨held, ok.stack⟩
    · rw [Function.update_of_ne fun same => here (Who.scheduler.inj same)]
      exact h.away x t' ((running here).symm.trans on)

/-! ## Whole runs -/

end

end Xv6.Cli
