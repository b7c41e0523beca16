import Xv6.Proc.Scheduler

/-! What each strategy selects. The scans are the first-minimum scan of the
library; the outcomes are characterised without mentioning loops. -/

namespace Xv6
open Lib

/-- Every visited slot has its share stored; nothing else of the table moves. -/
def storeShares (sel : Proc → Bool) (ticks : UInt32) (t : Table) : Table := fun p =>
  if sel (t p) then { t p with grt := (t p).share ticks } else t p

theorem foldl_shareStep (sel : Proc → Bool) (ticks : UInt32) (t : Table) :
    ∀ (l : List Slot), l.Nodup → ∀ (t' : Table) (acc : Option Slot × UInt32),
      (∀ p ∈ l, t' p = t p) →
      l.foldl (shareStep sel ticks) (t', acc) =
        ((fun p => if p ∈ l then storeShares sel ticks t p else t' p),
          scan (fun p => sel (t p)) (fun p => (t p).share ticks) acc l) := by
  intro l
  induction l with
  | nil => intros; simp [scan]
  | cons a l ih =>
    intro nodup t' acc same
    obtain ⟨fresh, nodup⟩ := List.nodup_cons.mp nodup
    have here : t' a = t a := same a (by simp)
    have turn : shareStep sel ticks (t', acc) a =
        (Function.update t' a (storeShares sel ticks t a),
          scanStep (fun p => sel (t p)) (fun p => (t p).share ticks) acc a) := by
      obtain ⟨proc, min⟩ := acc
      cases hs : sel (t a)
      · simp only [shareStep, scanStep, storeShares, here, hs, Bool.false_eq_true, ↓reduceIte]
        rw [← here, Function.update_eq_self]
      · simp only [shareStep, scanStep, storeShares, here, hs, ↓reduceIte, Function.update_self]
        split <;> rfl
    rw [List.foldl_cons, turn, ih nodup]
    · simp only [scan, List.foldl_cons, Prod.mk.injEq, and_true]
      funext p
      by_cases hp : p = a
      · subst hp; simp [fresh]
      · simp [hp]
    · intro p hp
      have : p ≠ a := fun h => fresh (h ▸ hp)
      rw [Function.update_of_ne this]
      exact same p (by simp [hp])

theorem shareScan_eq (sel : Proc → Bool) (ticks : UInt32) (t : Table) (proc : Option Slot)
    (min : UInt32) :
    shareScan sel ticks t proc min =
      (storeShares sel ticks t,
        scan (fun p => sel (t p)) (fun p => (t p).share ticks) (proc, min) slots) := by
  have nodup : slots.Nodup := slots_sorted.imp (fun h => ne_of_lt h)
  have := foldl_shareStep sel ticks t slots nodup t (proc, min) (fun _ _ => rfl)
  simpa only [shareScan, mem_slots, ↓reduceIte] using this

/-- The loops dispatch the first selected slot they have not visited. -/
theorem rrLoop_cases (sel : Proc → Bool) (t : Table) (proc : Option Slot) (l : List Slot) :
    ((∀ p ∈ l, sel (t p) = false) ∧ rrLoop sel t proc l = ⟨t, proc, none⟩) ∨
    ∃ p, l.find? (fun p => sel (t p)) = some p ∧ sel (t p) = true ∧
      rrLoop sel t proc l = ⟨Function.update t p (t p).run, some p, some (.loop p)⟩ := by
  unfold rrLoop
  cases h : l.find? fun p => sel (t p) with
  | none => exact .inl ⟨by simpa using h, rfl⟩
  | some p => exact .inr ⟨p, rfl, by simpa using List.find?_some h, rfl⟩

/-- A scan bounded by `ticks` moves its bound exactly when it finds a slot, so
the test of the bound never lets a stale `proc` through. -/
theorem scan_cases (sel : Slot → Bool) (key : Slot → UInt32) (proc : Option Slot) (ticks : UInt32) :
    ((∀ p, sel p = true → ticks ≤ key p) ∧ scan sel key (proc, ticks) slots = (proc, ticks)) ∨
    ∃ p, scan sel key (proc, ticks) slots = (some p, key p) ∧ key p < ticks ∧
      FirstMin sel key (· < ·) slots p := by
  by_cases h : ∃ p ∈ slots, sel p = true ∧ key p < (proc, ticks).2
  · exact .inr (scan_beaten slots_sorted h)
  · have unbeaten : ∀ p ∈ slots, sel p = true → ticks ≤ key p := by grind
    exact .inl ⟨fun p => unbeaten p (mem_slots p), scan_unbeaten unbeaten⟩

theorem fifoPass_cases (ticks : UInt32) (t : Table) (proc : Option Slot) :
    ((∀ p, (t p).isRunnable = true → ticks ≤ (t p).priority) ∧
      fifoPass ticks t proc = ⟨t, proc, none⟩) ∨
    ∃ p, (t p).priority < ticks ∧
      FirstMin (fun p => (t p).isRunnable) (fun p => (t p).priority) (· < ·) slots p ∧
      fifoPass ticks t proc =
        ⟨Function.update t p ((t p).runStamped ticks), some p, some .once⟩ := by
  unfold fifoPass fifoScan
  obtain ⟨unbeaten, eq⟩ | ⟨p, eq, below, least⟩ :=
    scan_cases (fun p => (t p).isRunnable) (fun p => (t p).priority) proc ticks
  · exact .inl ⟨unbeaten, by simp [eq]⟩
  · exact .inr ⟨p, below, least, by simp [eq, switchTo, show (t p).priority ≠ ticks by grind]⟩

theorem guaranteedPass_cases (ticks : UInt32) (t : Table) (proc : Option Slot) :
    ((∀ p, (t p).isRunnable = true → ticks ≤ (t p).share ticks) ∧
      guaranteedPass ticks t proc = ⟨storeShares Proc.isRunnable ticks t, proc, none⟩) ∨
    ∃ p, (t p).share ticks < ticks ∧
      FirstMin (fun p => (t p).isRunnable) (fun p => (t p).share ticks) (· < ·) slots p ∧
      guaranteedPass ticks t proc =
        ⟨Function.update (storeShares Proc.isRunnable ticks t) p
          ((storeShares Proc.isRunnable ticks t p).runStamped ticks), some p, some .once⟩ := by
  unfold guaranteedPass
  rw [shareScan_eq]
  obtain ⟨unbeaten, eq⟩ | ⟨p, eq, below, least⟩ :=
    scan_cases (fun p => (t p).isRunnable) (fun p => (t p).share ticks) proc ticks
  · exact .inl ⟨unbeaten, by simp [eq]⟩
  · exact .inr ⟨p, below, least, by simp [eq, switchTo, show (t p).share ticks ≠ ticks by grind]⟩

@[simp] theorem storeShares_onLevel (sel : Proc → Bool) (level : Int32) (ticks : UInt32) (t : Table)
    (p : Slot) : (storeShares sel ticks t p).onLevel level = (t p).onLevel level := by
  unfold storeShares
  split <;> rfl

@[simp] theorem storeShares_priority (sel : Proc → Bool) (ticks : UInt32) (t : Table) (p : Slot) :
    (storeShares sel ticks t p).priority = (t p).priority := by
  unfold storeShares
  split <;> rfl

/-- Strategy 4 serves the first queue that has a slot it accepts. The first
two accept only slots whose key is below `ticks`; the third accepts any. -/
theorem multiLevelPass_cases (ticks : UInt32) (t : Table) (proc : Option Slot) :
    let t' := storeShares (Proc.onLevel 3) ticks t
    (∃ p, (t p).share ticks < ticks ∧
      FirstMin (fun p => (t p).onLevel 3) (fun p => (t p).share ticks) (· < ·) slots p ∧
      multiLevelPass ticks t proc =
        ⟨Function.update t' p ((t' p).runStamped ticks), some p, some .once⟩) ∨
    (∀ p, (t p).onLevel 3 = true → ticks ≤ (t p).share ticks) ∧
    ((∃ p, (t p).priority < ticks ∧
      FirstMin (fun p => (t p).onLevel 2) (fun p => (t p).priority) (· < ·) slots p ∧
      multiLevelPass ticks t proc =
        ⟨Function.update t' p ((t' p).runStamped ticks), some p, some .once⟩) ∨
    (∀ p, (t p).onLevel 2 = true → ticks ≤ (t p).priority) ∧
      multiLevelPass ticks t proc = rrLoop (Proc.onLevel 1) t' proc slots) := by
  intro t'
  have second (acc : Option Slot × UInt32) :
      fifoScan (Proc.onLevel 2) (storeShares (Proc.onLevel 3) ticks t) acc =
        scan (fun p => (t p).onLevel 2) (fun p => (t p).priority) acc slots := by
    simp only [fifoScan, storeShares_onLevel, storeShares_priority]
  unfold multiLevelPass
  rw [shareScan_eq]
  obtain ⟨unbeaten, eq⟩ | ⟨p, eq, below, least⟩ :=
    scan_cases (fun p => (t p).onLevel 3) (fun p => (t p).share ticks) proc ticks
  · refine .inr ⟨unbeaten, ?_⟩
    simp only [eq, second, ne_eq, not_true_eq_false, ↓reduceIte]
    obtain ⟨unbeaten, eq⟩ | ⟨p, eq, below, least⟩ :=
      scan_cases (fun p => (t p).onLevel 2) (fun p => (t p).priority) proc ticks
    · exact .inr ⟨unbeaten, by simp [eq, t']⟩
    · exact .inl ⟨p, below, least,
        by simp [eq, switchTo, show (t p).priority ≠ ticks by grind, t']⟩
  · exact .inl ⟨p, below, least, by simp [eq, switchTo, show (t p).share ticks ≠ ticks by grind, t']⟩

/-! ## What all outcomes have in common -/

/-- The slots other than those in `except` keep everything but their stored share. -/
def Graded (t t' : Table) (except : Slot → Prop) : Prop :=
  ∀ i, ¬ except i → ∃ grt, t' i = { t i with grt := grt }

/-- The outcome switches to `p`, a RUNNABLE slot. -/
structure Outcome.Switches (o : Outcome) (ticks : UInt32) (t : Table) (p : Slot) : Prop where
  next : o.next.isSome = true
  proc : o.proc = some p
  runnable : (t p).state = .runnable
  entry : ∃ grt priority, (priority = (t p).priority ∨ priority = ticks) ∧
    o.table p = { t p with grt, priority, myquantum := 0, state := .running }
  others : Graded t o.table (· = p)

/-- The outcome reaches release() with nothing switched to. -/
structure Outcome.Ends (o : Outcome) (t : Table) (proc : Option Slot) : Prop where
  next : o.next = none
  proc : o.proc = proc
  others : Graded t o.table (fun _ => False)

theorem graded_self (t : Table) (except : Slot → Prop) : Graded t t except :=
  fun i _ => ⟨(t i).grt, rfl⟩

theorem graded_storeShares (sel : Proc → Bool) (ticks : UInt32) (t : Table) (except : Slot → Prop) :
    Graded t (storeShares sel ticks t) except := by
  intro i _
  unfold storeShares
  split
  · exact ⟨_, rfl⟩
  · exact ⟨(t i).grt, rfl⟩

/-- Switching to `p` out of a table that differs from `t` in shares only. -/
theorem switches_of_graded {t t' : Table} (graded : Graded t t' fun _ => False) {p : Slot}
    (runnable : (t p).state = .runnable) {ticks : UInt32} {entry : Proc} {ctx : SchedCtx}
    (run : entry = (t' p).run ∨ entry = (t' p).runStamped ticks) :
    Outcome.Switches ⟨Function.update t' p entry, some p, some ctx⟩ ticks t p := by
  refine ⟨rfl, rfl, runnable, ?_, ?_⟩
  · obtain ⟨grt, eq⟩ := graded p id
    obtain rfl | rfl := run
    · exact ⟨grt, (t p).priority, .inl rfl, by simp [eq, Proc.run]⟩
    · exact ⟨grt, ticks, .inr rfl, by simp [eq, Proc.run, Proc.runStamped]⟩
  · intro i hi
    obtain ⟨grt, eq⟩ := graded i id
    exact ⟨grt, (Function.update_of_ne hi _ _).trans eq⟩

theorem rrLoop_switches_or_ends {sel : Proc → Bool} (runnable : ∀ p, sel p = true → p.state = .runnable)
    {t t' : Table} (graded : Graded t t' fun _ => False) (ticks : UInt32) (proc : Option Slot)
    (l : List Slot) :
    (∃ p, (rrLoop sel t' proc l).Switches ticks t p) ∨ (rrLoop sel t' proc l).Ends t proc := by
  obtain ⟨_, eq⟩ | ⟨p, _, selected, eq⟩ := rrLoop_cases sel t' proc l
  · exact .inr (eq ▸ ⟨rfl, rfl, graded⟩)
  · obtain ⟨grt, same⟩ := graded p id
    have state := runnable _ selected
    rw [same] at state
    exact .inl ⟨p, eq ▸ switches_of_graded graded state (.inl rfl)⟩

theorem isRunnable_state {p : Proc} (h : p.isRunnable = true) : p.state = .runnable := by
  simpa [Proc.isRunnable] using h

theorem onLevel_state {level : Int32} {p : Proc} (h : p.onLevel level = true) :
    p.state = .runnable := by
  simp only [Proc.onLevel, decide_eq_true_eq] at h
  exact h.1

/-- Whatever the strategy, an iteration switches to a RUNNABLE slot or ends
with the CPU's `proc` as it was. -/
theorem schedule_switches_or_ends (strategy : Nat) (ticks : UInt32) (t : Table) (proc : Option Slot) :
    (∃ p, (schedule strategy ticks t proc).Switches ticks t p) ∨
      (schedule strategy ticks t proc).Ends t proc := by
  have self := graded_self t fun _ => False
  unfold schedule
  split
  · exact rrLoop_switches_or_ends (fun _ => isRunnable_state) self ticks proc slots
  split
  · obtain ⟨_, eq⟩ | ⟨p, _, least, eq⟩ := fifoPass_cases ticks t proc
    · exact .inr (eq ▸ ⟨rfl, rfl, self⟩)
    · exact .inl ⟨p, eq ▸ switches_of_graded self (isRunnable_state least.selected) (.inr rfl)⟩
  split
  · have graded := graded_storeShares Proc.isRunnable ticks t fun _ => False
    obtain ⟨_, eq⟩ | ⟨p, _, least, eq⟩ := guaranteedPass_cases ticks t proc
    · exact .inr (eq ▸ ⟨rfl, rfl, graded⟩)
    · exact .inl ⟨p, eq ▸ switches_of_graded graded (isRunnable_state least.selected) (.inr rfl)⟩
  split
  · have graded := graded_storeShares (Proc.onLevel 3) ticks t fun _ => False
    obtain ⟨p, _, least, eq⟩ | ⟨_, ⟨p, _, least, eq⟩ | ⟨_, eq⟩⟩ := multiLevelPass_cases ticks t proc
    · exact .inl ⟨p, eq ▸ switches_of_graded graded (onLevel_state least.selected) (.inr rfl)⟩
    · exact .inl ⟨p, eq ▸ switches_of_graded graded (onLevel_state least.selected) (.inr rfl)⟩
    · rw [eq]
      exact rrLoop_switches_or_ends (fun _ => onLevel_state) graded ticks proc slots
  · exact .inr ⟨rfl, rfl, self⟩

theorem reschedule_switches_or_ends (strategy : Nat) (ticks : UInt32) (t : Table) (ctx : SchedCtx) :
    (∃ p, (reschedule strategy t ctx).Switches ticks t p) ∨ (reschedule strategy t ctx).Ends t none := by
  have self := graded_self t fun _ => False
  cases ctx with
  | loop p =>
    refine rrLoop_switches_or_ends (fun q selected => ?_) self ticks none _
    split at selected
    · exact isRunnable_state selected
    · exact onLevel_state selected
  | once => exact .inr ⟨rfl, rfl, self⟩

end Xv6
