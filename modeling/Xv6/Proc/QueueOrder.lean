import Xv6.Lib.ExchangeSort
import Xv6.Proc.Selection

/-! The queue that sched() prints under strategy 2, against the order in which
scheduler() takes the processes. -/

namespace Xv6
open Lib

/-- The RUNNABLE slots in the order of the table. -/
def runnableSlots (t : Table) : List Slot := slots.filter fun p => (t p).isRunnable

/-! ## sched() -/

/-- An entry of the arrays `number` and `pid`. -/
abbrev QueueEntry := UInt32 × Int32

/-- The way of an entry through the temporaries `a1`, an `int`, and `a`, a `uint`. -/
def QueueEntry.moved (e : QueueEntry) : QueueEntry := (e.1.toInt32.toUInt32, e.2.toUInt32.toInt32)

/-- The inner loop, with `e` in place `i`. -/
def queuePass : QueueEntry → List QueueEntry → List QueueEntry × QueueEntry
  | e, [] => ([], e)
  | e, y :: ys =>
    if e.1 > y.1 then
      let r := queuePass y ys
      (QueueEntry.moved e :: r.1, r.2)
    else
      let r := queuePass e ys
      (y :: r.1, r.2)

/-- The outer loop, from some place on. -/
def queuePasses : Nat → List QueueEntry → List QueueEntry
  | 0, l => l
  | _ + 1, [] => []
  | n + 1, e :: ys =>
    let r := queuePass e ys
    r.2 :: queuePasses n r.1

/-- The arrays before they are sorted. -/
def queueEntries (t : Table) : List QueueEntry :=
  (runnableSlots t).map fun p => ((t p).priority, (t p).pid)

/-- The pids that sched() prints. -/
def printedQueue (t : Table) : List Int32 :=
  let entries := queueEntries t
  (queuePasses entries.length entries).map (·.2)

/-! ## scheduler() -/

/-- The slots that scheduler() takes one after another if none becomes RUNNABLE
again. -/
def dispatchOrder (ticks : UInt32) : Nat → Table → List Slot
  | 0, _ => []
  | n + 1, t =>
    let o := fifoPass ticks t none
    match o.dispatched with
    | some p => p :: dispatchOrder ticks n o.table
    | none => []

/-! ## The two orders -/

/-- The processes whose pids are printed: the sort with slots in place of pids. -/
def queueSlots (t : Table) : List Slot := exchangeSort (fun p => (t p).priority) (runnableSlots t)

theorem QueueEntry.moved_eq (e : QueueEntry) : QueueEntry.moved e = e := by
  simp [QueueEntry.moved]

theorem queuePass_eq (e : QueueEntry) (ys : List QueueEntry) :
    queuePass e ys = exchangePass Prod.fst e ys := by
  induction ys generalizing e with
  | nil => rfl
  | cons y ys ih => simp only [queuePass, exchangePass, QueueEntry.moved_eq, ih, gt_iff_lt]

theorem queuePasses_eq (n : Nat) (l : List QueueEntry) :
    queuePasses n l = exchangePasses Prod.fst n l := by
  induction n generalizing l with
  | zero => rfl
  | succ n ih =>
    cases l with
    | nil => rfl
    | cons e ys => simp only [queuePasses, exchangePasses, queuePass_eq, ih]

theorem printedQueue_eq (t : Table) : printedQueue t = (queueSlots t).map fun p => (t p).pid := by
  rw [printedQueue, queuePasses_eq]
  change (exchangeSort Prod.fst (queueEntries t)).map _ = _
  rw [queueEntries, exchangeSort_map, List.map_map]
  rfl

section
variable {t : Table} {ticks : UInt32}

theorem runnableSlots_sorted (t : Table) : (runnableSlots t).Pairwise (· < ·) :=
  slots_sorted.filter _

theorem mem_runnableSlots {p : Slot} : p ∈ runnableSlots t ↔ (t p).isRunnable = true := by
  simp [runnableSlots]

/-- The order of the queue: by priority and, among equal priorities, by slot. -/
abbrev QueueBefore (t : Table) : Slot → Slot → Prop :=
  Ordered (fun p => (t p).priority) (· < ·)

theorem QueueBefore.antisymm {p q : Slot} (before : QueueBefore t p q) (after : QueueBefore t q p) :
    p = q := by
  obtain less | ⟨same, lt⟩ := before
  · obtain less' | ⟨same', _⟩ := after
    · grind
    · grind
  · obtain less' | ⟨_, lt'⟩ := after
    · grind
    · exact absurd lt' (lt_asymm lt)

/-- A pass takes the first in the order of the queue, and the others stay. -/
theorem fifoPass_next {p : Slot} (first : FirstMin (fun p => (t p).isRunnable)
    (fun p => (t p).priority) (· < ·) slots p) {q : Slot} (other : q ≠ p)
    (runnable : (t q).isRunnable = true) : QueueBefore t p q := by
  by_cases less : (t p).priority < (t q).priority
  · exact .inl less
  · have le : (t q).priority ≤ (t p).priority := UInt32.not_lt.mp less
    have ge := first.least q (mem_slots q) runnable
    obtain same | lt := first.first q (mem_slots q) runnable le
    · exact absurd same other
    · exact .inr ⟨UInt32.le_antisymm ge le, lt⟩

theorem runnableSlots_taken (ticks : UInt32) {p : Slot} (runnable : (t p).isRunnable = true) :
    (p :: runnableSlots (Function.update t p ((t p).runStamped ticks))).Perm (runnableSlots t) := by
  have nodup : (runnableSlots t).Nodup := (runnableSlots_sorted t).imp ne_of_lt
  have nodup' : (runnableSlots (Function.update t p ((t p).runStamped ticks))).Nodup :=
    (runnableSlots_sorted _).imp ne_of_lt
  have gone : p ∉ runnableSlots (Function.update t p ((t p).runStamped ticks)) := by
    rw [mem_runnableSlots, Function.update_self]
    simp [Proc.runStamped, Proc.run, Proc.isRunnable]
  rw [List.perm_ext_iff_of_nodup (List.nodup_cons.mpr ⟨gone, nodup'⟩) nodup]
  intro q
  rw [List.mem_cons, mem_runnableSlots, mem_runnableSlots]
  by_cases here : q = p
  · simp [here, runnable]
  · simp [here]

/-- The processes are taken in the order of the queue. -/
theorem dispatchOrder_spec {n : Nat} (enough : (runnableSlots t).length ≤ n)
    (below : ∀ p, (t p).isRunnable = true → (t p).priority < ticks) :
    (dispatchOrder ticks n t).Perm (runnableSlots t) ∧
      (dispatchOrder ticks n t).Pairwise (QueueBefore t) := by
  induction n generalizing t with
  | zero =>
    rw [List.length_eq_zero_iff.mp (Nat.le_zero.mp enough), dispatchOrder]
    exact ⟨.refl _, .nil⟩
  | succ n ih =>
    rw [dispatchOrder]
    obtain ⟨none, pass⟩ | ⟨p, _, first, pass⟩ := fifoPass_cases ticks t none
    · have empty : runnableSlots t = [] := by
        rw [List.eq_nil_iff_forall_not_mem]
        intro p mem
        have runnable := mem_runnableSlots.mp mem
        exact absurd (below p runnable) (UInt32.not_lt.mpr (none p runnable))
      rw [pass, empty]
      exact ⟨.refl _, .nil⟩
    · have perm := runnableSlots_taken ticks first.selected
      have others {q : Slot} (runnable :
          ((Function.update t p ((t p).runStamped ticks)) q).isRunnable = true) : q ≠ p := by
        rintro rfl
        rw [Function.update_self] at runnable
        simp [Proc.runStamped, Proc.run, Proc.isRunnable] at runnable
      rw [pass]
      dsimp only [Outcome.dispatched, Option.bind_some]
      obtain ⟨perm', sorted⟩ := ih (t := Function.update t p ((t p).runStamped ticks))
        (by have := perm.length_eq; rw [List.length_cons] at this; omega)
        (by
          intro q runnable
          have ne := others runnable
          rw [Function.update_of_ne ne] at runnable ⊢
          exact below q runnable)
      refine ⟨(perm'.cons p).trans perm, .cons ?_ (sorted.imp_of_mem ?_)⟩
      · intro q mem
        have runnable := mem_runnableSlots.mp (perm'.mem_iff.mp mem)
        have ne := others runnable
        rw [Function.update_of_ne ne] at runnable
        exact fifoPass_next first ne runnable
      · intro q q' mem mem' before
        have ne := others (mem_runnableSlots.mp (perm'.mem_iff.mp mem))
        have ne' := others (mem_runnableSlots.mp (perm'.mem_iff.mp mem'))
        simpa only [QueueBefore, Ordered, Function.update_of_ne ne, Function.update_of_ne ne']
          using before

/-- The pids printed are those of the RUNNABLE processes, and they are in the
order in which scheduler() takes them exactly if for every RUNNABLE process the
number of those with its priority up to its slot divides the number of those
with a smaller priority between its slot and the next with its priority. -/
theorem printed_in_dispatch_order_iff
    (below : ∀ p, (t p).isRunnable = true → (t p).priority < ticks) :
    printedQueue t = (queueSlots t).map (fun p => (t p).pid) ∧
    (queueSlots t).Perm (runnableSlots t) ∧
    (queueSlots t = dispatchOrder ticks nproc t ↔
      TiesKeep (fun p => (t p).priority) (runnableSlots t)) := by
  have few : (runnableSlots t).length ≤ nproc := by
    refine (List.length_filter_le ..).trans ?_
    rw [slots, List.length_finRange]
  obtain ⟨perm, sorted⟩ := dispatchOrder_spec few below
  refine ⟨printedQueue_eq t, perm_exchangeSort _ _, ?_⟩
  rw [← exchangeSort_ordered_iff (fun _ _ => lt_asymm) (runnableSlots_sorted t)]
  constructor
  · intro eq
    rw [queueSlots] at eq
    rw [eq]
    exact sorted
  · intro ordered
    exact ((perm_exchangeSort _ _).trans perm.symm).eq_of_pairwise
      (fun _ _ _ _ => QueueBefore.antisymm) ordered sorted

end

/-- Three RUNNABLE processes with pids 1, 2 and 3 and the given priorities. -/
def threeRunnable (a b c : UInt32) : Table := fun p =>
  if p.val = 0 then { Proc.zero with state := .runnable, pid := 1, priority := a }
  else if p.val = 1 then { Proc.zero with state := .runnable, pid := 2, priority := b }
  else if p.val = 2 then { Proc.zero with state := .runnable, pid := 3, priority := c }
  else Proc.zero

theorem three_in_order :
    queueSlots (threeRunnable 1 2 2) = dispatchOrder 3 nproc (threeRunnable 1 2 2) := by
  refine (printed_in_dispatch_order_iff ?_).2.2.mpr ?_
  · decide +kernel
  · decide +kernel

/-- The tie of the first two is turned round when the third comes to the front. -/
theorem tie_printed_reversed :
    printedQueue (threeRunnable 2 2 1) = [3, 2, 1] ∧
    dispatchOrder 3 nproc (threeRunnable 2 2 1) = [2, 0, 1] := by
  decide +kernel

end Xv6
