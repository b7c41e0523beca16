import Xv6.Proc.Progress
import Mathlib.Tactic.Ring

/-! The guaranteed scheduling of strategy 3 and of the first queue of strategy
4. The scan compares run time divided by age in truncating arithmetic and takes
the first slot with the smallest quotient; here that is set against the exact
fractions. -/

namespace Xv6
open Kernel Lib

/-- The slots the guaranteed scan of the strategy looks at. -/
def Candidate (strategy : Nat) (p : Proc) : Prop :=
  p.state = .runnable ∧ (strategy = 4 → p.queuelevel = 3)

def Proc.age (p : Proc) (ticks : UInt32) : UInt32 := ticks - p.ctime

/-- `p` has run for no larger a fraction of its age than `q`, cross-multiplied. -/
def NoLargerShare (ticks : UInt32) (p q : Proc) : Prop :=
  p.rtime.toNat * (q.age ticks).toNat ≤ q.rtime.toNat * (p.age ticks).toNat

/-- `a` is the candidate the scan ends on: first among the smallest quotients. -/
structure Leads (strategy : Nat) (ticks : UInt32) (t : Table) (a : Slot) : Prop where
  candidate : Candidate strategy (t a)
  least : ∀ b, Candidate strategy (t b) → (t a).share ticks ≤ (t b).share ticks
  first : ∀ b, Candidate strategy (t b) → (t b).share ticks = (t a).share ticks → a ≤ b

/-- The slot in front has no larger a share than those whose quotient is the same. -/
def TiesFair (strategy : Nat) (ticks : UInt32) (t : Table) : Prop :=
  ∀ a, Leads strategy ticks t a → ∀ b, Candidate strategy (t b) →
    (t b).share ticks = (t a).share ticks → NoLargerShare ticks (t a) (t b)

theorem leads_unique {strategy : Nat} {ticks : UInt32} {t : Table} {a b : Slot}
    (ha : Leads strategy ticks t a) (hb : Leads strategy ticks t b) : a = b := by
  have eq : (t a).share ticks = (t b).share ticks := by
    have := ha.least b hb.candidate
    have := hb.least a ha.candidate
    grind
  exact le_antisymm (ha.first b hb.candidate eq.symm) (hb.first a ha.candidate eq)

/-- A smaller quotient is a smaller fraction; only equal quotients lose the order. -/
theorem mul_le_of_div_lt {r a r' a' : Nat} (pos : 0 < a) (h : r / a < r' / a') :
    r * a' ≤ r' * a := by
  calc r * a' ≤ (r' / a' * a) * a' := Nat.mul_le_mul_right _ (Nat.lt_mul_of_div_lt h pos).le
    _ = (r' / a' * a') * a := by ring
    _ ≤ r' * a := Nat.mul_le_mul_right _ (Nat.div_mul_le_self _ _)

theorem noLargerShare_of_lt {ticks : UInt32} {p q : Proc} (hp : p.age ticks ≠ 0)
    (hq : q.age ticks ≠ 0) (h : p.share ticks < q.share ticks) : NoLargerShare ticks p q := by
  have pos : 0 < (p.age ticks).toNat :=
    Nat.pos_of_ne_zero fun zero => hp (UInt32.toNat_inj.mp zero)
  refine mul_le_of_div_lt pos ?_
  unfold Proc.age at *
  simpa [Proc.share, hp, hq, UInt32.lt_iff_toNat_lt] using h

theorem candidate_three (p : Proc) : p.isRunnable = true ↔ Candidate 3 p := by
  simp [isRunnable_iff, Candidate]

theorem candidate_four (p : Proc) : p.onLevel 3 = true ↔ Candidate 4 p := by
  simp [onLevel_iff, Candidate]

theorem leads_of_firstMin {strategy : Nat} {sel : Proc → Bool}
    (selects : ∀ p, sel p = true ↔ Candidate strategy p) {ticks : UInt32} {t : Table} {p : Slot}
    (h : FirstMin (fun p => sel (t p)) (fun p => (t p).share ticks) (· < ·) slots p) :
    Leads strategy ticks t p := by
  refine ⟨(selects _).mp h.selected, ?_, ?_⟩
  · intro b candidate
    exact h.least b (mem_slots b) ((selects _).mpr candidate)
  · intro b candidate eq
    obtain rfl | after := h.first b (mem_slots b) ((selects _).mpr candidate) (by grind)
    · exact le_rfl
    · exact after.le

theorem leads_of_dispatched {strategy : Nat} (guaranteed : strategy = 3 ∨ strategy = 4)
    {ticks : UInt32} {t : Table} {proc : Option Slot} {p : Slot}
    (dispatched : (schedule strategy ticks t proc).dispatched = some p)
    (candidate : Candidate strategy (t p)) : Leads strategy ticks t p := by
  obtain rfl | rfl := guaranteed
  · obtain ⟨_, eq⟩ | ⟨q, _, least, eq⟩ := guaranteedPass_cases ticks t proc
    · simp [schedule, eq, Outcome.dispatched] at dispatched
    · obtain rfl : q = p := by simpa [schedule, eq, Outcome.dispatched] using dispatched
      exact leads_of_firstMin candidate_three least
  · obtain ⟨q, _, least, eq⟩ | ⟨_, ⟨q, _, least, eq⟩ | ⟨_, eq⟩⟩ := multiLevelPass_cases ticks t proc
    · obtain rfl : q = p := by simpa [schedule, eq, Outcome.dispatched] using dispatched
      exact leads_of_firstMin candidate_four least
    · obtain rfl : q = p := by simpa [schedule, eq, Outcome.dispatched] using dispatched
      have := ((onLevel_iff _ _).mp least.selected).2
      simp [candidate.2 rfl] at this
    · have found : slots.find? (fun q => (t q).onLevel 1) = some p := by
        simpa [schedule, eq, rrLoop_dispatched] using dispatched
      have selected : (t p).onLevel 1 = true := by simpa using List.find?_some found
      have := ((onLevel_iff _ _).mp selected).2
      simp [candidate.2 rfl] at this

/-- The dispatched process has the smallest exact share if and only if the
candidate in front of those with the smallest quotient has. -/
theorem smallest_share_iff {strategy : Nat} (guaranteed : strategy = 3 ∨ strategy = 4)
    {ticks : UInt32} {t : Table} {proc : Option Slot} {p : Slot}
    (aged : ∀ q, Candidate strategy (t q) → (t q).age ticks ≠ 0)
    (dispatched : (schedule strategy ticks t proc).dispatched = some p)
    (candidate : Candidate strategy (t p)) :
    (∀ q, Candidate strategy (t q) → NoLargerShare ticks (t p) (t q)) ↔
      TiesFair strategy ticks t := by
  have leads := leads_of_dispatched guaranteed dispatched candidate
  constructor
  · intro smallest a ha b hb _
    obtain rfl := leads_unique ha leads
    exact smallest b hb
  · intro fair q hq
    by_cases eq : (t q).share ticks = (t p).share ticks
    · exact fair p leads q hq eq
    · have := leads.least q hq
      exact noLargerShare_of_lt (aged p candidate) (aged q hq) (by grind)

section
variable (strategy : Nat) (ticks : UInt32) (t : Table)

instance (p : Proc) : Decidable (Candidate strategy p) := inferInstanceAs (Decidable (_ ∧ _))

instance (p q : Proc) : Decidable (NoLargerShare ticks p q) := inferInstanceAs (Decidable (_ ≤ _))

end

/-- Two RUNNABLE processes as old as the clock that have run for `r` and `r'` ticks. -/
def rivals (r r' : UInt32) : Table := fun p =>
  if p.val = 0 then { Proc.zero with state := .runnable, queuelevel := 3, rtime := r }
  else if p.val = 1 then { Proc.zero with state := .runnable, queuelevel := 3, rtime := r' }
  else .zero

theorem ties_fair_in_slot_order : TiesFair 3 10 (rivals 1 5) := by
  have dispatched : (schedule 3 10 (rivals 1 5) none).dispatched = some 0 := by decide +kernel
  exact (smallest_share_iff (.inl rfl) (by decide +kernel) dispatched (by decide +kernel)).mp
    (by decide +kernel)

/-- Half of its age against a tenth: both quotients are 0, and under either
strategy the larger share in the lower slot is dispatched. -/
theorem larger_share_dispatched :
    (∀ q, (rivals 5 1 q).isRunnable = true → (rivals 5 1 q).age 10 ≠ 0) ∧
    Candidate 4 (rivals 5 1 0) ∧ Candidate 4 (rivals 5 1 1) ∧
    (schedule 3 10 (rivals 5 1) none).dispatched = some 0 ∧
    (schedule 4 10 (rivals 5 1) none).dispatched = some 0 ∧
    ¬ NoLargerShare 10 (rivals 5 1 0) (rivals 5 1 1) := by
  decide +kernel

end Xv6
