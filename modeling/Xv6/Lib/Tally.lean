import Mathlib.Algebra.BigOperators.Group.Finset.Basic
import Mathlib.Algebra.Order.BigOperators.Group.Finset
import Mathlib.Algebra.BigOperators.Ring.Finset

/-! A sum over the members of a finite family, as members change. -/

namespace Xv6.Lib
open Finset
variable {ι α : Type} [Fintype ι]

def tally (w : ι → α → Nat) (f : ι → α) : Nat := ∑ i, w i (f i)

/-- Sums that agree but for one member differ by what that member counts for. -/
theorem tally_change [DecidableEq ι] {w v : ι → α → Nat} {f g : ι → α} (i : ι)
    (others : ∀ j, j ≠ i → w j (f j) = v j (g j)) :
    tally w f + v i (g i) = tally v g + w i (f i) := by
  have rest : ∑ j ∈ univ.erase i, w j (f j) = ∑ j ∈ univ.erase i, v j (g j) := by
    apply sum_congr rfl
    intro j hj
    exact others j (ne_of_mem_erase hj)
  unfold tally
  rw [← add_sum_erase univ _ (mem_univ i), ← add_sum_erase univ (fun j => v j (g j)) (mem_univ i),
    rest]
  omega

theorem tally_update [DecidableEq ι] (w : ι → α → Nat) (f : ι → α) (i : ι) (v : α) :
    tally w (Function.update f i v) + w i (f i) = tally w f + w i v := by
  have change := tally_change (w := w) (v := w) (f := Function.update f i v) (g := f) i fun j h => by
    rw [Function.update_of_ne h]
  rwa [Function.update_self] at change

theorem tally_congr {w v : ι → α → Nat} {f g : ι → α} (h : ∀ i, w i (f i) = v i (g i)) :
    tally w f = tally v g := sum_congr rfl fun i _ => h i

theorem tally_le {w v : ι → α → Nat} {f g : ι → α} (h : ∀ i, w i (f i) ≤ v i (g i)) :
    tally w f ≤ tally v g := sum_le_sum fun i _ => h i

theorem le_tally (w : ι → α → Nat) (f : ι → α) (i : ι) : w i (f i) ≤ tally w f :=
  single_le_sum (f := fun i => w i (f i)) (fun _ _ => Nat.zero_le _) (mem_univ i)

theorem tally_mul (c : Nat) (w : ι → α → Nat) (f : ι → α) :
    tally (fun i a => c * w i a) f = c * tally w f := (mul_sum univ _ c).symm

theorem tally_eq_zero {w : ι → α → Nat} {f : ι → α} :
    tally w f = 0 ↔ ∀ i, w i (f i) = 0 := by
  simp [tally]

end Xv6.Lib
