import Mathlib.Algebra.BigOperators.Group.Finset.Basic
import Mathlib.Algebra.BigOperators.Group.Finset.Piecewise
import Mathlib.Algebra.Order.BigOperators.Group.Finset
import Mathlib.Algebra.Order.Group.Multiset
import Mathlib.Data.Multiset.AddSub

/-! What the first `n` places of a partial map hold, each value as often as it
is held. -/

namespace Xv6.Lib
open Finset
variable {α : Type}

-- irreducible, so that no sum over many places is ever run
@[irreducible] def holdings (f : Nat → Option α) (n : Nat) : Multiset α := ∑ i ∈ range n, ((f i).toList : Multiset α)

namespace Holdings
variable {f g : Nat → Option α} {n i j : Nat} {a : α}

theorem congr (same : ∀ i, i < n → g i = f i) : holdings g n = holdings f n := by
  rw [holdings, holdings]
  apply sum_congr rfl
  intro i hi
  rw [same i (mem_range.mp hi)]

theorem mem_iff : a ∈ holdings f n ↔ ∃ i, i < n ∧ f i = some a := by
  simp [holdings, Multiset.mem_sum]

/-- Maps that differ at one place hold the same but for what is there. -/
theorem change (here : i < n) (others : ∀ j, j ≠ i → g j = f j) :
    holdings g n + ((f i).toList : Multiset α) = holdings f n + ((g i).toList : Multiset α) := by
  have rest : ∑ j ∈ (range n).erase i, ((g j).toList : Multiset α) =
      ∑ j ∈ (range n).erase i, ((f j).toList : Multiset α) := by
    apply sum_congr rfl
    intro j hj
    rw [others j (ne_of_mem_erase hj)]
  have mem := mem_range.mpr here
  unfold holdings
  rw [← add_sum_erase _ _ mem, ← add_sum_erase _ (fun j => ((f j).toList : Multiset α)) mem, rest]
  ac_rfl

theorem put (here : i < n) (empty : f i = none) :
    holdings (Function.update f i (some a)) n = a ::ₘ holdings f n := by
  have change := change (g := Function.update f i (some a)) here
    (fun j ne => Function.update_of_ne ne ..)
  rw [empty, Function.update_self] at change
  simpa [Multiset.add_comm, Multiset.singleton_add] using change

theorem take (here : i < n) (there : f i = some a) :
    holdings f n = a ::ₘ holdings (Function.update f i none) n := by
  have change := change (g := Function.update f i none) here
    (fun j ne => Function.update_of_ne ne ..)
  rw [there, Function.update_self] at change
  simpa [Multiset.add_comm, Multiset.singleton_add] using change.symm

/-- A value that is held once is held in one place. -/
theorem place_eq (nodup : (holdings f n).Nodup) (hi : i < n) (hj : j < n) (at_i : f i = some a)
    (at_j : f j = some a) : i = j := by
  by_contra ne
  rw [take hi at_i, Multiset.nodup_cons] at nodup
  apply nodup.1
  rw [mem_iff]
  exact ⟨j, hj, by rw [Function.update_of_ne (Ne.symm ne)]; exact at_j⟩

theorem none (empty : ∀ i, i < n → f i = .none) : holdings f n = 0 := by
  rw [holdings]
  apply sum_eq_zero
  intro i hi
  rw [empty i (mem_range.mp hi)]
  rfl

/-- What is held is in one of two parts. -/
theorem split {h : Nat → Option α}
    (parts : ∀ i, i < n → (g i = f i ∧ h i = .none) ∨ (g i = .none ∧ h i = f i)) :
    holdings f n = holdings g n + holdings h n := by
  rw [holdings, holdings, holdings, ← sum_add_distrib]
  apply sum_congr rfl
  intro i hi
  obtain ⟨here, empty⟩ | ⟨empty, here⟩ := parts i (mem_range.mp hi)
  · simp [here, empty]
  · simp [here, empty]

theorem eq_filterMap : holdings f n = ((List.range n).filterMap f : Multiset α) := by
  rw [holdings]
  induction n with
  | zero => rfl
  | succ n ih =>
    rw [sum_range_succ, ih, List.range_succ, List.filterMap_append, ← Multiset.coe_add]
    cases h : f n <;> simp [h]

theorem card : (holdings f n).card = ((range n).filter fun i => (f i).isSome = true).card := by
  rw [holdings, Multiset.card_sum, card_filter]
  apply sum_congr rfl
  intro i _
  cases f i <;> simp

end Holdings
end Xv6.Lib
