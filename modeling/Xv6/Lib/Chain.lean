import Mathlib.Data.List.Basic

/-! Singly linked lists. A node is linked to the key of the next one, and the last
one to a given key; the list is circular if that is the key of the first. -/

namespace Xv6.Lib
variable {α β : Type} {key : β → α}

/-- The key that a link to the list goes to; `e` is behind it. -/
def firstKey (key : β → α) (e : α) : List β → α
  | [] => e
  | b :: _ => key b

/-- Each node is linked by `R` to the next one, the last one to `e`. -/
def Chain (key : β → α) (R : β → α → Prop) (e : α) : List β → Prop
  | [] => True
  | b :: l => R b (firstKey key e l) ∧ Chain key R e l

variable {R R' : β → α → Prop} {e : α} {a b : β} {l l' : List β}

theorem firstKey_append (l l' : List β) :
    firstKey key e (l ++ l') = firstKey key (firstKey key e l') l := by
  cases l with
  | nil => rfl
  | cons b l => rfl

theorem chain_append :
    Chain key R e (l ++ l') ↔ Chain key R (firstKey key e l') l ∧ Chain key R e l' := by
  induction l with
  | nil => exact (iff_of_eq (true_and _)).symm
  | cons b l ih => rw [List.cons_append, Chain, Chain, ih, firstKey_append, and_assoc]

theorem Chain.imp (h : Chain key R e l) (step : ∀ b ∈ l, ∀ a, R b a → R' b a) :
    Chain key R' e l := by
  induction l with
  | nil => trivial
  | cons b l ih =>
    exact ⟨step b List.mem_cons_self _ h.1, ih h.2 fun c mem => step c (List.mem_cons_of_mem b mem)⟩

theorem Chain.link (h : Chain key R e (l ++ b :: l')) : R b (firstKey key e l') :=
  (chain_append.mp h).2.1

/-- A circular list may be entered anywhere. -/
theorem Chain.rotate (h : Chain key R (firstKey key e (l ++ l')) (l ++ l')) :
    Chain key R (firstKey key e (l' ++ l)) (l' ++ l) := by
  cases l with
  | nil =>
    rw [List.append_nil]
    exact h
  | cons a l =>
    cases l' with
    | nil =>
      rw [List.append_nil] at h
      exact h
    | cons b l' =>
      obtain ⟨first, second⟩ := chain_append.mp h
      exact chain_append.mpr ⟨second, first⟩

end Xv6.Lib
