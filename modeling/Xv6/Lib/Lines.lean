import Mathlib.Data.List.Basic

/-! Texts made of lines, each ended by a separator. -/

namespace Xv6.Lib.Lines
variable {α : Type} {sep : α} {ls lines : List (List α)} {l r t x : List α}

/-- The text of a list of lines. -/
def join (sep : α) (ls : List (List α)) : List α := ls.flatMap (· ++ [sep])

@[simp] theorem join_nil (sep : α) : join sep [] = [] := rfl

theorem join_cons (sep : α) (l : List α) (ls : List (List α)) :
    join sep (l :: ls) = l ++ sep :: join sep ls := by
  simp [join]

theorem join_append (sep : α) (ls lines : List (List α)) :
    join sep (ls ++ lines) = join sep ls ++ join sep lines := List.flatMap_append

theorem length_le_join (sep : α) (ls : List (List α)) : ls.length ≤ (join sep ls).length := by
  induction ls with
  | nil => exact Nat.le_refl 0
  | cons l ls ih =>
    rw [join_cons, List.length_append, List.length_cons, List.length_cons]
    omega

/-- The separators say where the first line ends. -/
theorem append_sep_inj {l l' t t' : List α} (clean : sep ∉ l) (clean' : sep ∉ l')
    (h : l ++ sep :: t = l' ++ sep :: t') : l = l' ∧ t = t' := by
  induction l generalizing l' with
  | nil =>
    cases l' with
    | nil => exact ⟨rfl, (List.cons.inj h).2⟩
    | cons a l' =>
      obtain ⟨rfl, _⟩ := List.cons.inj h
      exact absurd List.mem_cons_self clean'
  | cons a l ih =>
    cases l' with
    | nil =>
      obtain ⟨rfl, _⟩ := List.cons.inj h
      exact absurd List.mem_cons_self clean
    | cons b l' =>
      obtain ⟨rfl, tail⟩ := List.cons.inj h
      obtain ⟨rfl, rest⟩ := ih (fun mem => clean (List.mem_cons_of_mem _ mem))
        (fun mem => clean' (List.mem_cons_of_mem _ mem)) tail
      exact ⟨rfl, rest⟩

/-- Lines that a text starts with are its first lines. -/
theorem join_prefix (clean : ∀ l ∈ ls, sep ∉ l) (clean' : ∀ l ∈ lines, sep ∉ l)
    (h : join sep ls ++ x = join sep lines) : ∃ rest, lines = ls ++ rest ∧ x = join sep rest := by
  induction ls generalizing lines with
  | nil => exact ⟨lines, rfl, h⟩
  | cons l ls ih =>
    rw [join_cons, List.append_assoc, List.cons_append] at h
    cases lines with
    | nil => simp at h
    | cons l' lines =>
      rw [join_cons] at h
      obtain ⟨rfl, more⟩ := append_sep_inj (clean l List.mem_cons_self)
        (clean' l' List.mem_cons_self) h
      obtain ⟨rest, rfl, tail⟩ := ih (fun l mem => clean l (List.mem_cons_of_mem _ mem))
        (fun l mem => clean' l (List.mem_cons_of_mem _ mem)) more
      exact ⟨rest, rfl, tail⟩

/-- A text without separator is no line. -/
theorem eq_nil_of_join (clean : sep ∉ join sep lines) : lines = [] := by
  cases lines with
  | nil => rfl
  | cons l lines => simp [join_cons] at clean

section
variable [DecidableEq α]

/-- The lines of a text, and what follows the last separator. -/
def split (sep : α) : List α → List (List α) × List α
  | [] => ([], [])
  | a :: t =>
    match split sep t with
    | (ls, r) =>
      if a = sep then ([] :: ls, r)
      else match ls with
        | [] => ([], a :: r)
        | l :: ls => ((a :: l) :: ls, r)

theorem split_spec (sep : α) (t : List α) :
    join sep (split sep t).1 ++ (split sep t).2 = t ∧ sep ∉ (split sep t).2 ∧
      ∀ l ∈ (split sep t).1, sep ∉ l := by
  induction t with
  | nil => simp [split]
  | cons a t ih =>
    obtain ⟨whole, rest, clean⟩ := ih
    rw [split]
    generalize split sep t = s at *
    obtain ⟨ls, r⟩ := s
    dsimp only at whole rest clean ⊢
    by_cases ends : a = sep
    · rw [if_pos ends]
      refine ⟨?_, rest, ?_⟩
      · rw [join_cons, List.nil_append, List.cons_append, whole, ends]
      · simpa using clean
    · rw [if_neg ends]
      cases ls with
      | nil =>
        refine ⟨by simpa using whole, ?_, by simp⟩
        exact List.not_mem_cons_of_ne_of_not_mem (Ne.symm ends) rest
      | cons l ls =>
        refine ⟨?_, rest, ?_⟩
        · rw [join_cons] at whole ⊢
          simpa using whole
        · intro k mem
          obtain rfl | mem := List.mem_cons.mp mem
          · exact List.not_mem_cons_of_ne_of_not_mem (Ne.symm ends) (clean l List.mem_cons_self)
          · exact clean k (List.mem_cons_of_mem _ mem)

theorem split_eq_nil_iff : (split sep t).1 = [] ↔ sep ∉ t := by
  obtain ⟨whole, rest, _⟩ := split_spec sep t
  constructor
  · intro none
    rw [none, join_nil, List.nil_append] at whole
    rwa [whole] at rest
  · intro clean
    rw [← whole, List.mem_append, not_or] at clean
    exact eq_nil_of_join clean.1

end

end Xv6.Lib.Lines
