import Mathlib.Data.List.Basic

/-! A linear scan that keeps the best candidate so far: the pair holds the
candidate and a bound, and an element replaces both when its key is strictly
below the bound. -/

namespace Xv6.Lib
variable {α κ : Type} [LT κ] [DecidableLT κ]

def scanStep (sel : α → Bool) (key : α → κ) (acc : Option α × κ) (a : α) : Option α × κ :=
  if sel a then if key a < acc.2 then (some a, key a) else acc else acc

def scan (sel : α → Bool) (key : α → κ) (acc : Option α × κ) (l : List α) : Option α × κ :=
  l.foldl (scanStep sel key) acc

theorem scan_congr {sel sel' : α → Bool} {key key' : α → κ} (l : List α)
    (sels : ∀ a, sel' a = sel a) (keys : ∀ a, sel a = true → key' a = key a)
    (acc : Option α × κ) : scan sel' key' acc l = scan sel key acc l := by
  have step (acc : Option α × κ) (a : α) : scanStep sel' key' acc a = scanStep sel key acc a := by
    unfold scanStep
    rw [sels]
    split
    · rw [keys a ‹_›]
    · rfl
  simp only [scan, funext₂ step]

variable [LE κ] [Std.IsLinearOrder κ] [Std.LawfulOrderLT κ]

/-- `a` is the first of the selected elements with the smallest key. -/
structure FirstMin (sel : α → Bool) (key : α → κ) (before : α → α → Prop) (l : List α) (a : α) :
    Prop where
  mem : a ∈ l
  selected : sel a = true
  least : ∀ b ∈ l, sel b = true → key a ≤ key b
  first : ∀ b ∈ l, sel b = true → key b ≤ key a → b = a ∨ before a b

/-- Nothing beats the bound, and the scan leaves the accumulator alone. -/
theorem scan_unbeaten {sel : α → Bool} {key : α → κ} {acc : Option α × κ} {l : List α}
    (h : ∀ b ∈ l, sel b = true → acc.2 ≤ key b) : scan sel key acc l = acc := by
  induction l with
  | nil => rfl
  | cons a l ih =>
    have here : scanStep sel key acc a = acc := by
      unfold scanStep
      split
      · rename_i hs
        have := h a (by simp) hs
        rw [if_neg (by grind)]
      · rfl
    rw [scan, List.foldl_cons, here]
    exact ih (fun b hb => h b (by simp [hb]))

/-- Something beats the bound, and the scan ends on the first of the smallest. -/
theorem scan_beaten {sel : α → Bool} {key : α → κ} {before : α → α → Prop} {acc : Option α × κ}
    {l : List α} (sorted : l.Pairwise before)
    (h : ∃ b ∈ l, sel b = true ∧ key b < acc.2) :
    ∃ a, scan sel key acc l = (some a, key a) ∧ key a < acc.2 ∧ FirstMin sel key before l a := by
  induction l generalizing acc with
  | nil => obtain ⟨b, hb, _⟩ := h; cases hb
  | cons x l ih =>
    obtain ⟨hx, sorted⟩ := List.pairwise_cons.mp sorted
    by_cases beats : sel x = true ∧ key x < acc.2
    · have here : scanStep sel key acc x = (some x, key x) := by
        simp [scanStep, beats.1, beats.2]
      by_cases later : ∃ b ∈ l, sel b = true ∧ key b < key x
      · obtain ⟨a, ha, hlt, hmin⟩ : ∃ a, scan sel key (some x, key x) l = (some a, key a) ∧
            key a < key x ∧ FirstMin sel key before l a := ih sorted later
        refine ⟨a, by rw [scan, List.foldl_cons, here]; exact ha, by grind, ?_⟩
        exact ⟨List.mem_cons_of_mem _ hmin.mem, hmin.selected, by grind [hmin.least],
          by grind [hmin.first]⟩
      · have rest : scan sel key (some x, key x) l = (some x, key x) :=
          scan_unbeaten (by grind)
        refine ⟨x, by rw [scan, List.foldl_cons, here]; exact rest, beats.2, ?_⟩
        exact ⟨by simp, beats.1, by grind, by grind⟩
    · have here : scanStep sel key acc x = acc := by
        unfold scanStep
        grind
      have later : ∃ b ∈ l, sel b = true ∧ key b < acc.2 := by grind
      obtain ⟨a, ha, hlt, hmin⟩ := ih sorted later
      refine ⟨a, by rw [scan, List.foldl_cons, here]; exact ha, hlt, ?_⟩
      exact ⟨List.mem_cons_of_mem _ hmin.mem, hmin.selected, by grind [hmin.least],
        by grind [hmin.first]⟩

omit [LE κ] [LT κ] [DecidableLT κ] [Std.IsLinearOrder κ] [Std.LawfulOrderLT κ] in
/-- The first hit in a sorted list comes before every other. -/
theorem find?_first {sel : α → Bool} {before : α → α → Prop} {l : List α} {a : α}
    (sorted : l.Pairwise before) (h : l.find? sel = some a) :
    ∀ b ∈ l, sel b = true → b = a ∨ before a b := by
  obtain ⟨_, xs, ys, rfl, misses⟩ := List.find?_eq_some_iff_append.mp h
  intro b mem hit
  rw [List.pairwise_append, List.pairwise_cons] at sorted
  obtain passed | rfl | ahead : b ∈ xs ∨ b = a ∨ b ∈ ys := by simpa using mem
  · exact absurd hit (by simpa using misses b passed)
  · exact .inl rfl
  · exact .inr (sorted.2.1.1 b ahead)

end Xv6.Lib
