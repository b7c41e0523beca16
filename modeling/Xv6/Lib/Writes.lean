import Mathlib.Logic.Function.Basic
import Mathlib.Data.List.Nodup

/-! A disk that is written one block at a time, seen through a write-through
cache. What a program does to the disk is the list of its writes in order; a
crash keeps a part of the list from its beginning. A recovery procedure may
itself crash, any number of times, before it is run to its end. -/

namespace Xv6.Lib
variable {α β : Type} [DecidableEq α]

/-- The disk after the writes. -/
def written (d : α → β) (ws : List (α × β)) : α → β :=
  ws.foldl (fun d w => Function.update d w.1 w.2) d

@[simp] theorem written_nil (d : α → β) : written d [] = d := rfl

@[simp] theorem written_cons (d : α → β) (w : α × β) (ws : List (α × β)) :
    written d (w :: ws) = written (Function.update d w.1 w.2) ws := rfl

theorem written_append (d : α → β) (ws vs : List (α × β)) :
    written d (ws ++ vs) = written (written d ws) vs := List.foldl_append

/-- A block that is not written keeps its contents. -/
theorem written_of_not_mem {ws : List (α × β)} {a : α} (h : a ∉ ws.map Prod.fst) (d : α → β) :
    written d ws a = d a := by
  induction ws generalizing d with
  | nil => rfl
  | cons w ws ih =>
    simp only [List.map_cons, List.mem_cons, not_or] at h
    rw [written_cons, ih h.2, Function.update_of_ne h.1]

/-- A block that is written once holds what was written. -/
theorem written_of_mem {ws : List (α × β)} (nodup : (ws.map Prod.fst).Nodup) {w : α × β}
    (h : w ∈ ws) (d : α → β) : written d ws w.1 = w.2 := by
  induction ws generalizing d with
  | nil => cases h
  | cons v ws ih =>
    obtain ⟨fresh, nodup⟩ := List.nodup_cons.mp nodup
    rw [written_cons]
    obtain rfl | later := List.mem_cons.mp h
    · rw [written_of_not_mem fresh, Function.update_self]
    · exact ih nodup later _

/-! ## Programs that write through a cache -/

/-- The cached view of the disk, and the writes made so far. -/
structure Device (α β : Type) where
  cache : α → β
  writes : List (α × β)

namespace Device

/-- A write changes the cached block and reaches the disk. -/
def write (m : Device α β) (a : α) (v : β) : Device α β :=
  ⟨Function.update m.cache a v, m.writes ++ [(a, v)]⟩

/-- A loop that copies the block `src x` to `dst x` for each `x` in turn. -/
def copy {γ : Type} (dst src : γ → α) (l : List γ) (m : Device α β) : Device α β :=
  l.foldl (fun m x => m.write (dst x) (m.cache (src x))) m

/-- If nothing is copied from a block that is also copied to, the loop writes
what the blocks held before it. -/
theorem copy_eq {γ : Type} (dst src : γ → α) {l : List γ}
    (apart : ∀ x ∈ l, ∀ y ∈ l, dst x ≠ src y) (m : Device α β) :
    m.copy dst src l =
      ⟨written m.cache (l.map fun x => (dst x, m.cache (src x))),
        m.writes ++ l.map fun x => (dst x, m.cache (src x))⟩ := by
  induction l generalizing m with
  | nil => simp [copy]
  | cons x l ih =>
    have rest := ih (fun y hy z hz => apart y (by simp [hy]) z (by simp [hz]))
      (m.write (dst x) (m.cache (src x)))
    have same : (l.map fun y => (dst y, (m.write (dst x) (m.cache (src x))).cache (src y))) =
        l.map fun y => (dst y, m.cache (src y)) := by
      apply List.map_congr_left
      intro y hy
      have other : src y ≠ dst x := (apart x (by simp) y (by simp [hy])).symm
      simp [write, other]
    rw [same] at rest
    simp only [copy, List.foldl_cons] at rest ⊢
    rw [rest]
    simp [write]

/-- The same device with more writes behind it. -/
def behind (ws : List (α × β)) (m : Device α β) : Device α β := ⟨m.cache, ws ++ m.writes⟩

theorem write_behind (ws : List (α × β)) (m : Device α β) (a : α) (v : β) :
    (m.behind ws).write a v = (m.write a v).behind ws := by
  simp [write, behind]

theorem copy_behind {γ : Type} (dst src : γ → α) (l : List γ) (ws : List (α × β))
    (m : Device α β) : (m.behind ws).copy dst src l = (m.copy dst src l).behind ws := by
  induction l generalizing m with
  | nil => rfl
  | cons x l ih =>
    have rest := ih (m.write (dst x) (m.cache (src x)))
    rw [← write_behind] at rest
    exact rest

end Device

/-! ## Crashes -/

/-- The disk `d'` is left by a recovery that runs to its end, after any number
of recoveries that crashed. -/
inductive Restarted (recover : (α → β) → List (α × β)) : (α → β) → (α → β) → Prop where
  | done (d : α → β) : Restarted recover d (written d (recover d))
  | crash (d : α → β) (i : Nat) {d' : α → β} :
      Restarted recover (written d ((recover d).take i)) d' → Restarted recover d d'

/-- What a crashed recovery keeps and a complete one turns into `P` gives `P`. -/
theorem Restarted.rule {recover : (α → β) → List (α × β)} {I P : (α → β) → Prop}
    (crash : ∀ d i, I d → I (written d ((recover d).take i)))
    (done : ∀ d, I d → P (written d (recover d))) {d d' : α → β}
    (h : Restarted recover d d') (inv : I d) : P d' := by
  induction h with
  | done d => exact done d inv
  | crash d i _ ih => exact ih (crash d i inv)

end Xv6.Lib
