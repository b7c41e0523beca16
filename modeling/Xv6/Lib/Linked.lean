import Mathlib.Data.List.Basic
import Mathlib.Data.List.Nodup
import Mathlib.Logic.Function.Basic

/-! Circular doubly linked lists. A node is an element, or `none` for the head
of the list, which holds no element. -/

namespace Xv6.Lib.Linked
variable {α : Type}

/-- Following the links from `a` leads through the elements of the list and then
to `b`. -/
def Path (f : Option α → Option α) : Option α → List α → Option α → Prop
  | a, [], b => f a = b
  | a, x :: xs, b => f a = some x ∧ Path f (some x) xs b

/-- The last node of a path from `a`. -/
def lastNode (a : Option α) (l : List α) : Option α := l.getLast?.or a

theorem lastNode_cons (a : Option α) (x : α) (l : List α) :
    lastNode a (x :: l) = lastNode (some x) l := by
  rw [lastNode, lastNode, List.getLast?_cons]
  cases l.getLast? with
  | none => rfl
  | some y => rfl

theorem lastNode_mem (a : Option α) (l : List α) : lastNode a l ∈ a :: l.map some := by
  induction l generalizing a with
  | nil => simp [lastNode]
  | cons x l ih =>
    rw [lastNode_cons]
    exact List.mem_cons_of_mem _ (ih (some x))

namespace Path
variable {f g : Option α → Option α} {a b : Option α} {l : List α}

theorem first (h : Path f a l none) : f a = l.head? := by
  cases l with
  | nil => exact h
  | cons x l => exact h.1

theorem congr (h : Path f a l b) (same : ∀ y ∈ a :: l.map some, g y = f y) : Path g a l b := by
  induction l generalizing a with
  | nil => exact (same a (List.mem_cons_self ..)).trans h
  | cons x l ih =>
    refine ⟨(same a (List.mem_cons_self ..)).trans h.1, ih h.2 ?_⟩
    intro y hy
    exact same y (List.mem_cons_of_mem _ hy)

theorem split {x : α} {l' : List α} (h : Path f a (l ++ x :: l') b) :
    Path f a l (some x) ∧ Path f (some x) l' b := by
  induction l generalizing a with
  | nil => exact h
  | cons y l ih =>
    obtain ⟨first, rest⟩ := ih h.2
    exact ⟨⟨h.1, first⟩, rest⟩

variable [DecidableEq α]

/-- The node before `x` is linked to the one behind it. -/
theorem unlink {x : α} {l' : List α} (h : Path f a (l ++ x :: l') b)
    (nodup : (a :: (l ++ x :: l').map some).Nodup) :
    Path (Function.update f (lastNode a l) (f (some x))) a (l ++ l') b := by
  induction l generalizing a with
  | nil =>
    obtain ⟨_, rest⟩ := h
    simp only [List.nil_append, List.map_cons, List.nodup_cons, List.mem_cons, not_or] at nodup
    change Path (Function.update f a (f (some x))) a l' b
    cases l' with
    | nil => exact (Function.update_self ..).trans rest
    | cons y l' =>
      refine ⟨(Function.update_self ..).trans rest.1, rest.2.congr ?_⟩
      intro z hz
      apply Function.update_of_ne
      rintro rfl
      exact nodup.1.2 hz
  | cons y l ih =>
    rw [lastNode_cons]
    obtain ⟨apart, rest⟩ := List.nodup_cons.mp nodup
    refine ⟨(Function.update_of_ne ?_ ..).trans h.1, ih h.2 rest⟩
    intro eq
    apply apart
    have mem := lastNode_mem (some y) l
    rw [← eq] at mem
    simp only [List.cons_append, List.map_cons, List.map_append, List.mem_cons, List.mem_append] at mem ⊢
    tauto

/-- A new element at the end. -/
theorem snoc {x : α} (h : Path f a l b) (nodup : (a :: (l ++ [x]).map some).Nodup) :
    Path (Function.update (Function.update f (some x) b) (lastNode a l) (some x)) a (l ++ [x]) b := by
  induction l generalizing a with
  | nil =>
    refine ⟨Function.update_self .., ?_⟩
    have other : some x ≠ a := by
      rintro rfl
      simp at nodup
    exact (Function.update_of_ne other ..).trans (Function.update_self ..)
  | cons y l ih =>
    rw [lastNode_cons]
    obtain ⟨apart, rest⟩ := List.nodup_cons.mp nodup
    refine ⟨?_, ih h.2 rest⟩
    rw [Function.update_of_ne, Function.update_of_ne]
    · exact h.1
    · rintro rfl
      simp at apart
    · intro eq
      apply apart
      have mem := lastNode_mem (some y) l
      rw [← eq] at mem
      simp only [List.cons_append, List.map_cons, List.map_append, List.mem_cons,
        List.mem_append] at mem ⊢
      tauto

/-- A new element in front. -/
theorem cons {x : α} (h : Path f a l b) (fresh : some x ≠ a) (fresh' : x ∉ l)
    (apart : ∀ y ∈ l, some y ≠ a) :
    Path (Function.update (Function.update f (some x) (f a)) a (some x)) a (x :: l) b := by
  refine ⟨Function.update_self .., ?_⟩
  cases l with
  | nil =>
    refine (Function.update_of_ne fresh ..).trans ?_
    exact (Function.update_self ..).trans h
  | cons y l =>
    refine ⟨?_, h.2.congr ?_⟩
    · rw [Function.update_of_ne fresh, Function.update_self]
      exact h.1
    · intro z hz
      obtain ⟨w, hw, rfl⟩ := List.mem_map.mp (show z ∈ (y :: l).map some from hz)
      have other : w ≠ x := by
        rintro rfl
        exact fresh' hw
      rw [Function.update_of_ne (apart w hw), Function.update_of_ne (by simpa using other)]

end Path

/-! ## Rings -/

/-- The links go through the elements of the list and back. -/
structure Ring (next prev : Option α → Option α) (l : List α) : Prop where
  nodup : l.Nodup
  forward : Path next none l none
  backward : Path prev none l.reverse none

theorem nodup_nodes {l : List α} (h : l.Nodup) : (none :: l.map some).Nodup := by
  rw [List.nodup_cons]
  exact ⟨by simp, h.map fun _ _ eq => Option.some.inj eq⟩

theorem lastNode_none (l : List α) : lastNode none l = l.getLast? := by
  simp [lastNode]

namespace Ring
variable {next prev : Option α → Option α} {l : List α}

theorem prev_eq {x : α} {l₁ l₂ : List α} (ring : Ring next prev (l₁ ++ x :: l₂)) :
    prev (some x) = l₁.getLast? := by
  have reversed : (l₁ ++ x :: l₂).reverse = l₂.reverse ++ x :: l₁.reverse := by simp
  have back := ring.backward
  rw [reversed] at back
  rw [back.split.2.first, List.head?_reverse]

theorem next_eq {x : α} {l₁ l₂ : List α} (ring : Ring next prev (l₁ ++ x :: l₂)) :
    next (some x) = l₂.head? :=
  ring.forward.split.2.first

variable [DecidableEq α]

/-- The element is taken out. -/
theorem unlink {x : α} {l₁ l₂ : List α} (ring : Ring next prev (l₁ ++ x :: l₂)) :
    Ring (Function.update next (prev (some x)) (next (some x)))
      (Function.update prev (next (some x)) (prev (some x))) (l₁ ++ l₂) := by
  refine ⟨?_, ?_, ?_⟩
  · exact ring.nodup.sublist ((List.sublist_cons_self x l₂).append_left l₁)
  · have path := ring.forward.unlink (nodup_nodes ring.nodup)
    rwa [lastNode_none, ← ring.prev_eq] at path
  · have reversed : (l₁ ++ x :: l₂).reverse = l₂.reverse ++ x :: l₁.reverse := by simp
    have back := ring.backward
    rw [reversed] at back
    have path := back.unlink (nodup_nodes (reversed ▸ List.nodup_reverse.mpr ring.nodup))
    rw [lastNode_none, List.getLast?_reverse, ← ring.next_eq] at path
    rwa [List.reverse_append]

/-- A new element is linked in behind the head. -/
theorem insert {x : α} (ring : Ring next prev l) (fresh : x ∉ l) :
    Ring (Function.update (Function.update next (some x) (next none)) none (some x))
      (Function.update (Function.update prev (some x) none) (next none) (some x)) (x :: l) := by
  refine ⟨List.nodup_cons.mpr ⟨fresh, ring.nodup⟩, ?_, ?_⟩
  · exact ring.forward.cons (by simp) fresh (by simp)
  · have nodup : (l.reverse ++ [x]).Nodup := by
      have := List.nodup_reverse.mpr (List.nodup_cons.mpr ⟨fresh, ring.nodup⟩)
      rwa [List.reverse_cons] at this
    have path := ring.backward.snoc (nodup_nodes nodup)
    rw [lastNode_none, List.getLast?_reverse, ← ring.forward.first] at path
    rwa [List.reverse_cons]

end Ring

/-! ## Loops over the links -/

/-- `for(b = start; b != head; b = f(b)) if(P(b)) return b`, for at most `fuel`
nodes. -/
def walk (f : Option α → Option α) (P : α → Bool) : Nat → Option α → Option α
  | 0, _ => none
  | _ + 1, none => none
  | fuel + 1, some x => if P x then some x else walk f P fuel (f (some x))

theorem walk_eq_find? {f : Option α → Option α} {P : α → Bool} {a : Option α} {l : List α}
    {fuel : Nat} (path : Path f a l none) (enough : l.length < fuel) :
    walk f P fuel (f a) = l.find? P := by
  induction l generalizing a fuel with
  | nil =>
    cases fuel with
    | zero => rfl
    | succ fuel =>
      rw [show f a = none from path]
      rfl
  | cons x l ih =>
    cases fuel with
    | zero => simp at enough
    | succ fuel =>
      rw [path.1, walk, List.find?_cons]
      cases P x with
      | true => rfl
      | false => exact ih path.2 (by simpa using enough)

end Xv6.Lib.Linked
