import Mathlib.Data.List.Nodup
import Mathlib.Data.List.Perm.Basic

/-! Finite maps kept in a table of slots. An entry has a key, or it is a hole;
new entries go to holes or to the end. -/

namespace Xv6.Lib.SlotTable
variable {E K : Type} {key : E → Option K} {t : List E} {e x : E} {k k₀ : K} {i : Nat}

/-- No two entries have the same key. -/
def Distinct (key : E → Option K) (t : List E) : Prop := (t.filterMap key).Nodup

/-- The table with slot `i` written; `i` may be the end of the table. -/
def put (t : List E) (i : Nat) (e : E) : List E := t.take i ++ e :: t.drop (i + 1)

/-- The table around slot `i`. -/
theorem eq_put (h : t[i]? = some x) : t = put t i x := by
  have lt := (List.getElem?_eq_some_iff.mp h).1
  have eq := (List.getElem?_eq_some_iff.mp h).2
  rw [put, ← eq, List.getElem_cons_drop, List.take_append_drop]

/-- The entry where a search ends. -/
theorem getElem?_findIdx (t : List E) (p : E → Bool) : t[t.findIdx p]? = t.find? p := by
  induction t with
  | nil => rfl
  | cons e t ih =>
    rw [List.findIdx_cons, List.find?_cons]
    cases p e with
    | true => rfl
    | false => exact ih

section
variable [DecidableEq K]

instance (t : List E) : Decidable (Distinct key t) := inferInstanceAs (Decidable (List.Nodup _))

/-- The entry with a key. -/
def lookup (key : E → Option K) (t : List E) (k : K) : Option E :=
  t.find? fun e => key e = some k

theorem lookup_append (key : E → Option K) (s t : List E) (k : K) :
    lookup key (s ++ t) k = (lookup key s k).or (lookup key t k) := List.find?_append

theorem lookup_cons (key : E → Option K) (e : E) (t : List E) (k : K) :
    lookup key (e :: t) k = if key e = some k then some e else lookup key t k := by
  rw [lookup, List.find?_cons]
  split <;> simp_all [lookup]

theorem lookup_eq_none_iff : lookup key t k = none ↔ k ∉ t.filterMap key := by
  simp [lookup, List.mem_filterMap]

theorem key_of_lookup (h : lookup key t k = some e) : key e = some k := by
  have found := List.find?_some h
  exact of_decide_eq_true found

theorem lookup_put (t : List E) (i : Nat) (e : E) (k : K) :
    lookup key (put t i e) k = (lookup key (t.take i) k).or
      (if key e = some k then some e else lookup key (t.drop (i + 1)) k) := by
  rw [put, lookup_append, lookup_cons]

/-- A slot that can be written without losing an entry. -/
def Free (key : E → Option K) (t : List E) (i : Nat) : Prop :=
  i = t.length ∨ ∃ x, t[i]? = some x ∧ key x = none

/-- Looking past a slot that has no key of its own. -/
theorem Free.lookup (free : Free key t i) (k : K) :
    lookup key t k = (SlotTable.lookup key (t.take i) k).or (SlotTable.lookup key (t.drop (i + 1)) k) := by
  obtain rfl | ⟨x, there, hole⟩ := free
  · rw [List.take_length, List.drop_eq_nil_of_le (Nat.le_succ _)]
    simp [SlotTable.lookup]
  · conv_lhs => rw [eq_put there, lookup_put, hole]
    simp

theorem lookup_put_free (free : Free key t i) (named : key e = some k₀)
    (fresh : lookup key t k₀ = none) (k : K) :
    lookup key (put t i e) k = if k = k₀ then some e else lookup key t k := by
  rw [lookup_put, named]
  rw [free.lookup, Option.or_eq_none_iff] at fresh
  by_cases here : k = k₀
  · subst here
    simp [fresh.1]
  · have other : ¬ some k₀ = some k := fun eq => here (Option.some.inj eq).symm
    rw [if_neg other, if_neg here, free.lookup]

omit [DecidableEq K] in
theorem keys_put (t : List E) (i : Nat) (e : E) :
    (put t i e).filterMap key =
      (t.take i).filterMap key ++ ((key e).toList ++ (t.drop (i + 1)).filterMap key) := by
  rw [put, List.filterMap_append, List.filterMap_cons]
  cases key e <;> rfl

omit [DecidableEq K] in
theorem Free.keys (free : Free key t i) :
    t.filterMap key = (t.take i).filterMap key ++ (t.drop (i + 1)).filterMap key := by
  obtain rfl | ⟨x, there, hole⟩ := free
  · rw [List.take_length, List.drop_eq_nil_of_le (Nat.le_succ _)]
    simp
  · conv_lhs => rw [eq_put there, keys_put, hole]
    simp

theorem distinct_put_free (distinct : Distinct key t) (free : Free key t i)
    (named : key e = some k₀) (fresh : lookup key t k₀ = none) : Distinct key (put t i e) := by
  have absent := lookup_eq_none_iff.mp fresh
  unfold Distinct at distinct ⊢
  rw [free.keys] at distinct absent
  rw [keys_put, named]
  exact List.nodup_middle.mpr (List.nodup_cons.mpr ⟨absent, distinct⟩)

/-- Making the slot of an entry a hole removes its key and nothing else. -/
theorem lookup_put_hole (distinct : Distinct key t) (there : t[i]? = some x)
    (named : key x = some k₀) (hole : key e = none) (k : K) :
    lookup key (put t i e) k = if k = k₀ then none else lookup key t k := by
  have old : lookup key t k = (lookup key (t.take i) k).or
      (if key x = some k then some x else lookup key (t.drop (i + 1)) k) := by
    conv_lhs => rw [eq_put there, lookup_put]
  rw [lookup_put, old, hole, named]
  unfold Distinct at distinct
  rw [eq_put there, keys_put, named] at distinct
  have absent := (List.nodup_cons.mp (List.nodup_middle.mp distinct)).1
  by_cases here : k = k₀
  · subst here
    rw [List.mem_append, not_or] at absent
    have before : lookup key (t.take i) k = none := lookup_eq_none_iff.mpr absent.1
    have after : lookup key (t.drop (i + 1)) k = none := lookup_eq_none_iff.mpr absent.2
    simp [before, after]
  · have other : ¬ some k₀ = some k := fun eq => here (Option.some.inj eq).symm
    simp [here, other]

omit [DecidableEq K] in
theorem distinct_put_hole (distinct : Distinct key t) (there : t[i]? = some x)
    (hole : key e = none) : Distinct key (put t i e) := by
  unfold Distinct at distinct ⊢
  rw [eq_put there, keys_put] at distinct
  rw [keys_put, hole]
  refine distinct.sublist ((List.Sublist.refl _).append ?_)
  exact List.sublist_append_right _ _

end

end Xv6.Lib.SlotTable
