import Mathlib.Computability.Language
import Xv6.User.Grep

/-! What a pattern of grep.c means, and that the matcher decides whether it occurs in
a text. A string is the list of its bytes before the NUL. -/

namespace Xv6.Grep
open Computability

/-! ## Patterns -/

/-- The one-character strings that `x` stands for. -/
def chars (x : UInt8) : Language UInt8 := {w | ∃ c, w = [c] ∧ (x = dot ∨ x = c)}

inductive Item where
  /-- `x` -/
  | one (x : UInt8)
  /-- `x*` -/
  | many (x : UInt8)
  deriving DecidableEq, Repr

def Item.language : Item → Language UInt8
  | .one x => chars x
  | .many x => (chars x)∗

/-- A sequence of items, which may be fixed to the start and to the end of the text. -/
structure Pattern where
  atStart : Bool
  items : List Item
  atEnd : Bool
  deriving DecidableEq, Repr

/-- The items of a pattern without its `^`, and whether it ends in `$`. A character
in front of a `*` goes with it, whatever it is. -/
def items : List UInt8 → List Item × Bool
  | [] => ([], false)
  | [x] => if x = dollar then ([], true) else ([.one x], false)
  | x :: y :: re =>
    if y = star then (.many x :: (items re).1, (items re).2)
    else (.one x :: (items (y :: re)).1, (items (y :: re)).2)

def pattern : List UInt8 → Pattern
  | [] => ⟨false, [], false⟩
  | x :: re =>
    if x = caret then ⟨true, (items re).1, (items re).2⟩
    else ⟨false, (items (x :: re)).1, (items (x :: re)).2⟩

/-- The strings that are made of one string for each item. -/
def language (is : List Item) : Language UInt8 := (is.map Item.language).prod

/-- Some string of the language stands in the text, where the pattern allows it. -/
def Pattern.Occurs (p : Pattern) (text : List UInt8) : Prop :=
  ∃ before w after, text = before ++ (w ++ after) ∧ w ∈ language p.items ∧
    (p.atStart = true → before = []) ∧ (p.atEnd = true → after = [])

/-- `^*a*.$` -/
example : pattern [94, 42, 97, 42, 46, 36] = ⟨true, [.one 42, .many 97, .one 46], true⟩ := by
  decide

/-- `$*$a` -/
example : pattern [36, 42, 36, 97] = ⟨false, [.many 36, .one 36, .one 97], false⟩ := by decide

/-! ## Languages -/

theorem mem_chars {x t : UInt8} : [t] ∈ chars x ↔ x = dot ∨ x = t := by
  constructor
  · rintro ⟨c, eq, stands⟩
    obtain ⟨rfl, _⟩ := List.cons.inj eq
    exact stands
  · intro stands
    exact ⟨t, rfl, stands⟩

theorem nil_mem_many (x : UInt8) : [] ∈ (chars x)∗ := Language.nil_mem_kstar _

/-- A string of `x*` starts with a character that `x` stands for. -/
theorem cons_mem_many {x t : UInt8} {w : List UInt8} :
    t :: w ∈ (chars x)∗ ↔ [t] ∈ chars x ∧ w ∈ (chars x)∗ := by
  rw [← Language.one_add_self_mul_kstar_eq_kstar, Language.mem_add, Language.mem_one,
    Language.mem_mul, Language.one_add_self_mul_kstar_eq_kstar]
  constructor
  · rintro (nil | ⟨_, ⟨c, rfl, stands⟩, v, many, eq⟩)
    · cases nil
    · obtain ⟨rfl, rfl⟩ := List.cons.inj eq
      exact ⟨⟨c, rfl, stands⟩, many⟩
  · rintro ⟨first, many⟩
    exact .inr ⟨[t], first, w, many, rfl⟩

/-- The text begins with a string of the language, which is all of it if the end is fixed. -/
def Begins (is : List Item) (atEnd : Bool) (text : List UInt8) : Prop :=
  ∃ w after, text = w ++ after ∧ w ∈ language is ∧ (atEnd = true → after = [])

theorem begins_nil {atEnd : Bool} {text : List UInt8} :
    Begins [] atEnd text ↔ (atEnd = true → text = []) := by
  constructor
  · rintro ⟨w, after, rfl, nil, ends⟩
    obtain rfl : w = [] := nil
    exact ends
  · intro ends
    exact ⟨[], text, rfl, rfl, ends⟩

theorem begins_cons {i : Item} {is : List Item} {atEnd : Bool} {text : List UInt8} :
    Begins (i :: is) atEnd text ↔
      ∃ v rest, text = v ++ rest ∧ v ∈ i.language ∧ Begins is atEnd rest := by
  have split (w : List UInt8) : w ∈ language (i :: is) ↔
      ∃ v ∈ i.language, ∃ u ∈ language is, v ++ u = w := by
    rw [language, List.map_cons, List.prod_cons, Language.mem_mul]
    rfl
  constructor
  · rintro ⟨w, after, rfl, mem, ends⟩
    obtain ⟨v, first, u, others, rfl⟩ := (split w).mp mem
    exact ⟨v, u ++ after, List.append_assoc v u after, first, u, after, rfl, others, ends⟩
  · rintro ⟨v, _, rfl, first, u, after, rfl, others, ends⟩
    exact ⟨v ++ u, after, (List.append_assoc v u after).symm,
      (split _).mpr ⟨v, first, u, others, rfl⟩, ends⟩

/-! ## The matcher -/

variable {here : List UInt8 → Bool}

theorem matchone_iff {x : UInt8} {text : List UInt8} :
    matchone here x text = true ↔
      ∃ v rest, text = v ++ rest ∧ v ∈ chars x ∧ here rest = true := by
  cases text with
  | nil =>
    constructor
    · intro found
      cases found
    · rintro ⟨_, rest, eq, ⟨c, rfl, _⟩, _⟩
      cases eq
  | cons t text =>
    rw [matchone, Bool.and_eq_true, Bool.or_eq_true, beq_iff_eq, beq_iff_eq, ← mem_chars]
    constructor
    · rintro ⟨first, found⟩
      exact ⟨[t], text, rfl, first, found⟩
    · rintro ⟨_, rest, eq, ⟨c, rfl, stands⟩, found⟩
      obtain ⟨rfl, rfl⟩ := List.cons.inj eq
      exact ⟨mem_chars.mpr stands, found⟩

theorem matchstar_iff {x : UInt8} {text : List UInt8} :
    matchstar here x text = true ↔
      ∃ v rest, text = v ++ rest ∧ v ∈ (chars x)∗ ∧ here rest = true := by
  induction text with
  | nil =>
    rw [matchstar]
    constructor
    · intro found
      exact ⟨[], [], rfl, nil_mem_many x, found⟩
    · rintro ⟨v, rest, eq, _, found⟩
      obtain ⟨rfl, rfl⟩ := List.append_eq_nil_iff.mp eq.symm
      exact found
  | cons t text ih =>
    have stands : (t == x || x == dot) = true ↔ [t] ∈ chars x := by
      rw [mem_chars, Bool.or_eq_true, beq_iff_eq, beq_iff_eq, or_comm, eq_comm (a := t)]
    rw [matchstar, Bool.or_eq_true, Bool.and_eq_true, stands, ih]
    constructor
    · rintro (found | ⟨first, v, rest, rfl, many, found⟩)
      · exact ⟨[], t :: text, rfl, nil_mem_many x, found⟩
      · exact ⟨t :: v, rest, rfl, cons_mem_many.mpr ⟨first, many⟩, found⟩
    · rintro ⟨v, rest, eq, many, found⟩
      cases v with
      | nil =>
        obtain rfl : t :: text = rest := eq
        exact .inl found
      | cons c v =>
        obtain ⟨rfl, rfl⟩ := List.cons.inj eq
        obtain ⟨first, many⟩ := cons_mem_many.mp many
        exact .inr ⟨first, v, rest, rfl, many, found⟩

theorem matchhere_iff (re text : List UInt8) :
    matchhere re text = true ↔ Begins (items re).1 (items re).2 text := by
  -- the recursion of matchhere() is on the pattern, two characters of which go at a star
  induction re using items.induct generalizing text with
  | case1 =>
    rw [matchhere, items, begins_nil]
    exact iff_of_true rfl fun ends => absurd ends Bool.false_ne_true
  | case2 =>
    rw [matchhere, items, if_pos rfl, if_pos rfl, begins_nil, List.isEmpty_iff]
    exact ⟨fun empty _ => empty, fun ends => ends rfl⟩
  | case3 x other =>
    rw [matchhere, items, if_neg other, if_neg other, begins_cons, matchone_iff]
    simp only [matchhere, begins_nil, Bool.false_eq_true, false_imp_iff]
    rfl
  | case4 x re ih =>
    rw [matchhere, items, if_pos rfl, if_pos rfl, begins_cons, matchstar_iff]
    simp only [ih]
    rfl
  | case5 x y re other ih =>
    rw [matchhere, items, if_neg other, if_neg other, begins_cons, matchone_iff]
    simp only [ih]
    rfl

theorem matchsome_iff {re text : List UInt8} :
    matchsome re text = true ↔ ∃ before rest, text = before ++ rest ∧ matchhere re rest = true := by
  induction text with
  | nil =>
    rw [matchsome]
    constructor
    · intro found
      exact ⟨[], [], rfl, found⟩
    · rintro ⟨before, rest, eq, found⟩
      obtain ⟨rfl, rfl⟩ := List.append_eq_nil_iff.mp eq.symm
      exact found
  | cons t text ih =>
    rw [matchsome, Bool.or_eq_true, ih]
    constructor
    · rintro (found | ⟨before, rest, rfl, found⟩)
      · exact ⟨[], t :: text, rfl, found⟩
      · exact ⟨t :: before, rest, rfl, found⟩
    · rintro ⟨before, rest, eq, found⟩
      cases before with
      | nil =>
        obtain rfl : t :: text = rest := eq
        exact .inl found
      | cons c before =>
        obtain ⟨rfl, rfl⟩ := List.cons.inj eq
        exact .inr ⟨before, rest, rfl, found⟩

/-- A pattern that is fixed to the start occurs if the text begins with it. -/
theorem occurs_atStart {is : List Item} {atEnd : Bool} {text : List UInt8} :
    Pattern.Occurs ⟨true, is, atEnd⟩ text ↔ Begins is atEnd text := by
  constructor
  · rintro ⟨before, w, after, rfl, mem, starts, ends⟩
    rw [starts rfl]
    exact ⟨w, after, rfl, mem, ends⟩
  · rintro ⟨w, after, rfl, mem, ends⟩
    exact ⟨[], w, after, rfl, mem, fun _ => rfl, ends⟩

theorem occurs_anywhere {is : List Item} {atEnd : Bool} {text : List UInt8} :
    Pattern.Occurs ⟨false, is, atEnd⟩ text ↔
      ∃ before rest, text = before ++ rest ∧ Begins is atEnd rest := by
  constructor
  · rintro ⟨before, w, after, rfl, mem, _, ends⟩
    exact ⟨before, w ++ after, rfl, w, after, rfl, mem, ends⟩
  · rintro ⟨before, _, rfl, w, after, rfl, mem, ends⟩
    exact ⟨before, w, after, rfl, mem, fun starts => absurd starts Bool.false_ne_true, ends⟩

/-- match() returns 1 exactly if the pattern occurs in the text. -/
theorem match_iff_occurs (re text : List UInt8) :
    isMatch re text = true ↔ (pattern re).Occurs text := by
  cases re with
  | nil =>
    rw [isMatch, pattern, occurs_anywhere, matchsome_iff]
    simp only [matchhere_iff, items]
  | cons x re =>
    rw [isMatch, pattern]
    by_cases start : x = caret
    · rw [if_pos start, if_pos start, occurs_atStart, matchhere_iff]
    · rw [if_neg start, if_neg start, occurs_anywhere, matchsome_iff]
      simp only [matchhere_iff]

end Xv6.Grep
