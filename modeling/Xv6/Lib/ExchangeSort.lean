import Mathlib.Data.List.Cycle

/-! Exchange sort: each pass compares its first place with every later one and
exchanges the two when they are out of order. The order of elements with equal
keys is not kept in general; how a pass moves them is worked out here, and with
it exactly when the sort keeps them. -/

namespace Xv6.Lib
variable {α κ : Type} [LT κ] [DecidableLT κ]

/-- One pass: `c` is what stands in the first place so far. The result is the
rest of the list and what stands in the first place in the end. -/
def exchangePass (key : α → κ) : α → List α → List α × α
  | c, [] => ([], c)
  | c, y :: ys =>
    if key y < key c then
      let r := exchangePass key y ys
      (c :: r.1, r.2)
    else
      let r := exchangePass key c ys
      (y :: r.1, r.2)

theorem length_exchangePass (key : α → κ) (c : α) (ys : List α) :
    (exchangePass key c ys).1.length = ys.length := by
  induction ys generalizing c with
  | nil => rfl
  | cons y ys ih =>
    unfold exchangePass
    split
    · simp [ih y]
    · simp [ih c]

/-- The passes; `n` is the number of places left. -/
def exchangePasses (key : α → κ) : Nat → List α → List α
  | 0, l => l
  | _ + 1, [] => []
  | n + 1, x :: ys =>
    let r := exchangePass key x ys
    r.2 :: exchangePasses key n r.1

def exchangeSort (key : α → κ) (l : List α) : List α := exchangePasses key l.length l

/-- The sort does not look at what it carries along. -/
theorem exchangePass_map {β : Type} (f : α → β) (key : β → κ) (c : α) (ys : List α) :
    exchangePass key (f c) (ys.map f) =
      ((exchangePass (fun a => key (f a)) c ys).1.map f, f (exchangePass (fun a => key (f a)) c ys).2) := by
  induction ys generalizing c with
  | nil => rfl
  | cons y ys ih =>
    rw [List.map_cons, exchangePass, exchangePass]
    split
    · simp [ih y]
    · simp [ih c]

theorem exchangePasses_map {β : Type} (f : α → β) (key : β → κ) (n : Nat) (l : List α) :
    exchangePasses key n (l.map f) = (exchangePasses (fun a => key (f a)) n l).map f := by
  induction n generalizing l with
  | zero => rfl
  | succ n ih =>
    cases l with
    | nil => rfl
    | cons x ys =>
      rw [List.map_cons, exchangePasses, exchangePasses, exchangePass_map]
      simp [ih]

theorem exchangeSort_map {β : Type} (f : α → β) (key : β → κ) (l : List α) :
    exchangeSort key (l.map f) = (exchangeSort (fun a => key (f a)) l).map f := by
  rw [exchangeSort, List.length_map, exchangePasses_map, exchangeSort]

theorem perm_exchangePass (key : α → κ) (c : α) (ys : List α) :
    ((exchangePass key c ys).2 :: (exchangePass key c ys).1).Perm (c :: ys) := by
  induction ys generalizing c with
  | nil => exact .refl _
  | cons y ys ih =>
    unfold exchangePass
    split
    · exact (List.Perm.swap ..).trans ((ih y).cons c)
    · exact (List.Perm.swap ..).trans (((ih c).cons y).trans (.swap ..))

theorem perm_exchangePasses (key : α → κ) {n : Nat} {l : List α} (len : l.length = n) :
    (exchangePasses key n l).Perm l := by
  induction n generalizing l with
  | zero => exact .refl _
  | succ n ih =>
    cases l with
    | nil => exact .refl _
    | cons x ys =>
      rw [List.length_cons, Nat.add_right_cancel_iff] at len
      have rest := ih ((length_exchangePass key x ys).trans len)
      exact (rest.cons _).trans (perm_exchangePass key x ys)

theorem perm_exchangeSort (key : α → κ) (l : List α) : (exchangeSort key l).Perm l :=
  perm_exchangePasses key rfl

variable [LE κ] [Std.IsLinearOrder κ] [Std.LawfulOrderLT κ]

/-- A pass leaves a least element in the first place. -/
theorem exchangePass_least (key : α → κ) (c : α) (ys : List α) :
    key (exchangePass key c ys).2 ≤ key c ∧
      ∀ a ∈ (exchangePass key c ys).1, key (exchangePass key c ys).2 ≤ key a := by
  induction ys generalizing c with
  | nil => exact ⟨Std.IsPreorder.le_refl _, fun a no => nomatch no⟩
  | cons y ys ih =>
    unfold exchangePass
    split
    next lt =>
      obtain ⟨first, rest⟩ := ih y
      dsimp only
      refine ⟨by grind, ?_⟩
      intro a mem
      obtain rfl | mem := List.mem_cons.mp mem
      · grind
      · exact rest a mem
    next ge =>
      obtain ⟨first, rest⟩ := ih c
      dsimp only
      refine ⟨first, ?_⟩
      intro a mem
      obtain rfl | mem := List.mem_cons.mp mem
      · grind
      · exact rest a mem

theorem sorted_exchangePasses (key : α → κ) {n : Nat} {l : List α} (len : l.length = n) :
    (exchangePasses key n l).Pairwise fun a b => key a ≤ key b := by
  induction n generalizing l with
  | zero =>
    rw [List.length_eq_zero_iff.mp len]
    exact .nil
  | succ n ih =>
    cases l with
    | nil => exact .nil
    | cons x ys =>
      rw [List.length_cons, Nat.add_right_cancel_iff] at len
      have len' := (length_exchangePass key x ys).trans len
      rw [exchangePasses]
      refine .cons ?_ (ih len')
      intro a mem
      exact (exchangePass_least key x ys).2 a ((perm_exchangePasses key len').mem_iff.mp mem)

theorem sorted_exchangeSort (key : α → κ) (l : List α) :
    (exchangeSort key l).Pairwise fun a b => key a ≤ key b := sorted_exchangePasses key rfl

/-! ## Equal keys -/

section equal
variable [DecidableEq κ]

/-- The first of a queue goes to its end. -/
def turn : List α → List α
  | [] => []
  | x :: xs => xs ++ [x]

/-- The elements with key `v`, in order. -/
def equals (key : α → κ) (v : κ) (l : List α) : List α := l.filter fun a => key a = v

/-- The order in which the elements with key `v` come out: they queue up, and
each smaller element makes the queue turn. -/
def spin (key : α → κ) (v : κ) : List α → List α → List α
  | q, [] => q
  | q, y :: ys =>
    if key y < v then spin key v (turn q) ys
    else if key y = v then spin key v (q ++ [y]) ys
    else spin key v q ys

section
variable {key : α → κ} {v : κ} {c : α} {ys : List α}

/-- A smaller element in the first place is exchanged for smaller ones only. -/
theorem spin_pass_smaller (less : key c < v) (q : List α) :
    spin key v q (exchangePass key c ys).1 = spin key v q ys := by
  induction ys generalizing c q with
  | nil => rfl
  | cons y ys ih =>
    unfold exchangePass
    split
    next lt =>
      have less' : key y < v := by grind
      dsimp only
      rw [spin, spin, if_pos less, if_pos less', ih less']
    next ge =>
      dsimp only
      rw [spin, spin, ih less, ih less, ih less]

/-- An equal element in the first place waits for the next smaller one and takes
its place, behind those that have queued up meanwhile. -/
theorem spin_pass_equal (same : key c = v) (q : List α)
    (passed : key (exchangePass key c ys).2 < v) :
    spin key v q (exchangePass key c ys).1 = spin key v (c :: q) ys := by
  induction ys generalizing q with
  | nil =>
    rw [exchangePass] at passed
    grind
  | cons y ys ih =>
    unfold exchangePass at passed ⊢
    split at passed
    next lt =>
      have less : key y < v := by grind
      have notLess : ¬ key c < v := by grind
      rw [if_pos lt]
      dsimp only
      rw [spin, spin, if_neg notLess, if_pos same, if_pos less, spin_pass_smaller less, turn]
    next ge =>
      have notLess : ¬ key y < v := by grind
      rw [if_neg ge]
      dsimp only at passed ⊢
      rw [spin, spin, if_neg notLess, if_neg notLess, ih _ passed, ih _ passed, List.cons_append]

/-- A larger element in the first place makes room for the first that is not
larger. -/
theorem spin_pass_larger (more : v < key c) (passed : key (exchangePass key c ys).2 < v) :
    spin key v [] (exchangePass key c ys).1 = spin key v [] ys := by
  induction ys generalizing c with
  | nil =>
    rw [exchangePass] at passed
    grind
  | cons y ys ih =>
    have notLess : ¬ key c < v := by grind
    have notSame : ¬ key c = v := by grind
    unfold exchangePass at passed ⊢
    split at passed
    next lt =>
      rw [if_pos lt]
      dsimp only at passed ⊢
      rw [spin, spin, if_neg notLess, if_neg notSame]
      by_cases less : key y < v
      · rw [if_pos less, spin_pass_smaller less, turn]
      rw [if_neg less]
      by_cases same : key y = v
      · rw [if_pos same, spin_pass_equal same [] passed, List.nil_append]
      · rw [if_neg same, ih (by grind) passed]
    next ge =>
      have notLess' : ¬ key y < v := by grind
      have notSame' : ¬ key y = v := by grind
      rw [if_neg ge]
      dsimp only at passed ⊢
      rw [spin, spin, if_neg notLess', if_neg notSame', if_neg notLess', if_neg notSame',
        ih more passed]

omit [LE κ] [Std.IsLinearOrder κ] [Std.LawfulOrderLT κ] in
/-- Where nothing is smaller, the queue does not turn. -/
theorem spin_of_least (least : ∀ y ∈ ys, ¬ key y < v) (q : List α) :
    spin key v q ys = q ++ equals key v ys := by
  induction ys generalizing q with
  | nil => simp [spin, equals]
  | cons y ys ih =>
    have rest := ih fun a mem => least a (List.mem_cons_of_mem _ mem)
    rw [spin, if_neg (least y (List.mem_cons_self ..)), rest, rest]
    by_cases same : key y = v
    · simp [equals, same]
    · simp [equals, same]

/-- A pass takes out the first of the elements with the smallest key. -/
theorem equals_pass (first : key (exchangePass key c ys).2 = v) :
    equals key v (c :: ys) =
      (exchangePass key c ys).2 :: equals key v (exchangePass key c ys).1 := by
  induction ys generalizing c with
  | nil =>
    rw [exchangePass] at first
    simp [exchangePass, equals, first]
  | cons y ys ih =>
    have least := (exchangePass_least key c (y :: ys)).1
    unfold exchangePass at first least ⊢
    split at first
    next lt =>
      have rest := ih first
      have larger : ¬ key c = v := by grind [exchangePass_least]
      rw [if_pos lt]
      simp only [equals, List.filter_cons, larger, decide_false, Bool.false_eq_true, ↓reduceIte]
        at rest ⊢
      exact rest
    next ge =>
      have rest := ih first
      rw [if_neg ge] at least ⊢
      by_cases same : key c = v
      · -- then `c` stays in the first place
        rw [equals, List.filter_cons_of_pos (by simpa using same)] at rest ⊢
        obtain ⟨stays, others⟩ := List.cons.inj rest
        rw [← stays]
        by_cases here : key y = v
        · simpa [equals, here] using others
        · simpa [equals, here] using others
      · have larger : ¬ key y = v := by grind
        rw [equals, List.filter_cons_of_neg (by simpa using same)] at rest ⊢
        simpa [equals, larger] using rest

/-- The elements with one key come out in the order in which they spin. -/
theorem equals_exchangePasses {n : Nat} {l : List α} (len : l.length = n) :
    equals key v (exchangePasses key n l) = spin key v [] l := by
  induction n generalizing l with
  | zero =>
    rw [List.length_eq_zero_iff.mp len]
    rfl
  | succ n ih =>
    cases l with
    | nil => rfl
    | cons x ys =>
      rw [List.length_cons, Nat.add_right_cancel_iff] at len
      have rest := ih ((length_exchangePass key x ys).trans len)
      have least := exchangePass_least key x ys
      have members (a : α) := (perm_exchangePass key x ys).mem_iff (a := a)
      have unbeaten (ge : ¬ key (exchangePass key x ys).2 < v) : ∀ y ∈ x :: ys, ¬ key y < v := by
        intro y mem
        obtain rfl | mem := List.mem_cons.mp ((members y).mpr mem)
        · exact ge
        · grind [least.2 y mem]
      rw [exchangePasses]
      by_cases less : key (exchangePass key x ys).2 < v
      · -- a smaller element comes out first
        have notSame : ¬ key (exchangePass key x ys).2 = v := by grind
        rw [equals, List.filter_cons_of_neg (by simpa using notSame)]
        refine rest.trans ?_
        rw [spin]
        by_cases lower : key x < v
        · rw [if_pos lower, spin_pass_smaller lower, turn]
        rw [if_neg lower]
        by_cases same : key x = v
        · rw [if_pos same, spin_pass_equal same [] less, List.nil_append]
        · rw [if_neg same, spin_pass_larger (by grind) less]
      · have start := spin_of_least (unbeaten less) []
        have inner : ∀ y ∈ (exchangePass key x ys).1, ¬ key y < v := fun y mem =>
          unbeaten less y ((members y).mp (List.mem_cons_of_mem _ mem))
        rw [spin_of_least inner [], List.nil_append] at rest
        rw [start, List.nil_append]
        by_cases same : key (exchangePass key x ys).2 = v
        · rw [equals_pass same, equals, List.filter_cons_of_pos (by simpa using same)]
          exact congrArg _ rest
        · -- nothing has the key
          have larger : ∀ y ∈ x :: ys, ¬ key y = v := by
            intro y mem eq
            obtain rfl | mem := List.mem_cons.mp ((members y).mpr mem)
            · exact same eq
            · grind [least.2 y mem]
          have none : equals key v (x :: ys) = [] := by
            rw [equals, List.filter_eq_nil_iff]
            simpa using larger
          have none' : equals key v (exchangePass key x ys).1 = [] := by
            rw [equals, List.filter_eq_nil_iff]
            intro y mem
            simpa using larger y ((members y).mp (List.mem_cons_of_mem _ mem))
          rw [none, equals, List.filter_cons_of_neg (by simpa using same)]
          exact rest.trans none'

theorem equals_exchangeSort (l : List α) : equals key v (exchangeSort key l) = spin key v [] l :=
  equals_exchangePasses rfl

end

/-! ## When the order is kept -/

/-- For each element, the number of elements with its key so far divides the
number of smaller ones between it and the next element with its key. -/
def TiesKeep (key : α → κ) (l : List α) : Prop :=
  ∀ i : Fin l.length,
    (equals key (key (l.get i)) (l.take (i + 1))).length ∣
      ((l.drop (i + 1)).takeWhile fun a => key a ≠ key (l.get i)).countP fun a => key a < key (l.get i)

instance (key : α → κ) (l : List α) : Decidable (TiesKeep key l) :=
  inferInstanceAs (Decidable (∀ _, _))

/-- The same for one key, from a place in the list where `t` elements have the
key, and `g` smaller ones have come since the last of them. -/
def TurnsFully (key : α → κ) (v : κ) : Nat → Nat → List α → Prop
  | t, g, [] => t ∣ g ∨ t = 0
  | t, g, y :: ys =>
    if key y < v then TurnsFully key v t (g + 1) ys
    else if key y = v then (t ∣ g ∨ t = 0) ∧ TurnsFully key v (t + 1) 0 ys
    else TurnsFully key v t g ys

omit [LT κ] [DecidableLT κ] [LE κ] [Std.IsLinearOrder κ] [Std.LawfulOrderLT κ] [DecidableEq κ] in
theorem turn_rotate (l : List α) (g : Nat) : turn (l.rotate g) = l.rotate (g + 1) := by
  rw [← List.rotate_rotate]
  cases l.rotate g with
  | nil => rfl
  | cons x xs => simp [turn]

omit [LT κ] [DecidableLT κ] [LE κ] [Std.IsLinearOrder κ] [Std.LawfulOrderLT κ] [DecidableEq κ] in
theorem turn_isRotated_filter (p : α → Bool) (q : List α) :
    (turn q).filter p ~r q.filter p := by
  cases q with
  | nil => exact .refl _
  | cons x xs =>
    rw [turn, List.filter_append]
    by_cases here : p x = true
    · rw [List.filter_cons_of_pos here, List.filter_cons_of_pos here, List.filter_nil]
      exact (List.isRotated_append (l := [x])).symm
    · rw [List.filter_cons_of_neg here, List.filter_cons_of_neg here, List.filter_nil,
        List.append_nil]

section
variable {key : α → κ} {v : κ}

omit [LE κ] [Std.IsLinearOrder κ] [Std.LawfulOrderLT κ] in
/-- What has queued up only turns from then on. -/
theorem spin_isRotated_filter {p : α → Bool} {l : List α}
    (later : ∀ a ∈ equals key v l, p a = false) (q : List α) :
    (spin key v q l).filter p ~r q.filter p := by
  induction l generalizing q with
  | nil => exact .refl _
  | cons y ys ih =>
    have rest : ∀ a ∈ equals key v ys, p a = false := by
      intro a mem
      apply later a
      rw [equals, List.mem_filter] at mem ⊢
      exact ⟨List.mem_cons_of_mem _ mem.1, mem.2⟩
    rw [spin]
    split
    · exact (ih rest _).trans (turn_isRotated_filter p q)
    split
    next _ same =>
      have out : p y = false := by
        apply later y
        rw [equals, List.mem_filter]
        exact ⟨List.mem_cons_self .., by simpa using same⟩
      refine (ih rest _).trans ?_
      rw [List.filter_append, List.filter_cons_of_neg (by simp [out]), List.filter_nil,
        List.append_nil]
    · exact ih rest q

omit [LT κ] [DecidableLT κ] [LE κ] [Std.IsLinearOrder κ] [Std.LawfulOrderLT κ] [DecidableEq κ] in
/-- A queue that stands wrongly when another element joins never comes right. -/
theorem eq_of_isRotated_append {a b : List α} {y : α} (nodup : (a ++ [y]).Nodup)
    (rotated : a ++ [y] ~r b ++ [y]) : a = b := by
  have fresh : y ∉ a := by
    intro mem
    exact List.disjoint_of_nodup_append nodup mem (List.mem_singleton_self y)
  obtain ⟨n, le, eq⟩ := List.isRotated_iff_mod.mp
    ((List.isRotated_concat y a).symm.trans (rotated.trans (List.isRotated_concat y b)))
  cases n with
  | zero =>
    rw [List.rotate_zero] at eq
    exact (List.cons.inj eq).2
  | succ k =>
    have short : k ≤ a.length := by simpa using le
    rw [List.rotate_eq_drop_append_take le, List.drop_succ_cons, List.take_succ_cons] at eq
    cases rest : a.drop k with
    | nil =>
      have all : a.take k = a := List.take_of_length_le (List.drop_eq_nil_iff.mp rest)
      rw [rest, List.nil_append, all] at eq
      exact (List.cons.inj eq).2
    | cons z zs =>
      rw [rest, List.cons_append] at eq
      have mem : z ∈ a := List.mem_of_mem_drop (rest ▸ List.mem_cons_self ..)
      rw [(List.cons.inj eq).1] at mem
      exact absurd mem fresh

omit [LT κ] [DecidableLT κ] [LE κ] [Std.IsLinearOrder κ] [Std.LawfulOrderLT κ] [DecidableEq κ] in
theorem rotate_eq_self_iff {l : List α} (nodup : l.Nodup) (g : Nat) :
    l.rotate g = l ↔ l.length ∣ g ∨ l.length = 0 := by
  rw [nodup.rotate_eq_self_iff, Nat.dvd_iff_mod_eq_zero, List.length_eq_zero_iff]

/-- The queue comes out as it went in exactly if it is back in its order each
time an element joins it, and at the end. -/
theorem spin_eq_iff {l a : List α} {g : Nat} (nodup : (a ++ equals key v l).Nodup) :
    spin key v (a.rotate g) l = a ++ equals key v l ↔ TurnsFully key v a.length g l := by
  induction l generalizing a g with
  | nil =>
    rw [equals, List.filter_nil, List.append_nil] at nodup ⊢
    exact rotate_eq_self_iff nodup g
  | cons y ys ih =>
    rw [spin, TurnsFully]
    by_cases less : key y < v
    · have notSame : ¬ key y = v := by grind
      have here : equals key v (y :: ys) = equals key v ys :=
        List.filter_cons_of_neg (by simpa using notSame)
      rw [here] at nodup
      rw [if_pos less, if_pos less, here, turn_rotate]
      exact ih nodup
    rw [if_neg less, if_neg less]
    by_cases same : key y = v
    · have here : equals key v (y :: ys) = y :: equals key v ys :=
        List.filter_cons_of_pos (by simpa using same)
      rw [if_pos same, if_pos same, here]
      rw [here, List.append_cons] at nodup
      have early := (List.nodup_append.mp nodup).1
      by_cases back : a.rotate g = a
      · have next := ih (g := 0) nodup
        rw [List.rotate_zero, List.length_append, List.length_singleton] at next
        rw [back, List.append_cons a y (equals key v ys), next]
        have full := (rotate_eq_self_iff (List.nodup_append.mp early).1 g).mp back
        exact ⟨fun h => ⟨full, h⟩, fun h => h.2⟩
      · have full := (rotate_eq_self_iff (List.nodup_append.mp early).1 g).not.mp back
        refine ⟨fun eq => absurd ?_ back, fun h => absurd h.1 full⟩
        classical
        -- look at the elements that have queued up so far, and `y`
        have later : ∀ x ∈ equals key v ys, decide (x ∈ a ++ [y]) = false := by
          intro x mem
          simpa using fun old => List.disjoint_of_nodup_append nodup old mem
        have turned := spin_isRotated_filter later (a.rotate g ++ [y])
        have none : (equals key v ys).filter (fun x => decide (x ∈ a ++ [y])) = [] := by
          rw [List.filter_eq_nil_iff]
          intro x mem
          rw [later x mem]
          exact Bool.false_ne_true
        rw [eq, List.append_cons a y (equals key v ys), List.filter_append, none, List.append_nil] at turned
        have all : (a ++ [y]).filter (fun x => decide (x ∈ a ++ [y])) = a ++ [y] := by
          rw [List.filter_eq_self]
          intro x mem
          simpa using mem
        have all' : (a.rotate g ++ [y]).filter (fun x => decide (x ∈ a ++ [y])) =
            a.rotate g ++ [y] := by
          rw [List.filter_eq_self]
          intro x mem
          simpa using mem
        rw [all, all'] at turned
        exact (eq_of_isRotated_append early turned).symm
    · have here : equals key v (y :: ys) = equals key v ys :=
        List.filter_cons_of_neg (by simpa using same)
      rw [if_neg same, if_neg same, here]
      rw [here] at nodup
      exact ih nodup

theorem turnsFully_iff {t g : Nat} {l : List α} :
    TurnsFully key v t g l ↔
      (t ∣ g + (l.takeWhile fun a => key a ≠ v).countP (fun a => key a < v) ∨ t = 0) ∧
      ∀ i : Fin l.length, key (l.get i) = v →
        t + (equals key v (l.take (i + 1))).length ∣
          ((l.drop (i + 1)).takeWhile fun a => key a ≠ v).countP fun a => key a < v := by
  induction l generalizing t g with
  | nil => simp [TurnsFully]
  | cons y ys ih =>
    have places {p : Nat → α → Prop} : (∀ i : Fin (y :: ys).length, p i ((y :: ys).get i)) ↔
        p 0 y ∧ ∀ i : Fin ys.length, p (i + 1) (ys.get i) := Fin.forall_fin_succ
    rw [TurnsFully, places (p := fun i a => key a = v →
      t + (equals key v ((y :: ys).take (i + 1))).length ∣
        (((y :: ys).drop (i + 1)).takeWhile fun a => key a ≠ v).countP fun a => key a < v)]
    simp only [List.take_succ_cons, List.drop_succ_cons, List.take_zero, List.drop_zero]
    by_cases same : key y = v
    · have notLess : ¬ key y < v := by grind
      have counted (l : List α) : (equals key v (y :: l)).length = 1 + (equals key v l).length := by
        rw [equals, List.filter_cons_of_pos (by simpa using same), List.length_cons, Nat.add_comm]
        rfl
      rw [if_neg notLess, if_pos same, ih, List.takeWhile_cons_of_neg (by simpa using same)]
      simp only [counted, same, List.countP_nil, Nat.add_zero, Nat.zero_add, forall_const,
        Nat.add_eq_zero_iff, Nat.one_ne_zero, and_false, or_false, Nat.add_assoc]
      rfl
    · have skipped (l : List α) : equals key v (y :: l) = equals key v l :=
        List.filter_cons_of_neg (by simpa using same)
      rw [if_neg same, List.takeWhile_cons_of_pos (by simpa using same)]
      simp only [skipped, same, false_imp_iff, true_and]
      by_cases less : key y < v
      · rw [if_pos less, ih, List.countP_cons_of_pos (by simpa using less), Nat.add_assoc,
          Nat.add_comm 1]
      · rw [if_neg less, ih, List.countP_cons_of_neg (by simpa using less)]

/-- The ties of a list are kept if they are for each key. -/
theorem tiesKeep_iff {l : List α} : TiesKeep key l ↔ ∀ v, TurnsFully key v 0 0 l := by
  constructor
  · intro keep v
    rw [turnsFully_iff]
    refine ⟨.inr rfl, ?_⟩
    rintro i rfl
    rw [Nat.zero_add]
    exact keep i
  · intro full i
    have here := (turnsFully_iff.mp (full (key (l.get i)))).2 i rfl
    rwa [Nat.zero_add] at here

/-- Sorted by key, and among equal keys as before. -/
def Ordered (key : α → κ) (before : α → α → Prop) (a b : α) : Prop :=
  key a < key b ∨ key a = key b ∧ before a b

/-- Exchange sort keeps the order of equal keys exactly if the ties of the list
are of that kind. -/
theorem exchangeSort_ordered_iff {before : α → α → Prop} {l : List α}
    (asymm : ∀ a b, before a b → before b a → False) (sorted : l.Pairwise before) :
    (exchangeSort key l).Pairwise (Ordered key before) ↔ TiesKeep key l := by
  have nodup : l.Nodup := by
    refine sorted.imp ?_
    rintro a _ rel rfl
    exact asymm a a rel rel
  have turns (v : κ) : equals key v (exchangeSort key l) = equals key v l ↔
      TurnsFully key v 0 0 l := by
    rw [equals_exchangeSort]
    exact spin_eq_iff (a := []) (g := 0) (nodup.filter _)
  rw [tiesKeep_iff]
  constructor
  · intro ordered v
    rw [← turns]
    have perm : (equals key v (exchangeSort key l)).Perm (equals key v l) :=
      (perm_exchangeSort key l).filter _
    have first : (equals key v (exchangeSort key l)).Pairwise before := by
      rw [equals, List.pairwise_filter]
      refine ordered.imp ?_
      intro a b rel ha hb
      simp only [decide_eq_true_eq] at ha hb
      obtain less | ⟨_, rel⟩ := rel
      · grind
      · exact rel
    exact perm.eq_of_pairwise (fun a b _ _ h h' => (asymm a b h h').elim) first (sorted.filter _)
  · intro full
    have kept : (exchangeSort key l).Pairwise fun a b => key a = key b → before a b := by
      rw [List.pairwise_iff_forall_sublist]
      intro a b sub same
      have inner : [a, b].Sublist (equals key (key b) (exchangeSort key l)) := by
        have filtered := sub.filter fun x => decide (key x = key b)
        simpa [equals, same] using filtered
      rw [(turns (key b)).mpr (full (key b))] at inner
      exact List.pairwise_iff_forall_sublist.mp (sorted.filter _) inner
    refine (sorted_exchangeSort key l).imp₂ ?_ kept
    intro a b le rel
    by_cases same : key a = key b
    · exact .inr ⟨same, rel same⟩
    · exact .inl (by grind)

end
end equal
end Xv6.Lib
