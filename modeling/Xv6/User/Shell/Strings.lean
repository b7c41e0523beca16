import Xv6.User.Shell.Complete

/-! nulterminate() writes only behind words, so every pointer of the tree is left at
its word; with the grammar this says what parsecmd() returns. -/

namespace Xv6.Shell

theorem nulterminate_eq (line : List UInt8) (c : Cmd Span) (buf : List UInt8) :
    nulterminate line c buf = c.words.foldl (terminate line) buf := by
  induction c generalizing buf with
  | exec argv => rfl
  | redir c r ih => rw [nulterminate, ih, Cmd.words, List.foldl_append]; rfl
  | pipe left right ihLeft ihRight =>
    rw [nulterminate, ihLeft, ihRight, Cmd.words, List.foldl_append]
  | list left right ihLeft ihRight =>
    rw [nulterminate, ihLeft, ihRight, Cmd.words, List.foldl_append]
  | back c ih => exact ih buf

/-- The writes leave every place alone that is not the end of a word. -/
theorem terminate_other {line : List UInt8} {ws : List Span} {i : Nat}
    (other : ∀ w ∈ ws, offset line w.eq ≠ i) (buf : List UInt8) :
    (ws.foldl (terminate line) buf)[i]? = buf[i]? := by
  induction ws generalizing buf with
  | nil => rfl
  | cons w ws ih =>
    rw [List.foldl_cons, ih (fun v mem => other v (List.mem_cons_of_mem w mem)), terminate,
      List.getElem?_set_ne (other w List.mem_cons_self)]

/-- A NUL stays. -/
theorem terminate_zero {line : List UInt8} (ws : List Span) {i : Nat} {buf : List UInt8}
    (zero : buf[i]? = some 0) : (ws.foldl (terminate line) buf)[i]? = some 0 := by
  induction ws generalizing buf with
  | nil => exact zero
  | cons w ws ih =>
    apply ih
    obtain ⟨inside, -⟩ := List.getElem?_eq_some_iff.mp zero
    by_cases here : offset line w.eq = i
    · rw [terminate, here, List.getElem?_set_self inside]
    · rw [terminate, List.getElem?_set_ne here, zero]

theorem terminate_end {line : List UInt8} {ws : List Span} {w : Span} (mem : w ∈ ws)
    {buf : List UInt8} (inside : offset line w.eq < buf.length) :
    (ws.foldl (terminate line) buf)[offset line w.eq]? = some 0 := by
  obtain ⟨before, behind, rfl⟩ := List.append_of_mem mem
  rw [List.foldl_append, List.foldl_cons]
  apply terminate_zero
  rw [terminate, List.getElem?_set_self]
  have length : ∀ (vs : List Span) (b : List UInt8),
      (vs.foldl (terminate line) b).length = b.length := by
    intro vs
    induction vs with
    | nil => exact fun b => rfl
    | cons v vs ih =>
      intro b
      rw [List.foldl_cons, ih, terminate, List.length_set]
  rw [length]
  exact inside

theorem takeWhile_eq_of_stop {text l : List UInt8} (nonzero : 0 ∉ text)
    (same : ∀ i < text.length, l[i]? = text[i]?) (stop : l[text.length]? = some 0) :
    l.takeWhile (· ≠ 0) = text := by
  induction text generalizing l with
  | nil =>
    cases l with
    | nil => cases stop
    | cons c l =>
      obtain rfl : c = 0 := Option.some.inj stop
      rfl
  | cons a text ih =>
    cases l with
    | nil => cases stop
    | cons c l =>
      obtain rfl : c = a := Option.some.inj (same 0 (Nat.succ_pos _))
      have rest := ih (fun mem => nonzero (List.mem_cons_of_mem _ mem))
        (fun i small => same (i + 1) (Nat.succ_lt_succ small)) stop
      have head : c ≠ 0 := fun zero => nonzero (zero ▸ List.mem_cons_self)
      rw [List.takeWhile_cons_of_pos (by simpa using head), rest]

/-- A word lies behind some characters of the line and in front of what ends it. -/
theorem WordIn.parts {line : List UInt8} {w : Span} (h : WordIn line w) :
    ∃ before, line = before ++ (w.text ++ w.eq) ∧ offset line w.q = before.length ∧
      offset line w.eq = before.length + w.text.length := by
  obtain ⟨before, eq⟩ := h.suffix
  have len := congrArg List.length eq
  have len' := congrArg List.length h.split
  rw [List.length_append] at len len'
  refine ⟨before, by rw [← h.split, eq], ?_, ?_⟩ <;> unfold offset <;> omega

/-- No word ends inside another. -/
theorem WordIn.end_ne {line : List UInt8} {v w : Span} (hv : WordIn line v) (hw : WordIn line w)
    {before : List UInt8} (eq : line = before ++ (w.text ++ w.eq)) {i : Nat}
    (small : i < w.text.length) : offset line v.eq ≠ before.length + i := by
  intro same
  obtain ⟨start, eq', -, ends⟩ := hv.parts
  have inWord : (line)[before.length + i]? = w.text[i]? := by
    rw [eq, List.getElem?_append_right (Nat.le_add_right _ _), Nat.add_sub_cancel_left,
      List.getElem?_append_left small]
  have atEnd : (line)[offset line v.eq]? = v.eq.head? := by
    rw [ends]
    conv_lhs => rw [eq']
    rw [List.getElem?_append_right (Nat.le_add_right _ _), Nat.add_sub_cancel_left,
      List.getElem?_append_right (Nat.le_refl _), Nat.sub_self, List.head?_eq_getElem?]
  rw [same, inWord, List.getElem?_eq_getElem small] at atEnd
  have word := hw.word _ (List.getElem_mem small)
  rw [hv.ends _ atEnd.symm] at word
  cases word

theorem stringAt_nulterminate {line : List UInt8} (nonzero : 0 ∉ line) {c : Cmd Span}
    (words : ∀ w ∈ c.words, WordIn line w) {w : Span} (mem : w ∈ c.words) :
    stringAt line (nulterminate line c (line ++ [0])) w = w.text := by
  obtain ⟨before, eq, starts, ends⟩ := (words w mem).parts
  have length : line.length = before.length + (w.text.length + w.eq.length) := by
    rw [congrArg List.length eq, List.length_append, List.length_append]
  rw [stringAt, nulterminate_eq, starts]
  apply takeWhile_eq_of_stop
  · intro zero
    apply nonzero
    rw [eq]
    exact List.mem_append_right _ (List.mem_append_left _ zero)
  · intro i small
    rw [List.getElem?_drop,
      terminate_other (fun v vMem => (words v vMem).end_ne (words w mem) eq small),
      List.getElem?_append_left (by omega)]
    conv_lhs => rw [eq]
    rw [List.getElem?_append_right (Nat.le_add_right _ _), Nat.add_sub_cancel_left,
      List.getElem?_append_left small]
  · rw [List.getElem?_drop, ← ends]
    apply terminate_end mem
    rw [ends, List.length_append, List.length_singleton]
    omega

theorem map_congr {W V : Type} {f g : W → V} {c : Cmd W} (same : ∀ w ∈ c.words, f w = g w) :
    c.map f = c.map g := by
  induction c with
  | exec argv => exact congrArg Cmd.exec (List.map_congr_left same)
  | redir c r ih =>
    rw [Cmd.map, Cmd.map, ih fun w mem => same w (List.mem_append_left _ mem),
      same r.file (List.mem_append_right _ List.mem_cons_self)]
  | pipe left right ihLeft ihRight =>
    rw [Cmd.map, Cmd.map, ihLeft fun w mem => same w (List.mem_append_left _ mem),
      ihRight fun w mem => same w (List.mem_append_right _ mem)]
  | list left right ihLeft ihRight =>
    rw [Cmd.map, Cmd.map, ihLeft fun w mem => same w (List.mem_append_left _ mem),
      ihRight fun w mem => same w (List.mem_append_right _ mem)]
  | back c ih => rw [Cmd.map, Cmd.map, ih same]

theorem skip_eq_nil_iff (s : List UInt8) : skip s = [] ↔ tokens s = [] := by
  constructor
  · intro none
    rw [← tokens_skip, none]
    rfl
  · intro none
    rw [← tokens_skip] at none
    have first := first_skip s
    generalize skip s = l at none first ⊢
    cases first with
    | none => rfl
    | symbol symbol single => rw [tokens_symbol symbol single] at none; cases none
    | append => rw [tokens_append] at none; cases none
    | word word => rw [tokens_word word] at none; cases none

/-- parsecmd() in terms of parseline(). -/
theorem parsecmd_eq (fuel : Nat) (line : List UInt8) :
    parsecmd fuel line =
      match parseline fuel line with
      | .ok c s =>
        if tokens s = [] then .ok (c, nulterminate line c (line ++ [0])) [] else .panic "syntax"
      | .panic msg => .panic msg
      | .fuel => .fuel := by
  show Parse.bind (parseline fuel) _ line = _
  unfold Parse.bind
  cases parseline fuel line with
  | ok c s =>
    show (if skip s ≠ [] then _ else _) = _
    by_cases none : tokens s = []
    · rw [if_neg (not_not.mpr ((skip_eq_nil_iff s).mpr none)), (skip_eq_nil_iff s).mpr none]
      exact (if_pos none).symm
    · rw [if_pos fun empty => none ((skip_eq_nil_iff s).mp empty)]
      exact (if_neg none).symm
  | panic msg => rfl
  | fuel => rfl

/-- What parsecmd() returns for the line, read as strings after nulterminate(). -/
def Returns (fuel : Nat) (line : List UInt8) (tree : Cmd (List UInt8)) : Prop :=
  ∃ c buf ps, parsecmd fuel line = .ok (c, buf) ps ∧ c.map (stringAt line buf) = tree

/-- A line that parsecmd() accepts has been read to its end. -/
theorem parsecmd_ok {fuel : Nat} {line : List UInt8} {c : Cmd Span} {buf ps : List UInt8}
    (run : parsecmd fuel line = .ok (c, buf) ps) :
    buf = nulterminate line c (line ++ [0]) ∧ (∀ w ∈ c.words, WordIn line w) ∧
      Derives .line (tokens line) (c.map Span.text) := by
  rw [parsecmd_eq] at run
  have sound := (parts_sound fuel).1 line
  cases result : parseline fuel line with
  | ok c' s =>
    rw [result] at run sound
    obtain ⟨ts, read, derives⟩ := sound
    by_cases none : tokens s = []
    · simp only [if_pos none] at run
      cases run
      have whole := read.toks
      rw [none, List.append_nil] at whole
      rw [whole]
      exact ⟨rfl, read.words, derives⟩
    · simp only [if_neg none] at run
      cases run
  | panic msg => rw [result] at run; cases run
  | fuel => rw [result] at run; cases run

theorem returns_sound {fuel : Nat} {line : List UInt8} {tree : Cmd (List UInt8)}
    (nonzero : 0 ∉ line) (h : Returns fuel line tree) : Derives .line (tokens line) tree := by
  obtain ⟨c, buf, ps, run, rfl⟩ := h
  obtain ⟨rfl, words, derives⟩ := parsecmd_ok run
  rw [map_congr fun w mem => stringAt_nulterminate nonzero words mem]
  exact derives

theorem parseline_ne_fuel {fuel : Nat} {line : List UInt8} (enough : 4 * line.length + 4 ≤ fuel) :
    parseline fuel line ≠ .fuel := by
  intro out
  have sound := (parts_sound fuel).1 line
  rw [out] at sound
  have short := tokens_length_le line
  have : fuel < 4 * (tokens line).length + 4 := sound
  omega

theorem returns_complete {fuel : Nat} {line : List UInt8} {tree : Cmd (List UInt8)}
    (nonzero : 0 ∉ line) (enough : 4 * line.length + 4 ≤ fuel)
    (derives : Derives .line (tokens line) tree) : Returns fuel line tree := by
  have complete := derives_complete derives (.inl rfl) fuel (List.append_nil _).symm
  have sound := (parts_sound fuel).1 line
  have ends := parseline_ne_fuel enough
  change (parseline fuel line).Sat _ _ _ at complete
  unfold Returns
  rw [parsecmd_eq]
  cases result : parseline fuel line with
  | ok c s =>
    rw [result] at complete sound
    obtain ⟨none, rfl⟩ := complete
    obtain ⟨ts, read, -⟩ := sound
    refine ⟨c, _, [], if_pos none, ?_⟩
    exact map_congr fun w mem => stringAt_nulterminate nonzero read.words mem
  | panic msg => rw [result] at complete; exact complete.elim
  | fuel => exact absurd result ends

/-- For every line parsecmd() terminates, and it returns a tree exactly when the tokens
of the line derive from the grammar: the tree of that derivation. -/
theorem parsecmd_iff_derives (line : List UInt8) (nonzero : 0 ∉ line) (fuel : Nat)
    (enough : 4 * line.length + 4 ≤ fuel) :
    parsecmd fuel line ≠ .fuel ∧
      ∀ tree, Returns fuel line tree ↔ Derives .line (tokens line) tree := by
  refine ⟨?_, fun tree => ⟨returns_sound nonzero, returns_complete nonzero enough⟩⟩
  intro out
  rw [parsecmd_eq] at out
  cases result : parseline fuel line with
  | ok c s =>
    rw [result] at out
    simp only at out
    split at out <;> cases out
  | panic msg => rw [result] at out; cases out
  | fuel => exact parseline_ne_fuel enough result

/-- `(a>b);c d&` -/
theorem block_and_background :
    Derives .line (tokens [40, 97, 62, 98, 41, 59, 99, 32, 100, 38])
      (.list (.redir (.exec [[97]]) ⟨[98], oWronly ||| oCreate, 1⟩) (.back (.exec [[99], [100]]))) :=
  ((parsecmd_iff_derives [40, 97, 62, 98, 41, 59, 99, 32, 100, 38] (by decide) 44 (by decide)).2
    _).mp ⟨_, _, _, rfl, by decide +kernel⟩

/-! ## The words of the tree -/

theorem IsRedir.file_eq {t : Tok} {w : List UInt8} {r : Redir (List UInt8)} (h : IsRedir t w r) :
    r.file = w := by
  cases h <;> rfl

theorem Redirs.word_mem {ts : List Tok} {rs : List (Redir (List UInt8))} (h : Redirs ts rs)
    {w : List UInt8} (mem : w ∈ rs.map Redir.file) : .word w ∈ ts := by
  induction h with
  | nil => cases mem
  | cons redir _ ih =>
    obtain eq | later := List.mem_cons.mp mem
    · rw [eq, redir.file_eq]
      exact List.mem_cons_of_mem _ List.mem_cons_self
    · exact List.mem_cons_of_mem _ (List.mem_cons_of_mem _ (ih later))

theorem Words.word_mem {ts : List Tok} {ws : List (List UInt8)} {rs : List (Redir (List UInt8))}
    (h : Words ts ws rs) {w : List UInt8} (mem : w ∈ ws ∨ w ∈ rs.map Redir.file) :
    .word w ∈ ts := by
  induction h with
  | nil => simp at mem
  | cons redirs _ ih =>
    simp only [List.mem_cons, List.map_append, List.mem_append] at mem
    simp only [List.mem_append, List.mem_cons]
    obtain (rfl | word) | first | later := mem
    · exact .inl (.inl rfl)
    · exact .inr (ih (.inl word))
    · exact .inl (.inr (redirs.word_mem first))
    · exact .inr (ih (.inr later))

/-- The words of a tree are among the tokens it derives from. -/
theorem Derives.word_mem {part : Part} {ts : List Tok} {c : Cmd (List UInt8)}
    (h : Derives part ts c) {w : List UInt8} (mem : w ∈ c.words) : .word w ∈ ts := by
  induction h with
  | line n _ ih =>
    rw [words_backs] at mem
    exact List.mem_append_left _ (ih mem)
  | list n _ _ ihLeft ihRight =>
    rw [Cmd.words, words_backs] at mem
    obtain left | right := List.mem_append.mp mem
    · exact List.mem_append_left _ (List.mem_append_left _ (ihLeft left))
    · exact List.mem_append_right _ (List.mem_cons_of_mem _ (ihRight right))
  | single _ ih => exact ih mem
  | pipe _ _ ihLeft ihRight =>
    obtain left | right := List.mem_append.mp mem
    · exact List.mem_append_left _ (ihLeft left)
    · exact List.mem_append_right _ (List.mem_cons_of_mem _ (ihRight right))
  | block _ redirs ih =>
    rw [words_redirected] at mem
    obtain inside | behind := List.mem_append.mp mem
    · exact List.mem_append_left _ (List.mem_cons_of_mem _ (ih inside))
    · exact List.mem_append_right _ (List.mem_cons_of_mem _ (redirs.word_mem behind))
  | simple redirs words _ =>
    rw [words_redirected, Cmd.words, List.map_append] at mem
    obtain word | file := List.mem_append.mp mem
    · exact List.mem_append_right _ (words.word_mem (.inl word))
    · obtain first | later := List.mem_append.mp file
      · exact List.mem_append_left _ (redirs.word_mem first)
      · exact List.mem_append_right _ (words.word_mem (.inr later))

/-- After nulterminate() every pointer of the tree is at a string that is the word
gettoken() found there, and no NUL has been written inside a word. -/
theorem words_extracted {line : List UInt8} (nonzero : 0 ∉ line) {fuel : Nat} {c : Cmd Span}
    {buf ps : List UInt8} (run : parsecmd fuel line = .ok (c, buf) ps) :
    (∀ w ∈ c.words, w.q <:+ line ∧ (gettoken w.q).ret = wordCode ∧ (gettoken w.q).span = w ∧
      stringAt line buf w = w.text) ∧
    ∀ v ∈ c.words, ∀ w ∈ c.words,
      ¬ (offset line w.q ≤ offset line v.eq ∧ offset line v.eq < offset line w.eq) := by
  obtain ⟨rfl, words, derives⟩ := parsecmd_ok run
  constructor
  · intro w mem
    have text : w.text ∈ (c.map Span.text).words := by
      rw [words_map]
      exact List.mem_map_of_mem mem
    have found := (words w mem).gettoken (word_mem_tokens (derives.word_mem text))
    exact ⟨(words w mem).suffix, found.1, found.2, stringAt_nulterminate nonzero words mem⟩
  · rintro v vMem w wMem ⟨low, high⟩
    obtain ⟨before, eq, starts, ends⟩ := (words w wMem).parts
    have inside : offset line v.eq - before.length < w.text.length := by omega
    apply (words v vMem).end_ne (words w wMem) eq inside
    omega

/-- `a>b|(c)` -/
def pipeLine : List UInt8 := [97, 62, 98, 124, 40, 99, 41]

def pipeTree : Cmd Span :=
  .pipe (.redir (.exec [⟨pipeLine, pipeLine.drop 1⟩])
    ⟨⟨pipeLine.drop 2, pipeLine.drop 3⟩, oWronly ||| oCreate, 1⟩)
    (.exec [⟨pipeLine.drop 5, pipeLine.drop 6⟩])

theorem pipe_into_block :
    parsecmd 40 pipeLine = .ok (pipeTree, [97, 0, 98, 0, 40, 99, 0, 0]) [] ∧
    stringAt pipeLine [97, 0, 98, 0, 40, 99, 0, 0] ⟨pipeLine.drop 2, pipeLine.drop 3⟩ = [98] := by
  have run : parsecmd 40 pipeLine = .ok (pipeTree, [97, 0, 98, 0, 40, 99, 0, 0]) [] := by
    decide +kernel
  exact ⟨run, ((words_extracted (by decide) run).1 _ (by decide)).2.2.2⟩

end Xv6.Shell
