import Mathlib.Data.List.Basic

/-! sh.c: the tokens of a command line. A `char*` into the line is the list of the
bytes from there to the end of the line. -/

namespace Xv6.Shell

/-- " \t\r\n\v" -/
def whitespace : List UInt8 := [32, 9, 13, 10, 11]

/-- "<|>&;()" -/
def symbols : List UInt8 := [60, 124, 62, 38, 59, 40, 41]

def lt : UInt8 := 60

def bar : UInt8 := 124

def gt : UInt8 := 62

def amp : UInt8 := 38

def semi : UInt8 := 59

def lpar : UInt8 := 40

def rpar : UInt8 := 41

def isSpace (c : UInt8) : Bool := whitespace.contains c

def isSymbol (c : UInt8) : Bool := symbols.contains c

def isWord (c : UInt8) : Bool := !isSpace c && !isSymbol c

/-- `while(s < es && strchr(whitespace, *s)) s++;` -/
def skip (s : List UInt8) : List UInt8 := s.dropWhile isSpace

/-- A word as it is found: where it starts and where it ends. -/
structure Span where
  q : List UInt8
  eq : List UInt8
  deriving DecidableEq, Repr

/-- The characters of the word. -/
def Span.text (w : Span) : List UInt8 := w.q.take (w.q.length - w.eq.length)

/-- What gettoken() returns, stores at `q` and `eq`, and where it leaves `*ps`. -/
structure Token where
  ret : UInt8
  span : Span
  rest : List UInt8
  deriving DecidableEq, Repr

/-- '+' -/
def appendCode : UInt8 := 43

/-- 'a' -/
def wordCode : UInt8 := 97

def gettoken (ps : List UInt8) : Token :=
  match skip ps with
  | [] => ⟨0, ⟨[], []⟩, []⟩
  | c :: s =>
    if c ∈ [bar, lpar, rpar, semi, amp, lt] then ⟨c, ⟨c :: s, s⟩, skip s⟩
    else if c = gt then
      match s with
      | d :: t => if d = gt then ⟨appendCode, ⟨c :: s, t⟩, skip t⟩ else ⟨c, ⟨c :: s, s⟩, skip s⟩
      | [] => ⟨c, ⟨c :: s, s⟩, skip s⟩
    else
      let e := (c :: s).dropWhile isWord
      ⟨wordCode, ⟨c :: s, e⟩, skip e⟩

/-- What peek() returns; it also leaves `*ps` at `skip ps`. -/
def peek (ps : List UInt8) (toks : List UInt8) : Bool :=
  match skip ps with
  | [] => false
  | c :: _ => toks.contains c

/-! ## The token sequence of a line -/

inductive Tok where
  | sym (c : UInt8)
  /-- `>>` -/
  | append
  | word (w : List UInt8)
  deriving DecidableEq, Repr

/-- A character in front of the tokens of what follows it. -/
def joinWord (c : UInt8) (s : List UInt8) (ts : List Tok) : List Tok :=
  match s, ts with
  | d :: _, .word w :: ts' => if isWord d then .word (c :: w) :: ts' else .word [c] :: ts
  | _, _ => .word [c] :: ts

/-- Words are as long as possible, and `>>` is one symbol. -/
def tokens : List UInt8 → List Tok
  | [] => []
  | [c] =>
    if isSpace c then [] else if isSymbol c then [.sym c] else [.word [c]]
  | c :: d :: s =>
    if isSpace c then tokens (d :: s)
    else if isSymbol c then
      if c = gt ∧ d = gt then .append :: tokens s else .sym c :: tokens (d :: s)
    else joinWord c (d :: s) (tokens (d :: s))

theorem tokens_space {c : UInt8} (h : isSpace c = true) (s : List UInt8) :
    tokens (c :: s) = tokens s := by
  cases s with
  | nil => simp [tokens, h]
  | cons d s => rw [tokens, if_pos h]

@[simp] theorem tokens_skip (s : List UInt8) : tokens (skip s) = tokens s := by
  induction s with
  | nil => rfl
  | cons c s ih =>
    by_cases space : isSpace c = true
    · rw [skip, List.dropWhile_cons_of_pos space, tokens_space space]
      exact ih
    · rw [skip, List.dropWhile_cons_of_neg space]

theorem isWord_iff (c : UInt8) : isWord c = true ↔ isSpace c = false ∧ isSymbol c = false := by
  simp [isWord]

/-- A word is followed by something else. -/
theorem tokens_word {c : UInt8} (h : isWord c = true) (s : List UInt8) :
    tokens (c :: s) =
      .word ((c :: s).takeWhile isWord) :: tokens ((c :: s).dropWhile isWord) := by
  obtain ⟨space, symbol⟩ := (isWord_iff c).mp h
  induction s generalizing c with
  | nil => simp [tokens, space, symbol, h]
  | cons d s ih =>
    rw [tokens, if_neg (by simp [space]), if_neg (by simp [symbol])]
    by_cases word : isWord d = true
    · obtain ⟨space', symbol'⟩ := (isWord_iff d).mp word
      rw [ih word space' symbol', joinWord, if_pos word]
      simp [h, word]
    · have single : joinWord c (d :: s) (tokens (d :: s)) = .word [c] :: tokens (d :: s) := by
        unfold joinWord
        split
        · rename_i d' _ w ts' eq _
          obtain ⟨rfl, rfl⟩ := List.cons.inj eq
          rw [if_neg word]
        · rfl
      rw [single]
      simp [h, word]

theorem tokens_append (s : List UInt8) : tokens (gt :: gt :: s) = .append :: tokens s := by
  rw [tokens, if_neg (by decide), if_pos (by decide), if_pos ⟨rfl, rfl⟩]

theorem isSymbol_not_space {c : UInt8} (h : isSymbol c = true) : isSpace c = false := by
  have mem : c ∈ symbols := by simpa [isSymbol] using h
  simp only [symbols, List.mem_cons, List.not_mem_nil, or_false] at mem
  rcases mem with rfl | rfl | rfl | rfl | rfl | rfl | rfl <;> decide

theorem tokens_symbol {c : UInt8} (h : isSymbol c = true) {s : List UInt8}
    (single : c = gt → s.head? ≠ some gt) : tokens (c :: s) = .sym c :: tokens s := by
  have space := isSymbol_not_space h
  cases s with
  | nil => simp [tokens, space, h]
  | cons d s =>
    rw [tokens, if_neg (by simp [space]), if_pos h, if_neg]
    rintro ⟨rfl, rfl⟩
    exact single rfl rfl

/-! ## peek() and gettoken() look at the first token -/

def Tok.starts (toks : List UInt8) : Tok → Bool
  | .sym c => toks.contains c
  | .append => toks.contains gt
  | .word _ => false

/-- The result of gettoken() for a token. -/
def Tok.code : Tok → UInt8
  | .sym c => c
  | .append => appendCode
  | .word _ => wordCode

/-- The first character that is left after the blanks decides the first token. -/
inductive First : List UInt8 → Prop
  | none : First []
  | symbol {c s} : isSymbol c = true → (c = gt → s.head? ≠ some gt) → First (c :: s)
  | append {s} : First (gt :: gt :: s)
  | word {c s} : isWord c = true → First (c :: s)

theorem first_skip (s : List UInt8) : First (skip s) := by
  cases eq : skip s with
  | nil => exact .none
  | cons c r =>
    have space : isSpace c = false := by
      have := List.head?_dropWhile_not isSpace s
      rw [show s.dropWhile isSpace = c :: r from eq] at this
      simpa using this
    by_cases symbol : isSymbol c = true
    · by_cases twice : c = gt ∧ r.head? = some gt
      · obtain ⟨rfl, head⟩ := twice
        obtain ⟨t, rfl⟩ := List.head?_eq_some_iff.mp head
        exact .append
      · exact .symbol symbol fun isGt head => twice ⟨isGt, head⟩
    · exact .word ((isWord_iff c).mpr ⟨space, by simpa using symbol⟩)

theorem peek_eq {toks : List UInt8} (sub : ∀ c ∈ toks, isSymbol c = true) (s : List UInt8) :
    peek s toks = (tokens s).head?.any (Tok.starts toks) := by
  rw [← tokens_skip, peek]
  have first := first_skip s
  generalize skip s = l at first ⊢
  cases first with
  | none => rfl
  | symbol symbol single => rw [tokens_symbol symbol single]; rfl
  | append => rw [tokens_append]; rfl
  | @word c r word =>
    rw [tokens_word word]
    have notSym := ((isWord_iff c).mp word).2
    have absent : toks.contains c = false := by
      rw [List.contains_eq_mem, decide_eq_false_iff_not]
      intro mem
      rw [sub c mem] at notSym
      cases notSym
    simpa [Tok.starts] using absent

/-- A span that gettoken() found in `s` as a word: it cannot be made longer. -/
structure WordIn (s : List UInt8) (w : Span) : Prop where
  suffix : w.q <:+ s
  split : w.q = w.text ++ w.eq
  word : ∀ c ∈ w.text, isWord c = true
  ends : ∀ c ∈ w.eq.head?, isWord c = false

theorem WordIn.mono {s t : List UInt8} {w : Span} (h : WordIn s w) (sub : s <:+ t) :
    WordIn t w :=
  ⟨h.suffix.trans sub, h.split, h.word, h.ends⟩

theorem skip_suffix (s : List UInt8) : skip s <:+ s := List.dropWhile_suffix _

theorem text_takeWhile (l : List UInt8) :
    Span.text ⟨l, l.dropWhile isWord⟩ = l.takeWhile isWord := by
  have whole := List.takeWhile_append_dropWhile (p := isWord) (l := l)
  have len := congrArg List.length whole
  rw [List.length_append] at len
  rw [Span.text, show l.length - (l.dropWhile isWord).length = (l.takeWhile isWord).length by omega]
  exact (List.prefix_iff_eq_take.mp (List.takeWhile_prefix isWord)).symm

/-- What gettoken() does with a first token. -/
structure Got (s : List UInt8) (t : Tok) (ts : List Tok) (r : Token) : Prop where
  code : r.ret = t.code
  real : r.ret ≠ 0
  word : r.ret = wordCode ↔ t = .word r.span.text
  found : r.ret = wordCode → WordIn s r.span
  suffix : r.rest <:+ s
  rest : tokens r.rest = ts

theorem symbol_cases {c : UInt8} (h : isSymbol c = true) :
    c = gt ∨ c ∈ [bar, lpar, rpar, semi, amp, lt] := by
  have mem : c ∈ symbols := by simpa [isSymbol] using h
  simp only [symbols, List.mem_cons, List.not_mem_nil, or_false] at mem
  rcases mem with rfl | rfl | rfl | rfl | rfl | rfl | rfl <;> decide

theorem gettoken_nil {s : List UInt8} (h : tokens s = []) :
    gettoken s = ⟨0, ⟨[], []⟩, []⟩ := by
  rw [← tokens_skip] at h
  have first := first_skip s
  unfold gettoken
  generalize skip s = l at h first ⊢
  cases first with
  | none => rfl
  | symbol symbol single => rw [tokens_symbol symbol single] at h; cases h
  | append => rw [tokens_append] at h; cases h
  | word word => rw [tokens_word word] at h; cases h

theorem gettoken_symbol {s r : List UInt8} {c : UInt8} (at_ : skip s = c :: r)
    (symbol : isSymbol c = true) (single : c = gt → r.head? ≠ some gt) :
    gettoken s = ⟨c, ⟨c :: r, r⟩, skip r⟩ := by
  unfold gettoken
  rw [at_]
  rcases symbol_cases symbol with rfl | mem
  · cases r with
    | nil => rfl
    | cons d r =>
      have other : d ≠ gt := fun isGt => single rfl (congrArg some isGt)
      simp only [if_neg other]
      rfl
  · simp only [if_pos mem]

theorem gettoken_append {s r : List UInt8} (at_ : skip s = gt :: gt :: r) :
    gettoken s = ⟨appendCode, ⟨gt :: gt :: r, r⟩, skip r⟩ := by
  unfold gettoken
  rw [at_]
  rfl

theorem gettoken_word {s r : List UInt8} {c : UInt8} (at_ : skip s = c :: r)
    (word : isWord c = true) :
    gettoken s = ⟨wordCode, ⟨c :: r, (c :: r).dropWhile isWord⟩,
      skip ((c :: r).dropWhile isWord)⟩ := by
  have other : c ∉ [bar, lpar, rpar, semi, amp, lt] ∧ c ≠ gt := by
    constructor
    · intro mem
      simp only [List.mem_cons, List.not_mem_nil, or_false] at mem
      rcases mem with rfl | rfl | rfl | rfl | rfl | rfl <;> exact absurd word (by decide)
    · rintro rfl
      exact absurd word (by decide)
  unfold gettoken
  rw [at_]
  simp only [if_neg other.1, if_neg other.2]

theorem wordIn_dropWhile {s l : List UInt8} (sub : l <:+ s) :
    WordIn s ⟨l, l.dropWhile isWord⟩ where
  suffix := sub
  split := by rw [text_takeWhile, List.takeWhile_append_dropWhile]
  word := by
    rw [text_takeWhile]
    exact fun c mem => List.all_eq_true.mp (List.all_takeWhile) c mem
  ends := by
    intro c head
    have := List.head?_dropWhile_not isWord l
    rw [Option.mem_def.mp head] at this
    simpa using this

theorem gettoken_cons {s : List UInt8} {t : Tok} {ts : List Tok} (h : tokens s = t :: ts) :
    Got s t ts (gettoken s) := by
  rw [← tokens_skip] at h
  have first := first_skip s
  have sub := skip_suffix s
  generalize at_ : skip s = l at h first sub
  cases first with
  | none => cases h
  | @symbol c r symbol single =>
    rw [tokens_symbol symbol single] at h
    obtain ⟨rfl, rfl⟩ := List.cons.inj h
    have codes : c ≠ 0 ∧ c ≠ wordCode := by
      constructor <;> rintro rfl <;> exact absurd symbol (by decide)
    rw [gettoken_symbol at_ symbol single]
    exact
      { code := rfl
        real := codes.1
        word := ⟨fun isWord => absurd isWord codes.2, nofun⟩
        found := fun isWord => absurd isWord codes.2
        suffix := (skip_suffix r).trans ((List.suffix_cons c r).trans sub)
        rest := tokens_skip r }
  | @append r =>
    rw [tokens_append] at h
    obtain ⟨rfl, rfl⟩ := List.cons.inj h
    have codes : appendCode ≠ 0 ∧ appendCode ≠ wordCode := by decide
    rw [gettoken_append at_]
    exact
      { code := rfl
        real := codes.1
        word := ⟨fun isWord => absurd isWord codes.2, nofun⟩
        found := fun isWord => absurd isWord codes.2
        suffix := (skip_suffix r).trans
          (((List.suffix_cons gt r).trans (List.suffix_cons gt _)).trans sub)
        rest := tokens_skip r }
  | @word c r word =>
    rw [tokens_word word] at h
    obtain ⟨rfl, rfl⟩ := List.cons.inj h
    have real : wordCode ≠ 0 := by decide
    rw [gettoken_word at_ word]
    exact
      { code := rfl
        real := real
        word := ⟨fun _ => by rw [text_takeWhile], fun _ => rfl⟩
        found := fun _ => wordIn_dropWhile sub
        suffix := (skip_suffix _).trans ((List.dropWhile_suffix _).trans sub)
        rest := tokens_skip _ }

theorem length_joinWord_le (c : UInt8) (s : List UInt8) (ts : List Tok) :
    (joinWord c s ts).length ≤ ts.length + 1 := by
  unfold joinWord
  split
  · split <;> simp
  · exact Nat.le_refl _

theorem tokens_length_le (s : List UInt8) : (tokens s).length ≤ s.length := by
  fun_induction tokens s with
  | case1 => exact Nat.le_refl _
  | case2 => exact Nat.zero_le _
  | case3 => exact Nat.le_refl _
  | case4 => exact Nat.le_refl _
  | case5 c d s _ ih => exact Nat.le_trans ih (Nat.le_succ _)
  | case6 c d s _ _ _ ih => simp only [List.length_cons]; omega
  | case7 c d s _ _ _ ih => exact Nat.succ_le_succ ih
  | case8 c d s _ _ ih => exact Nat.le_trans (length_joinWord_le _ _ _) (Nat.succ_le_succ ih)

theorem word_mem_joinWord {c : UInt8} {s : List UInt8} {ts : List Tok} {w : List UInt8}
    (mem : .word w ∈ joinWord c s ts) : w ≠ [] ∨ .word w ∈ ts := by
  unfold joinWord at mem
  split at mem
  · split at mem
    · obtain eq | old := List.mem_cons.mp mem
      · obtain rfl := Tok.word.inj eq
        exact .inl (List.cons_ne_nil _ _)
      · exact .inr (List.mem_cons_of_mem _ old)
    · obtain eq | old := List.mem_cons.mp mem
      · obtain rfl := Tok.word.inj eq
        exact .inl (List.cons_ne_nil _ _)
      · exact .inr old
  · obtain eq | old := List.mem_cons.mp mem
    · obtain rfl := Tok.word.inj eq
      exact .inl (List.cons_ne_nil _ _)
    · exact .inr old

/-- Words are not empty. -/
theorem word_mem_tokens {s w : List UInt8} (mem : .word w ∈ tokens s) : w ≠ [] := by
  fun_induction tokens s with
  | case1 => cases mem
  | case2 => cases mem
  | case3 => simp at mem
  | case4 c =>
    obtain rfl : w = [c] := by simpa using mem
    exact List.cons_ne_nil _ _
  | case5 c d s _ ih => exact ih mem
  | case6 c d s _ _ _ ih => exact ih (by simpa using mem)
  | case7 c d s _ _ _ ih => exact ih (by simpa using mem)
  | case8 c d s _ _ ih => exact (word_mem_joinWord mem).elim id ih

/-- gettoken() at the start of a word finds that word. -/
theorem WordIn.gettoken {s : List UInt8} {w : Span} (h : WordIn s w) (real : w.text ≠ []) :
    (gettoken w.q).ret = wordCode ∧ (gettoken w.q).span = w := by
  obtain ⟨c, r, text⟩ := List.exists_cons_of_ne_nil real
  have word : isWord c = true := h.word c (by rw [text]; exact List.mem_cons_self)
  have space : isSpace c = false := ((isWord_iff c).mp word).1
  have start : w.q = c :: (r ++ w.eq) := by rw [h.split, text, List.cons_append]
  have skipped : skip w.q = c :: (r ++ w.eq) := by
    rw [start, skip, List.dropWhile_cons_of_neg (by simp [space])]
  have stops : w.eq.dropWhile isWord = w.eq := by
    cases rest : w.eq with
    | nil => rfl
    | cons d e => exact List.dropWhile_cons_of_neg (by simp [h.ends d (by rw [rest]; rfl)])
  have ends : (c :: (r ++ w.eq)).dropWhile isWord = w.eq := by
    rw [← List.cons_append, ← text, List.dropWhile_append_of_pos h.word, stops]
  rw [gettoken_word skipped word, ends, ← start]
  exact ⟨rfl, rfl⟩

end Xv6.Shell
