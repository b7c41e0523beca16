import Xv6.Lib.Bytes
import Xv6.Lib.Chars
import Xv6.Lib.Lines
import Xv6.Lib.Prog

/-! grep.c: lines are searched in a buffer that is filled by read(), and the end
of a buffer that is not a whole line yet is carried over to the next read(). -/

namespace Xv6.Grep
open Lib

/-! ## The matcher -/

def newline : UInt8 := 10

def caret : UInt8 := 94

def dollar : UInt8 := 36

def star : UInt8 := 42

def dot : UInt8 := 46

/-- search for c*re at beginning of text; `here` searches for re -/
def matchstar (here : List UInt8 → Bool) (c : UInt8) : List UInt8 → Bool
  | [] => here []
  | t :: text => here (t :: text) || ((t == c || c == dot) && matchstar here c text)

/-- One character of the pattern, and then `here`. -/
def matchone (here : List UInt8 → Bool) (r : UInt8) : List UInt8 → Bool
  | [] => false
  | t :: text => (r == dot || r == t) && here text

/-- search for re at beginning of text -/
def matchhere : List UInt8 → List UInt8 → Bool
  | [], _ => true
  | [r], text => if r = dollar then text.isEmpty else matchone (matchhere []) r text
  | r :: s :: re, text =>
    if s = star then matchstar (matchhere re) r text
    else matchone (matchhere (s :: re)) r text

/-- The loop of match(). -/
def matchsome (re : List UInt8) : List UInt8 → Bool
  | [] => matchhere re [] -- must look at empty string
  | t :: text => matchhere re (t :: text) || matchsome re text

def isMatch (re text : List UInt8) : Bool :=
  match re with
  | r :: re' => if r = caret then matchhere re' text else matchsome re text
  | [] => matchsome re text

/-! ## ulib.c -/

/-- Search from `p` on; the string has to end within the block. -/
def strchr {n : Nat} (b : Bytes n) (c : UInt8) : Nat → Nat → Option (Option Nat)
  | 0, _ => none
  | fuel + 1, p =>
    if b.byte p = 0 then some none
    else if b.byte p = c then some (some p)
    else strchr b c fuel (p + 1)

/-- The block with byte `i` set. -/
def setByte {n : Nat} (b : Bytes n) (i : Nat) (v : UInt8) : Bytes n :=
  fun j => if j.val = i then v else b j

def memmove {n : Nat} (b : Bytes n) (dst src : Nat) : Nat → Bytes n
  | 0 => b
  | m + 1 => memmove (setByte b dst (b.byte src)) (dst + 1) (src + 1) m

/-! ## The main loop -/

def bufSize : Nat := 1024

structure World where
  buf : Bytes bufSize
  /-- what the next calls of read() return -/
  chunks : List (List UInt8)
  /-- what has been written to file descriptor 1 -/
  out : List UInt8

/-- `buf[i] = v` -/
def store (i : Nat) (v : UInt8) : Prog World Unit :=
  if i < bufSize then .modify fun w => { w with buf := setByte w.buf i v } else .halt

/-- `read(fd, buf+m, n)`, which never returns more than `n` bytes; 0 is the end of
the file. -/
def read (m n : Nat) : Prog World Nat := do
  let w ← .get
  match w.chunks with
  | [] => return 0
  | c :: cs =>
    if c.length ≤ n then do
      .modify fun w => { w with buf := w.buf.splice m c, chunks := cs }
      return c.length
    else .halt

/-- `if(match(pattern, p)){ *q = '\n'; write(1, p, q+1 - p); }` -/
def printMatch (pattern : List UInt8) (p q : Nat) : Prog World Unit := do
  let w ← .get
  if isMatch pattern (upTo (fun j => w.buf.byte (p + j)) bufSize) then do
    store q newline
    .modify fun w => { w with out := w.out ++ w.buf.slice p (q + 1 - p) }
  else return ()

/-- The inner loop, from the line at `p` on: where the last line ends. -/
def grepLines (pattern : List UInt8) : Nat → Nat → Prog World Nat
  | 0, _ => .halt
  | fuel + 1, p => do
    let w ← .get
    match strchr w.buf newline (bufSize - p) p with
    | none => .halt
    | some none => return p
    | some (some q) => do
      store q 0
      printMatch pattern p q
      grepLines pattern fuel (q + 1)

/-- What is kept of the `m` bytes in the buffer when the last line ends at `p`. -/
def keep (m p : Nat) : Prog World Nat :=
  let m := if p = 0 then 0 else m
  if 0 < m then do
    .modify fun w => { w with buf := memmove w.buf 0 p (m - p) }
    return m - p
  else return m

/-- The outer loop, with `m` bytes in the buffer. Each call of read() but the last
takes a chunk. -/
def grepLoop (pattern : List UInt8) : Nat → Nat → Prog World Unit
  | 0, _ => .halt
  | fuel + 1, m => do
    let n ← read m (bufSize - m - 1)
    if 0 < n then do
      store (m + n) 0
      let p ← grepLines pattern bufSize 0
      let m ← keep (m + n) p
      grepLoop pattern fuel m
    else return ()

/-- grep(): what it writes when read() returns these chunks one after the other. -/
def grep (pattern : List UInt8) (chunks : List (List UInt8)) : Option (List UInt8) :=
  (grepLoop pattern (chunks.length + 1) 0 ⟨Bytes.zero, chunks, []⟩).map fun r => r.2.out

/-! ## A text in the buffer -/

variable {b : Bytes bufSize} {p m : Nat} {t l r : List UInt8} {ls : List (List UInt8)}

theorem byte_setByte {n : Nat} (b : Bytes n) (i : Nat) (v : UInt8) (j : Nat) :
    (setByte b i v).byte j = if j = i ∧ j < n then v else b.byte j := by
  unfold Bytes.byte setByte
  by_cases h : j < n
  · simp [h]
  · simp [h]

/-- A copy to lower addresses. -/
theorem byte_memmove {n : Nat} (b : Bytes n) {dst src : Nat} (le : dst ≤ src) {m : Nat}
    (fits : src + m ≤ n) (j : Nat) : (memmove b dst src m).byte j =
      if dst ≤ j ∧ j < dst + m then b.byte (src + (j - dst)) else b.byte j := by
  induction m generalizing b dst src with
  | zero => rw [memmove, if_neg (by omega)]
  | succ m ih =>
    rw [memmove, ih _ (by omega) (by omega)]
    by_cases first : j = dst
    · subst first
      rw [if_neg (by omega), if_pos (by omega), byte_setByte, if_pos (by omega), Nat.sub_self,
        Nat.add_zero]
    · by_cases inside : dst + 1 ≤ j ∧ j < dst + 1 + m
      · have index : src + 1 + (j - (dst + 1)) = src + (j - dst) := by omega
        rw [if_pos inside, if_pos (by omega), byte_setByte, if_neg (by omega), index]
      · rw [if_neg inside, if_neg (by omega), byte_setByte, if_neg (by omega)]

/-- The buffer has the text at `p`. -/
def Has (b : Bytes bufSize) (p : Nat) (t : List UInt8) : Prop :=
  ∀ j (h : j < t.length), b.byte (p + j) = t[j]

/-- The buffer has the text at `p`, ended by a zero byte. -/
structure Text (b : Bytes bufSize) (p : Nat) (t : List UInt8) : Prop where
  has : Has b p t
  ends : b.byte (p + t.length) = 0
  fits : p + t.length < bufSize

theorem Has.right (h : Has b p (l ++ r)) : Has b (p + l.length) r := by
  intro j hj
  have := h (l.length + j) (by rw [List.length_append]; omega)
  rw [List.getElem_append_right (Nat.le_add_right _ _)] at this
  simpa [Nat.add_assoc] using this

theorem Has.left (h : Has b p (l ++ r)) : Has b p l := by
  intro j hj
  have := h j (by rw [List.length_append]; omega)
  rwa [List.getElem_append_left hj] at this

theorem Text.right (h : Text b p (l ++ r)) : Text b (p + l.length) r := by
  have fits := h.fits
  have ends := h.ends
  rw [List.length_append, ← Nat.add_assoc] at fits ends
  exact ⟨h.has.right, ends, fits⟩

theorem Text.setByte (h : Text b p t) {i : Nat} (lt : i < p) (v : UInt8) :
    Text (setByte b i v) p t := by
  refine ⟨fun j hj => ?_, ?_, h.fits⟩
  · rw [byte_setByte, if_neg (by omega)]
    exact h.has j hj
  · rw [byte_setByte, if_neg (by omega)]
    exact h.ends

/-- A search goes past bytes that are no newline. -/
theorem Has.strchr_skip (h : Has b p l) (clean : 0 ∉ l) (none : newline ∉ l) (fuel : Nat) :
    strchr b newline (l.length + fuel) p = strchr b newline fuel (p + l.length) := by
  induction l generalizing p with
  | nil => rw [List.length_nil, Nat.zero_add, Nat.add_zero]
  | cons a l ih =>
    have first : b.byte p = a := h 0 (Nat.succ_pos _)
    have nonzero : a ≠ 0 := fun eq => clean (eq ▸ List.mem_cons_self)
    have other : a ≠ newline := fun eq => none (eq ▸ List.mem_cons_self)
    have rest : Has b (p + 1) l := Has.right (l := [a]) h
    rw [List.length_cons, Nat.add_right_comm, strchr, first, if_neg nonzero, if_neg other,
      ih rest (fun mem => clean (List.mem_cons_of_mem _ mem))
        (fun mem => none (List.mem_cons_of_mem _ mem)), Nat.add_assoc, Nat.add_comm 1]

theorem Text.strchr_none (h : Text b p t) (clean : 0 ∉ t) (absent : newline ∉ t) :
    strchr b newline (bufSize - p) p = some none := by
  have fits := h.fits
  obtain ⟨fuel, eq⟩ : ∃ fuel, bufSize - p = t.length + (fuel + 1) :=
    ⟨bufSize - p - t.length - 1, by omega⟩
  rw [eq, h.has.strchr_skip clean absent, strchr, if_pos h.ends]

theorem Text.strchr_some (h : Text b p (l ++ newline :: r)) (clean : 0 ∉ l)
    (absent : newline ∉ l) : strchr b newline (bufSize - p) p = some (some (p + l.length)) := by
  have fits := h.right.fits
  obtain ⟨fuel, eq⟩ : ∃ fuel, bufSize - p = l.length + (fuel + 1) :=
    ⟨bufSize - p - l.length - 1, by omega⟩
  have first : b.byte (p + l.length) = newline := h.right.has 0 (Nat.succ_pos _)
  rw [eq, h.has.left.strchr_skip clean absent, strchr, first, if_neg (by decide), if_pos rfl]

/-! ## The inner loop -/

theorem store_eq {i : Nat} (h : i < bufSize) (v : UInt8) (w : World) :
    store i v w = some ((), { w with buf := Grep.setByte w.buf i v }) := by
  rw [store, if_pos h]
  rfl

theorem Has.slice (h : Has b p t) : b.slice p t.length = t := by
  apply List.ext_getElem
  · simp [Bytes.slice]
  · intro j hj hj'
    simpa [Bytes.slice] using h j hj'

/-- What is printed of a list of lines. -/
def printed (pattern : List UInt8) (ls : List (List UInt8)) : List UInt8 :=
  Lines.join newline (ls.filter (isMatch pattern))

theorem printed_append (pattern : List UInt8) (ls ls' : List (List UInt8)) :
    printed pattern (ls ++ ls') = printed pattern ls ++ printed pattern ls' := by
  rw [printed, printed, printed, ← Lines.join_append, ← List.filter_append]

/-- The line that has been cut off at `p` is printed if it matches. -/
theorem printMatch_spec {w : World} (pattern : List UInt8) (has : Has w.buf p l)
    (ends : w.buf.byte (p + l.length) = 0) (clean : 0 ∉ l) (fits : p + l.length < bufSize) :
    ∃ w', printMatch pattern p (p + l.length) w = some ((), w') ∧ w'.chunks = w.chunks ∧
      w'.out = w.out ++ printed pattern [l] ∧
      ∀ q t, p + l.length < q → Text w.buf q t → Text w'.buf q t := by
  have text : upTo (fun j => w.buf.byte (p + j)) bufSize = l :=
    upTo_eq has ends clean (by omega)
  unfold printMatch
  by_cases found : isMatch pattern l = true
  · refine ⟨{ w with
      buf := setByte w.buf (p + l.length) newline
      out := w.out ++ printed pattern [l] }, ?_, rfl, rfl, fun q t lt text => text.setByte lt _⟩
    refine Prog.bind_eq_some.mpr ⟨w, w, rfl, ?_⟩
    rw [text, if_pos found]
    refine Prog.bind_eq_some.mpr ⟨(), _, store_eq fits newline w, ?_⟩
    have line : Has (setByte w.buf (p + l.length) newline) p (l ++ [newline]) := by
      intro j hj
      rw [List.length_append, List.length_singleton] at hj
      rw [byte_setByte]
      by_cases last : j = l.length
      · subst last
        rw [if_pos ⟨rfl, fits⟩]
        simp
      · have lt : j < l.length := by omega
        rw [if_neg (by omega), has j lt, List.getElem_append_left lt]
    have length : p + l.length + 1 - p = (l ++ [newline]).length := by
      rw [List.length_append, List.length_singleton]
      omega
    have same : printed pattern [l] = l ++ [newline] := by
      simp [printed, found, Lines.join]
    simp only [Prog.modify_eq_some, length, line.slice, same]
  · refine ⟨w, ?_, rfl, ?_, fun q t _ text => text⟩
    · refine Prog.bind_eq_some.mpr ⟨w, w, rfl, ?_⟩
      rw [text, if_neg found]
      rfl
    · simp [printed, found]

/-- The inner loop prints the lines that match and stops behind the last line. -/
theorem grepLines_spec {w : World} (pattern : List UInt8) {fuel : Nat} (enough : ls.length < fuel)
    (text : Text w.buf p (Lines.join newline ls ++ r)) (clean : 0 ∉ Lines.join newline ls ++ r)
    (absent : newline ∉ r) (lines : ∀ l ∈ ls, newline ∉ l) :
    ∃ w', grepLines pattern fuel p w = some (p + (Lines.join newline ls).length, w') ∧
      w'.chunks = w.chunks ∧ w'.out = w.out ++ printed pattern ls ∧
      Text w'.buf (p + (Lines.join newline ls).length) r := by
  induction ls generalizing p w fuel with
  | nil =>
    obtain ⟨fuel, rfl⟩ : ∃ n, fuel = n + 1 := ⟨fuel - 1, by omega⟩
    rw [Lines.join_nil, List.nil_append] at text clean
    refine ⟨w, ?_, rfl, by simp [printed], text⟩
    rw [grepLines]
    refine Prog.bind_eq_some.mpr ⟨w, w, rfl, ?_⟩
    rw [text.strchr_none clean absent]
    rfl
  | cons l ls ih =>
    obtain ⟨fuel, rfl⟩ : ∃ n, fuel = n + 1 := ⟨fuel - 1, by omega⟩
    rw [Lines.join_cons, List.append_assoc, List.cons_append] at text clean
    rw [List.mem_append, not_or] at clean
    have found := text.strchr_some clean.1 (lines l List.mem_cons_self)
    have fits : p + l.length < bufSize := Nat.lt_of_le_of_lt (Nat.le_add_right _ _) text.right.fits
    have after : Text w.buf (p + l.length + 1) (Lines.join newline ls ++ r) :=
      Text.right (l := [newline]) text.right
    have cut : Has (setByte w.buf (p + l.length) 0) p l := by
      intro j hj
      rw [byte_setByte, if_neg (by omega)]
      exact text.has.left j hj
    have zero : (setByte w.buf (p + l.length) 0).byte (p + l.length) = 0 := by
      rw [byte_setByte, if_pos ⟨rfl, fits⟩]
    obtain ⟨w₁, print, chunks₁, out₁, kept⟩ := printMatch_spec
      (w := { w with buf := setByte w.buf (p + l.length) 0 }) pattern cut zero clean.1 fits
    obtain ⟨w', rest, chunks, out, text'⟩ := ih (w := w₁) (Nat.lt_of_succ_lt_succ enough)
      (kept _ _ (Nat.lt_succ_self _) (after.setByte (Nat.lt_succ_self _) 0))
      (fun mem => clean.2 (List.mem_cons_of_mem _ mem))
      (fun l mem => lines l (List.mem_cons_of_mem _ mem))
    have length : p + (Lines.join newline (l :: ls)).length =
        p + l.length + 1 + (Lines.join newline ls).length := by
      rw [Lines.join_cons, List.length_append, List.length_cons]
      omega
    refine ⟨w', ?_, chunks.trans chunks₁, ?_, length ▸ text'⟩
    · rw [grepLines]
      refine Prog.bind_eq_some.mpr ⟨w, w, rfl, ?_⟩
      rw [found]
      refine Prog.bind_eq_some.mpr ⟨(), _, store_eq fits 0 w, ?_⟩
      refine Prog.bind_eq_some.mpr ⟨(), w₁, print, ?_⟩
      rw [rest, length]
    · rw [out, out₁, List.append_assoc, ← printed_append]
      rfl

/-! ## The outer loop -/

/-- What grep() carries over of the text in the buffer: the part of a line behind
the last newline, and nothing if there is no newline. -/
def carried (t : List UInt8) : List UInt8 :=
  match Lines.split newline t with
  | ([], _) => []
  | (_ :: _, r) => r

/-- The lines that grep() sees when `l` has been carried over. -/
def seen (l : List UInt8) : List (List UInt8) → List (List UInt8)
  | [] => []
  | c :: cs => (Lines.split newline (l ++ c)).1 ++ seen (carried (l ++ c)) cs

/-- read() returns at least one byte and at most as many as are asked for, which
is what `l` leaves of the buffer. -/
def Fits (l : List UInt8) : List (List UInt8) → Prop
  | [] => True
  | c :: cs => c ≠ [] ∧ c.length ≤ bufSize - l.length - 1 ∧ Fits (carried (l ++ c)) cs

instance decidableFits : (l : List UInt8) → (chunks : List (List UInt8)) → Decidable (Fits l chunks)
  | _, [] => .isTrue trivial
  | l, c :: cs =>
    have := decidableFits (carried (l ++ c)) cs
    inferInstanceAs (Decidable (c ≠ [] ∧ c.length ≤ bufSize - l.length - 1 ∧
      Fits (carried (l ++ c)) cs))

theorem clean_carried (clean : 0 ∉ t) : 0 ∉ carried t := by
  obtain ⟨whole, _, _⟩ := Lines.split_spec newline t
  unfold carried
  split
  · simp
  · rename_i r split
    rw [split] at whole
    intro mem
    exact clean (whole ▸ List.mem_append_right _ mem)

theorem keep_spec {w : World} (ls : List (List UInt8)) (r : List UInt8)
    (text : Text w.buf (Lines.join newline ls).length r) :
    ∃ w', keep ((Lines.join newline ls).length + r.length) (Lines.join newline ls).length w =
        some ((if ls = [] then [] else r).length, w') ∧
      w'.chunks = w.chunks ∧ w'.out = w.out ∧ Has w'.buf 0 (if ls = [] then [] else r) := by
  cases ls with
  | nil =>
    refine ⟨w, rfl, rfl, rfl, fun j hj => ?_⟩
    simp at hj
  | cons l ls =>
    have pos : 0 < (Lines.join newline (l :: ls)).length := by
      rw [Lines.join_cons, List.length_append, List.length_cons]
      omega
    generalize (Lines.join newline (l :: ls)).length = p at *
    have fits := text.fits
    refine ⟨{ w with buf := memmove w.buf 0 p r.length }, ?_, rfl, rfl, fun j hj => ?_⟩
    · simp only [keep, Nat.ne_of_gt pos, ↓reduceIte, Nat.add_pos_left pos, Nat.add_sub_cancel_left,
        reduceCtorEq]
      exact Prog.bind_eq_some.mpr ⟨(), _, rfl, rfl⟩
    · simp only [reduceCtorEq, ↓reduceIte] at hj ⊢
      have byte := text.has j hj
      rw [byte_memmove _ (Nat.zero_le _) (Nat.le_of_lt fits)]
      rw [if_pos (by omega)]
      simpa using byte

theorem carried_eq (t : List UInt8) :
    carried t = if (Lines.split newline t).1 = [] then [] else (Lines.split newline t).2 := by
  unfold carried
  split <;> simp_all

/-- What read() and the zero byte leave in the buffer. -/
theorem text_read (has : Has b 0 l) {c : List UInt8} (fits : l.length + c.length < bufSize) :
    Text (setByte (b.splice l.length c) (l.length + c.length) 0) 0 (l ++ c) := by
  have byte := Bytes.byte_splice b (Nat.le_of_lt fits)
  refine ⟨fun j hj => ?_, ?_, ?_⟩
  · rw [List.length_append] at hj
    rw [byte_setByte, if_neg (by omega), Nat.zero_add, byte]
    by_cases old : j < l.length
    · have there := has j old
      rw [Nat.zero_add] at there
      rw [if_neg (by omega), List.getElem_append_left old, there]
    · have lt : j - l.length < c.length := by omega
      rw [if_pos (by omega), List.getElem_append_right (by omega),
        List.getD_eq_getElem?_getD, List.getElem?_eq_getElem lt, Option.getD_some]
  · rw [List.length_append, Nat.zero_add, byte_setByte, if_pos ⟨rfl, fits⟩]
  · rw [List.length_append]
    omega

/-- The run of the outer loop: grep() prints the lines it sees that match. -/
theorem grepLoop_spec (pattern : List UInt8) {chunks : List (List UInt8)} {w : World} {fuel : Nat}
    (enough : chunks.length < fuel) (next : w.chunks = chunks) (has : Has w.buf 0 l)
    (fits : Fits l chunks) (clean : 0 ∉ l) (cleans : ∀ c ∈ chunks, 0 ∉ c) :
    ∃ w', grepLoop pattern fuel l.length w = some ((), w') ∧
      w'.out = w.out ++ printed pattern (seen l chunks) := by
  induction chunks generalizing l w fuel with
  | nil =>
    obtain ⟨fuel, rfl⟩ : ∃ n, fuel = n + 1 := ⟨fuel - 1, by omega⟩
    refine ⟨w, ?_, by simp [seen, printed]⟩
    rw [grepLoop]
    refine Prog.bind_eq_some.mpr ⟨0, w, ?_, rfl⟩
    refine Prog.bind_eq_some.mpr ⟨w, w, rfl, ?_⟩
    rw [next]
    rfl
  | cons c cs ih =>
    obtain ⟨fuel, rfl⟩ : ∃ n, fuel = n + 1 := ⟨fuel - 1, by omega⟩
    obtain ⟨nonempty, size, fits⟩ := fits
    have pos : 0 < c.length := List.length_pos_iff.mpr nonempty
    have room : l.length + c.length < bufSize := by omega
    -- the text in the buffer is some lines and a rest
    obtain ⟨whole, absent, lines⟩ := Lines.split_spec newline (l ++ c)
    have text := text_read has room
    have cleanText : 0 ∉ l ++ c := by
      rw [List.mem_append, not_or]
      exact ⟨clean, cleans c List.mem_cons_self⟩
    rw [carried_eq] at fits
    have cleanRest := clean_carried cleanText
    rw [carried_eq] at cleanRest
    have total : (Lines.join newline (Lines.split newline (l ++ c)).1).length +
        (Lines.split newline (l ++ c)).2.length = l.length + c.length := by
      rw [← List.length_append, whole, List.length_append]
    have seen_eq : seen l (c :: cs) = (Lines.split newline (l ++ c)).1 ++
        seen (if (Lines.split newline (l ++ c)).1 = [] then []
          else (Lines.split newline (l ++ c)).2) cs := by
      rw [seen, carried_eq]
    rw [← whole] at text cleanText
    generalize (Lines.split newline (l ++ c)).1 = ls at *
    generalize (Lines.split newline (l ++ c)).2 = r at *
    have few := Lines.length_le_join newline ls
    obtain ⟨w₁, inner, chunks₁, out₁, text₁⟩ := grepLines_spec
      (w := ⟨setByte (w.buf.splice l.length c) (l.length + c.length) 0, cs, w.out⟩) pattern
      (show ls.length < bufSize by omega) text cleanText absent lines
    rw [Nat.zero_add] at inner text₁
    obtain ⟨w₂, kept, chunks₂, out₂, has₂⟩ := keep_spec ls r text₁
    rw [total] at kept
    obtain ⟨w', rest, out⟩ := ih (w := w₂) (Nat.lt_of_succ_lt_succ enough)
      (chunks₂.trans chunks₁) has₂ fits cleanRest
      (fun c mem => cleans c (List.mem_cons_of_mem _ mem))
    refine ⟨w', ?_, ?_⟩
    · rw [grepLoop]
      refine Prog.bind_eq_some.mpr
        ⟨c.length, ⟨w.buf.splice l.length c, cs, w.out⟩, ?_, ?_⟩
      · refine Prog.bind_eq_some.mpr ⟨w, w, rfl, ?_⟩
        rw [next]
        dsimp only
        rw [if_pos size]
        rfl
      · rw [if_pos pos]
        refine Prog.bind_eq_some.mpr ⟨(), _, store_eq room 0 _, ?_⟩
        refine Prog.bind_eq_some.mpr ⟨_, w₁, inner, ?_⟩
        exact Prog.bind_eq_some.mpr ⟨_, w₂, kept, rest⟩
    · rw [out, out₂, out₁, seen_eq, printed_append, List.append_assoc]

theorem grep_eq (pattern : List UInt8) {chunks : List (List UInt8)} (fits : Fits [] chunks)
    (clean : ∀ c ∈ chunks, 0 ∉ c) :
    grep pattern chunks = some (printed pattern (seen [] chunks)) := by
  obtain ⟨w', run, out⟩ := grepLoop_spec pattern (w := ⟨Bytes.zero, chunks, []⟩) (l := [])
    (Nat.lt_succ_self _) rfl (fun j hj => by cases hj) fits List.not_mem_nil clean
  rw [List.length_nil] at run
  rw [grep, run, Option.map_some, out, List.nil_append]

/-! ## However the input arrives -/

theorem carried_of_mem (h : newline ∈ t) : carried t = (Lines.split newline t).2 := by
  rw [carried_eq, if_neg (fun none => Lines.split_eq_nil_iff.mp none h)]

/-- With a newline in every chunk, grep() sees the lines of the input. -/
theorem seen_eq_lines {chunks lines : List (List UInt8)} (absent : newline ∉ l)
    (whole : l ++ chunks.flatten = Lines.join newline lines)
    (clean : ∀ line ∈ lines, newline ∉ line) (each : ∀ c ∈ chunks, newline ∈ c) :
    seen l chunks = lines := by
  induction chunks generalizing l lines with
  | nil =>
    rw [List.flatten_nil, List.append_nil] at whole
    exact (Lines.eq_nil_of_join (whole ▸ absent)).symm
  | cons c cs ih =>
    have found : newline ∈ l ++ c := List.mem_append_right _ (each c List.mem_cons_self)
    obtain ⟨split, rest, cut⟩ := Lines.split_spec newline (l ++ c)
    rw [List.flatten_cons, ← List.append_assoc, ← split, List.append_assoc] at whole
    obtain ⟨more, rfl, tail⟩ := Lines.join_prefix cut clean whole
    rw [seen, carried_of_mem found,
      ih rest tail (fun line mem => clean line (List.mem_append_right _ mem))
        (fun c mem => each c (List.mem_cons_of_mem _ mem))]

theorem length_carried (t : List UInt8) :
    (Lines.join newline (Lines.split newline t).1).length + (carried t).length ≤ t.length ∧
      (newline ∉ t → (Lines.split newline t).1 = [] ∧ carried t = []) := by
  obtain ⟨whole, _, _⟩ := Lines.split_spec newline t
  have length := congrArg List.length whole
  rw [List.length_append] at length
  by_cases found : newline ∈ t
  · rw [carried_of_mem found]
    exact ⟨Nat.le_of_eq length, fun absent => absurd found absent⟩
  · have none := Lines.split_eq_nil_iff.mpr found
    rw [carried_eq, if_pos none, none]
    exact ⟨Nat.zero_le _, fun _ => ⟨rfl, rfl⟩⟩

theorem length_seen_le (l : List UInt8) (chunks : List (List UInt8)) :
    (Lines.join newline (seen l chunks)).length ≤ l.length + chunks.flatten.length := by
  induction chunks generalizing l with
  | nil => simp [seen]
  | cons c cs ih =>
    have here := (length_carried (l ++ c)).1
    have rest := ih (carried (l ++ c))
    rw [List.length_append] at here
    rw [seen, Lines.join_append, List.length_append, List.flatten_cons, List.length_append]
    omega

/-- Without a newline in some chunk, bytes of the input are not seen. -/
theorem length_seen_lt {chunks : List (List UInt8)} (absent : newline ∉ l)
    (nonempty : ∀ c ∈ chunks, c ≠ []) (some : ∃ c ∈ chunks, newline ∉ c) :
    (Lines.join newline (seen l chunks)).length < l.length + chunks.flatten.length := by
  induction chunks generalizing l with
  | nil =>
    obtain ⟨c, mem, _⟩ := some
    cases mem
  | cons c cs ih =>
    rw [seen, Lines.join_append, List.length_append, List.flatten_cons, List.length_append]
    obtain ⟨here, lost⟩ := length_carried (l ++ c)
    rw [List.length_append] at here
    by_cases found : newline ∈ c
    · have rest : ∃ c ∈ cs, newline ∉ c := by
        obtain ⟨c', mem, none⟩ := some
        obtain rfl | mem := List.mem_cons.mp mem
        · exact absurd found none
        · exact ⟨c', mem, none⟩
      have clean : newline ∉ carried (l ++ c) := by
        rw [carried_of_mem (List.mem_append_right _ found)]
        exact (Lines.split_spec newline (l ++ c)).2.1
      have := ih clean (fun c mem => nonempty c (List.mem_cons_of_mem _ mem)) rest
      omega
    · obtain ⟨none, dropped⟩ := lost (by rw [List.mem_append, not_or]; exact ⟨absent, found⟩)
      have pos := List.length_pos_iff.mpr (nonempty c List.mem_cons_self)
      have := length_seen_le (carried (l ++ c)) cs
      rw [dropped] at this
      rw [none, dropped, Lines.join_nil, List.length_nil] at *
      omega

theorem isMatch_nil (text : List UInt8) : isMatch [] text = true := by
  cases text <;> simp [isMatch, matchsome, matchhere]

theorem printed_nil (ls : List (List UInt8)) : printed [] ls = Lines.join newline ls := by
  rw [printed, List.filter_eq_self.mpr fun l _ => isMatch_nil l]

theorem Fits.nonempty {chunks : List (List UInt8)} (h : Fits l chunks) : ∀ c ∈ chunks, c ≠ [] := by
  induction chunks generalizing l with
  | nil => simp
  | cons c cs ih =>
    intro c' mem
    obtain rfl | mem := List.mem_cons.mp mem
    · exact h.1
    · exact ih h.2.2 c' mem

/-- An input of lines without zero byte, cut by read() into chunks: grep() prints
the lines that match, for every pattern, exactly if there is a newline in every
chunk. -/
theorem prints_matching_lines_iff {lines chunks : List (List UInt8)}
    (clean : ∀ line ∈ lines, newline ∉ line ∧ 0 ∉ line)
    (input : chunks.flatten = Lines.join newline lines) (fits : Fits [] chunks) :
    (∀ pattern, grep pattern chunks = some (printed pattern lines)) ↔
      ∀ c ∈ chunks, newline ∈ c := by
  have zero : ∀ c ∈ chunks, 0 ∉ c := by
    intro c mem zero
    have : 0 ∈ Lines.join newline lines := input ▸ List.mem_flatten_of_mem mem zero
    obtain ⟨line, mem, inside⟩ := List.mem_flatMap.mp this
    obtain inside | eq := List.mem_append.mp inside
    · exact (clean line mem).2 inside
    · exact absurd (List.mem_singleton.mp eq) (by decide)
  constructor
  · intro right
    by_contra missing
    have some : ∃ c ∈ chunks, newline ∉ c := by simpa using missing
    have short := length_seen_lt (l := []) List.not_mem_nil fits.nonempty some
    have all := right []
    rw [grep_eq [] fits zero, printed_nil, printed_nil, Option.some.injEq] at all
    rw [all, input] at short
    simp at short
  · intro each pattern
    have saw := seen_eq_lines (l := []) List.not_mem_nil input (fun line mem => (clean line mem).1) each
    rw [grep_eq pattern fits zero, saw]

/-- "ab" and "c" arrive as "ab\nc" and "\n". -/
theorem two_lines_printed :
    grep [98] [[97, 98, 10, 99], [10]] = some (printed [98] [[97, 98], [99]]) :=
  (prints_matching_lines_iff (by decide) (by decide) (by decide)).mpr (by decide) [98]

/-- "ab" arrives as "a" and "b\n": the "a" is lost, and with it the match. -/
theorem split_line_lost :
    let lines : List (List UInt8) := [[97, 98]]
    let chunks : List (List UInt8) := [[97], [98, 10]]
    (∀ line ∈ lines, newline ∉ line ∧ 0 ∉ line ∧ line.length + 1 < 1023) ∧
      chunks.flatten = Lines.join newline lines ∧ Fits [] chunks ∧
      printed [97] lines = [97, 98, 10] ∧ grep [97] chunks = some [] := by
  decide +kernel

end Xv6.Grep
