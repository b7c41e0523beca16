import Xv6.User.Shell.Parser

/-! The grammar of a command line. What the parsing functions return derives from it,
and they do return: both by one induction on the fuel. -/

namespace Xv6.Shell

/-! ## The grammar -/

/-- `redir ::= ('<' | '>' | '>>') word` -/
inductive IsRedir : Tok → List UInt8 → Redir (List UInt8) → Prop
  | input {w} : IsRedir (.sym lt) w ⟨w, oRdonly, 0⟩
  | output {w} : IsRedir (.sym gt) w ⟨w, oWronly ||| oCreate, 1⟩
  | append {w} : IsRedir .append w ⟨w, oWronly ||| oCreate, 1⟩

/-- `redir*` -/
inductive Redirs : List Tok → List (Redir (List UInt8)) → Prop
  | nil : Redirs [] []
  | cons {t w r ts rs} : IsRedir t w r → Redirs ts rs → Redirs (t :: .word w :: ts) (r :: rs)

/-- `(word redir*)*` -/
inductive Words : List Tok → List (List UInt8) → List (Redir (List UInt8)) → Prop
  | nil : Words [] [] []
  | cons {w ts rs us ws rs'} : Redirs ts rs → Words us ws rs' →
      Words (.word w :: ts ++ us) (w :: ws) (rs ++ rs')

inductive Part where
  | line
  | pipe
  | exec

/-- The tokens that derive from a part of a line, with the tree of the derivation. -/
inductive Derives : Part → List Tok → Cmd (List UInt8) → Prop
  /-- `line ::= pipe '&'*` -/
  | line {ts c} (n : Nat) : Derives .pipe ts c →
      Derives .line (ts ++ List.replicate n (.sym amp)) (c.backs n)
  /-- `line ::= pipe '&'* ';' line` -/
  | list {ts c us d} (n : Nat) : Derives .pipe ts c → Derives .line us d →
      Derives .line (ts ++ List.replicate n (.sym amp) ++ .sym semi :: us) (.list (c.backs n) d)
  /-- `pipe ::= exec` -/
  | single {ts c} : Derives .exec ts c → Derives .pipe ts c
  /-- `pipe ::= exec '|' pipe` -/
  | pipe {ts c us d} : Derives .exec ts c → Derives .pipe us d →
      Derives .pipe (ts ++ .sym bar :: us) (.pipe c d)
  /-- `exec ::= '(' line ')' redir*` -/
  | block {ts c us rs} : Derives .line ts c → Redirs us rs →
      Derives .exec (.sym lpar :: ts ++ .sym rpar :: us) (c.redirected rs)
  /-- `exec ::= redir* (word redir*)*` -/
  | simple {ts rs us ws rs'} : Redirs ts rs → Words us ws rs' → ws.length ≤ maxargs - 1 →
      Derives .exec (ts ++ us) ((Cmd.exec ws).redirected (rs ++ rs'))

/-! ## Rules for parsing functions -/

namespace Outcome

variable {α β : Type}

/-- A result satisfies `Q`, a panic may happen only if `P`, running out of fuel only if `F`. -/
def Sat (o : Outcome α) (Q : α → List UInt8 → Prop) (P F : Prop) : Prop :=
  match o with
  | .ok a s => Q a s
  | .panic _ => P
  | .fuel => F

variable {o : Outcome α} {Q Q' : α → List UInt8 → Prop} {P F F' : Prop}

theorem Sat.imp (h : o.Sat Q P F) (post : ∀ a s, Q a s → Q' a s) (fuel : F → F') :
    o.Sat Q' P F' := by
  cases o with
  | ok a s => exact post a s h
  | panic msg => exact h
  | fuel => exact fuel h

theorem Sat.bind {m : Parse α} {f : α → Parse β} {s : List UInt8} {R : β → List UInt8 → Prop}
    (first : (m s).Sat Q P F) (next : ∀ a s', Q a s' → (f a s').Sat R P F) :
    ((m >>= f) s).Sat R P F := by
  show (Parse.bind m f s).Sat R P F
  unfold Parse.bind
  cases run : m s with
  | ok a s' => rw [run] at first; exact next a s' first
  | panic msg => rw [run] at first; exact first
  | fuel => rw [run] at first; exact first

theorem Sat.gettoken {f : Token → Parse β} {s : List UInt8} {R : β → List UInt8 → Prop}
    (next : (f (Shell.gettoken s) (Shell.gettoken s).rest).Sat R P F) :
    ((Parse.gettoken >>= f) s).Sat R P F := next

/-- `if(peek(ps, es, toks))` -/
theorem Sat.peek {toks : List UInt8} {a b : Parse β} {s : List UInt8}
    {R : β → List UInt8 → Prop}
    (yes : Shell.peek s toks = true → (a (skip s)).Sat R P F)
    (no : Shell.peek s toks = false → (b (skip s)).Sat R P F) :
    ((Parse.peek toks >>= fun seen => if seen = true then a else b) s).Sat R P F := by
  show ((if Shell.peek s toks = true then a else b) (skip s)).Sat R P F
  split
  · exact yes ‹_›
  · exact no (Bool.eq_false_iff.mpr ‹_›)

/-- `if(p) panic(..)` -/
theorem Sat.ite {p : Prop} [Decidable p] {a b : Parse β} {s : List UInt8}
    {R : β → List UInt8 → Prop} (yes : p → (a s).Sat R P F) (no : ¬ p → (b s).Sat R P F) :
    ((if p then a else b) s).Sat R P F := by
  split
  · exact yes ‹_›
  · exact no ‹_›

end Outcome

/-! ## What has been read -/

/-- From `s` the tokens `ts` have been read up to `s'`, with `ws` among their words. -/
structure Read (s : List UInt8) (ts : List Tok) (ws : List Span) (s' : List UInt8) : Prop where
  suffix : s' <:+ s
  toks : tokens s = ts ++ tokens s'
  words : ∀ w ∈ ws, WordIn s w

namespace Read

variable {s s' s'' : List UInt8} {ts us : List Tok} {ws vs : List Span}

theorem skip (s : List UInt8) : Read s [] [] (skip s) :=
  ⟨skip_suffix s, by simp, by simp⟩

theorem trans (first : Read s ts ws s') (second : Read s' us vs s'') :
    Read s (ts ++ us) (ws ++ vs) s'' where
  suffix := second.suffix.trans first.suffix
  toks := by rw [first.toks, second.toks, List.append_assoc]
  words := by
    intro w mem
    rcases List.mem_append.mp mem with old | new
    · exact first.words w old
    · exact (second.words w new).mono first.suffix

theorem mono (h : Read s ts ws s') (sub : ∀ w ∈ vs, w ∈ ws) : Read s ts vs s' :=
  ⟨h.suffix, h.toks, fun w mem => h.words w (sub w mem)⟩

theorem of_skip (h : Read (Shell.skip s) ts ws s') : Read s ts ws s' := by
  simpa using (Read.skip s).trans h

/-- gettoken() where the next token is known -/
theorem token {t : Tok} (h : tokens s = t :: ts) : Read s [t] [] (gettoken s).rest :=
  ⟨(gettoken_cons h).suffix, by rw [h, (gettoken_cons h).rest]; rfl, by simp⟩

/-- gettoken() that returns 'a' -/
theorem word (h : (gettoken s).ret = wordCode) :
    Read s [.word (gettoken s).span.text] [(gettoken s).span] (gettoken s).rest := by
  cases eq : tokens s with
  | nil => rw [gettoken_nil eq] at h; exact absurd h (by decide)
  | cons t ts =>
    have got := gettoken_cons eq
    refine ⟨got.suffix, ?_, ?_⟩
    · rw [eq, got.rest, got.word.mp h]; rfl
    · intro w mem
      rw [List.mem_singleton.mp mem]
      exact got.found h

theorem length_le (h : Read s ts ws s') :
    (tokens s).length = ts.length + (tokens s').length := by
  rw [h.toks, List.length_append]

end Read

/-- peek() for symbols other than '>' -/
theorem peek_true_iff {toks : List UInt8} (sub : ∀ c ∈ toks, isSymbol c = true ∧ c ≠ gt)
    (s : List UInt8) :
    peek s toks = true ↔ ∃ c ∈ toks, ∃ ts, tokens s = .sym c :: ts := by
  rw [peek_eq fun c mem => (sub c mem).1]
  cases tokens s with
  | nil => simp
  | cons t ts =>
    cases t with
    | sym c => simp [Tok.starts]
    | append =>
      have absent : gt ∉ toks := fun mem => (sub gt mem).2 rfl
      simp [Tok.starts, absent]
    | word w => simp [Tok.starts]

theorem peek_one_iff {c : UInt8} (symbol : isSymbol c = true) (single : c ≠ gt) (s : List UInt8) :
    peek s [c] = true ↔ ∃ ts, tokens s = .sym c :: ts := by
  rw [peek_true_iff (by simpa using ⟨symbol, single⟩)]
  simp

/-- peek() for a redirection -/
theorem peek_redir_iff (s : List UInt8) :
    peek s [lt, gt] = true ↔ ∃ t ts, tokens s = t :: ts ∧ (t = .sym lt ∨ t = .sym gt ∨ t = .append) := by
  rw [peek_eq (by decide +kernel)]
  cases tokens s with
  | nil => simp
  | cons t ts =>
    cases t with
    | sym c => simp [Tok.starts]
    | append => simp [Tok.starts]
    | word w => simp [Tok.starts]

/-! ## Soundness and termination -/

def Redir.map {W V : Type} (f : W → V) (r : Redir W) : Redir V := ⟨f r.file, r.mode, r.fd⟩

theorem map_redirected {W V : Type} (f : W → V) (c : Cmd W) (rs : List (Redir W)) :
    (c.redirected rs).map f = (c.map f).redirected (rs.map (Redir.map f)) := by
  induction rs generalizing c with
  | nil => rfl
  | cons r rs ih => exact ih (.redir c r)

theorem words_redirected {W : Type} (c : Cmd W) (rs : List (Redir W)) :
    (c.redirected rs).words = c.words ++ rs.map Redir.file := by
  induction rs generalizing c with
  | nil => simp [Cmd.redirected]
  | cons r rs ih =>
    rw [show c.redirected (r :: rs) = (Cmd.redir c r).redirected rs from rfl, ih]
    simp [Cmd.words]

theorem map_backs {W V : Type} (f : W → V) (n : Nat) (c : Cmd W) :
    (c.backs n).map f = (c.map f).backs n := by
  induction n generalizing c with
  | zero => rfl
  | succ n ih => exact ih (.back c)

theorem words_backs {W : Type} (n : Nat) (c : Cmd W) : (c.backs n).words = c.words := by
  induction n generalizing c with
  | zero => rfl
  | succ n ih => exact ih (.back c)

theorem words_map {W V : Type} (f : W → V) (c : Cmd W) : (c.map f).words = c.words.map f := by
  induction c with
  | exec argv => rfl
  | redir c r ih => rw [Cmd.map, Cmd.words, Cmd.words, ih, List.map_append]; rfl
  | pipe left right ihLeft ihRight =>
    rw [Cmd.map, Cmd.words, Cmd.words, ihLeft, ihRight, List.map_append]
  | list left right ihLeft ihRight =>
    rw [Cmd.map, Cmd.words, Cmd.words, ihLeft, ihRight, List.map_append]
  | back c ih => exact ih

theorem redirOf_spec {t : Tok} (h : t = .sym lt ∨ t = .sym gt ∨ t = .append) (file : Span)
    (rs : List (Redir Span)) :
    ∃ r, redirOf t.code file rs = rs ++ [r] ∧ r.file = file ∧
      IsRedir t file.text (r.map Span.text) := by
  rcases h with rfl | rfl | rfl
  · exact ⟨_, rfl, rfl, .input⟩
  · exact ⟨_, rfl, rfl, .output⟩
  · exact ⟨_, rfl, rfl, .append⟩

theorem parseredirs_sound (n : Nat) (rs : List (Redir Span)) (s : List UInt8) :
    (parseredirs n rs s).Sat
      (fun rs' s' => ∃ ts new, rs' = rs ++ new ∧ Read s ts (new.map Redir.file) s' ∧
        Redirs ts (new.map (Redir.map Span.text)))
      True (n < (tokens s).length + 1) := by
  induction n generalizing rs s with
  | zero => exact Nat.succ_pos _
  | succ n ih =>
    unfold parseredirs
    apply Outcome.Sat.peek
    · intro seen
      obtain ⟨t, ts, eq, op⟩ := (peek_redir_iff s).mp seen
      rw [← tokens_skip] at eq
      apply Outcome.Sat.gettoken
      apply Outcome.Sat.gettoken
      apply Outcome.Sat.ite
      · exact fun _ => trivial
      · intro isWord
        have first := (Read.token eq).of_skip
        have file := Read.word (not_not.mp isWord)
        rw [(gettoken_cons eq).code]
        obtain ⟨r, rsEq, fileEq, isRedir⟩ :=
          redirOf_spec op (gettoken (gettoken (skip s)).rest).span rs
        rw [rsEq]
        refine (ih _ _).imp ?_ ?_
        · rintro rs' s' ⟨us, new, rfl, read, redirs⟩
          refine ⟨_, r :: new, by simp, ?_, .cons isRedir redirs⟩
          have whole := (first.trans file).trans read
          simpa [fileEq] using whole
        · have before := (first.trans file).length_le
          simp only [List.length_append, List.length_cons, List.length_nil] at before
          omega
    · intro _
      exact ⟨[], [], by simp, Read.skip s, .nil⟩

theorem parsebacks_sound (n : Nat) (c : Cmd Span) (s : List UInt8) :
    (parsebacks n c s).Sat
      (fun c' s' => ∃ k, c' = c.backs k ∧ Read s (List.replicate k (.sym amp)) [] s')
      True (n < (tokens s).length + 1) := by
  induction n generalizing c s with
  | zero => exact Nat.succ_pos _
  | succ n ih =>
    unfold parsebacks
    apply Outcome.Sat.peek
    · intro seen
      obtain ⟨ts, eq⟩ := (peek_one_iff (by decide) (by decide) s).mp seen
      rw [← tokens_skip] at eq
      have first := (Read.token eq).of_skip
      apply Outcome.Sat.gettoken
      refine (ih _ _).imp ?_ ?_
      · rintro c' s' ⟨k, rfl, read⟩
        exact ⟨k + 1, rfl, first.trans read⟩
      · have before := first.length_le
        simp only [List.length_cons, List.length_nil] at before
        omega
    · intro _
      exact ⟨0, rfl, Read.skip s⟩

theorem parseargs_sound (n : Nat) (argv : List Span) (rs : List (Redir Span)) (s : List UInt8)
    (room : argv.length < maxargs) :
    (parseargs n argv rs s).Sat
      (fun c s' => ∃ ts new newRs, c = (Cmd.exec (argv ++ new)).redirected (rs ++ newRs) ∧
        Read s ts (new ++ newRs.map Redir.file) s' ∧
        Words ts (new.map Span.text) (newRs.map (Redir.map Span.text)) ∧
        (argv ++ new).length < maxargs)
      True (n < (tokens s).length + 1) := by
  induction n generalizing argv rs s with
  | zero => exact Nat.succ_pos _
  | succ n ih =>
    have done {s' : List UInt8} (read : Read s [] [] s') :
        ∃ ts new newRs, (Cmd.exec argv).redirected rs =
            (Cmd.exec (argv ++ new)).redirected (rs ++ newRs) ∧
          Read s ts (new ++ newRs.map Redir.file) s' ∧
          Words ts (new.map Span.text) (newRs.map (Redir.map Span.text)) ∧
          (argv ++ new).length < maxargs :=
      ⟨[], [], [], by simp, read, .nil, by simpa using room⟩
    unfold parseargs
    apply Outcome.Sat.peek
    · exact fun _ => done (Read.skip s)
    · intro _
      apply Outcome.Sat.gettoken
      apply Outcome.Sat.ite
      · intro last
        apply done
        cases eq : tokens (skip s) with
        | nil =>
          rw [gettoken_nil eq]
          rw [tokens_skip] at eq
          exact ⟨List.nil_suffix, by rw [eq]; rfl, by simp⟩
        | cons t ts => exact absurd last (gettoken_cons eq).real
      · intro _
        apply Outcome.Sat.ite
        · exact fun _ => trivial
        · intro isWord
          apply Outcome.Sat.ite
          · exact fun _ => trivial
          · intro few
            have word := (Read.word (not_not.mp isWord)).of_skip
            have before := word.length_le
            simp only [List.length_cons, List.length_nil] at before
            refine Outcome.Sat.bind ((parseredirs_sound n rs _).imp (fun _ _ post => post) ?_) ?_
            · omega
            · rintro rs' s' ⟨us, newRs, rfl, read, redirs⟩
              have between := read.length_le
              refine (ih _ _ _ ?_).imp ?_ ?_
              · simp only [List.length_append, List.length_cons, List.length_nil]
                omega
              · rintro c s'' ⟨vs, new, newRs', rfl, read', words, small⟩
                refine ⟨.word (gettoken (skip s)).span.text :: us ++ vs,
                  (gettoken (skip s)).span :: new, newRs ++ newRs', by simp, ?_, ?_,
                  by simpa using small⟩
                · refine ((word.trans read).trans read').mono ?_
                  intro w mem
                  simp only [List.cons_append, List.mem_cons, List.mem_append, List.map_append,
                    List.nil_append] at mem ⊢
                  tauto
                · rw [List.map_append]
                  exact .cons redirs words
              · omega

/-- One of the parsing functions, with fuel `n`, reads what derives from `p`; it does
not run out of fuel from `4 * length + k` on. -/
def Sound (p : Part) (k n : Nat) (m : Parse (Cmd Span)) : Prop :=
  ∀ s, (m s).Sat
    (fun c s' => ∃ ts, Read s ts c.words s' ∧ Derives p ts (c.map Span.text))
    True (n < 4 * (tokens s).length + k)

theorem line_sound {n : Nat} (pipe : Sound .pipe 3 n (parsepipe n))
    (line : Sound .line 4 n (parseline n)) : Sound .line 4 (n + 1) (parseline (n + 1)) := by
  intro s
  unfold parseline
  refine Outcome.Sat.bind ((pipe s).imp (fun _ _ post => post) (by omega)) ?_
  rintro c s₁ ⟨ts, read, derives⟩
  have len₁ := read.length_le
  refine Outcome.Sat.bind ((parsebacks_sound n c s₁).imp (fun _ _ post => post) (by omega)) ?_
  rintro _ s₂ ⟨k, rfl, amps⟩
  have len₂ := amps.length_le
  apply Outcome.Sat.peek
  · intro seen
    obtain ⟨us, eq⟩ := (peek_one_iff (by decide) (by decide) s₂).mp seen
    rw [← tokens_skip] at eq
    have mark := (Read.token eq).of_skip
    have len₃ := mark.length_le
    simp only [List.length_cons, List.length_nil] at len₃
    apply Outcome.Sat.gettoken
    refine Outcome.Sat.bind ((line _).imp (fun _ _ post => post) (by omega)) ?_
    rintro d s₃ ⟨vs, read', derives'⟩
    have tree := Derives.list k derives derives'
    rw [← map_backs] at tree
    refine ⟨_, ?_, tree⟩
    have whole := ((read.trans amps).trans mark).trans read'
    simpa [Cmd.words, words_backs] using whole
  · intro _
    have tree := Derives.line k derives
    rw [← map_backs] at tree
    refine ⟨_, ?_, tree⟩
    simpa [words_backs] using (read.trans amps).trans (Read.skip s₂)

theorem pipe_sound {n : Nat} (exec : Sound .exec 2 n (parseexec n))
    (pipe : Sound .pipe 3 n (parsepipe n)) : Sound .pipe 3 (n + 1) (parsepipe (n + 1)) := by
  intro s
  unfold parsepipe
  refine Outcome.Sat.bind ((exec s).imp (fun _ _ post => post) (by omega)) ?_
  rintro c s₁ ⟨ts, read, derives⟩
  have len₁ := read.length_le
  apply Outcome.Sat.peek
  · intro seen
    obtain ⟨us, eq⟩ := (peek_one_iff (by decide) (by decide) s₁).mp seen
    rw [← tokens_skip] at eq
    have mark := (Read.token eq).of_skip
    have len₂ := mark.length_le
    simp only [List.length_cons, List.length_nil] at len₂
    apply Outcome.Sat.gettoken
    refine Outcome.Sat.bind ((pipe _).imp (fun _ _ post => post) (by omega)) ?_
    rintro d s₂ ⟨vs, read', derives'⟩
    refine ⟨_, ?_, .pipe derives derives'⟩
    simpa [Cmd.words] using (read.trans mark).trans read'
  · intro _
    refine ⟨_, ?_, .single derives⟩
    simpa using read.trans (Read.skip s₁)

theorem block_sound {n : Nat} (line : Sound .line 4 n (parseline n)) :
    Sound .exec 1 (n + 1) (parseblock (n + 1)) := by
  intro s
  unfold parseblock
  apply Outcome.Sat.peek
  · intro seen
    obtain ⟨us, eq⟩ := (peek_one_iff (by decide) (by decide) s).mp seen
    rw [← tokens_skip] at eq
    have opened := (Read.token eq).of_skip
    have len₁ := opened.length_le
    simp only [List.length_cons, List.length_nil] at len₁
    apply Outcome.Sat.gettoken
    refine Outcome.Sat.bind ((line _).imp (fun _ _ post => post) (by omega)) ?_
    rintro c s₁ ⟨ts, read, derives⟩
    have len₂ := read.length_le
    apply Outcome.Sat.peek
    · intro closing
      obtain ⟨vs, eq'⟩ := (peek_one_iff (by decide) (by decide) s₁).mp closing
      rw [← tokens_skip] at eq'
      have closed := (Read.token eq').of_skip
      have len₃ := closed.length_le
      simp only [List.length_cons, List.length_nil] at len₃
      apply Outcome.Sat.gettoken
      refine Outcome.Sat.bind
        ((parseredirs_sound n [] _).imp (fun _ _ post => post) (by omega)) ?_
      rintro _ s₂ ⟨ws, new, rfl, read', redirs⟩
      have tree := Derives.block derives redirs
      rw [← map_redirected] at tree
      refine ⟨_, ?_, tree⟩
      simpa [words_redirected] using ((opened.trans read).trans closed).trans read'
    · exact fun _ => trivial
  · exact fun _ => trivial

theorem exec_sound {n : Nat} (block : Sound .exec 1 n (parseblock n)) :
    Sound .exec 2 (n + 1) (parseexec (n + 1)) := by
  intro s
  unfold parseexec
  apply Outcome.Sat.peek
  · intro _
    refine (block (skip s)).imp ?_ (by rw [tokens_skip]; omega)
    rintro c s' ⟨ts, read, derives⟩
    exact ⟨ts, read.of_skip, derives⟩
  · intro _
    refine Outcome.Sat.bind
      ((parseredirs_sound n [] _).imp (fun _ _ post => post) (by rw [tokens_skip]; omega)) ?_
    rintro _ s₁ ⟨ts, new, rfl, read, redirs⟩
    have len₁ := read.of_skip.length_le
    refine (parseargs_sound n [] _ s₁ (by decide)).imp ?_ (by omega)
    rintro c s₂ ⟨us, argv, newRs, rfl, read', words, small⟩
    refine ⟨_, (read.of_skip.trans read').mono ?_, ?_⟩
    · intro w mem
      simp only [words_redirected, Cmd.words, List.nil_append, List.mem_append,
        List.map_append] at mem ⊢
      tauto
    · rw [map_redirected, List.nil_append, List.map_append]
      refine .simple redirs words ?_
      rw [List.nil_append] at small
      rw [List.length_map]
      exact Nat.le_pred_of_lt small

/-- Every fuel, all four functions at once. -/
theorem parts_sound (n : Nat) :
    Sound .line 4 n (parseline n) ∧ Sound .pipe 3 n (parsepipe n) ∧
      Sound .exec 2 n (parseexec n) ∧ Sound .exec 1 n (parseblock n) := by
  induction n with
  | zero =>
    refine ⟨?_, ?_, ?_, ?_⟩ <;> exact fun s => Nat.succ_pos _
  | succ n ih =>
    obtain ⟨line, pipe, exec, block⟩ := ih
    exact ⟨line_sound pipe line, pipe_sound exec pipe, exec_sound block, block_sound line⟩

end Xv6.Shell
