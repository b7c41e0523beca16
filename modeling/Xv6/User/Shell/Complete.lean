import Xv6.User.Shell.Grammar

/-! The parsing functions do not panic on tokens that derive from the grammar. The loops
follow the lists of the derivation, the functions its rules. -/

namespace Xv6.Shell

/-- The symbols that may follow a part. -/
def Part.follow : Part → List UInt8
  | .line => [rpar]
  | .pipe => [rpar, amp, semi]
  | .exec => [rpar, amp, semi, bar]

def Follows (p : Part) (us : List Tok) : Prop :=
  us = [] ∨ ∃ c ∈ p.follow, ∃ vs, us = .sym c :: vs

theorem peek_false {toks : List UInt8} (sub : ∀ c ∈ toks, isSymbol c = true) {s : List UInt8}
    {t : Tok} {ts : List Tok} (eq : tokens s = t :: ts) (other : t.starts toks = false) :
    peek s toks = false := by
  rw [peek_eq sub, eq]
  exact other

theorem peek_nil {toks : List UInt8} (sub : ∀ c ∈ toks, isSymbol c = true) {s : List UInt8}
    (eq : tokens s = []) : peek s toks = false := by
  rw [peek_eq sub, eq]
  rfl

/-- After a part, peek() does not see a symbol that cannot follow it. -/
theorem peek_follows {p : Part} {us : List Tok} {toks : List UInt8} (follows : Follows p us)
    (sub : ∀ c ∈ toks, isSymbol c = true) (apart : ∀ c ∈ p.follow, toks.contains c = false)
    {s : List UInt8} (eq : tokens s = us) : peek s toks = false := by
  rcases follows with rfl | ⟨c, mem, vs, rfl⟩
  · exact peek_nil sub eq
  · exact peek_false sub eq (apart c mem)

/-- A word can be read where it is the next token. -/
theorem gettoken_of_word {s : List UInt8} {w : List UInt8} {ts : List Tok}
    (eq : tokens s = .word w :: ts) :
    (gettoken s).ret = wordCode ∧ (gettoken s).span.text = w ∧ tokens (gettoken s).rest = ts := by
  have got := gettoken_cons eq
  have isWord : (gettoken s).ret = wordCode := got.code
  exact ⟨isWord, (Tok.word.inj (got.word.mp isWord)).symm, got.rest⟩

/-- No redirection starts here. -/
def NoRedir (us : List Tok) : Prop := ∀ t ∈ us.head?, t.starts [lt, gt] = false

theorem NoRedir.peek {us : List Tok} (h : NoRedir us) {s : List UInt8} (eq : tokens s = us) :
    peek s [lt, gt] = false := by
  rw [peek_eq (by decide +kernel), eq]
  cases us with
  | nil => rfl
  | cons t us => exact h t rfl

theorem IsRedir.op {t : Tok} {w : List UInt8} {r : Redir (List UInt8)} (h : IsRedir t w r) :
    t = .sym lt ∨ t = .sym gt ∨ t = .append := by
  cases h <;> simp

theorem IsRedir.unique {t : Tok} {w : List UInt8} {r r' : Redir (List UInt8)}
    (h : IsRedir t w r) (h' : IsRedir t w r') : r = r' := by
  cases h <;> cases h' <;> rfl

theorem parseredirs_complete {ts us : List Tok} {new : List (Redir (List UInt8))}
    (redirs : Redirs ts new) (stop : NoRedir us) (n : Nat) (rs : List (Redir Span))
    {s : List UInt8} (eq : tokens s = ts ++ us) :
    (parseredirs n rs s).Sat
      (fun rs' s' => tokens s' = us ∧
        rs'.map (Redir.map Span.text) = rs.map (Redir.map Span.text) ++ new)
      False True := by
  induction redirs generalizing n rs s with
  | nil =>
    cases n with
    | zero => trivial
    | succ n =>
      unfold parseredirs
      apply Outcome.Sat.peek
      · intro seen
        rw [stop.peek eq] at seen
        cases seen
      · exact fun _ => ⟨by rw [tokens_skip]; exact eq, by simp⟩
  | @cons t w r ts new isRedir _ ih =>
    cases n with
    | zero => trivial
    | succ n =>
      unfold parseredirs
      apply Outcome.Sat.peek
      · intro _
        have eq' : tokens (skip s) = t :: (.word w :: ts ++ us) := by rw [tokens_skip]; exact eq
        have op := gettoken_cons eq'
        obtain ⟨isWord, text, rest⟩ := gettoken_of_word (op.rest.trans rfl)
        apply Outcome.Sat.gettoken
        apply Outcome.Sat.gettoken
        apply Outcome.Sat.ite
        · exact fun notWord => notWord isWord
        · intro _
          obtain ⟨r', rsEq, -, isRedir'⟩ :=
            redirOf_spec isRedir.op (gettoken (gettoken (skip s)).rest).span rs
          rw [text] at isRedir'
          rw [op.code, rsEq]
          refine (ih n (rs ++ [r']) rest).imp ?_ id
          rintro rs' s' ⟨left, map⟩
          exact ⟨left, by simp [map, isRedir'.unique isRedir]⟩
      · intro unseen
        have seen := (peek_redir_iff s).mpr ⟨t, _, eq, isRedir.op⟩
        rw [unseen] at seen
        cases seen

theorem parsebacks_complete (k : Nat) {us : List Tok} (stop : us.head? ≠ some (.sym amp)) (n : Nat)
    (c : Cmd Span) {s : List UInt8} (eq : tokens s = List.replicate k (.sym amp) ++ us) :
    (parsebacks n c s).Sat (fun c' s' => tokens s' = us ∧ c' = c.backs k) False True := by
  induction k generalizing n c s with
  | zero =>
    cases n with
    | zero => trivial
    | succ n =>
      unfold parsebacks
      apply Outcome.Sat.peek
      · intro seen
        obtain ⟨ts, eq'⟩ := (peek_one_iff (by decide) (by decide) s).mp seen
        refine absurd ?_ stop
        rw [show us = tokens s from eq.symm, eq']
        rfl
      · exact fun _ => ⟨by rw [tokens_skip]; exact eq, rfl⟩
  | succ k ih =>
    cases n with
    | zero => trivial
    | succ n =>
      have eq' : tokens (skip s) = .sym amp :: (List.replicate k (.sym amp) ++ us) := by
        rw [tokens_skip]; exact eq
      unfold parsebacks
      apply Outcome.Sat.peek
      · intro _
        exact Outcome.Sat.gettoken (ih n (.back c) (gettoken_cons eq').rest)
      · intro unseen
        have seen := (peek_one_iff (by decide) (by decide) s).mpr ⟨_, eq⟩
        rw [unseen] at seen
        cases seen

theorem noRedir_words {ts us : List Tok} {ws : List (List UInt8)} {rs : List (Redir (List UInt8))}
    (words : Words ts ws rs) (follows : Follows .exec us) : NoRedir (ts ++ us) := by
  cases words with
  | nil =>
    rcases follows with rfl | ⟨c, mem, vs, rfl⟩
    · exact nofun
    · rintro t head
      obtain rfl := Option.some.inj head
      exact (by decide +kernel : ∀ c ∈ Part.exec.follow, (Tok.sym c).starts [lt, gt] = false) c mem
  | cons _ _ =>
    rintro t head
    obtain rfl := Option.some.inj head
    rfl

theorem parseargs_complete {ts us : List Tok} {ws : List (List UInt8)}
    {new : List (Redir (List UInt8))} (words : Words ts ws new) (follows : Follows .exec us)
    (n : Nat) (argv : List Span) (rs : List (Redir Span)) {s : List UInt8}
    (room : argv.length + ws.length < maxargs) (eq : tokens s = ts ++ us) :
    (parseargs n argv rs s).Sat
      (fun c s' => tokens s' = us ∧ c.map Span.text =
        (Cmd.exec (argv.map Span.text ++ ws)).redirected (rs.map (Redir.map Span.text) ++ new))
      False True := by
  induction words generalizing n argv rs s with
  | nil =>
    have tree : ((Cmd.exec argv).redirected rs).map Span.text =
        (Cmd.exec (argv.map Span.text ++ [])).redirected
          (rs.map (Redir.map Span.text) ++ []) := by
      rw [map_redirected, List.append_nil, List.append_nil]
      rfl
    have eq' : tokens (skip s) = us := by rw [tokens_skip]; exact eq
    cases n with
    | zero => trivial
    | succ n =>
      unfold parseargs
      apply Outcome.Sat.peek
      · exact fun _ => ⟨eq', tree⟩
      · intro unseen
        rcases follows with rfl | ⟨c, mem, vs, rfl⟩
        · apply Outcome.Sat.gettoken
          apply Outcome.Sat.ite
          · intro _
            rw [gettoken_nil eq']
            exact ⟨rfl, tree⟩
          · intro more
            rw [gettoken_nil eq'] at more
            exact absurd rfl more
        · have ends : c ∈ [bar, rpar, amp, semi] :=
            (by decide +kernel : ∀ c ∈ Part.exec.follow, c ∈ [bar, rpar, amp, semi]) c mem
          have seen := (peek_true_iff (by decide +kernel) s).mpr ⟨c, ends, vs, eq⟩
          rw [unseen] at seen
          cases seen
  | @cons w ts₁ rs₁ ts₂ ws rs₂ redirs words ih =>
    cases n with
    | zero => trivial
    | succ n =>
      have eq' : tokens (skip s) = .word w :: (ts₁ ++ (ts₂ ++ us)) := by
        rw [tokens_skip, eq]; simp
      obtain ⟨isWord, text, rest⟩ := gettoken_of_word eq'
      simp only [List.length_cons] at room
      unfold parseargs
      apply Outcome.Sat.peek
      · intro seen
        obtain ⟨c, -, vs, eq''⟩ := (peek_true_iff (by decide +kernel) s).mp seen
        rw [← tokens_skip, eq'] at eq''
        cases eq''
      · intro _
        apply Outcome.Sat.gettoken
        apply Outcome.Sat.ite
        · intro last
          rw [isWord] at last
          exact absurd last (by decide)
        · intro _
          apply Outcome.Sat.ite
          · exact fun notWord => notWord isWord
          · intro _
            apply Outcome.Sat.ite
            · intro many
              show False
              omega
            · intro _
              refine Outcome.Sat.bind
                (parseredirs_complete redirs (noRedir_words words follows) n rs rest) ?_
              rintro rs' s' ⟨left, map⟩
              refine (ih n _ rs' ?_ left).imp ?_ id
              · simp only [List.length_append, List.length_cons, List.length_nil]
                omega
              · rintro c s'' ⟨left', tree⟩
                refine ⟨left', ?_⟩
                rw [tree, map]
                simp [text]

/-- The parsing function of each part. -/
def Part.parse : Part → Nat → Parse (Cmd Span)
  | .line => parseline
  | .pipe => parsepipe
  | .exec => parseexec

theorem not_lpar_of_simple {ts us vs : List Tok} {rs rs' : List (Redir (List UInt8))}
    {ws : List (List UInt8)} (redirs : Redirs ts rs) (words : Words us ws rs')
    (follows : Follows .exec vs) {s : List UInt8} (eq : tokens s = ts ++ us ++ vs) :
    peek s [lpar] = false := by
  cases redirs with
  | cons isRedir _ =>
    refine peek_false (by decide +kernel) eq ?_
    rcases isRedir.op with rfl | rfl | rfl <;> rfl
  | nil =>
    cases words with
    | cons _ _ => exact peek_false (by decide +kernel) eq rfl
    | nil => exact peek_follows follows (by decide +kernel) (by decide +kernel) eq

/-- Where the tokens `ts` come next, and something that may follow `p`, the part is
read with the given tree, unless the fuel runs out. -/
def Complete (p : Part) (ts : List Tok) (tree : Cmd (List UInt8)) : Prop :=
  ∀ ⦃us⦄, Follows p us → ∀ n ⦃s⦄, tokens s = ts ++ us →
    (p.parse n s).Sat (fun c s' => tokens s' = us ∧ c.map Span.text = tree) False True

theorem follows_cons {p : Part} {c : UInt8} (mem : c ∈ p.follow) (us : List Tok) :
    Follows p (.sym c :: us) :=
  .inr ⟨c, mem, us, rfl⟩

theorem Follows.weaken {p q : Part} {us : List Tok} (h : Follows p us)
    (sub : ∀ c ∈ p.follow, c ∈ q.follow) : Follows q us := by
  rcases h with none | ⟨c, mem, vs, eq⟩
  · exact .inl none
  · exact .inr ⟨c, sub c mem, vs, eq⟩

theorem Follows.amps {us : List Tok} (h : Follows .pipe us) (k : Nat) :
    Follows .pipe (List.replicate k (.sym amp) ++ us) := by
  cases k with
  | zero => exact h
  | succ k => exact follows_cons (by decide) _

theorem Follows.head_ne {p : Part} {us : List Tok} (h : Follows p us) {c : UInt8}
    (apart : c ∉ p.follow) : us.head? ≠ some (.sym c) := by
  rcases h with rfl | ⟨d, mem, vs, rfl⟩
  · exact nofun
  · intro head
    cases head
    exact apart mem

/-- parseline() up to the end of its loop. -/
theorem parsebacks_after {ts us : List Tok} {tree : Cmd (List UInt8)} (pipe : Complete .pipe ts tree)
    (k : Nat) (follows : Follows .pipe us) (stop : us.head? ≠ some (.sym amp)) (n : Nat)
    {s : List UInt8} (eq : tokens s = ts ++ List.replicate k (.sym amp) ++ us) {β : Type}
    {f : Cmd Span → Parse β} {R : β → List UInt8 → Prop}
    (next : ∀ c s', tokens s' = us → c.map Span.text = tree.backs k →
      (f c s').Sat R False True) :
    ((parsepipe n >>= fun c => parsebacks n c >>= f) s).Sat R False True := by
  rw [List.append_assoc] at eq
  refine Outcome.Sat.bind (pipe (follows.amps k) n eq) ?_
  rintro c s' ⟨left, rfl⟩
  refine Outcome.Sat.bind (parsebacks_complete k stop n c left) ?_
  rintro c' s'' ⟨left', rfl⟩
  exact next _ _ left' (map_backs _ _ _)

theorem line_complete {ts : List Tok} {tree : Cmd (List UInt8)} (pipe : Complete .pipe ts tree)
    (k : Nat) : Complete .line (ts ++ List.replicate k (.sym amp)) (tree.backs k) := by
  intro us follows n s eq
  cases n with
  | zero => trivial
  | succ n =>
    show (parseline (n + 1) s).Sat _ _ _
    unfold parseline
    refine parsebacks_after pipe k (follows.weaken (by decide +kernel)) (follows.head_ne (by decide)) n eq ?_
    intro c s' left treeEq
    apply Outcome.Sat.peek
    · intro seen
      rw [peek_follows follows (by decide +kernel) (by decide +kernel) left] at seen
      cases seen
    · exact fun _ => ⟨by rw [tokens_skip]; exact left, treeEq⟩

theorem list_complete {ts us : List Tok} {tree right : Cmd (List UInt8)}
    (pipe : Complete .pipe ts tree) (line : Complete .line us right) (k : Nat) :
    Complete .line (ts ++ List.replicate k (.sym amp) ++ .sym semi :: us)
      (.list (tree.backs k) right) := by
  intro vs follows n s eq
  cases n with
  | zero => trivial
  | succ n =>
    show (parseline (n + 1) s).Sat _ _ _
    unfold parseline
    have semiFollows : Follows .pipe (.sym semi :: us ++ vs) := follows_cons (by decide) _
    rw [List.append_assoc] at eq
    refine parsebacks_after pipe k semiFollows (by simp [semi, amp]) n eq ?_
    intro c s' left treeEq
    apply Outcome.Sat.peek
    · intro _
      apply Outcome.Sat.gettoken
      rw [← tokens_skip] at left
      refine Outcome.Sat.bind (line follows n (gettoken_cons left).rest) ?_
      rintro d s'' ⟨left', rightEq⟩
      exact ⟨left', by rw [← treeEq, ← rightEq]; rfl⟩
    · intro unseen
      rw [(peek_one_iff (by decide) (by decide) s').mpr ⟨_, left⟩] at unseen
      cases unseen

theorem single_complete {ts : List Tok} {tree : Cmd (List UInt8)} (exec : Complete .exec ts tree) :
    Complete .pipe ts tree := by
  intro us follows n s eq
  cases n with
  | zero => trivial
  | succ n =>
    show (parsepipe (n + 1) s).Sat _ _ _
    unfold parsepipe
    refine Outcome.Sat.bind (exec (follows.weaken (by decide +kernel)) n eq) ?_
    rintro c s' ⟨left, treeEq⟩
    apply Outcome.Sat.peek
    · intro seen
      rw [peek_follows follows (by decide +kernel) (by decide +kernel) left] at seen
      cases seen
    · exact fun _ => ⟨by rw [tokens_skip]; exact left, treeEq⟩

theorem pipe_complete {ts us : List Tok} {tree right : Cmd (List UInt8)}
    (exec : Complete .exec ts tree) (pipe : Complete .pipe us right) :
    Complete .pipe (ts ++ .sym bar :: us) (.pipe tree right) := by
  intro vs follows n s eq
  cases n with
  | zero => trivial
  | succ n =>
    show (parsepipe (n + 1) s).Sat _ _ _
    unfold parsepipe
    rw [List.append_assoc] at eq
    refine Outcome.Sat.bind (exec (follows_cons (by decide) _) n eq) ?_
    rintro c s' ⟨left, treeEq⟩
    apply Outcome.Sat.peek
    · intro _
      apply Outcome.Sat.gettoken
      rw [← tokens_skip] at left
      refine Outcome.Sat.bind (pipe follows n (gettoken_cons left).rest) ?_
      rintro d s'' ⟨left', rightEq⟩
      exact ⟨left', by rw [← treeEq, ← rightEq]; rfl⟩
    · intro unseen
      rw [(peek_one_iff (by decide) (by decide) s').mpr ⟨_, left⟩] at unseen
      cases unseen

theorem Follows.noRedir {us : List Tok} (h : Follows .exec us) : NoRedir us :=
  noRedir_words .nil h

theorem block_complete {ts us : List Tok} {tree : Cmd (List UInt8)}
    {rs : List (Redir (List UInt8))} (line : Complete .line ts tree) (redirs : Redirs us rs) :
    Complete .exec (.sym lpar :: ts ++ .sym rpar :: us) (tree.redirected rs) := by
  intro vs follows n s eq
  have eq₀ : tokens s = .sym lpar :: (ts ++ .sym rpar :: (us ++ vs)) := by rw [eq]; simp
  have opened := (peek_one_iff (by decide) (by decide) s).mpr ⟨_, eq₀⟩
  have eq₁ : tokens (skip s) = .sym lpar :: (ts ++ .sym rpar :: (us ++ vs)) := by
    rw [tokens_skip, eq₀]
  have opened' := (peek_one_iff (by decide) (by decide) (skip s)).mpr ⟨_, eq₁⟩
  match n with
  | 0 => trivial
  | 1 =>
    show (parseexec 1 s).Sat _ _ _
    unfold parseexec
    exact Outcome.Sat.peek (fun _ => trivial) fun _ => trivial
  | n + 2 =>
    show (parseexec (n + 2) s).Sat _ _ _
    unfold parseexec
    apply Outcome.Sat.peek
    · intro _
      unfold parseblock
      apply Outcome.Sat.peek
      · intro _
        apply Outcome.Sat.gettoken
        rw [← tokens_skip] at eq₁
        refine Outcome.Sat.bind
          (line (follows_cons (by decide) _) n (gettoken_cons eq₁).rest) ?_
        rintro c s' ⟨left, treeEq⟩
        apply Outcome.Sat.peek
        · intro _
          apply Outcome.Sat.gettoken
          rw [← tokens_skip] at left
          refine Outcome.Sat.bind
            (parseredirs_complete redirs follows.noRedir n [] (gettoken_cons left).rest) ?_
          rintro rs' s'' ⟨left', map⟩
          refine ⟨left', ?_⟩
          rw [map_redirected, treeEq, map]
          rfl
        · intro unseen
          rw [(peek_one_iff (by decide) (by decide) s').mpr ⟨_, left⟩] at unseen
          cases unseen
      · intro unseen
        rw [opened'] at unseen
        cases unseen
    · intro unseen
      rw [opened] at unseen
      cases unseen

theorem simple_complete {ts us : List Tok} {rs rs' : List (Redir (List UInt8))}
    {ws : List (List UInt8)} (redirs : Redirs ts rs) (words : Words us ws rs')
    (few : ws.length ≤ maxargs - 1) :
    Complete .exec (ts ++ us) ((Cmd.exec ws).redirected (rs ++ rs')) := by
  intro vs follows n s eq
  cases n with
  | zero => trivial
  | succ n =>
    show (parseexec (n + 1) s).Sat _ _ _
    unfold parseexec
    apply Outcome.Sat.peek
    · intro seen
      rw [not_lpar_of_simple redirs words follows eq] at seen
      cases seen
    · intro _
      have eq' : tokens (skip s) = ts ++ (us ++ vs) := by rw [tokens_skip, eq, List.append_assoc]
      refine Outcome.Sat.bind
        (parseredirs_complete redirs (noRedir_words words follows) n [] eq') ?_
      rintro rs₁ s' ⟨left, map⟩
      have room : ([] : List Span).length + ws.length < maxargs := by
        have : maxargs = 10 := rfl
        simp only [List.length_nil]
        omega
      refine (parseargs_complete words follows n [] rs₁ room left).imp ?_ id
      rintro c s'' ⟨left', treeEq⟩
      rw [map] at treeEq
      exact ⟨left', treeEq⟩

/-- The induction is on the derivation. -/
theorem derives_complete {p : Part} {ts : List Tok} {tree : Cmd (List UInt8)}
    (derives : Derives p ts tree) : Complete p ts tree := by
  induction derives with
  | line k _ pipe => exact line_complete pipe k
  | list k _ _ pipe line => exact list_complete pipe line k
  | single _ exec => exact single_complete exec
  | pipe _ _ exec pipe => exact pipe_complete exec pipe
  | block _ redirs line => exact block_complete line redirs
  | simple redirs words few => exact simple_complete redirs words few

end Xv6.Shell
