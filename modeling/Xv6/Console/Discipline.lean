import Xv6.Console.Input

/-! The line discipline: what readers get is what the line editor commits. -/

namespace Xv6.Console
open Lib
variable {ι : Type} [DecidableEq ι]

/-! ## One stretch of a read -/

/-- How a stretch ends. -/
inductive Ending where
  | full
  | newline
  | eof
  | empty
  deriving DecidableEq, Repr

/-- What a read of `n` bytes takes from the committed bytes. -/
def take : Nat → List UInt8 → List UInt8 × Ending
  | 0, _ => ([], .full)
  | _ + 1, [] => ([], .empty)
  | n + 1, c :: cs =>
    if c = ctrlD then ([], .eof)
    else if c = newline then ([c], .newline)
    else
      let (bs, ending) := take n cs
      (c :: bs, ending)

/-- The bytes that a stretch takes out of the buffer: a ^D is taken out only if
it is the first byte of the read. -/
def removed (got bs : List UInt8) (ending : Ending) : List UInt8 :=
  if ending = .eof ∧ got ++ bs = [] then [ctrlD] else bs

def outcomeOf (killed : Bool) (got : List UInt8) : Ending → Outcome
  | .empty => if killed then .returns (-1) else .sleeps
  | _ => .returns got.length

/-- What a stretch of consoleread() does, with `r` moved past what it removes. -/
structure Took (killed : Bool) (input : Input) (got : List UInt8) (n : Nat) (r : Stretch) :
    Prop where
  ok : r.input.Ok
  line : r.input.line = input.line
  buf : r.input.buf = input.buf
  copied : r.got = got ++ (take n input.committed).1
  removes : input.committed =
    removed got (take n input.committed).1 (take n input.committed).2 ++ r.input.committed
  index : r.input.r = input.r +
    .ofNat (removed got (take n input.committed).1 (take n input.committed).2).length
  outcome : r.outcome = outcomeOf killed r.got (take n input.committed).2

theorem take_eof (n : Nat) (cs : List UInt8) : take (n + 1) (ctrlD :: cs) = ([], .eof) :=
  if_pos rfl

theorem take_newline (n : Nat) (cs : List UInt8) :
    take (n + 1) (newline :: cs) = ([newline], .newline) := rfl

theorem take_other {c : UInt8} (eof : c ≠ ctrlD) (ends : c ≠ newline) (n : Nat) (cs : List UInt8) :
    take (n + 1) (c :: cs) = (c :: (take n cs).1, (take n cs).2) := by
  rw [take, if_neg eof, if_neg ends]

theorem removed_of_ne_nil {got bs : List UInt8} (h : got ++ bs ≠ []) (ending : Ending) :
    removed got bs ending = bs := if_neg fun both => h both.2

/-- The first byte of a longer read. -/
theorem Took.cons {killed : Bool} {input input' : Input} {got : List UInt8} {n : Nat} {r : Stretch}
    {c : UInt8} (eof : c ≠ ctrlD) (ends : c ≠ newline) (front : input.committed = c :: input'.committed)
    (line : input'.line = input.line) (buf : input'.buf = input.buf) (index : input'.r = input.r + 1)
    (h : Took killed input' (got ++ [c]) n r) : Took killed input got (n + 1) r := by
  have took := take_other eof ends n input'.committed
  rw [← front] at took
  have whole : got ++ [c] ++ (take n input'.committed).1 =
      got ++ (take (n + 1) input.committed).1 := by
    rw [took, List.append_assoc]
    rfl
  have all : removed got (take (n + 1) input.committed).1 (take (n + 1) input.committed).2 =
      c :: (take n input'.committed).1 := by
    rw [took]
    exact removed_of_ne_nil (by simp) _
  have rest : removed (got ++ [c]) (take n input'.committed).1 (take n input'.committed).2 =
      (take n input'.committed).1 := removed_of_ne_nil (by simp) _
  refine ⟨h.ok, h.line.trans line, h.buf.trans buf, h.copied.trans whole, ?_, ?_, ?_⟩
  · have removes := h.removes
    rw [rest] at removes
    rw [all, front, List.cons_append, ← removes]
  · rw [h.index, rest, all, index, List.length_cons, UInt32.ofNat_add, UInt32.add_assoc,
      UInt32.add_comm 1]
    rfl
  · rw [h.outcome, took]

theorem consoleread_spec (killed : Bool) {n target : Nat} {input : Input} {got : List UInt8}
    (ok : input.Ok) (left : got.length + n = target) :
    Took killed input got n (consoleread killed target n input got) := by
  induction n generalizing input got with
  | zero =>
    refine ⟨ok, rfl, rfl, (List.append_nil _).symm, rfl, ?_, ?_⟩
    · exact (UInt32.add_zero _).symm
    · simp [consoleread, outcomeOf, take, ← left]
  | succ n ih =>
    rw [consoleread]
    by_cases empty : input.r = input.w
    · have nil := ok.r_eq_w_iff.mp empty
      rw [if_pos empty]
      have result : ∀ o, o = outcomeOf killed got .empty →
          Took killed input got (n + 1) ⟨input, got, o⟩ := by
        intro o eq
        refine ⟨ok, rfl, rfl, ?_, ?_, ?_, ?_⟩ <;> simp [nil, take, removed, eq]
      split
      · rename_i h
        exact result _ (by simp [outcomeOf, h])
      · rename_i h
        exact result _ (by simp [outcomeOf, h])
    · obtain ⟨ok', line, front⟩ := ok.drop empty
      rw [if_neg empty]
      generalize input.buf (input.r.toNat % inputBuf) = c at *
      dsimp only
      by_cases eof : c = ctrlD
      · subst eof
        have took := take_eof n ({ input with r := input.r + 1 } : Input).committed
        rw [← front] at took
        have value : ((target : Int) - (n + 1 : Nat)) = got.length := by omega
        rw [if_pos rfl, value]
        by_cases first : n + 1 < target
        · have some : got ≠ [] := by
            rintro rfl
            simp at left
            omega
          have same : ({ input with r := input.r + 1 - 1 } : Input) = input := by
            rw [UInt32.add_sub_cancel]
          rw [if_pos first, same]
          refine ⟨ok, rfl, rfl, ?_, ?_, ?_, ?_⟩ <;> rw [took]
          · exact (List.append_nil _).symm
          · rw [removed_of_ne_nil (by simpa using some)]
            rfl
          · rw [removed_of_ne_nil (by simpa using some)]
            exact (UInt32.add_zero _).symm
          · rfl
        · have none : got = [] := List.length_eq_zero_iff.mp (by omega)
          subst none
          rw [if_neg first]
          refine ⟨ok', line, rfl, ?_, ?_, ?_, ?_⟩ <;> rw [took]
          · rfl
          · exact front
          · rfl
          · rfl
      · rw [if_neg eof]
        by_cases ends : c = newline
        · subst ends
          have took := take_newline n ({ input with r := input.r + 1 } : Input).committed
          rw [← front] at took
          have value : ((target : Int) - n) = (got ++ [newline]).length := by
            rw [List.length_append, List.length_singleton]
            omega
          rw [if_pos rfl, value]
          refine ⟨ok', line, rfl, ?_, ?_, ?_, ?_⟩ <;> rw [took]
          · exact front
          · rfl
          · rfl
        · rw [if_neg ends]
          refine (ih ok' ?_).cons eof ends front line rfl rfl
          rw [List.length_append, List.length_singleton]
          omega

/-- Bytes that a read goes on after. -/
def Plain (l : List UInt8) : Prop := newline ∉ l ∧ ctrlD ∉ l

theorem Plain.nil : Plain [] := ⟨List.not_mem_nil, List.not_mem_nil⟩

theorem Plain.append {l l' : List UInt8} (h : Plain l) (h' : Plain l') : Plain (l ++ l') := by
  unfold Plain at *
  rw [List.mem_append, List.mem_append, not_or, not_or]
  exact ⟨⟨h.1, h'.1⟩, h.2, h'.2⟩

theorem Plain.cons {c : UInt8} {l : List UInt8} (eof : c ≠ ctrlD) (ends : c ≠ newline)
    (h : Plain l) : Plain (c :: l) :=
  ⟨List.not_mem_cons_of_ne_of_not_mem ends.symm h.1,
    List.not_mem_cons_of_ne_of_not_mem eof.symm h.2⟩

/-- What a read of `n` bytes takes from `cs`, for each way it can end. -/
def Takes (n : Nat) (cs bs : List UInt8) : Ending → Prop
  | .full => bs.length = n ∧ Plain bs
  | .newline => ∃ l, bs = l ++ [newline] ∧ Plain l ∧ bs.length ≤ n
  | .eof => bs.length < n ∧ Plain bs ∧ ∃ rest, cs = bs ++ ctrlD :: rest
  | .empty => bs.length < n ∧ Plain bs ∧ cs = bs

theorem take_takes (n : Nat) (cs : List UInt8) : Takes n cs (take n cs).1 (take n cs).2 := by
  induction n generalizing cs with
  | zero => exact ⟨rfl, .nil⟩
  | succ n ih =>
    cases cs with
    | nil => exact ⟨Nat.succ_pos n, .nil, rfl⟩
    | cons c cs =>
      by_cases eof : c = ctrlD
      · subst eof
        rw [take_eof]
        exact ⟨Nat.succ_pos n, .nil, cs, rfl⟩
      · by_cases ends : c = newline
        · subst ends
          rw [take_newline]
          exact ⟨[], rfl, .nil, Nat.succ_le_succ (Nat.zero_le n)⟩
        · rw [take_other eof ends]
          have rest := ih cs
          generalize (take n cs).1 = bs at *
          cases ending : (take n cs).2 with
          | full =>
            rw [ending] at rest
            exact ⟨congrArg (· + 1) rest.1, rest.2.cons eof ends⟩
          | newline =>
            rw [ending] at rest
            obtain ⟨l, rfl, plain, le⟩ := rest
            exact ⟨c :: l, rfl, plain.cons eof ends, Nat.succ_le_succ le⟩
          | eof =>
            rw [ending] at rest
            obtain ⟨lt, plain, more, rfl⟩ := rest
            exact ⟨Nat.succ_lt_succ lt, plain.cons eof ends, more, rfl⟩
          | empty =>
            rw [ending] at rest
            obtain ⟨lt, plain, rfl⟩ := rest
            exact ⟨Nat.succ_lt_succ lt, plain.cons eof ends, rfl⟩

/-! ## The runs -/

/-- The bytes that a step moves `r` past. -/
def consumed (s : State ι) (a : Action ι) : List UInt8 :=
  s.input.contents.take ((perform s a).input.r - s.input.r).toNat

/-- The keys that a step accepts. -/
def keys (s : State ι) : Action ι → List Key
  | .intr cs => accepted s.input cs
  | _ => []

/-- The bytes in `[r, w)` are not changed. -/
def KeepsCommitted (s : State ι) (a : Action ι) : Prop :=
  ∀ k, k < s.input.ready → (perform s a).input.buf ((s.input.r.toNat + k) % inputBuf) =
    s.input.buf ((s.input.r.toNat + k) % inputBuf)

/-- A read of `target` bytes has got `got`: it ends after a newline, at `target`
bytes, or at a ^D, which is left as the next byte unless it was the first. -/
def Ends (target : Nat) (got removed rest : List UInt8) : Prop :=
  (∃ line, got = line ++ [newline] ∧ Plain line ∧ got.length ≤ target) ∨
  (got.length = target ∧ Plain got) ∨
  (got ≠ [] ∧ Plain got ∧ rest.head? = some ctrlD) ∨
  (got = [] ∧ removed = [ctrlD])

/-- What a step of process `i` in a read does with the bytes it consumes. A process
that has been killed returns -1 when it would have to wait. -/
def ReadsWell (s : State ι) (a : Action ι) : Prop :=
  ∀ i target got, a = .run i → s.thread i = .running target got →
    let r := consoleread (s.killed i) target (target - got.length) s.input got
    (r.got = got ++ consumed s a ∨ r.got = [] ∧ consumed s a = [ctrlD]) ∧
    match r.outcome with
    | .returns v => v = -1 ∧ s.killed i = true ∧ r.input.committed = [] ∨
      v = r.got.length ∧ Ends target r.got (consumed s a) r.input.committed
    | .sleeps => Plain r.got ∧ r.got.length < target ∧ r.input.committed = []

/-- A read in progress has met neither newline nor ^D. -/
def InProgress : Thread → Prop
  | .out => True
  | .running target got | .sleeping target got => Plain got ∧ got.length ≤ target

structure Good (s : State ι) : Prop where
  ok : s.input.Ok
  threads : ∀ i, InProgress (s.thread i)

theorem InProgress.wakeup {t : Thread} (h : InProgress t) : InProgress (wakeup t) := by
  cases t <;> exact h

theorem Took.consumed {killed : Bool} {input : Input} {got : List UInt8} {n : Nat} {r : Stretch}
    (ok : input.Ok) (h : Took killed input got n r) :
    input.contents.take (r.input.r - input.r).toNat =
      removed got (Console.take n input.committed).1 (Console.take n input.committed).2 := by
  have removes := h.removes
  have index := h.index
  generalize removed got (Console.take n input.committed).1 (Console.take n input.committed).2 = l
    at *
  have short : l.length ≤ inputBuf := by
    have := congrArg List.length removes
    rw [List.length_append, ok.length_committed] at this
    have := ok.le
    have := ok.bound
    omega
  have small : l.length < 2 ^ 32 := Nat.lt_of_le_of_lt short (by decide)
  have moved : (r.input.r - input.r).toNat = l.length := by
    rw [index, UInt32.add_comm, UInt32.add_sub_cancel, UInt32.toNat_ofNat', Nat.mod_eq_of_lt small]
  rw [moved, input.contents_eq, removes, List.append_assoc, List.take_left]

/-- What a stretch has got and how it ends, for a read in progress. -/
theorem Took.ends {killed : Bool} {input : Input} {got : List UInt8} {target : Nat} {r : Stretch}
    (plain : Plain got) (le : got.length ≤ target)
    (h : Took killed input got (target - got.length) r) :
    let l := removed got (Console.take (target - got.length) input.committed).1
      (Console.take (target - got.length) input.committed).2
    (r.got = got ++ l ∨ r.got = [] ∧ l = [ctrlD]) ∧
    match r.outcome with
    | .returns v => v = -1 ∧ killed = true ∧ r.input.committed = [] ∨
      v = r.got.length ∧ Ends target r.got l r.input.committed
    | .sleeps => Plain r.got ∧ r.got.length < target ∧ r.input.committed = [] := by
  have takes := take_takes (target - got.length) input.committed
  have removes := h.removes
  have copied := h.copied
  have outcome := h.outcome
  generalize (Console.take (target - got.length) input.committed).1 = bs at *
  have length : r.got.length = got.length + bs.length := by rw [copied, List.length_append]
  cases ending : (Console.take (target - got.length) input.committed).2 with
  | full =>
    rw [ending] at takes removes outcome
    obtain ⟨size, plain'⟩ := takes
    have all : removed got bs .full = bs := rfl
    rw [all, outcome]
    exact ⟨.inl copied, .inr ⟨rfl, .inr (.inl ⟨by omega, copied ▸ plain.append plain'⟩)⟩⟩
  | newline =>
    rw [ending] at takes removes outcome
    obtain ⟨l, rfl, plain', size⟩ := takes
    have all : removed got (l ++ [newline]) .newline = l ++ [newline] := rfl
    rw [all, outcome]
    refine ⟨.inl copied, .inr ⟨rfl, .inl ⟨got ++ l, ?_, plain.append plain', by omega⟩⟩⟩
    rw [copied, List.append_assoc]
  | eof =>
    rw [ending] at takes removes outcome
    obtain ⟨size, plain', rest, whole⟩ := takes
    rw [outcome]
    by_cases none : got ++ bs = []
    · have all : removed got bs .eof = [ctrlD] := if_pos ⟨rfl, none⟩
      rw [all]
      exact ⟨.inr ⟨copied.trans none, rfl⟩, .inr ⟨rfl, .inr (.inr (.inr ⟨copied.trans none, rfl⟩))⟩⟩
    · have all := removed_of_ne_nil none .eof
      rw [all] at removes ⊢
      have left : r.input.committed = ctrlD :: rest :=
        List.append_cancel_left (removes.symm.trans whole)
      refine ⟨.inl copied, .inr ⟨rfl, .inr (.inr (.inl ⟨copied ▸ none, ?_, ?_⟩))⟩⟩
      · exact copied ▸ plain.append plain'
      · rw [left]
        rfl
  | empty =>
    rw [ending] at takes removes outcome
    obtain ⟨size, plain', whole⟩ := takes
    have all : removed got bs .empty = bs := if_neg (by simp)
    rw [all] at removes ⊢
    have left : r.input.committed = [] := by
      rw [whole] at removes
      exact List.append_right_eq_self.mp removes.symm
    refine ⟨.inl copied, ?_⟩
    rw [outcome]
    cases killed with
    | true => exact .inl ⟨rfl, rfl, left⟩
    | false => exact ⟨copied ▸ plain.append plain', by omega, left⟩

/-- A step of a good state, seen as a step of the line editor. -/
structure Steps (s : State ι) (a : Action ι) : Prop where
  good : Good (perform s a)
  balance : s.input.committed ++ (editAll s.input.line (keys s a)).1 =
    consumed s a ++ (perform s a).input.committed
  line : (perform s a).input.line = (editAll s.input.line (keys s a)).2
  keeps : KeepsCommitted s a
  reads : ReadsWell s a

/-- A step that leaves the buffer alone. -/
theorem Steps.of_input {s : State ι} {a : Action ι} (good : Good (perform s a))
    (same : (perform s a).input = s.input) (none : keys s a = [])
    (reads : ReadsWell s a) : Steps s a := by
  refine ⟨good, ?_, ?_, fun k _ => by rw [same], reads⟩
  · rw [none, consumed, same, UInt32.sub_self]
    simp [editAll]
  · rw [none, same]
    rfl

theorem steps_of_intr {s : State ι} (good : Good s) (cs : List UInt8) : Steps s (.intr cs) := by
  have edited := consoleintr_spec good.ok cs
  have input : (perform s (.intr cs)).input = (consoleintr s.input cs).1 := rfl
  refine ⟨⟨edited.ok, fun i => ?_⟩, ?_, edited.line, ?_, fun i target got eq => nomatch eq⟩
  · change InProgress ((if (consoleintr s.input cs).2 then fun i => wakeup (s.thread i)
      else s.thread) i)
    split
    · exact (good.threads i).wakeup
    · exact good.threads i
  · rw [consumed, input, edited.r, UInt32.sub_self, edited.committed]
    rfl
  · -- what was committed is the first part of what is committed now
    intro k hk
    have old := good.ok.committed_get hk
    rw [← good.ok.length_committed] at hk
    have more : k < (consoleintr s.input cs).1.ready := by
      rw [← edited.ok.length_committed, edited.committed, List.length_append]
      omega
    have new := edited.ok.committed_get more
    rw [edited.committed, List.getElem?_append_left hk, old, edited.r] at new
    exact (Option.some.inj new).symm

theorem steps_of_run {s : State ι} (good : Good s) {i : ι} {target : Nat} {got : List UInt8}
    (running : s.thread i = .running target got) : Steps s (.run i) := by
  obtain ⟨plain, le⟩ : Plain got ∧ got.length ≤ target := by
    have := good.threads i
    rwa [running] at this
  have took := consoleread_spec (s.killed i) good.ok
    (show got.length + (target - got.length) = target by omega)
  have ends := took.ends plain le
  have used := took.consumed good.ok
  have next : s.next i =
      some (target, consoleread (s.killed i) target (target - got.length) s.input got) := by
    rw [State.next, running]
  have input : (perform s (.run i)).input =
      (consoleread (s.killed i) target (target - got.length) s.input got).input := by
    simp only [perform, next]
    split <;> rfl
  have eaten : consumed s (.run i) =
      s.input.contents.take ((consoleread (s.killed i) target (target - got.length) s.input
        got).input.r - s.input.r).toNat := by
    rw [consumed, input]
  rw [← used, ← eaten] at ends
  have removes := took.removes
  rw [← used, ← eaten] at removes
  refine ⟨⟨input ▸ took.ok, fun j => ?_⟩, ?_, ?_, fun k _ => by rw [input, took.buf], ?_⟩
  · simp only [perform, next]
    by_cases here : j = i
    · subst here
      have kept := ends.2
      split
      · simp only [State.set, Function.update_self]
        trivial
      · rename_i sleeps
        rw [sleeps] at kept
        simp only [State.set, Function.update_self]
        exact ⟨kept.1, Nat.le_of_lt kept.2.1⟩
    · split <;> simpa only [State.set, Function.update_of_ne here] using good.threads j
  · rw [input, ← removes]
    exact List.append_nil _
  · rw [input, took.line]
    rfl
  · intro i' target' got' eq running'
    obtain rfl := Action.run.inj eq
    obtain ⟨rfl, rfl⟩ := Thread.running.inj (running.symm.trans running')
    exact ends

theorem step_steps {s : State ι} (good : Good s) {a : Action ι} (enabled : Enabled s a) :
    Steps s a := by
  cases a with
  | intr cs => exact steps_of_intr good cs
  | read i n =>
    refine .of_input ⟨good.ok, fun j => ?_⟩ rfl rfl fun i target got eq => nomatch eq
    by_cases here : j = i
    · subst here
      simp only [perform, State.set, Function.update_self]
      exact ⟨.nil, Nat.zero_le n⟩
    · simpa only [perform, State.set, Function.update_of_ne here] using good.threads j
  | run i =>
    cases running : s.thread i with
    | running target got => exact steps_of_run good running
    | out | sleeping => simp [Enabled, State.next, running] at enabled
  | kill i =>
    refine .of_input ⟨good.ok, fun j => ?_⟩ rfl rfl fun i target got eq => nomatch eq
    by_cases here : j = i
    · subst here
      simp only [perform, Function.update_self]
      exact (good.threads j).wakeup
    · simpa only [perform, Function.update_of_ne here] using good.threads j

/-- The run of the editor beside the run of the console. -/
theorem run_balance {s : State ι} (good : Good s) {as : List (Action ι)}
    (legal : (system ι).Legal s as) :
    Good ((system ι).after s as) ∧
    s.input.committed ++ (editAll s.input.line ((system ι).events keys s as)).1 =
      (system ι).events consumed s as ++ ((system ι).after s as).input.committed ∧
    ((system ι).after s as).input.line =
      (editAll s.input.line ((system ι).events keys s as)).2 := by
  induction as generalizing s with
  | nil => exact ⟨good, List.append_nil _, rfl⟩
  | cons a as ih =>
    have step := step_steps good legal.1
    obtain ⟨good', balance, line⟩ := ih step.good legal.2
    refine ⟨good', ?_, ?_⟩
    · rw [System.events, System.events, editAll_append, ← List.append_assoc, step.balance,
        ← step.line, List.append_assoc, List.append_assoc]
      exact congrArg (consumed s a ++ ·) balance
    · rw [System.events, editAll_append, ← step.line]
      exact line

/-- Nothing has been typed, and nobody reads. -/
def start (buf : Nat → UInt8) (v : UInt32) : State ι :=
  ⟨⟨buf, v, v, v⟩, fun _ => .out, fun _ => false⟩

omit [DecidableEq ι] in
theorem contents_start (buf : Nat → UInt8) (v : UInt32) :
    (start buf v : State ι).input.contents = [] := by
  rw [← List.length_eq_zero_iff, Input.length_contents]
  simp [start, Input.ring, RingBuffer.size]

omit [DecidableEq ι] in
theorem line_start (buf : Nat → UInt8) (v : UInt32) : (start buf v : State ι).input.line = [] := by
  rw [Input.line, contents_start, List.drop_nil]

omit [DecidableEq ι] in
theorem start_good (buf : Nat → UInt8) (v : UInt32) : Good (start buf v : State ι) := by
  have size : (start buf v : State ι).input.ring.size = 0 := by
    rw [← Input.length_contents, contents_start]
    rfl
  have ready : (start buf v : State ι).input.ready = 0 := by simp [start, Input.ready]
  refine ⟨⟨by omega, by rw [size]; exact Nat.zero_le _, ?_⟩, fun _ => trivial⟩
  rw [line_start]
  exact List.not_mem_nil

/-- For any number of readers, any interleaving of input and reads, and indices
that may wrap: the indices stay in order, what readers consume and what they can
still read is what the line editor has committed of the accepted input, committed
bytes are not changed, and every read ends as it should. -/
theorem console_line_discipline (buf : Nat → UInt8) (v : UInt32) {as : List (Action ι)}
    (legal : (system ι).Legal (start buf v) as) :
    let input := ((system ι).after (start buf v) as).input
    (input.w - input.r ≤ input.e - input.r ∧ input.e - input.r ≤ .ofNat inputBuf) ∧
    editAll [] ((system ι).events keys (start buf v) as) =
      ((system ι).events consumed (start buf v) as ++ input.committed, input.line) ∧
    (system ι).Every (fun s a => KeepsCommitted s a ∧ ReadsWell s a) (start buf v) as := by
  intro input
  have good : Good (start buf v : State ι) := start_good buf v
  obtain ⟨final, balance, line⟩ := run_balance good legal
  rw [Input.committed, contents_start, line_start, List.take_nil, List.nil_append] at balance
  rw [line_start] at line
  refine ⟨⟨UInt32.le_iff_toNat_le.mpr final.ok.le, ?_⟩, ?_, ?_⟩
  · exact UInt32.le_iff_toNat_le.mpr final.ok.bound
  · rw [← balance]
    exact Prod.ext rfl line.symm
  · apply (system ι).every_imp (I := Good) (fun s a enabled good => (step_steps good enabled).good)
      ?_ legal good ((system ι).every_true _ _)
    intro s a enabled good _
    have step := step_steps good enabled
    exact ⟨step.keeps, step.reads⟩

/-- A reader waits; "ab", backspace and return are typed while `e` wraps, and the
reader gets "a\n". -/
theorem line_read_across_wrap :
    let s : State Unit := start (fun _ => 0) (-1)
    let as := [.read () 5, .run (), .intr [97, 98, 8, 13], .run ()]
    (system Unit).events consumed s as = [97, 10] ∧
      (editAll [] ((system Unit).events keys s as)).1 = [97, 10] := by
  have eaten : (system Unit).events consumed (start (fun _ => 0) (-1))
      [.read () 5, .run (), .intr [97, 98, 8, 13], .run ()] = [97, 10] := by decide +kernel
  have left : ((system Unit).after (start (fun _ => 0) (-1))
      [.read () 5, .run (), .intr [97, 98, 8, 13], .run ()]).input.committed = [] := by
    decide +kernel
  have legal : (system Unit).Legal (start (fun _ => 0) (-1))
      [.read () 5, .run (), .intr [97, 98, 8, 13], .run ()] := by decide +kernel
  have edited := (console_line_discipline (fun _ => 0) (-1) legal).2.1
  dsimp only at edited ⊢
  rw [edited, eaten, left]
  exact ⟨rfl, rfl⟩

end Xv6.Console
