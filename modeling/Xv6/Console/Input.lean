import Xv6.Lib.RingBuffer
import Xv6.Lib.Runs

/-! console.c: the input buffer. Characters are edited between `w` and `e`,
committed by moving `w`, and read by moving `r`. A stretch of code under
`cons.lock`, up to its release or to sleep(), is one step. -/

namespace Xv6.Console
open Lib

def inputBuf : Nat := 128

theorem inputBuf_capacity : RingBuffer.Capacity inputBuf := ⟨by decide, by decide⟩

structure Input where
  buf : Nat → UInt8
  /-- Read index -/
  r : UInt32
  /-- Write index -/
  w : UInt32
  /-- Edit index -/
  e : UInt32

def newline : UInt8 := 10

def ctrlD : UInt8 := 4

/-! ## consoleintr -/

/-- Kill line. -/
def killLine : Nat → Input → Input
  | 0, input => input
  | fuel + 1, input =>
    if input.e ≠ input.w ∧ input.buf ((input.e - 1).toNat % inputBuf) ≠ newline then
      killLine fuel { input with e := input.e - 1 }
    else input

/-- Backspace. -/
def backspace (input : Input) : Input :=
  if input.e ≠ input.w then { input with e := input.e - 1 } else input

/-- `input.buf[input.e++ % INPUT_BUF] = c` -/
def Input.put (input : Input) (c : UInt8) : Input :=
  { input with
    buf := Function.update input.buf (input.e.toNat % inputBuf) c
    e := input.e + 1 }

/-- What is stored for a character. -/
def translate (c : UInt8) : UInt8 := if c = 13 then newline else c

/-- The test that commits what has been edited, after `c` has been stored. -/
def commits (input : Input) (c : UInt8) : Bool :=
  c == newline || c == ctrlD || input.e == input.r + .ofNat inputBuf

/-- A character that is no control key: the buffer, and whether the readers are
woken up. -/
def insert (input : Input) (c : UInt8) : Input × Bool :=
  if c ≠ 0 ∧ input.e - input.r < .ofNat inputBuf then
    let input := input.put (translate c)
    if commits input (translate c) then ({ input with w := input.e }, true)
    else (input, false)
  else (input, false)

/-- One round of the loop of consoleintr(). -/
def handle (input : Input) (c : UInt8) : Input × Bool :=
  if c = 16 then (input, false) -- ^P: procdump() is called later
  else if c = 21 then (killLine (input.e - input.w).toNat input, false) -- ^U
  else if c = 8 ∨ c = 127 then (backspace input, false)
  else insert input c

/-- consoleintr() for the characters that getc() returns. -/
def consoleintr : Input → List UInt8 → Input × Bool
  | input, [] => (input, false)
  | input, c :: cs =>
    let (input, woken) := handle input c
    let (input, more) := consoleintr input cs
    (input, woken || more)

/-! ## consoleread -/

inductive Outcome where
  | returns (r : Int)
  | sleeps
  deriving DecidableEq, Repr

/-- What a stretch of consoleread() comes to; `got` is what has been stored at
`dst` since the call. -/
structure Stretch where
  input : Input
  got : List UInt8
  outcome : Outcome

/-- The loop of consoleread() with `n` bytes to go. -/
def consoleread (killed : Bool) (target : Nat) : Nat → Input → List UInt8 → Stretch
  | 0, input, got => ⟨input, got, .returns target⟩
  | n + 1, input, got =>
    if input.r = input.w then
      if killed then ⟨input, got, .returns (-1)⟩ else ⟨input, got, .sleeps⟩
    else
      let c := input.buf (input.r.toNat % inputBuf)
      let input := { input with r := input.r + 1 }
      if c = ctrlD then
        -- Save ^D for next time, to make sure caller gets a 0-byte result.
        let input := if n + 1 < target then { input with r := input.r - 1 } else input
        ⟨input, got, .returns (target - (n + 1 : Nat))⟩
      else if c = newline then ⟨input, got ++ [c], .returns (target - n)⟩
      else consoleread killed target n input (got ++ [c])

/-! ## Processes -/

inductive Thread where
  /-- Not in a call of consoleread(). -/
  | out
  | running (target : Nat) (got : List UInt8)
  /-- Sleeping on `&input.r`. -/
  | sleeping (target : Nat) (got : List UInt8)
  deriving DecidableEq, Repr

structure State (ι : Type) where
  input : Input
  thread : ι → Thread
  killed : ι → Bool

inductive Action (ι : Type) where
  /-- An interrupt, with the characters that have come in. -/
  | intr (cs : List UInt8)
  /-- Call consoleread(). -/
  | read (i : ι) (n : Nat)
  /-- Up to the next release of the lock or sleep(). -/
  | run (i : ι)
  | kill (i : ι)

variable {ι : Type} [DecidableEq ι]

/-- wakeup(&input.r) -/
def wakeup : Thread → Thread
  | .sleeping target got => .running target got
  | t => t

namespace State

def set (s : State ι) (i : ι) (t : Thread) : State ι :=
  { s with thread := Function.update s.thread i t }

/-- What the stretch of process `i` does, if it is in a call. -/
def next (s : State ι) (i : ι) : Option (Nat × Stretch) :=
  match s.thread i with
  | .running target got =>
    some (target, consoleread (s.killed i) target (target - got.length) s.input got)
  | _ => none

end State

def perform (s : State ι) : Action ι → State ι
  | .intr cs =>
    let (input, woken) := consoleintr s.input cs
    { s with input, thread := if woken then fun i => wakeup (s.thread i) else s.thread }
  | .read i n => s.set i (.running n [])
  | .run i =>
    match s.next i with
    | some (target, r) =>
      let s := { s with input := r.input }
      match r.outcome with
      | .returns _ => s.set i .out
      | .sleeps => s.set i (.sleeping target r.got)
    | none => s
  | .kill i =>
    { s with
      killed := Function.update s.killed i true
      thread := Function.update s.thread i (wakeup (s.thread i)) }

def Enabled (s : State ι) : Action ι → Prop
  | .read i _ => s.thread i = .out
  | .run i => (s.next i).isSome = true
  | .intr _ | .kill _ => True

instance (s : State ι) : (a : Action ι) → Decidable (Enabled s a)
  | .read i _ => inferInstanceAs (Decidable (s.thread i = .out))
  | .run i => inferInstanceAs (Decidable ((s.next i).isSome = true))
  | .intr _ | .kill _ => inferInstanceAs (Decidable True)

def system (ι : Type) [DecidableEq ι] : System (State ι) (Action ι) := ⟨Enabled, perform⟩

instance (s : State ι) (a : Action ι) : Decidable ((system ι).Enabled s a) :=
  inferInstanceAs (Decidable (Enabled s a))

/-! ## The line editor -/

/-- Accepted input. A character that fills the buffer is marked. -/
inductive Key where
  | char (c : UInt8) (fills : Bool)
  | erase
  | kill
  deriving DecidableEq, Repr

/-- The line editor: what a key commits, and the line that is left to edit. -/
def edit (line : List UInt8) : Key → List UInt8 × List UInt8
  | .char c fills =>
    if c = newline ∨ c = ctrlD ∨ fills then (line ++ [c], []) else ([], line ++ [c])
  | .erase => ([], line.dropLast)
  | .kill => ([], [])

def editAll (line : List UInt8) : List Key → List UInt8 × List UInt8
  | [] => ([], line)
  | k :: ks =>
    let (out, line) := edit line k
    let (more, line) := editAll line ks
    (out ++ more, line)

theorem editAll_append (line : List UInt8) (ks ks' : List Key) :
    editAll line (ks ++ ks') = ((editAll line ks).1 ++ (editAll (editAll line ks).2 ks').1,
      (editAll (editAll line ks).2 ks').2) := by
  induction ks generalizing line with
  | nil => rfl
  | cons k ks ih => simp [editAll, ih, List.append_assoc]

/-- The key that a character is taken for, if it is accepted. -/
def accept (input : Input) (c : UInt8) : Option Key :=
  if c = 16 then none
  else if c = 21 then some .kill
  else if c = 8 ∨ c = 127 then some .erase
  else if c ≠ 0 ∧ input.e - input.r < .ofNat inputBuf then
    some (.char (translate c) (input.e + 1 - input.r == .ofNat inputBuf))
  else none

/-- The keys accepted by a call of consoleintr(). -/
def accepted (input : Input) : List UInt8 → List Key
  | [] => []
  | c :: cs => (accept input c).toList ++ accepted (handle input c).1 cs

/-! ## The buffer as two lists -/

namespace Input

def ring (input : Input) : RingBuffer UInt8 := ⟨input.buf, input.r, input.e⟩

def contents (input : Input) : List UInt8 := input.ring.contents inputBuf

/-- How many bytes have been committed and not read. -/
def ready (input : Input) : Nat := (input.w - input.r).toNat

/-- The bytes in `[r, w)`. -/
def committed (input : Input) : List UInt8 := input.contents.take input.ready

/-- The bytes in `[w, e)`. -/
def line (input : Input) : List UInt8 := input.contents.drop input.ready

theorem contents_eq (input : Input) : input.contents = input.committed ++ input.line :=
  (List.take_append_drop _ _).symm

theorem length_contents (input : Input) : input.contents.length = input.ring.size :=
  RingBuffer.length_contents

/-- The indices are in order, and the line that is edited has no newline. -/
structure Ok (input : Input) : Prop where
  le : input.ready ≤ input.ring.size
  bound : input.ring.size ≤ inputBuf
  clean : newline ∉ input.line

variable {input : Input}

theorem Ok.length_committed (ok : input.Ok) : input.committed.length = input.ready := by
  rw [committed, List.length_take, length_contents, Nat.min_eq_left ok.le]

theorem Ok.length_line (ok : input.Ok) : input.line.length = (input.e - input.w).toNat := by
  have le := ok.le
  have hr := input.r.toNat_lt
  have hw := input.w.toNat_lt
  have he := input.e.toNat_lt
  rw [line, List.length_drop, length_contents]
  simp only [ready, ring, RingBuffer.size, UInt32.toNat_sub] at le ⊢
  omega

theorem Ok.e_eq_w_iff (ok : input.Ok) : input.e = input.w ↔ input.line = [] := by
  rw [← List.length_eq_zero_iff, ok.length_line, ← UInt32.toNat_inj]
  have hw := input.w.toNat_lt
  have he := input.e.toNat_lt
  rw [UInt32.toNat_sub]
  omega

theorem Ok.r_eq_w_iff (ok : input.Ok) : input.r = input.w ↔ input.committed = [] := by
  rw [← List.length_eq_zero_iff, ok.length_committed, ready, ← UInt32.toNat_inj, UInt32.toNat_sub]
  have hr := input.r.toNat_lt
  have hw := input.w.toNat_lt
  omega

theorem Ok.committed_get (ok : input.Ok) {k : Nat} (h : k < input.ready) :
    input.committed[k]? = some (input.buf ((input.r.toNat + k) % inputBuf)) := by
  have lt : k < input.ring.size := Nat.lt_of_lt_of_le h ok.le
  rw [committed, List.getElem?_take_of_lt h, contents, RingBuffer.contents, List.getElem?_map,
    List.getElem?_range lt]
  rfl

/-- The buffer with the last edited byte taken back. -/
theorem Ok.retract (ok : input.Ok) (more : input.e ≠ input.w) :
    let input' := { input with e := input.e - 1 }
    input'.Ok ∧ input'.committed = input.committed ∧
      input.line = input'.line ++ [input.buf ((input.e - 1).toNat % inputBuf)] := by
  intro input'
  have nonempty : input.line ≠ [] := fun nil => more (ok.e_eq_w_iff.mpr nil)
  have longer : input.ready < input.ring.size := by
    have := List.length_pos_iff.mpr nonempty
    rw [line, List.length_drop, length_contents] at this
    omega
  have ring : input'.ring = input.ring.retract := rfl
  have size : input'.ring.size + 1 = input.ring.size := by
    rw [ring, RingBuffer.size_retract (by omega)]
  have contents : input.contents = input'.contents ++ [input.ring.back inputBuf] := by
    rw [Input.contents, Input.contents, ring]
    exact RingBuffer.contents_retract inputBuf_capacity (by omega)
  have length := length_contents input'
  have kept : input'.committed = input.committed := by
    rw [committed, committed, contents, List.take_append_of_le_length]
    · rfl
    · omega
  have rest : input.line = input'.line ++ [input.ring.back inputBuf] := by
    rw [line, line, contents, List.drop_append_of_le_length]
    · rfl
    · omega
  refine ⟨⟨?_, ?_, ?_⟩, kept, rest⟩
  · change input.ready ≤ _
    omega
  · have := ok.bound
    omega
  · intro mem
    exact ok.clean (rest ▸ List.mem_append_left _ mem)

/-- The buffer without the first committed byte. -/
theorem Ok.drop (ok : input.Ok) (some : input.r ≠ input.w) :
    let input' := { input with r := input.r + 1 }
    input'.Ok ∧ input'.line = input.line ∧
      input.committed = input.buf (input.r.toNat % inputBuf) :: input'.committed := by
  intro input'
  have pos : 0 < input.ready := by
    have nonempty : input.committed ≠ [] := fun nil => some (ok.r_eq_w_iff.mpr nil)
    rw [← ok.length_committed]
    exact List.length_pos_iff.mpr nonempty
  have le := ok.le
  have ring : input'.ring = input.ring.drop := rfl
  have size : input'.ring.size + 1 = input.ring.size := by
    rw [ring, RingBuffer.size_drop (by omega)]
  have ready : input'.ready + 1 = input.ready := by
    have hr := input.r.toNat_lt
    have hw := input.w.toNat_lt
    simp only [Input.ready, input', UInt32.toNat_sub, UInt32.toNat_add, UInt32.toNat_one] at pos ⊢
    omega
  have contents : input.contents = input.ring.front inputBuf :: input'.contents := by
    rw [Input.contents, Input.contents, ring]
    exact RingBuffer.contents_drop inputBuf_capacity (by omega)
  have line : input'.line = input.line := by
    rw [Input.line, Input.line, contents, ← ready, List.drop_succ_cons]
  refine ⟨⟨by omega, ?_, line ▸ ok.clean⟩, line, ?_⟩
  · have := ok.bound
    omega
  · rw [committed, contents, ← ready, List.take_succ_cons]
    rfl

/-- A byte is added to the line. -/
theorem contents_put (room : input.ring.size < inputBuf) (c : UInt8) :
    (input.put c).contents = input.contents ++ [c] ∧
      (input.put c).ring.size = input.ring.size + 1 := by
  have ring : (input.put c).ring = input.ring.put inputBuf c := rfl
  have small : input.ring.size + 1 < 2 ^ 32 := Nat.lt_of_le_of_lt room (by decide)
  rw [Input.contents, Input.contents, ring]
  exact ⟨RingBuffer.contents_put inputBuf_capacity c room, RingBuffer.size_put c small⟩

end Input

/-! ## One character -/

/-- The keys have been edited into the buffer. -/
structure Edited (input : Input) (ks : List Key) (input' : Input) : Prop where
  ok : input'.Ok
  r : input'.r = input.r
  committed : input'.committed = input.committed ++ (editAll input.line ks).1
  line : input'.line = (editAll input.line ks).2

theorem Edited.refl {input : Input} (ok : input.Ok) : Edited input [] input :=
  ⟨ok, rfl, (List.append_nil _).symm, rfl⟩

theorem Edited.trans {input input₁ input₂ : Input} {ks ks' : List Key}
    (h : Edited input ks input₁) (h' : Edited input₁ ks' input₂) :
    Edited input (ks ++ ks') input₂ := by
  refine ⟨h'.ok, h'.r.trans h.r, ?_, ?_⟩
  · rw [editAll_append, h'.committed, h.committed, h.line, List.append_assoc]
  · rw [editAll_append, h'.line, h.line]

theorem killLine_spec {input : Input} (ok : input.Ok) {fuel : Nat}
    (enough : input.line.length ≤ fuel) : Edited input [.kill] (killLine fuel input) := by
  induction fuel generalizing input with
  | zero =>
    have nil : input.line = [] := List.length_eq_zero_iff.mp (Nat.le_zero.mp enough)
    exact ⟨ok, rfl, (List.append_nil _).symm, nil⟩
  | succ fuel ih =>
    rw [killLine]
    by_cases done : input.e = input.w
    · rw [if_neg (by simp [done])]
      exact ⟨ok, rfl, (List.append_nil _).symm, ok.e_eq_w_iff.mp done⟩
    · obtain ⟨ok', committed, line⟩ := ok.retract done
      have other : input.buf ((input.e - 1).toNat % inputBuf) ≠ newline := by
        intro eq
        apply ok.clean
        rw [line, eq]
        exact List.mem_append_right _ List.mem_cons_self
      rw [if_pos ⟨done, other⟩]
      have shorter := congrArg List.length line
      rw [List.length_append, List.length_singleton] at shorter
      have rest := ih ok' (by omega)
      exact ⟨rest.ok, rest.r, rest.committed.trans (by rw [committed]; rfl), rest.line⟩

theorem backspace_spec {input : Input} (ok : input.Ok) : Edited input [.erase] (backspace input) := by
  unfold backspace
  by_cases done : input.e = input.w
  · rw [if_neg (by simp [done])]
    have nil := ok.e_eq_w_iff.mp done
    exact ⟨ok, rfl, (List.append_nil _).symm, by simp [editAll, edit, nil]⟩
  · obtain ⟨ok', committed, line⟩ := ok.retract done
    rw [if_pos done]
    refine ⟨ok', rfl, committed.trans (List.append_nil _).symm, ?_⟩
    simp [editAll, edit, line]

theorem e_sub_r_lt_iff (input : Input) :
    input.e - input.r < .ofNat inputBuf ↔ input.ring.size < inputBuf := by
  rw [UInt32.lt_iff_toNat_lt]
  rfl

/-- The byte that fills the buffer, seen before and after it is stored. -/
theorem fills_iff (input : Input) (c : UInt8) :
    (input.put c).e = (input.put c).r + .ofNat inputBuf ↔
      input.e + 1 - input.r = .ofNat inputBuf := by
  change input.e + 1 = input.r + .ofNat inputBuf ↔ _
  rw [UInt32.add_comm input.r, UInt32.sub_eq_iff_eq_add]

theorem put_spec {input : Input} (ok : input.Ok) {c : UInt8}
    (room : input.ring.size < inputBuf) :
    Edited input [.char c (input.e + 1 - input.r == .ofNat inputBuf)]
      (if commits (input.put c) c then { input.put c with w := (input.put c).e }
        else input.put c) := by
  obtain ⟨contents, size⟩ := input.contents_put room c
  have whole := input.contents_eq
  have length := ok.length_committed
  have commit : commits (input.put c) c = true ↔ c = newline ∨ c = ctrlD ∨
      (input.e + 1 - input.r == .ofNat inputBuf) = true := by
    simp only [commits, Bool.or_eq_true, beq_iff_eq, or_assoc, fills_iff]
  generalize (input.e + 1 - input.r == .ofNat inputBuf) = fills at *
  by_cases done : commits (input.put c) c = true
  · rw [if_pos done]
    have all : ({ input.put c with w := (input.put c).e } : Input).ready =
        (input.put c).ring.size := rfl
    have line : ({ input.put c with w := (input.put c).e } : Input).line = [] := by
      rw [Input.line, all, ← Input.length_contents]
      exact List.drop_length
    have committed : ({ input.put c with w := (input.put c).e } : Input).committed =
        input.committed ++ (input.line ++ [c]) := by
      rw [Input.committed, all, ← Input.length_contents, ← List.append_assoc, ← whole, ← contents]
      exact List.take_length
    refine ⟨⟨Nat.le_of_eq all, ?_, ?_⟩, rfl, ?_, ?_⟩
    · change (input.put c).ring.size ≤ _
      omega
    · rw [line]
      exact List.not_mem_nil
    · rw [committed]
      simp [editAll, edit, commit.mp done]
    · rw [line]
      simp [editAll, edit, commit.mp done]
  · rw [if_neg done]
    have open_ := (not_congr commit).mp done
    have ready : (input.put c).ready = input.committed.length := length.symm
    have line : (input.put c).line = input.line ++ [c] := by
      rw [Input.line, ready, contents, whole, List.append_assoc, List.drop_left]
    have committed : (input.put c).committed = input.committed := by
      rw [Input.committed, ready, contents, whole, List.append_assoc, List.take_left]
    refine ⟨⟨?_, by omega, ?_⟩, rfl, ?_, ?_⟩
    · have := ok.le
      rw [ready]
      omega
    · rw [line, List.mem_append, List.mem_singleton, not_or]
      exact ⟨ok.clean, fun eq => open_ (.inl eq.symm)⟩
    · rw [committed]
      simp [editAll, edit, open_]
    · rw [line]
      simp [editAll, edit, open_]

theorem handle_spec {input : Input} (ok : input.Ok) (c : UInt8) :
    Edited input (accept input c).toList (handle input c).1 := by
  unfold accept handle
  split
  · exact .refl ok
  split
  · exact killLine_spec ok (Nat.le_of_eq ok.length_line)
  split
  · exact backspace_spec ok
  · unfold insert
    by_cases taken : c ≠ 0 ∧ input.e - input.r < .ofNat inputBuf
    · have edited := put_spec ok (c := translate c) ((e_sub_r_lt_iff input).mp taken.2)
      rw [if_pos taken, if_pos taken]
      dsimp only
      split
      · rename_i done
        rwa [if_pos done] at edited
      · rename_i open_
        rwa [if_neg open_] at edited
    · rw [if_neg taken, if_neg taken]
      exact .refl ok

theorem consoleintr_spec {input : Input} (ok : input.Ok) (cs : List UInt8) :
    Edited input (accepted input cs) (consoleintr input cs).1 := by
  induction cs generalizing input with
  | nil => exact .refl ok
  | cons c cs ih =>
    have first := handle_spec ok c
    exact first.trans (ih first.ok)

end Xv6.Console
