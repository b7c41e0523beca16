import Xv6.Pipes.Transfer

/-! Wakeups of a pipe: who may sleep on `&p->nread` and `&p->nwrite` while the
lock is free. -/

namespace Xv6.Pipes
open Lib
variable {ι : Type}

/-- No reader sleeps while there is data or the write side is closed, and no
writer while there is room or the read side is closed. -/
structure NoLostWakeup (s : State ι) : Prop where
  readers : ∀ i n, s.thread i = .sleeping (.read n) →
    ¬ (s.pipe.contents ≠ [] ∨ s.pipe.writeopen = false)
  writers : ∀ i n rest, s.thread i = .sleeping (.write n rest) →
    ¬ (s.pipe.size < pipeSize ∨ s.pipe.readopen = false)

/-- While a reader sleeps, a writer that has been killed or has lost its readers
gets the lock only if what it has left to write fits into the pipe. -/
def Finishes (s : State ι) : Action ι → Prop
  | .run i => ∀ n rest, s.thread i = .running (.write n rest) →
      (s.killed i = true ∨ s.pipe.readopen = false) →
      (∃ j m, s.thread j = .sleeping (.read m)) → rest.length ≤ pipeSize
  | _ => True

/-! ## Who sleeps after a step -/

theorem wakeup_eq_sleeping {chan : Chan} {t : Thread} {c : Call} :
    wakeup chan t = .sleeping c ↔ t = .sleeping c ∧ c.chan ≠ chan := by
  cases t with
  | out => simp [wakeup]
  | running c' => simp [wakeup]
  | sleeping c' =>
    by_cases eq : c'.chan = chan
    · simp only [wakeup, eq, ↓reduceIte, reduceCtorEq, Thread.sleeping.injEq, false_iff]
      rintro ⟨rfl, ne⟩
      exact ne eq
    · simp only [wakeup, eq, ↓reduceIte, Thread.sleeping.injEq]
      constructor
      · rintro rfl
        exact ⟨rfl, eq⟩
      · exact And.left

theorem State.wake_sleeping {s : State ι} {w : Option Chan} {j : ι} {c : Call} :
    (s.wake w).thread j = .sleeping c ↔ s.thread j = .sleeping c ∧ some c.chan ≠ w := by
  cases w with
  | none => simp [State.wake]
  | some chan =>
    simp only [State.wake, wakeup_eq_sleeping, ne_eq, Option.some.injEq]

/-- Nobody else falls asleep and the pipe is as it was. -/
theorem NoLostWakeup.of_fewer {s t : State ι} (quiet : NoLostWakeup s) (pipe : t.pipe = s.pipe)
    (fewer : ∀ j c, t.thread j = .sleeping c → s.thread j = .sleeping c) : NoLostWakeup t := by
  refine ⟨?_, ?_⟩
  · intro j n asleep
    rw [pipe]
    exact quiet.readers j n (fewer j _ asleep)
  · intro j n rest asleep
    rw [pipe]
    exact quiet.writers j n rest (fewer j _ asleep)

theorem close_noLostWakeup {s : State ι} (quiet : NoLostWakeup s) (writable : Bool) :
    NoLostWakeup (s.pipeclose writable) := by
  cases writable with
  | true =>
    rw [State.pipeclose, if_pos rfl]
    refine ⟨?_, ?_⟩
    · intro j n asleep
      exact absurd rfl (State.wake_sleeping.mp asleep).2
    · intro j n rest asleep
      rw [State.pipe_wake]
      exact quiet.writers j n rest (State.wake_sleeping.mp asleep).1
  | false =>
    rw [State.pipeclose, if_neg Bool.false_ne_true]
    refine ⟨?_, ?_⟩
    · intro j n asleep
      rw [State.pipe_wake]
      exact quiet.readers j n (State.wake_sleeping.mp asleep).1
    · intro j n rest asleep
      exact absurd rfl (State.wake_sleeping.mp asleep).2

variable [DecidableEq ι]

/-- The process itself may fall asleep; of the others those sleep on that the
stretch does not wake. -/
theorem State.stretch_sleeping {s : State ι} {i j : ι} {r : Stretch} {c : Call} :
    (s.stretch i r).thread j = .sleeping c ↔
      (j = i ∧ r.outcome = .sleeps c) ∨
      (j ≠ i ∧ s.thread j = .sleeping c ∧ some c.chan ≠ r.wakes) := by
  unfold State.stretch
  dsimp only
  have woken : ({ s with pipe := r.pipe }.wake r.wakes).thread j = .sleeping c ↔
      s.thread j = .sleeping c ∧ some c.chan ≠ r.wakes := State.wake_sleeping
  cases outcome : r.outcome with
  | returns v =>
    by_cases here : j = i
    · simp [State.set, here]
    · simp [State.set, here, woken]
  | sleeps c' =>
    by_cases here : j = i
    · simp [State.set, here]
    · simp [State.set, here, woken]

/-! ## pipewrite() -/

/-- The three ways a stretch of pipewrite() ends: all is stored, the pipe is full
and the call fails, or the pipe is full and the process sleeps. -/
theorem pipewrite_cases {p : Pipe} (bound : p.size ≤ pipeSize) (killed : Bool) (n : Nat)
    (rest : List UInt8) {r : Stretch} (eq : pipewrite p killed n rest = r) :
    (r.pipe.size = p.size + min (pipeSize - p.size) rest.length ∧
      r.pipe.readopen = p.readopen ∧ r.pipe.writeopen = p.writeopen) ∧
    ((rest.length ≤ pipeSize - p.size ∧ r.wakes = some .nread ∧ r.outcome = .returns n) ∨
      (pipeSize - p.size < rest.length ∧ (killed = true ∨ p.readopen = false) ∧ r.wakes = none ∧
        r.outcome = .returns (-1)) ∨
      (pipeSize - p.size < rest.length ∧ ¬ (killed = true ∨ p.readopen = false) ∧
        r.wakes = some .nread ∧ ∃ left, r.outcome = .sleeps (.write n left))) := by
  obtain ⟨left, size, _, readopen, writeopen⟩ := Pipe.store_spec bound rest
  have nil : (p.store rest).2 = [] ↔ rest.length ≤ pipeSize - p.size := by
    rw [left, List.drop_eq_nil_iff]
  unfold pipewrite at eq
  dsimp only at eq
  split at eq
  case isTrue all =>
    subst eq
    exact ⟨⟨size, readopen, writeopen⟩, .inl ⟨nil.mp all, rfl, rfl⟩⟩
  case isFalse more =>
    have beyond := nil.not.mp more
    rw [readopen] at eq
    split at eq
    case isTrue fails =>
      subst eq
      exact ⟨⟨size, readopen, writeopen⟩, .inr (.inl ⟨by omega, fails.symm, rfl, rfl⟩)⟩
    case isFalse goes =>
      subst eq
      refine ⟨⟨size, readopen, writeopen⟩, .inr (.inr ⟨by omega, ?_, rfl, _, rfl⟩)⟩
      exact fun h => goes h.symm

theorem write_noLostWakeup_iff {s : State ι} (bound : s.pipe.size ≤ pipeSize)
    (quiet : NoLostWakeup s) (i : ι) (n : Nat) (rest : List UInt8) :
    NoLostWakeup (s.stretch i (pipewrite s.pipe (s.killed i) n rest)) ↔
      ((s.killed i = true ∨ s.pipe.readopen = false) →
        (∃ j m, j ≠ i ∧ s.thread j = .sleeping (.read m)) → rest.length ≤ pipeSize) := by
  have pos : 0 < pipeSize := by decide
  generalize eq : pipewrite s.pipe (s.killed i) n rest = r
  obtain ⟨⟨size, readopen, writeopen⟩, ends⟩ := pipewrite_cases bound (s.killed i) n rest eq
  -- whoever slept on a full pipe still does
  have writers (j : ι) (m : Nat) (bs : List UInt8) (asleep : s.thread j = .sleeping (.write m bs)) :
      ¬ (r.pipe.size < pipeSize ∨ r.pipe.readopen = false) := by
    have before := quiet.writers j m bs asleep
    rw [readopen]
    rintro (room | closed)
    · exact before (.inl (by omega))
    · exact before (.inr closed)
  obtain ⟨fits, wakes, outcome⟩ | ⟨more, fails, wakes, outcome⟩ | ⟨more, goes, wakes, left, outcome⟩ :=
    ends
  · constructor
    · intro _ _ _
      omega
    · intro _
      refine ⟨?_, ?_⟩
      · intro j m asleep
        obtain ⟨_, eq⟩ | ⟨_, _, unwoken⟩ := State.stretch_sleeping.mp asleep
        · simp [outcome] at eq
        · simp [wakes, Call.chan] at unwoken
      · intro j m bs asleep
        obtain ⟨_, eq⟩ | ⟨_, before, _⟩ := State.stretch_sleeping.mp asleep
        · simp [outcome] at eq
        · rw [State.pipe_stretch]
          exact writers j m bs before
  · constructor
    · intro after _
      rintro ⟨j, m, other, asleep⟩
      have still : (s.stretch i r).thread j = .sleeping (.read m) :=
        State.stretch_sleeping.mpr (.inr ⟨other, asleep, by simp [wakes]⟩)
      have empty : r.pipe.contents = [] := by
        have := after.readers j m still
        rw [State.pipe_stretch] at this
        simpa using fun h => this (.inl h)
      have none := Pipe.contents_eq_nil_iff_size.mp empty
      omega
    · intro finishes
      refine ⟨?_, ?_⟩
      · intro j m asleep
        obtain ⟨_, eq⟩ | ⟨other, before, _⟩ := State.stretch_sleeping.mp asleep
        · simp [outcome] at eq
        · have short := finishes fails ⟨j, m, other, before⟩
          have empty : s.pipe.contents = [] := by
            simpa using fun h => quiet.readers j m before (.inl h)
          have none := Pipe.contents_eq_nil_iff_size.mp empty
          omega
      · intro j m bs asleep
        obtain ⟨_, eq⟩ | ⟨_, before, _⟩ := State.stretch_sleeping.mp asleep
        · simp [outcome] at eq
        · rw [State.pipe_stretch]
          exact writers j m bs before
  · constructor
    · intro _ fails
      exact absurd fails goes
    · intro _
      refine ⟨?_, ?_⟩
      · intro j m asleep
        obtain ⟨_, eq⟩ | ⟨_, _, unwoken⟩ := State.stretch_sleeping.mp asleep
        · simp [outcome] at eq
        · simp [wakes, Call.chan] at unwoken
      · intro j m bs asleep
        rw [State.pipe_stretch]
        obtain ⟨_, eq⟩ | ⟨_, before, _⟩ := State.stretch_sleeping.mp asleep
        · rintro (room | closed)
          · omega
          · exact goes (.inr (readopen.symm.trans closed))
        · exact writers j m bs before

/-! ## piperead() and the other steps -/

theorem read_noLostWakeup {s : State ι} (quiet : NoLostWakeup s) (i : ι) (n : Nat) :
    NoLostWakeup (s.stretch i (piperead s.pipe (s.killed i) n)) := by
  by_cases waits : s.pipe.isEmpty = true ∧ s.pipe.writeopen = true
  · -- nothing is read
    have empty : s.pipe.contents = [] :=
      Pipe.contents_eq_nil_iff_size.mpr (Pipe.isEmpty_iff.mp waits.1)
    have same : (piperead s.pipe (s.killed i) n).pipe = s.pipe := by
      unfold piperead
      rw [if_pos waits]
      split
      · rfl
      · rfl
    refine ⟨?_, ?_⟩
    · intro j m _
      rw [State.pipe_stretch, same]
      simp [empty, waits.2]
    · intro j m bs asleep
      rw [State.pipe_stretch, same]
      obtain ⟨_, eq⟩ | ⟨_, before, _⟩ := State.stretch_sleeping.mp asleep
      · unfold piperead at eq
        rw [if_pos waits] at eq
        split at eq
        · cases eq
        · cases eq
      · exact quiet.writers j m bs before
  · -- no reader sleeps, and every writer is woken
    have unfolded : piperead s.pipe (s.killed i) n =
        ⟨(s.pipe.load n).1, some .nwrite, .returns (s.pipe.load n).2.length, [],
          (s.pipe.load n).2⟩ := by
      rw [piperead, if_neg waits]
    rw [unfolded]
    refine ⟨?_, ?_⟩
    · intro j m asleep
      obtain ⟨_, eq⟩ | ⟨_, before, _⟩ := State.stretch_sleeping.mp asleep
      · cases eq
      · refine absurd ⟨?_, ?_⟩ waits
        · apply Pipe.isEmpty_iff.mpr
          apply Pipe.contents_eq_nil_iff_size.mp
          simpa using fun h => quiet.readers j m before (.inl h)
        · simpa using fun h => quiet.readers j m before (.inr h)
    · intro j m bs asleep
      obtain ⟨_, eq⟩ | ⟨_, _, unwoken⟩ := State.stretch_sleeping.mp asleep
      · cases eq
      · exact absurd rfl unwoken

theorem set_running_sleeping {s : State ι} {i j : ι} {c c' : Call}
    (h : (s.set i (.running c)).thread j = .sleeping c') : s.thread j = .sleeping c' := by
  by_cases here : j = i
  · simp [State.set, here] at h
  · simpa [State.set, here] using h

theorem kill_sleeping {s : State ι} {i j : ι} {c : Call}
    (h : (s.kill i).thread j = .sleeping c) : s.thread j = .sleeping c := by
  by_cases here : j = i
  · subst here
    simp only [State.kill, Function.update_self] at h
    split at h
    · cases h
    · exact h
  · simpa [State.kill, here] using h

theorem step_noLostWakeup_iff {s : State ι} {a : Action ι} (bound : s.pipe.size ≤ pipeSize)
    (quiet : NoLostWakeup s) : NoLostWakeup (perform s a) ↔ Finishes s a := by
  cases a with
  | write i bytes =>
    exact iff_of_true (quiet.of_fewer rfl fun _ _ => set_running_sleeping) trivial
  | read i n => exact iff_of_true (quiet.of_fewer rfl fun _ _ => set_running_sleeping) trivial
  | kill i => exact iff_of_true (quiet.of_fewer rfl fun _ _ => kill_sleeping) trivial
  | close writable => exact iff_of_true (close_noLostWakeup quiet writable) trivial
  | run i =>
    cases thread : s.thread i with
    | out =>
      have idle : perform s (.run i) = s := by simp [perform, State.next, thread]
      rw [idle]
      exact iff_of_true quiet fun n rest running => by simp [thread] at running
    | sleeping c =>
      have idle : perform s (.run i) = s := by simp [perform, State.next, thread]
      rw [idle]
      exact iff_of_true quiet fun n rest running => by simp [thread] at running
    | running c =>
      have eq : perform s (.run i) = s.stretch i (c.stretch s.pipe (s.killed i)) := by
        simp [perform, State.next, thread]
      rw [eq]
      cases c with
      | read n =>
        exact iff_of_true (read_noLostWakeup quiet i n) fun n rest running => by
          simp [thread] at running
      | write n rest =>
        refine (write_noLostWakeup_iff bound quiet i n rest).trans ?_
        constructor
        · intro h m bs running fails
          obtain ⟨rfl, rfl⟩ : n = m ∧ rest = bs := by simpa [thread] using running
          rintro ⟨j, k, asleep⟩
          have other : j ≠ i := by
            rintro rfl
            simp [thread] at asleep
          exact h fails ⟨j, k, other, asleep⟩
        · intro h fails
          rintro ⟨j, k, _, asleep⟩
          exact h n rest thread fails ⟨j, k, asleep⟩

/-- A pipe that nobody is using. -/
def State.unused (p : Pipe) (killed : ι → Bool) : State ι := ⟨p, fun _ => .out, killed⟩

/-- Whatever processes read, write, close and are killed: no wakeup is lost in a
run exactly if each of its steps meets the condition. -/
theorem no_lost_wakeup_iff (p : Pipe) (bound : (p.nwrite - p.nread).toNat ≤ pipeSize)
    (killed : ι → Bool) (as : List (Action ι)) (legal : (system ι).Legal (.unused p killed) as) :
    (system ι).Stays NoLostWakeup (.unused p killed) as ↔
      (system ι).Every Finishes (.unused p killed) as := by
  have keep (s : State ι) (a : Action ι) (_ : (system ι).Enabled s a)
      (inv : s.pipe.size ≤ pipeSize) : ((system ι).perform s a).pipe.size ≤ pipeSize := by
    have order : InOrder s.pipe.contents s ⟨[], []⟩ := ⟨inv, List.append_nil _⟩
    exact (step_inOrder order).bound
  apply (system ι).stays_iff_every keep _ legal bound
  · refine ⟨?_, ?_⟩
    · intro i n asleep
      cases asleep
    · intro i n rest asleep
      cases asleep
  · intro s a _ inv quiet
    exact step_noLostWakeup_iff inv quiet

/-- The pipe that pipealloc() makes. -/
def pipealloc (data : Nat → UInt8) : Pipe := ⟨data, 0, 0, true, true⟩

/-- A reader that slept is woken by the write of a byte. -/
theorem reader_is_woken :
    let start : State (Fin 2) := .unused (pipealloc fun _ => 0) fun _ => false
    let as : List (Action (Fin 2)) := [.read 0 1, .run 0, .write 1 [7], .run 1]
    (system (Fin 2)).Stays NoLostWakeup start as := by
  intro start as
  apply (no_lost_wakeup_iff _ (by decide) _ as (by decide)).mpr
  refine ⟨trivial, ?_, trivial, ?_, trivial⟩
  · intro n rest running
    cases running
  · intro n rest _ fails
    exact absurd fails (by decide)

/-- A killed writer that cannot finish leaves a sleeping reader behind. -/
theorem strands_reader {s : State ι} {i j : ι} {n m : Nat} {rest : List UInt8}
    (bound : s.pipe.size ≤ pipeSize) (quiet : NoLostWakeup s)
    (writes : s.thread i = .running (.write n rest)) (killed : s.killed i = true)
    (asleep : s.thread j = .sleeping (.read m)) (long : pipeSize < rest.length) :
    ¬ NoLostWakeup ((system ι).after s [.run i]) := by
  intro after
  have finishes : Finishes s (.run i) := (step_noLostWakeup_iff bound quiet).mp after
  have short := finishes n rest writes (.inl killed) ⟨j, m, asleep⟩
  omega

/-- Process 1 sleeps in piperead(); process 0 calls pipewrite() with one byte
more than the pipe has room for and is killed before it gets the lock. It fills
the pipe and returns without a wakeup. -/
theorem killed_writer_strands_reader :
    let start : State (Fin 2) := .unused (pipealloc fun _ => 0) fun _ => false
    let first : List (Action (Fin 2)) :=
      [.read 1 1, .run 1, .write 0 (List.replicate 513 7), .kill 0]
    (system (Fin 2)).Legal start (first ++ [.run 0]) ∧
      ¬ NoLostWakeup ((system (Fin 2)).after start (first ++ [.run 0])) := by
  intro start first
  have long : pipeSize < (List.replicate 513 (7 : UInt8)).length := by
    rw [List.length_replicate]
    decide
  refine ⟨by decide, ?_⟩
  rw [System.after_append]
  let before := (system (Fin 2)).after start first
  have asleep : before.thread 1 = .sleeping (.read 1) := by decide
  have writes : before.thread 0 =
      .running (.write (List.replicate 513 (7 : UInt8)).length (List.replicate 513 7)) := rfl
  have quiet : NoLostWakeup before := by
    refine ⟨?_, ?_⟩
    · intro i n _
      have empty : before.pipe.contents = [] := by decide
      have opened : before.pipe.writeopen = true := by decide
      simp [empty, opened]
    · intro i n rest blocked
      match i with
      | 0 => cases writes.symm.trans blocked
      | 1 => cases asleep.symm.trans blocked
  exact strands_reader (by decide) quiet writes (by decide) asleep long

end Xv6.Pipes
