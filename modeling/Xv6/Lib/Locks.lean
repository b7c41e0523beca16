import Mathlib.Data.Finset.Max
import Xv6.Lib.Runs

/-! Spinlocks shared by several CPUs, and the lock-order argument. Code is
reduced to its lock operations (`Prog`); its paths are run by CPUs that take
interrupts while they hold no lock and that hand one lock, the hub, over from
thread to scheduler and back. `Prog.wp` computes what a piece of code asks of
the locks held before it, for every acquire to be inside locks it may be taken
inside of. If these nestings can be ranked, the CPUs never spin on each other
in a cycle. -/

namespace Xv6.Lib.Locks

/-- One operation of a path. `swtch` gives the CPU back to its scheduler until
the thread is chosen again, `quit` gives it back for good, and `dispatch` is
the scheduler giving the CPU to a thread. -/
inductive Op (L : Type) where
  | acquire (l : L)
  | release (l : L)
  | swtch
  | quit
  | dispatch
  deriving DecidableEq

/-- Code with its conditions left open. -/
inductive Prog (L : Type) where
  | skip
  | op (o : Op L)
  | seq (first rest : Prog L)
  | either (yes no : Prog L)
  | loop (body : Prog L)
  | anyOf (f : Nat → Prog L)

namespace Prog
variable {L : Type}

abbrev acquire (l : L) : Prog L := .op (.acquire l)
abbrev release (l : L) : Prog L := .op (.release l)

def block : List (Prog L) → Prog L
  | [] => .skip
  | p :: ps => .seq p (block ps)

/-- A critical section in which no other lock is touched. -/
def locked (l : L) : Prog L := block [acquire l, release l]

def times (f : List Nat → List (Op L) × List Nat) : Nat → List Nat → List (Op L) × List Nat
  | 0, cs => ([], cs)
  | k + 1, cs =>
    let first := f cs
    let rest := times f k first.2
    (first.1 ++ rest.1, rest.2)

/-- The operations done when the open conditions come out as the list says,
and the decisions left over. A list that has run out decides 0. -/
def follow : Prog L → List Nat → List (Op L) × List Nat
  | .skip, cs => ([], cs)
  | .op o, cs => ([o], cs)
  | .seq a b, cs =>
    let first := a.follow cs
    let rest := b.follow first.2
    (first.1 ++ rest.1, rest.2)
  | .either a b, cs => if cs.headI = 0 then a.follow cs.tail else b.follow cs.tail
  | .loop a, cs => times a.follow cs.headI cs.tail
  | .anyOf f, cs => (f cs.headI).follow cs.tail

def path (p : Prog L) (cs : List Nat) : List (Op L) := (p.follow cs).1

end Prog

/-! ## CPUs running paths -/

/-- A CPU: what is left of the paths it is in, innermost first; while a thread
runs, what is left of its scheduler's round; and how many locks it holds. -/
structure Cpu (L : Type) where
  frames : List (List (Op L))
  sched : Option (List (Op L))
  ncli : Nat

structure State (L : Type) where
  cpus : Nat → Cpu L
  owner : L → Option Nat
  /-- The threads waiting to be dispatched, each with its own frames. -/
  parked : List (List (List (Op L)))

def State.idle {L : Type} : State L := ⟨fun _ => ⟨[], none, 0⟩, fun _ => none, []⟩

/-- The code of a kernel: what a trap runs when it comes from user mode, when
it interrupts a thread in the kernel, and when it interrupts a CPU without a
thread; one round of the scheduler; and where a new thread starts. -/
structure Code (L : Type) where
  user : Prog L
  kernel : Prog L
  idle : Prog L
  iteration : Prog L
  birth : Prog L

def Code.entry {L : Type} (K : Code L) (cpu : Cpu L) : Prog L :=
  match cpu.sched, cpu.frames with
  | none, _ => K.idle
  | some _, [] => K.user
  | some _, _ :: _ => K.kernel

inductive Act where
  | enter (cs : List Nat)
  | leave
  | step
  | iterate (cs : List Nat)
  | dispatch (i : Nat)
  | launch (cs : List Nat)

section
variable {L : Type} [DecidableEq L]

def State.set (s : State L) (c : Nat) (cpu : Cpu L) : State L :=
  { s with cpus := Function.update s.cpus c cpu }

def Cpu.AtDispatch (cpu : Cpu L) : Prop :=
  match cpu.frames with
  | [.dispatch :: _] => cpu.sched = none
  | _ => False

/-- An acquire waits until the lock is free; a trap comes in only while the
CPU holds no lock. -/
def State.Enabled (s : State L) (c : Nat) : Act → Prop
  | .enter _ => (s.cpus c).ncli = 0
  | .leave => (s.cpus c).frames.head? = some []
  | .step =>
    match (s.cpus c).frames with
    | (.acquire l :: _) :: _ => s.owner l = none
    | (.release l :: _) :: _ => s.owner l = some c
    | (.swtch :: _) :: _ => (s.cpus c).sched.isSome
    | (.quit :: _) :: _ => (s.cpus c).sched.isSome
    | _ => False
  | .iterate _ => (s.cpus c).sched = none ∧ (s.cpus c).frames.isEmpty
  | .dispatch i => (s.cpus c).AtDispatch ∧ i < s.parked.length
  | .launch _ => (s.cpus c).AtDispatch

def Code.perform (K : Code L) (s : State L) (c : Nat) (a : Act) : State L :=
  let cpu := s.cpus c
  match a with
  | .enter cs => s.set c { cpu with frames := (K.entry cpu).path cs :: cpu.frames }
  | .leave => s.set c { cpu with frames := cpu.frames.tail }
  | .step =>
    match cpu.frames, cpu.sched with
    | (.acquire l :: r) :: fs, _ =>
      { s.set c { cpu with frames := r :: fs, ncli := cpu.ncli + 1 } with
        owner := Function.update s.owner l (some c) }
    | (.release l :: r) :: fs, _ =>
      { s.set c { cpu with frames := r :: fs, ncli := cpu.ncli - 1 } with
        owner := Function.update s.owner l none }
    | (.swtch :: r) :: fs, some k =>
      { s.set c { cpu with frames := [k], sched := none } with parked := (r :: fs) :: s.parked }
    | (.quit :: _) :: _, some k => s.set c { cpu with frames := [k], sched := none }
    | _, _ => s
  | .iterate cs => s.set c { cpu with frames := [K.iteration.path cs] }
  | .dispatch i =>
    { s.set c { cpu with frames := s.parked.getD i [], sched := cpu.frames.head?.map List.tail } with
      parked := s.parked.eraseIdx i }
  | .launch cs =>
    s.set c { cpu with frames := [K.birth.path cs], sched := cpu.frames.head?.map List.tail }

/-- The first `n` CPUs running the kernel's paths in any interleaving. -/
def Code.system (K : Code L) (n : Nat) : System (State L) (Nat × Act) where
  Enabled s a := a.1 < n ∧ s.Enabled a.1 a.2
  perform s a := K.perform s a.1 a.2

/-- CPU `c` is at an acquire of a lock that `d` holds. -/
def State.Spins (s : State L) (c d : Nat) : Prop :=
  match (s.cpus c).frames with
  | (.acquire l :: _) :: _ => s.owner l = some d
  | _ => False

def State.Deadlocked (s : State L) : Prop :=
  ∃ S : Finset Nat, S.Nonempty ∧ ∀ c ∈ S, ∃ d ∈ S, d ≠ c ∧ s.Spins c d

instance (s : State L) (c d : Nat) : Decidable (s.Spins c d) := by
  unfold State.Spins
  split <;> infer_instance

instance (cpu : Cpu L) : Decidable cpu.AtDispatch := by
  unfold Cpu.AtDispatch
  split <;> infer_instance

instance (s : State L) (c : Nat) (a : Act) : Decidable (s.Enabled c a) := by
  cases a <;> simp only [State.Enabled]
  case step => split <;> infer_instance
  all_goals infer_instance

instance (K : Code L) (n : Nat) (s : State L) (a : Nat × Act) :
    Decidable ((K.system n).Enabled s a) :=
  inferInstanceAs (Decidable (a.1 < n ∧ s.Enabled a.1 a.2))

/-! ## Pre- and postconditions over the locks held -/

/-- Which lock may be held when which is acquired, and the lock that is handed
over at a switch. -/
structure Nesting (L : Type) where
  allows : L → L → Prop
  hub : L

/-- What `o` asks of the locks held, for `Q` to hold of those held after it. -/
def Op.wp (N : Nesting L) : Op L → (List L → Prop) → List L → Prop
  | .acquire l, Q, h => (∀ x ∈ h, N.allows x l) ∧ Q (l :: h)
  | .release l, Q, h => l ∈ h ∧ Q (h.erase l)
  | .swtch, Q, h => h = [N.hub] ∧ Q [N.hub]
  | .quit, _, h => h = [N.hub]
  | .dispatch, Q, h => h = [N.hub] ∧ Q [N.hub]

/-- The body of a loop has to give back the locks it found. -/
def Prog.wp (N : Nesting L) : Prog L → (List L → Prop) → List L → Prop
  | .skip, Q, h => Q h
  | .op o, Q, h => o.wp N Q h
  | .seq a b, Q, h => a.wp N (b.wp N Q) h
  | .either a b, Q, h => a.wp N Q h ∧ b.wp N Q h
  | .loop a, Q, h => Q h ∧ a.wp N (· = h) h
  | .anyOf f, Q, h => ∀ i, (f i).wp N Q h

/-- The rest of a path, run with the locks `h` held: every acquire is allowed,
and no lock is held at the end. -/
def Ordered (N : Nesting L) : List (Op L) → List L → Prop
  | [], h => h = []
  | o :: r, h => o.wp N (Ordered N r) h

variable {N : Nesting L} {Q Q' : List L → Prop} {h : List L}

theorem Op.wp_mono {o : Op L} (imp : ∀ h, Q h → Q' h) (pre : o.wp N Q h) : o.wp N Q' h := by
  cases o with
  | acquire l => exact ⟨pre.1, imp _ pre.2⟩
  | release l => exact ⟨pre.1, imp _ pre.2⟩
  | swtch => exact ⟨pre.1, imp _ pre.2⟩
  | quit => exact pre
  | dispatch => exact ⟨pre.1, imp _ pre.2⟩

/-- Soundness of `wp`: whichever way the conditions come out, the path and
what follows it are ordered. -/
theorem Prog.ordered_follow {p : Prog L} {rest : List (Op L)} (cs : List Nat) (pre : p.wp N Q h)
    (after : ∀ h, Q h → Ordered N rest h) : Ordered N ((p.follow cs).1 ++ rest) h := by
  induction p generalizing Q h cs rest with
  | skip => exact after h pre
  | op o => exact Op.wp_mono after pre
  | seq a b iha ihb =>
    simp only [follow, List.append_assoc]
    exact iha cs pre fun h' pre' => ihb _ pre' after
  | either a b iha ihb =>
    rw [follow]
    split
    · exact iha _ pre.1 after
    · exact ihb _ pre.2 after
  | loop a ih =>
    -- by induction on the number of rounds; the body gives back the locks it found
    suffices ∀ k cs, Ordered N ((times a.follow k cs).1 ++ rest) h from this _ _
    intro k
    induction k with
    | zero => exact fun _ => after h pre.1
    | succ k rounds =>
      intro cs
      simp only [times, List.append_assoc]
      exact ih cs pre.2 fun _ eq => eq ▸ rounds _
  | anyOf f ih => exact ih _ _ (pre _) after

theorem Prog.ordered_path {p : Prog L} (cs : List Nat) (pre : p.wp N (· = []) h) :
    Ordered N (p.path cs) h := by
  have ordered : Ordered N ((p.follow cs).1 ++ []) h := p.ordered_follow cs pre fun _ eq => eq
  simpa [Prog.path] using ordered

@[simp] theorem wp_skip : (Prog.skip : Prog L).wp N Q = Q := rfl

@[simp] theorem wp_acquire (l : L) :
    (Prog.acquire l).wp N Q h ↔ (∀ x ∈ h, N.allows x l) ∧ Q (l :: h) := .rfl

@[simp] theorem wp_release (l : L) :
    (Prog.release l).wp N Q h ↔ l ∈ h ∧ Q (h.erase l) := .rfl

@[simp] theorem wp_swtch : (Prog.op .swtch).wp N Q h ↔ h = [N.hub] ∧ Q [N.hub] := .rfl

@[simp] theorem wp_quit : (Prog.op .quit).wp N Q h ↔ h = [N.hub] := .rfl

@[simp] theorem wp_dispatch : (Prog.op .dispatch).wp N Q h ↔ h = [N.hub] ∧ Q [N.hub] := .rfl

@[simp] theorem wp_either {a b : Prog L} :
    (Prog.either a b).wp N Q h ↔ a.wp N Q h ∧ b.wp N Q h := .rfl

@[simp] theorem wp_loop {a : Prog L} : (Prog.loop a).wp N Q h ↔ Q h ∧ a.wp N (· = h) h := .rfl

@[simp] theorem wp_anyOf {f : Nat → Prog L} :
    (Prog.anyOf f).wp N Q h ↔ ∀ i, (f i).wp N Q h := .rfl

@[simp] theorem wp_block_nil : (Prog.block [] : Prog L).wp N Q = Q := rfl

@[simp] theorem wp_block_cons {p : Prog L} {ps : List (Prog L)} :
    (Prog.block (p :: ps)).wp N Q h ↔ p.wp N ((Prog.block ps).wp N Q) h := .rfl

@[simp] theorem wp_locked (l : L) :
    (Prog.locked l).wp N Q h ↔ (∀ x ∈ h, N.allows x l) ∧ Q h := by
  simp [Prog.locked]

/-! ## Paths that avoid a nesting -/

/-- The path, begun with the locks `h` held, never acquires `l` inside `x`. -/
def Avoids (x l : L) : List (Op L) → List L → Prop
  | [], _ => True
  | .acquire m :: r, h => ¬ (x ∈ h ∧ m = l) ∧ Avoids x l r (m :: h)
  | .release m :: r, h => Avoids x l r (h.erase m)
  | .quit :: _, _ => True
  | .swtch :: r, h => Avoids x l r h
  | .dispatch :: r, h => Avoids x l r h

instance decidableAvoids (x l : L) :
    (path : List (Op L)) → (h : List L) → Decidable (Avoids x l path h)
  | [], _ => .isTrue trivial
  | .acquire m :: r, h =>
    have := decidableAvoids x l r (m :: h)
    inferInstanceAs (Decidable (¬ (x ∈ h ∧ m = l) ∧ Avoids x l r (m :: h)))
  | .release m :: r, h => decidableAvoids x l r (h.erase m)
  | .quit :: _, _ => .isTrue trivial
  | .swtch :: r, h => decidableAvoids x l r h
  | .dispatch :: r, h => decidableAvoids x l r h

def Nesting.without (N : Nesting L) (x l : L) : Nesting L where
  allows y m := N.allows y m ∧ ¬ (y = x ∧ m = l)
  hub := N.hub

theorem ordered_without {x l : L} {path : List (Op L)} (ordered : Ordered N path h)
    (avoids : Avoids x l path h) : Ordered (N.without x l) path h := by
  induction path generalizing h with
  | nil => exact ordered
  | cons o r ih =>
    cases o with
    | acquire m =>
      refine ⟨fun y mem => ⟨ordered.1 y mem, ?_⟩, ih ordered.2 avoids.2⟩
      rintro ⟨rfl, rfl⟩
      exact avoids.1 ⟨mem, rfl⟩
    | release m => exact ⟨ordered.1, ih ordered.2 avoids⟩
    | quit => exact ordered
    | swtch | dispatch => exact ⟨ordered.1, ih ordered.2 (ordered.1 ▸ avoids)⟩

/-! ## The invariant of ordered runs -/

/-- `P` holds of the path that a step begins, and of the locks held there. -/
def Code.Enters (K : Code L) (hub : L) (P : List (Op L) → List L → Prop) (s : State L)
    (a : Nat × Act) : Prop :=
  match a.2 with
  | .enter cs => P ((K.entry (s.cpus a.1)).path cs) []
  | .iterate cs => P (K.iteration.path cs) []
  | .launch cs => P (K.birth.path cs) [hub]
  | _ => True

instance (K : Code L) (hub : L) (P : List (Op L) → List L → Prop)
    [∀ path h, Decidable (P path h)] (s : State L) (a : Nat × Act) :
    Decidable (K.Enters hub P s a) := by
  unfold Code.Enters
  split <;> infer_instance

structure Code.Ordered (K : Code L) (N : Nesting L) : Prop where
  user : K.user.wp N (· = []) []
  kernel : K.kernel.wp N (· = []) []
  idle : K.idle.wp N (· = []) []
  iteration : K.iteration.wp N (· = []) []
  birth : K.birth.wp N (· = []) [N.hub]

theorem Code.Ordered.entry {K : Code L} (ordered : K.Ordered N) (cpu : Cpu L) :
    (K.entry cpu).wp N (· = []) [] := by
  unfold Code.entry
  split
  · exact ordered.idle
  · exact ordered.user
  · exact ordered.kernel

/-- A step of ordered code that avoids one nesting is ordered without it. -/
theorem Code.Ordered.enters_without {K : Code L} (ordered : K.Ordered N) {x l : L} {s : State L}
    {a : Nat × Act} (avoids : K.Enters N.hub (Avoids x l) s a) :
    K.Enters N.hub (Xv6.Lib.Locks.Ordered (N.without x l)) s a := by
  obtain ⟨c, act⟩ := a
  cases act with
  | enter cs => exact ordered_without (Prog.ordered_path cs (ordered.entry _)) avoids
  | iterate cs => exact ordered_without (Prog.ordered_path cs ordered.iteration) avoids
  | launch cs => exact ordered_without (Prog.ordered_path cs ordered.birth) avoids
  | leave | step | dispatch => trivial

/-- The innermost path runs with the locks `h`; those it interrupted held none. -/
def Frames (N : Nesting L) (h : List L) : List (List (Op L)) → Prop
  | [] => h = []
  | f :: fs => Ordered N f h ∧ ∀ g ∈ fs, Ordered N g []

/-- CPU `c` holds exactly the locks `h`, and all it has left to do is ordered. -/
structure Holds (N : Nesting L) (owner : L → Option Nat) (c : Nat) (cpu : Cpu L) (h : List L) :
    Prop where
  nodup : h.Nodup
  ncli : cpu.ncli = h.length
  mem : ∀ l, l ∈ h ↔ owner l = some c
  frames : Frames N h cpu.frames
  sched : ∀ r, cpu.sched = some r → Ordered N r [N.hub]

structure Sound (N : Nesting L) (s : State L) : Prop where
  cpu : ∀ c, ∃ h, Holds N s.owner c (s.cpus c) h
  parked : ∀ t ∈ s.parked, Frames N [N.hub] t

theorem Frames.push {f : List (Op L)} {fs : List (List (Op L))} (frames : Frames N [] fs)
    (ordered : Ordered N f []) : Frames N [] (f :: fs) := by
  refine ⟨ordered, fun g mem => ?_⟩
  cases fs with
  | nil => cases mem
  | cons f' fs =>
    rcases List.mem_cons.mp mem with rfl | mem
    · exact frames.1
    · exact frames.2 g mem

theorem Frames.pop {fs : List (List (Op L))} (frames : Frames N h ([] :: fs)) :
    Frames N h fs := by
  obtain ⟨rfl, rest⟩ := frames
  cases fs with
  | nil => rfl
  | cons g gs => exact ⟨rest g (.head _), fun g' mem => rest g' (.tail _ mem)⟩

/-- One CPU's step keeps the invariant if that CPU's own part does and the
locks of the others are left alone. -/
theorem Sound.update {s : State L} {c : Nat} {cpu : Cpu L} {owner : L → Option Nat}
    {parked : List (List (List (Op L)))} (sound : Sound N s) (own : Holds N owner c cpu h)
    (locks : ∀ d l, d ≠ c → (owner l = some d ↔ s.owner l = some d))
    (threads : ∀ t ∈ parked, Frames N [N.hub] t) :
    Sound N ⟨Function.update s.cpus c cpu, owner, parked⟩ := by
  refine ⟨fun d => ?_, threads⟩
  by_cases eq : d = c
  · subst eq
    exact ⟨h, by simpa using own⟩
  · obtain ⟨h', holds⟩ := sound.cpu d
    refine ⟨h', ?_⟩
    simp only [Function.update_of_ne eq]
    exact ⟨holds.nodup, holds.ncli, fun l => (holds.mem l).trans (locks d l eq).symm,
      holds.frames, holds.sched⟩

theorem Sound.set {s : State L} {c : Nat} {cpu : Cpu L} (sound : Sound N s)
    (own : Holds N s.owner c cpu h) : Sound N (s.set c cpu) :=
  sound.update own (fun _ _ _ => .rfl) sound.parked

theorem Holds.acquire {owner : L → Option Nat} {c : Nat} {cpu : Cpu L} {l : L}
    {r : List (Op L)} {fs : List (List (Op L))} (holds : Holds N owner c cpu h)
    (at_acquire : cpu.frames = (.acquire l :: r) :: fs) (free : owner l = none) :
    Holds N (Function.update owner l (some c)) c
      { cpu with frames := r :: fs, ncli := cpu.ncli + 1 } (l :: h) := by
  have frames := holds.frames
  rw [at_acquire] at frames
  have absent : l ∉ h := by simp [holds.mem, free]
  refine ⟨.cons absent holds.nodup, by simp [holds.ncli], fun l' => ?_,
    ⟨frames.1.2, frames.2⟩, holds.sched⟩
  by_cases eq : l' = l
  · simp [eq]
  · simp [eq, holds.mem]

theorem Holds.release {owner : L → Option Nat} {c : Nat} {cpu : Cpu L} {l : L}
    {r : List (Op L)} {fs : List (List (Op L))} (holds : Holds N owner c cpu h)
    (at_release : cpu.frames = (.release l :: r) :: fs) :
    Holds N (Function.update owner l none) c
      { cpu with frames := r :: fs, ncli := cpu.ncli - 1 } (h.erase l) := by
  have frames := holds.frames
  rw [at_release] at frames
  refine ⟨holds.nodup.erase l, by simp [holds.ncli, List.length_erase_of_mem frames.1.1],
    fun l' => ?_, ⟨frames.1.2, frames.2⟩, holds.sched⟩
  by_cases eq : l' = l
  · simp [eq, holds.nodup.mem_erase_iff]
  · simp [eq, holds.nodup.mem_erase_iff, holds.mem]

/-- A CPU at a switch holds the hub and nothing else, so it can go on with
anything that may run with the hub held. -/
theorem Holds.switch {owner : L → Option Nat} {c : Nat} {cpu cpu' : Cpu L}
    (holds : Holds N owner c cpu h) (hub : h = [N.hub]) (ncli : cpu'.ncli = cpu.ncli)
    (frames : Frames N [N.hub] cpu'.frames)
    (sched : ∀ r, cpu'.sched = some r → Ordered N r [N.hub]) :
    Holds N owner c cpu' [N.hub] := by
  subst hub
  exact ⟨holds.nodup, ncli.trans holds.ncli, holds.mem, frames, sched⟩

theorem Holds.at_dispatch {owner : L → Option Nat} {c : Nat} {cpu : Cpu L}
    (holds : Holds N owner c cpu h) (at_dispatch : cpu.AtDispatch) :
    h = [N.hub] ∧ ∀ r, cpu.frames.head?.map List.tail = some r → Ordered N r [N.hub] := by
  have frames := holds.frames
  unfold Cpu.AtDispatch at at_dispatch
  split at at_dispatch
  case h_1 r eq =>
    rw [eq] at frames
    refine ⟨frames.1.1, fun r' eq' => ?_⟩
    rw [eq] at eq'
    cases eq'
    exact frames.1.2
  case h_2 => exact at_dispatch.elim

theorem sound_step {K : Code L} {s : State L} {c : Nat} {a : Act} (enabled : s.Enabled c a)
    (enters : K.Enters N.hub (Ordered N) s (c, a)) (sound : Sound N s) :
    Sound N (K.perform s c a) := by
  obtain ⟨h, holds⟩ := sound.cpu c
  have frames := holds.frames
  cases a with
  | enter cs =>
    have none_held : h = [] := List.eq_nil_of_length_eq_zero (holds.ncli.symm.trans enabled)
    subst none_held
    exact sound.set ⟨holds.nodup, holds.ncli, holds.mem,
      frames.push enters, holds.sched⟩
  | leave =>
    simp only [State.Enabled] at enabled
    obtain ⟨fs, eq⟩ := List.head?_eq_some_iff.mp enabled
    rw [eq] at frames
    refine sound.set ⟨holds.nodup, holds.ncli, holds.mem, ?_, holds.sched⟩
    simpa [eq] using frames.pop
  | iterate cs =>
    obtain ⟨no_thread, empty⟩ := enabled
    rw [List.isEmpty_iff.mp empty] at frames
    subst frames
    exact sound.set ⟨holds.nodup, holds.ncli, holds.mem,
      ⟨enters, nofun⟩, by simp [no_thread]⟩
  | dispatch i =>
    obtain ⟨hub, rest⟩ := holds.at_dispatch enabled.1
    have mem : s.parked.getD i [] ∈ s.parked := by
      simp [List.getD_eq_getElem?_getD, List.getElem?_eq_getElem enabled.2]
    exact sound.update (holds.switch hub rfl (sound.parked _ mem) rest) (fun _ _ _ => .rfl)
      fun t ht => sound.parked t (List.mem_of_mem_eraseIdx ht)
  | launch cs =>
    obtain ⟨hub, rest⟩ := holds.at_dispatch enabled
    exact sound.set (holds.switch hub rfl ⟨enters, nofun⟩ rest)
  | step =>
    simp only [State.Enabled] at enabled
    split at enabled
    case h_1 l r fs eq =>
      simp only [Code.perform, eq]
      refine sound.update (holds.acquire eq enabled) (fun d l' ne => ?_) sound.parked
      by_cases same : l' = l
      · simp [same, enabled, ne.symm]
      · simp [same]
    case h_2 l r fs eq =>
      simp only [Code.perform, eq]
      refine sound.update (holds.release eq) (fun d l' ne => ?_) sound.parked
      by_cases same : l' = l
      · simp [same, enabled, ne.symm]
      · simp [same]
    case h_3 r fs eq =>
      obtain ⟨k, thread⟩ := Option.isSome_iff_exists.mp enabled
      simp only [Code.perform, eq, thread]
      rw [eq] at frames
      refine sound.update (holds.switch frames.1.1 rfl ⟨holds.sched k thread, nofun⟩ nofun)
        (fun _ _ _ => .rfl) fun t ht => ?_
      rcases List.mem_cons.mp ht with rfl | ht
      · exact ⟨frames.1.2, frames.2⟩
      · exact sound.parked t ht
    case h_4 r fs eq =>
      obtain ⟨k, thread⟩ := Option.isSome_iff_exists.mp enabled
      simp only [Code.perform, eq, thread]
      rw [eq] at frames
      exact sound.set (holds.switch frames.1 rfl ⟨holds.sched k thread, nofun⟩ nofun)
    case h_5 => exact enabled.elim

theorem idle_sound : Sound N .idle :=
  ⟨fun c => ⟨[], .nil, rfl, by simp [State.idle], rfl, nofun⟩, nofun⟩

/-! ## Deadlock -/

omit [DecidableEq L] in
theorem deadlocked_of_spins {s : State L} {c d : Nat} (ne : c ≠ d) (here : s.Spins c d)
    (there : s.Spins d c) : s.Deadlocked := by
  refine ⟨{c, d}, ⟨c, by simp⟩, fun e mem => ?_⟩
  obtain rfl | rfl : e = c ∨ e = d := by simpa using mem
  · exact ⟨d, by simp, ne.symm, here⟩
  · exact ⟨c, by simp, ne, there⟩

/-- Whoever spins may acquire the lock it wants inside every lock it holds. -/
theorem Sound.spins {s : State L} (sound : Sound N s) {c d : Nat} (spins : s.Spins c d) :
    ∃ l r fs, (s.cpus c).frames = (.acquire l :: r) :: fs ∧ s.owner l = some d ∧
      ∀ x, s.owner x = some c → N.allows x l := by
  unfold State.Spins at spins
  split at spins
  case h_1 l r fs eq =>
    obtain ⟨h, holds⟩ := sound.cpu c
    have frames := holds.frames
    rw [eq] at frames
    exact ⟨l, r, fs, eq, spins, fun x owned => frames.1.1 x ((holds.mem x).mpr owned)⟩
  case h_2 => exact spins.elim

/-- The rank of the lock a CPU is about to acquire. -/
def State.wants (rank : L → Nat) (s : State L) (c : Nat) : Nat :=
  match (s.cpus c).frames with
  | (.acquire l :: _) :: _ => rank l
  | _ => 0

section
variable {rank : L → Nat} (ranked : ∀ x l, N.allows x l → rank x < rank l)
include ranked

theorem Sound.not_deadlocked {s : State L} (sound : Sound N s) : ¬ s.Deadlocked := by
  rintro ⟨S, nonempty, cycle⟩
  -- the member that wants the highest lock waits for one that wants a higher one
  obtain ⟨c, hc, top⟩ := S.exists_max_image (s.wants rank) nonempty
  obtain ⟨d, hd, -, spins⟩ := cycle c hc
  obtain ⟨e, -, -, spins'⟩ := cycle d hd
  obtain ⟨l, r, fs, eq, owned, -⟩ := sound.spins spins
  obtain ⟨l', r', fs', eq', -, above⟩ := sound.spins spins'
  have le : rank l' ≤ rank l := by simpa [State.wants, eq, eq'] using top d hd
  have lt := ranked l l' (above l owned)
  omega

/-- A run that begins only paths whose nestings can be ranked never deadlocks. -/
theorem stays_not_deadlocked {K : Code L} {n : Nat} {as : List (Nat × Act)}
    (legal : (K.system n).Legal .idle as)
    (enters : (K.system n).Every (K.Enters N.hub (Ordered N)) .idle as) :
    (K.system n).Stays (fun s => ¬ s.Deadlocked) .idle as :=
  (K.system n).stays_of_every (fun _ _ enabled sound enters => sound_step enabled.2 enters sound)
    (fun _ sound => sound.not_deadlocked ranked) legal idle_sound enters

end
end
end Xv6.Lib.Locks
