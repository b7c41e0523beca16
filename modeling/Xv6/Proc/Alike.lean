import Xv6.Proc.Killing

/-! Entries of a slot, and tables, that the kernel cannot tell apart. allocproc()
and fork() set most fields of a slot they fill in, but not `etime`, nor `killed`,
nor the channel; every operation on the table and every scan of scheduler()
leads from tables that look the same to tables that look the same. -/

namespace Xv6
open Kernel Lib
variable {n : Nat} {strategy : Nat}

/-! ## Entries that look the same -/

/-- What the kernel can tell apart of two entries of a slot: everything once the
process is there, except a channel it does not sleep on, the upper bytes of an
`etime` it has not exited at, and its size until fork() has copied it; and of
an UNUSED slot what allocproc() does not overwrite. -/
structure Alike (p q : Proc) : Prop where
  state : q.state = p.state
  killed : q.killed = p.killed
  parent : q.parent = p.parent
  etime : q.etime.toUInt8 = p.etime.toUInt8
  entry : p.state ≠ .unused → q = { p with sz := q.sz, chan := q.chan, etime := q.etime }
  size : p.state ≠ .unused → (p.state = .embryo → p.parent ≠ none) → q.sz = p.sz
  chan : p.state = .sleeping → q.chan = p.chan
  exited : p.state = .zombie → q.etime = p.etime

theorem Alike.refl (p : Proc) : Alike p p :=
  ⟨rfl, rfl, rfl, rfl, fun _ => rfl, fun _ _ => rfl, fun _ => rfl, fun _ => rfl⟩

theorem alike_with {p : Proc} {sz etime : UInt32} {chan : Option Chan}
    (byte : etime.toUInt8 = p.etime.toUInt8)
    (size : (p.state = .embryo → p.parent ≠ none) → sz = p.sz)
    (asleep : p.state = .sleeping → chan = p.chan) (exited : p.state = .zombie → etime = p.etime) :
    Alike p { p with sz := sz, chan := chan, etime := etime } :=
  ⟨rfl, rfl, rfl, byte, fun _ => rfl, fun _ => size, asleep, exited⟩

/-- The entry of a process in terms of one that looks the same. -/
theorem Alike.used {p q : Proc} (h : Alike p q) (used : p.state ≠ .unused) :
    ∃ sz chan etime, etime.toUInt8 = p.etime.toUInt8 ∧
      ((p.state = .embryo → p.parent ≠ none) → sz = p.sz) ∧
      (p.state = .sleeping → chan = p.chan) ∧ (p.state = .zombie → etime = p.etime) ∧
      q = { p with sz := sz, chan := chan, etime := etime } :=
  ⟨q.sz, q.chan, q.etime, h.etime, h.size used, h.chan, h.exited, h.entry used⟩

/-- Two entries of a process that is neither new nor asleep nor gone. -/
theorem Alike.awake {p q : Proc} (h : Alike p q) (on : p.state = .runnable ∨ p.state = .running) :
    ∃ chan etime, etime.toUInt8 = p.etime.toUInt8 ∧ q = { p with chan := chan, etime := etime } := by
  obtain ⟨sz, chan, etime, byte, size, _, _, rfl⟩ := h.used (by grind)
  obtain rfl := size (by grind)
  exact ⟨chan, etime, byte, rfl⟩

theorem alike_awake {p : Proc} {chan : Option Chan} {etime : UInt32}
    (byte : etime.toUInt8 = p.etime.toUInt8) (asleep : p.state ≠ .sleeping)
    (exited : p.state ≠ .zombie) : Alike p { p with chan := chan, etime := etime } :=
  alike_with byte (fun _ => rfl) (fun h => absurd h asleep) (fun h => absurd h exited)

theorem Alike.kill {p q : Proc} (h : Alike p q) (used : p.state ≠ .unused) (ticks : UInt32) :
    Alike (p.kill ticks) (q.kill ticks) := by
  obtain ⟨sz, chan, etime, byte, size, asleep, exited, rfl⟩ := h.used used
  unfold Proc.kill
  split
  · rename_i sleeping
    exact alike_with byte (fun _ => size (by simp [sleeping])) (by simp [Proc.ready])
      (by simp [Proc.ready])
  · exact alike_with byte size asleep exited

theorem Alike.wake {p q : Proc} (h : Alike p q) (sleeping : p.state = .sleeping) (ticks : UInt32) :
    Alike (p.ready ticks) (q.ready ticks) := by
  obtain ⟨sz, chan, etime, byte, size, _, _, rfl⟩ := h.used (by simp [sleeping])
  exact alike_with byte (fun _ => size (by simp [sleeping])) (by simp [Proc.ready])
    (by simp [Proc.ready])

theorem Alike.setParent {p q : Proc} (h : Alike p q) (linked : p.parent ≠ none) (parent : Slot) :
    Alike { p with parent := some parent } { q with parent := some parent } := by
  refine ⟨h.state, h.killed, rfl, h.etime, fun used => ?_, fun used _ => h.size used (fun _ => linked),
    h.chan, h.exited⟩
  have entry := h.entry used
  rw [entry]

theorem Alike.alloc {p q : Proc} (h : Alike p q) (orphan : p.parent = none) (ticks : UInt32)
    (nextpid : Int32) : Alike (p.alloc ticks nextpid) (q.alloc ticks nextpid) := by
  refine ⟨rfl, h.killed, h.parent, h.etime, fun _ => ?_, fun _ linked => ?_, by simp [Proc.alloc],
    by simp [Proc.alloc]⟩
  · simp [Proc.alloc, h.killed, h.parent]
  · exact absurd orphan (linked rfl)

theorem Alike.reap {p q : Proc} (h : Alike p q) : Alike p.reap q.reap :=
  ⟨rfl, rfl, rfl, h.etime, by simp [Proc.reap], by simp [Proc.reap], by simp [Proc.reap],
    by simp [Proc.reap]⟩

theorem Alike.abandon {p q : Proc} (h : Alike p q) :
    Alike { p with state := .unused } { q with state := .unused } :=
  ⟨rfl, h.killed, h.parent, h.etime, by simp, by simp, by simp, by simp⟩

theorem Alike.link {p q : Proc} (h : Alike p q) (embryo : p.state = .embryo) (sz : UInt32)
    (parent : Slot) :
    Alike { p with sz := sz, parent := some parent } { q with sz := sz, parent := some parent } := by
  obtain ⟨_, chan, etime, byte, _, _, _, rfl⟩ := h.used (by simp [embryo])
  exact alike_with (p := { p with sz := sz, parent := some parent }) byte (fun _ => rfl)
    (by simp [embryo]) (by simp [embryo])

theorem Alike.publish {p q : Proc} (h : Alike p q) (embryo : p.state = .embryo)
    (linked : p.parent ≠ none) (ticks : UInt32) : Alike (p.ready ticks) (q.ready ticks) := by
  obtain ⟨sz, chan, etime, byte, size, _, _, rfl⟩ := h.used (by simp [embryo])
  exact alike_with byte (fun _ => size fun _ => linked) (by simp [Proc.ready]) (by simp [Proc.ready])

section
variable {p q : Proc} (h : Alike p q) (running : p.state = .running)
include h running

theorem Alike.charge : Alike p.charge q.charge := by
  obtain ⟨chan, etime, byte, rfl⟩ := h.awake (.inr running)
  exact alike_awake byte (by simp [Proc.charge, running]) (by simp [Proc.charge, running])

theorem Alike.yield (ticks : UInt32) : Alike (p.ready ticks) (q.ready ticks) := by
  obtain ⟨chan, etime, byte, rfl⟩ := h.awake (.inr running)
  exact alike_awake byte (by simp [Proc.ready]) (by simp [Proc.ready])

theorem Alike.sleep (chan : Chan) :
    Alike { p with chan := some chan, state := .sleeping }
      { q with chan := some chan, state := .sleeping } := by
  obtain ⟨_, etime, byte, rfl⟩ := h.awake (.inr running)
  exact alike_with (p := { p with chan := some chan, state := .sleeping }) byte (fun _ => rfl)
    (fun _ => rfl) (by simp)

theorem Alike.clear : Alike { p with chan := none } { q with chan := none } := by
  obtain ⟨_, etime, byte, rfl⟩ := h.awake (.inr running)
  exact alike_awake (p := { p with chan := none }) byte (by simp [running]) (by simp [running])

theorem Alike.fault : Alike { p with killed := true } { q with killed := true } := by
  obtain ⟨chan, etime, byte, rfl⟩ := h.awake (.inr running)
  exact alike_awake (p := { p with killed := true }) byte (by simp [running]) (by simp [running])

theorem Alike.setcid (cid : Int32) : Alike { p with cid := cid } { q with cid := cid } := by
  obtain ⟨chan, etime, byte, rfl⟩ := h.awake (.inr running)
  exact alike_awake (p := { p with cid := cid }) byte (by simp [running]) (by simp [running])

theorem Alike.exec (ticks sz : UInt32) : Alike (p.exec ticks sz) (q.exec ticks sz) := by
  obtain ⟨chan, etime, byte, rfl⟩ := h.awake (.inr running)
  exact alike_awake byte (by simp [Proc.exec, running]) (by simp [Proc.exec, running])

theorem Alike.nice (ticks : UInt32) : Alike (p.nice ticks) (q.nice ticks) := by
  obtain ⟨chan, etime, byte, rfl⟩ := h.awake (.inr running)
  have blind : ({ p with chan := chan, etime := etime } : Proc).nice ticks =
      { p.nice ticks with chan := chan, etime := etime } := by
    unfold Proc.nice
    grind
  rw [blind]
  have kept : (p.nice ticks).etime = p.etime := by unfold Proc.nice; grind
  exact alike_awake (kept ▸ byte) (by simp [running]) (by simp [running])

theorem Alike.exit (ticks : UInt32) :
    Alike { p with state := .zombie, etime := ticks } { q with state := .zombie, etime := ticks } := by
  obtain ⟨chan, etime, byte, rfl⟩ := h.awake (.inr running)
  exact alike_with (p := { p with state := .zombie, etime := ticks }) rfl (fun _ => rfl) (by simp)
    (fun _ => rfl)

end

/-! ## Tables -/

def AlikeTables (t u : Table) : Prop := ∀ i, Alike (t i) (u i)

section
variable {t u : Table} (h : AlikeTables t u)
include h

theorem AlikeTables.update {v w : Proc} (here : Alike v w) (p : Slot) :
    AlikeTables (Function.update t p v) (Function.update u p w) := by
  intro i
  by_cases eq : i = p
  · subst eq; simpa using here
  · simpa [eq] using h i

theorem AlikeTables.wakeup1 (ticks : UInt32) (chan : Option Chan) :
    AlikeTables (wakeup1 ticks chan t) (wakeup1 ticks chan u) := by
  intro i
  have alike := h i
  unfold Xv6.wakeup1
  by_cases sleeping : (t i).state = .sleeping
  · by_cases on : (t i).chan = chan
    · simpa [sleeping, on, alike.state, alike.chan sleeping] using alike.wake sleeping ticks
    · simpa [sleeping, on, alike.state, alike.chan sleeping] using alike
  · simpa [sleeping, alike.state] using alike

theorem AlikeTables.adopt (ticks : UInt32) (initproc me p : Slot) :
    AlikeTables (adopt ticks initproc me t p) (adopt ticks initproc me u p) := by
  have alike := h p
  unfold Xv6.adopt
  rw [alike.parent, alike.state]
  split
  · rename_i child
    have linked := h.update (alike.setParent (by simp [child]) initproc) p
    dsimp only
    split
    · exact linked.wakeup1 _ _
    · exact linked
  · exact h

theorem AlikeTables.foldl_adopt (ticks : UInt32) (initproc me : Slot) (l : List Slot) :
    AlikeTables (l.foldl (Xv6.adopt ticks initproc me) t)
      (l.foldl (Xv6.adopt ticks initproc me) u) := by
  induction l generalizing t u with
  | nil => exact h
  | cons p l ih => exact ih (h.adopt ticks initproc me p)

theorem AlikeTables.exitTable (ticks : UInt32) (initproc me : Slot)
    (running : (t me).state = .running) :
    AlikeTables (exitTable ticks initproc me t) (exitTable ticks initproc me u) := by
  unfold Xv6.exitTable
  rw [(h me).parent]
  have woken := h.wakeup1 ticks ((t me).parent.map .proc)
  have adopted := woken.foldl_adopt ticks initproc me slots
  have nodup : slots.Nodup := slots_sorted.imp (fun h => ne_of_lt h)
  have passive : Passive ticks (t me) (slots.foldl (Xv6.adopt ticks initproc me)
      (Xv6.wakeup1 ticks ((t me).parent.map .proc) t) me) :=
    (passive_wakeup1 _ _ _ _).trans (Xv6.foldl_adopt ticks initproc me slots nodup _ _).1
  exact adopted.update ((adopted me).exit (passive.running_iff.mpr running) ticks) me

theorem AlikeTables.findUnused : findUnused u = findUnused t := by
  simp only [Xv6.findUnused, fun i => (h i).state]

theorem AlikeTables.waitScan (me : Slot) : waitScan u me = waitScan t me := by
  simp only [Xv6.waitScan, fun i => (h i).state, fun i => (h i).parent, (h me).killed]

/-- kill() finds the same slot if it can find only processes. -/
theorem AlikeTables.findPid {pid : Int32} (fresh : ¬ Stale t pid) (fresh' : ¬ Stale u pid) :
    findPid pid u = findPid pid t := by
  have same (i : Slot) : (decide ((u i).pid = pid)) = decide ((t i).pid = pid) := by
    by_cases unused : (t i).state = .unused
    · have left : (t i).pid ≠ pid := fun named => fresh ⟨i, unused, named⟩
      have right : (u i).pid ≠ pid := fun named => fresh' ⟨i, (h i).state.trans unused, named⟩
      simp [left, right]
    · rw [(h i).entry unused]
  simp only [Xv6.findPid, same]

theorem AlikeTables.kill {pid : Int32} (fresh : ¬ Stale t pid) (fresh' : ¬ Stale u pid)
    (ticks : UInt32) : AlikeTables (kill ticks pid t) (kill ticks pid u) := by
  unfold Xv6.kill
  rw [h.findPid fresh fresh']
  cases found : Xv6.findPid pid t with
  | none => exact h
  | some p =>
    have used : (t p).state ≠ .unused := fun unused => fresh ⟨p, unused, findPid_some found⟩
    exact h.update ((h p).kill used ticks) p

end

/-! ## scheduler() -/

theorem Alike.isRunnable {p q : Proc} (h : Alike p q) : q.isRunnable = p.isRunnable := by
  simp [Proc.isRunnable, h.state]

theorem Alike.onLevel {p q : Proc} (h : Alike p q) (level : Int32) :
    q.onLevel level = p.onLevel level := by
  by_cases runnable : p.state = .runnable
  · obtain ⟨chan, etime, _, rfl⟩ := h.awake (.inl runnable)
    rfl
  · simp [Proc.onLevel, h.state, runnable]

/-- Two outcomes of scheduler() that switch to the same slot, or to none. -/
structure AlikeOutcomes (o o' : Outcome) : Prop where
  table : AlikeTables o.table o'.table
  proc : o'.proc = o.proc
  next : o'.next = o.next

theorem Alike.run {p q : Proc} (h : Alike p q) (runnable : p.state = .runnable) :
    Alike p.run q.run := by
  obtain ⟨chan, etime, byte, rfl⟩ := h.awake (.inl runnable)
  exact alike_awake byte (by simp [Proc.run]) (by simp [Proc.run])

theorem Alike.runStamped {p q : Proc} (h : Alike p q) (runnable : p.state = .runnable)
    (ticks : UInt32) : Alike (p.runStamped ticks) (q.runStamped ticks) := by
  obtain ⟨chan, etime, byte, rfl⟩ := h.awake (.inl runnable)
  exact alike_awake byte (by simp [Proc.runStamped, Proc.run]) (by simp [Proc.runStamped, Proc.run])

theorem Alike.grade {p q : Proc} (h : Alike p q) (runnable : p.state = .runnable)
    (grt : UInt32) : Alike { p with grt := grt } { q with grt := grt } := by
  obtain ⟨chan, etime, byte, rfl⟩ := h.awake (.inl runnable)
  exact alike_awake (p := { p with grt := grt }) byte (by simp [runnable]) (by simp [runnable])

section
variable {t u : Table} (h : AlikeTables t u) {sel : Proc → Bool}
  (sels : ∀ p q, Alike p q → sel q = sel p) (runnable : ∀ p, sel p = true → p.state = .runnable)
include h

theorem AlikeTables.switchTo {p : Slot} (runnable : (t p).state = .runnable) (ticks : UInt32) :
    AlikeOutcomes (switchTo ticks t (some p)) (switchTo ticks u (some p)) :=
  ⟨h.update ((h p).runStamped runnable ticks) p, rfl, rfl⟩

include sels runnable

theorem AlikeTables.rrLoop (proc : Option Slot) (l : List Slot) :
    AlikeOutcomes (rrLoop sel t proc l) (rrLoop sel u proc l) := by
  unfold Xv6.rrLoop
  have same : (fun i => sel (u i)) = fun i => sel (t i) := funext fun i => sels _ _ (h i)
  rw [same]
  cases found : l.find? fun i => sel (t i) with
  | none => exact ⟨h, rfl, rfl⟩
  | some p =>
    have selected : sel (t p) = true := by simpa using List.find?_some found
    exact ⟨h.update ((h p).run (runnable _ selected)) p, rfl, rfl⟩

theorem AlikeTables.fifoScan (acc : Option Slot × UInt32) :
    fifoScan sel u acc = fifoScan sel t acc := by
  apply scan_congr slots (fun i => sels _ _ (h i))
  intro i selected
  obtain ⟨_, _, _, eq⟩ := (h i).awake (.inl (runnable _ selected))
  simp [eq]

theorem AlikeTables.scan_share (ticks : UInt32) (acc : Option Slot × UInt32) :
    scan (fun i => sel (u i)) (fun i => (u i).share ticks) acc slots =
      scan (fun i => sel (t i)) (fun i => (t i).share ticks) acc slots := by
  apply scan_congr slots (fun i => sels _ _ (h i))
  intro i selected
  obtain ⟨_, _, _, eq⟩ := (h i).awake (.inl (runnable _ selected))
  simp [eq, Proc.share]

theorem AlikeTables.storeShares (ticks : UInt32) :
    AlikeTables (storeShares sel ticks t) (storeShares sel ticks u) := by
  intro i
  unfold Xv6.storeShares
  rw [sels _ _ (h i)]
  split
  · rename_i selected
    have on := runnable _ selected
    have share : (u i).share ticks = (t i).share ticks := by
      obtain ⟨_, _, _, eq⟩ := (h i).awake (.inl on)
      simp [eq, Proc.share]
    rw [share]
    exact (h i).grade on _
  · exact h i

end

/-- A scan below `ticks` that is followed by a switch if the bound has moved. -/
theorem AlikeTables.pick {t u : Table} (h : AlikeTables t u) {sel : Slot → Bool}
    {key : Slot → UInt32} (runnable : ∀ i, sel i = true → (t i).state = .runnable) {ticks : UInt32}
    {acc : Option Slot × UInt32} (bound : acc.2 = ticks) {o o' : Outcome}
    (rest : (scan sel key acc slots).2 = ticks → AlikeOutcomes o o') :
    AlikeOutcomes
      (if (scan sel key acc slots).2 ≠ ticks then Xv6.switchTo ticks t (scan sel key acc slots).1
        else o)
      (if (scan sel key acc slots).2 ≠ ticks then Xv6.switchTo ticks u (scan sel key acc slots).1
        else o') := by
  obtain ⟨proc, min⟩ := acc
  obtain rfl : min = ticks := bound
  obtain ⟨_, eq⟩ | ⟨p, eq, below, first⟩ := scan_cases sel key proc min
  · simpa [eq] using rest (by simp [eq])
  · have moved : key p ≠ min := by grind
    simpa [eq, moved] using h.switchTo (runnable _ first.selected) min

theorem AlikeTables.schedule {t u : Table} (h : AlikeTables t u) (strategy : Nat) (ticks : UInt32)
    (proc : Option Slot) :
    AlikeOutcomes (schedule strategy ticks t proc) (schedule strategy ticks u proc) := by
  have all : ∀ p q, Alike p q → q.isRunnable = p.isRunnable := fun _ _ h => h.isRunnable
  have level (l : Int32) : ∀ p q, Alike p q → q.onLevel l = p.onLevel l := fun _ _ h => h.onLevel l
  have graded {sel : Proc → Bool} (i : Slot) :
      (Xv6.storeShares sel ticks t i).state = (t i).state := by
    unfold Xv6.storeShares
    split <;> rfl
  unfold Xv6.schedule
  split
  · exact h.rrLoop all (fun _ => isRunnable_state) proc slots
  split
  · unfold fifoPass
    rw [h.fifoScan all (fun _ => isRunnable_state)]
    exact h.pick (fun _ => isRunnable_state) rfl fun _ => ⟨h, rfl, rfl⟩
  split
  · unfold guaranteedPass
    rw [shareScan_eq, shareScan_eq, h.scan_share all (fun _ => isRunnable_state)]
    have shares := h.storeShares all (fun _ => isRunnable_state) ticks
    exact shares.pick (fun i on => (graded i).trans (isRunnable_state on)) rfl
      fun _ => ⟨shares, rfl, rfl⟩
  split
  · unfold multiLevelPass
    rw [shareScan_eq, shareScan_eq, h.scan_share (level 3) (fun _ => onLevel_state)]
    have shares := h.storeShares (level 3) (fun _ => onLevel_state) ticks
    apply shares.pick (fun i on => (graded i).trans (onLevel_state on)) rfl
    intro unmoved
    dsimp only
    rw [shares.fifoScan (level 2) (fun _ => onLevel_state)]
    apply shares.pick (fun i on => onLevel_state on) unmoved
    intro _
    exact shares.rrLoop (level 1) (fun _ => onLevel_state) _ slots
  · exact ⟨h, rfl, rfl⟩

theorem AlikeTables.reschedule {t u : Table} (h : AlikeTables t u) (strategy : Nat)
    (ctx : SchedCtx) : AlikeOutcomes (reschedule strategy t ctx) (reschedule strategy u ctx) := by
  cases ctx with
  | loop p =>
    simp only [Xv6.reschedule]
    by_cases one : strategy = 1
    · simpa only [one, ↓reduceIte] using
        h.rrLoop (fun _ _ h => h.isRunnable) (fun _ => isRunnable_state) none _
    · simpa only [one, ↓reduceIte] using
        h.rrLoop (fun _ _ h => h.onLevel 1) (fun _ => onLevel_state) none _
  | once => exact ⟨h, rfl, rfl⟩

end Xv6
