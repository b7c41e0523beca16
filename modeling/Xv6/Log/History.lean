import Xv6.Log.Group

/-! Which writes have been logged, by which operation, and which commit they
went into. -/

namespace Xv6.Log
open Lib
variable {n : Nat} {sb : Superblock}

/-- A commit: the header and the buffer cache it was made from, and the writes
it is for. -/
structure Commit where
  lh : LogHeader
  cache : Disk
  writes : List (Nat × UInt32)

/-- What has happened, as the callers see it. The operations are numbered in
the order begin_op() admits them; a write is an operation and a block. -/
structure History (n : Nat) where
  next : Nat
  op : Fin n → Nat
  /-- The writes since the last commit. -/
  writes : List (Nat × UInt32)
  commits : List Commit

def History.start (n : Nat) : History n := ⟨0, fun _ => 0, [], []⟩

/-- begin_op() lets the operation begin. -/
def State.Admits (s : State n) : Prop :=
  s.committing = false ∧
    s.lh.block.length + (s.outstanding + 1) * maxOpBlocks ≤ (logSize : Int)

instance (s : State n) : Decidable s.Admits := inferInstanceAs (Decidable (_ ∧ _))

theorem State.not_admits {s : State n} (full : s.committing = true ∨
    s.lh.block.length + (s.outstanding + 1) * maxOpBlocks > (logSize : Int)) : ¬ s.Admits := by
  rintro ⟨calm, room⟩
  obtain busy | full := full
  · simp [calm] at busy
  · omega

/-- A write counts when log_write() has it under the lock, a commit when
commit() empties the header. -/
def note (s : State n) (a : Action n) (h : History n) : History n :=
  match a.act, s.thread a.proc with
  | .enter, _ =>
    if s.Admits then { h with next := h.next + 1, op := Function.update h.op a.proc h.next } else h
  | .record, .logWrite b =>
    if (s.lh.absorb b).isSome then { h with writes := h.writes ++ [(h.op a.proc, b)] } else h
  | .commit, _ => { h with writes := [], commits := h.commits ++ [⟨s.lh, s.device.cache, h.writes⟩] }
  | _, _ => h

def history (sb : Superblock) (n : Nat) (d : Disk) (as : List (Action n)) : History n :=
  (log sb n).track note (init n d) as (.start n)

/-- The header holds the blocks of the writes, each once. -/
def Holds (lh : LogHeader) (writes : List (Nat × UInt32)) : Prop :=
  lh.block.Nodup ∧ ∀ b, b ∈ lh.block ↔ b ∈ writes.map Prod.snd

/-- No operation has writes in both. -/
def Apart (ws vs : List (Nat × UInt32)) : Prop := ∀ w ∈ ws, ∀ v ∈ vs, w.1 ≠ v.1

/-- All groups of writes, the one that is still being collected last. -/
def History.groups (h : History n) : List (List (Nat × UInt32)) :=
  h.commits.map Commit.writes ++ [h.writes]

structure Recorded (sb : Superblock) (s : State n) (h : History n) : Prop where
  disk : s.device.writes = h.commits.flatMap fun c => commitWrites sb.logstart c.lh c.cache
  pending : Holds s.lh h.writes
  done : ∀ c ∈ h.commits, Holds c.lh c.writes
  old : ∀ ws ∈ h.groups, ∀ w ∈ ws, w.1 < h.next
  apart : h.groups.Pairwise Apart
  numbered : ∀ p, (s.thread p).isOpen = true → h.op p < h.next
  distinct : ∀ p q, (s.thread p).isOpen = true → (s.thread q).isOpen = true →
    h.op p = h.op q → p = q
  unsaved : ∀ p, (s.thread p).isOpen = true → ∀ ws ∈ h.commits.map Commit.writes, ∀ w ∈ ws, w.1 ≠ h.op p

namespace Recorded
variable {s s' : State n} {h : History n}

/-- Steps that log nothing and open nothing. -/
theorem keep (inv : Recorded sb s h) (lh : s'.lh = s.lh)
    (unwritten : s'.device.writes = s.device.writes)
    (closed : ∀ q, (s'.thread q).isOpen = true → (s.thread q).isOpen = true) : Recorded sb s' h :=
  ⟨unwritten ▸ inv.disk, lh ▸ inv.pending, inv.done, inv.old, inv.apart, fun q hq => inv.numbered q (closed q hq),
    fun q r hq hr => inv.distinct q r (closed q hq) (closed r hr),
    fun q hq => inv.unsaved q (closed q hq)⟩

/-- begin_op() starts an operation with a new number. -/
theorem opens (inv : Recorded sb s h) {p : Fin n} (lh : s'.lh = s.lh)
    (unwritten : s'.device.writes = s.device.writes)
    (others : ∀ q, q ≠ p → s'.thread q = s.thread q) :
    Recorded sb s' { h with next := h.next + 1, op := Function.update h.op p h.next } := by
  have before {q : Fin n} (other : q ≠ p) (hq : (s'.thread q).isOpen = true) :
      (s.thread q).isOpen = true := by rwa [others q other] at hq
  constructor
  case disk => exact unwritten ▸ inv.disk
  case pending => exact lh ▸ inv.pending
  case done => exact inv.done
  case old =>
    intro ws hws w hw
    exact Nat.lt_succ_of_lt (inv.old ws hws w hw)
  case apart => exact inv.apart
  case numbered =>
    intro q hq
    by_cases here : q = p
    · subst here; simp
    · simp only [Function.update_of_ne here]
      exact Nat.lt_succ_of_lt (inv.numbered q (before here hq))
  case distinct =>
    intro q r hq hr eq
    by_cases hereq : q = p <;> by_cases herer : r = p
    · rw [hereq, herer]
    · subst hereq
      have number := inv.numbered r (before herer hr)
      simp only [Function.update_self, Function.update_of_ne herer] at eq
      omega
    · subst herer
      have number := inv.numbered q (before hereq hq)
      simp only [Function.update_self, Function.update_of_ne hereq] at eq
      omega
    · simp only [Function.update_of_ne hereq, Function.update_of_ne herer] at eq
      exact inv.distinct q r (before hereq hq) (before herer hr) eq
  case unsaved =>
    intro q hq ws hws w hw
    by_cases here : q = p
    · subst here
      have number := inv.old ws (List.mem_append_left _ hws) w hw
      simp only [Function.update_self]
      omega
    · simp only [Function.update_of_ne here]
      exact inv.unsaved q (before here hq) ws hws w hw

/-- log_write() adds a write of an operation that is still open. -/
theorem write (inv : Recorded sb s h) {p : Fin n} {b : UInt32} (here : (s.thread p).isOpen = true)
    (unwritten : s'.device.writes = s.device.writes)
    (holds : Holds s'.lh (h.writes ++ [(h.op p, b)]))
    (same : ∀ q, (s'.thread q).isOpen = true → (s.thread q).isOpen = true) :
    Recorded sb s' { h with writes := h.writes ++ [(h.op p, b)] } := by
  have apart := List.pairwise_append.mp inv.apart
  constructor
  case disk => exact unwritten ▸ inv.disk
  case pending => exact holds
  case done => exact inv.done
  case old =>
    intro ws hws w hw
    obtain saved | rfl : ws ∈ h.commits.map Commit.writes ∨ ws = h.writes ++ [(h.op p, b)] := by
      simpa [History.groups] using hws
    · exact inv.old ws (List.mem_append_left _ saved) w hw
    · obtain old | rfl : w ∈ h.writes ∨ w = (h.op p, b) := by simpa using hw
      · exact inv.old h.writes (by simp [History.groups]) w old
      · exact inv.numbered p here
  case apart =>
    refine List.pairwise_append.mpr ⟨apart.1, by simp, ?_⟩
    intro ws hws vs hvs w hw v hv
    rw [List.mem_singleton] at hvs
    subst hvs
    obtain old | rfl : v ∈ h.writes ∨ v = (h.op p, b) := by simpa using hv
    · exact apart.2.2 ws hws h.writes (by simp) w hw v old
    · exact inv.unsaved p here ws hws w hw
  case numbered => exact fun q hq => inv.numbered q (same q hq)
  case distinct => exact fun q r hq hr => inv.distinct q r (same q hq) (same r hr)
  case unsaved => exact fun q hq => inv.unsaved q (same q hq)

/-- commit() closes the group; no operation is open. -/
theorem commit (inv : Recorded sb s h) (empty : s'.lh = .empty)
    (device : s'.device = Log.commit sb.logstart s.lh s.device)
    (nobody : ∀ q, (s'.thread q).isOpen = false) :
    Recorded sb s'
      { h with writes := [], commits := h.commits ++ [⟨s.lh, s.device.cache, h.writes⟩] } := by
  have groups : (h.commits ++ [(⟨s.lh, s.device.cache, h.writes⟩ : Commit)]).map Commit.writes ++
      [[]] = h.groups ++ [[]] := by
    simp [History.groups]
  constructor
  case disk =>
    rw [device, commit_writes, inv.disk]
    simp
  case pending =>
    rw [empty]
    exact ⟨List.nodup_nil, by simp [LogHeader.empty]⟩
  case done =>
    intro c hc
    obtain old | rfl : c ∈ h.commits ∨ c = ⟨s.lh, s.device.cache, h.writes⟩ := by simpa using hc
    · exact inv.done c old
    · exact inv.pending
  case old =>
    intro ws hws w hw
    rw [History.groups, groups, List.mem_append] at hws
    obtain old | new := hws
    · exact inv.old ws old w hw
    · rw [List.mem_singleton.mp new] at hw
      cases hw
  case apart =>
    rw [History.groups, groups]
    refine List.pairwise_append.mpr ⟨inv.apart, by simp, ?_⟩
    intro ws _ vs hvs w _ v hv
    rw [List.mem_singleton.mp hvs] at hv
    cases hv
  case numbered => intro q hq; simp [nobody q] at hq
  case distinct => intro q r hq; simp [nobody q] at hq
  case unsaved => intro q hq; simp [nobody q] at hq

end Recorded

theorem holds_absorb {lh lh' : LogHeader} {writes : List (Nat × UInt32)} {b : UInt32}
    (absorb : lh.absorb b = some lh') (h : Holds lh writes) (o : Nat) :
    Holds lh' (writes ++ [(o, b)]) := by
  obtain ⟨nodup, mem⟩ := h
  unfold LogHeader.absorb at absorb
  split at absorb
  case isTrue here =>
    cases absorb
    refine ⟨nodup, fun c => ?_⟩
    have known := (mem b).mp here
    simp only [List.map_append, List.map_cons, List.map_nil, List.mem_append, List.mem_singleton,
      ← mem c]
    constructor
    · exact .inl
    · rintro (hc | rfl)
      · exact hc
      · exact here
  case isFalse fresh =>
    split at absorb
    case isTrue =>
      cases absorb
      refine ⟨List.nodup_append.mpr ⟨nodup, by simp, ?_⟩, fun c => ?_⟩
      · intro c hc c' hc'
        rw [List.mem_singleton] at hc'
        rintro rfl
        exact fresh (hc' ▸ hc)
      · simp only [List.map_append, List.map_cons, List.map_nil, List.mem_append,
          List.mem_singleton, mem c]
    case isFalse => cases absorb

theorem open_of_set {s : State n} {p q : Fin n} {t : Thread}
    (closed : t.isOpen = true → (s.thread p).isOpen = true)
    (h : ((s.set p t).thread q).isOpen = true) : (s.thread q).isOpen = true := by
  by_cases here : q = p
  · subst here
    exact closed (by simpa using h)
  · rwa [s.set_of_ne here] at h

theorem open_of_wakeup {s : State n} {q : Fin n} (h : (s.wakeup.thread q).isOpen = true) :
    (s.thread q).isOpen = true := by
  rw [State.wakeup_thread] at h
  split at h
  case isTrue => cases h
  case isFalse => exact h

theorem step_recorded {s s' : State n} {p : Fin n} {act : Act} {h : History n}
    (step : Step sb s p act s') (grouped : Grouped s) (inv : Recorded sb s h) :
    Recorded sb s' (note s ⟨p, act⟩ h) := by
  cases step with
  | beginOp here | wake here => exact inv.keep rfl rfl fun q => open_of_set (by simp [Thread.isOpen])
  | sleep here full =>
    simp only [note, State.not_admits full, ↓reduceIte]
    exact inv.keep rfl rfl fun q => open_of_set (by simp [Thread.isOpen])
  | opens here calm room =>
    have admits : s.Admits := ⟨calm, room⟩
    simp only [note, admits, ↓reduceIte]
    exact inv.opens rfl rfl fun q other => s.set_of_ne other _
  | tooBig | outsideOfTrans => exact inv.keep rfl rfl fun q => id
  | overrun here absorb =>
    simp only [note, here, absorb, Option.isSome_none, Bool.false_eq_true, ↓reduceIte]
    exact inv.keep rfl rfl fun q => id
  | logWrite b data here room unwritten =>
    exact inv.keep rfl unwritten fun q => open_of_set (s := s) fun _ => by rw [here]; rfl
  | @record b lh here absorb =>
    simp only [note, here, absorb, Option.isSome_some, ↓reduceIte]
    exact inv.write (p := p) (by rw [here]; rfl) rfl (holds_absorb absorb inv.pending _)
      fun q => open_of_set (s := s) fun _ => by rw [here]; rfl
  | logCommitting here busy => exact inv.keep rfl rfl fun q => id
  | endLast here calm last =>
    exact inv.keep rfl rfl fun q => open_of_set (s := s) (by simp [Thread.isOpen])
  | endOther here calm other | finish here =>
    exact inv.keep rfl rfl fun q hq =>
      open_of_set (s := s) (t := .idle) (by simp [Thread.isOpen]) (open_of_wakeup hq)
  | commit here =>
    have busy := (grouped.committer p (by rw [here]; rfl)).1
    have nobody := State.operations_eq_zero.mp (grouped.quiet busy)
    apply inv.commit rfl rfl
    intro q
    change ((s.set p .committed).thread q).isOpen = false
    by_cases eq : q = p
    · subst eq; rw [State.set_self]; rfl
    · rw [s.set_of_ne eq]; exact nobody q

theorem init_recorded (sb : Superblock) (n : Nat) (d : Disk) :
    Recorded sb (init n d) (.start n) := by
  constructor
  case pending => exact ⟨List.nodup_nil, by simp [init, LogHeader.empty, History.start]⟩
  all_goals simp [init, History.start, History.groups, Thread.isOpen]

theorem run_recorded {d : Disk} {as : List (Action n)} (legal : (log sb n).Legal (init n d) as) :
    Grouped ((log sb n).after (init n d) as) ∧
    Recorded sb ((log sb n).after (init n d) as) (history sb n d as) := by
  apply (log sb n).track_invariant (f := note) (I := fun s h => Grouped s ∧ Recorded sb s h) ?_
    legal ⟨init_grouped n d, init_recorded sb n d⟩
  rintro s a h enabled ⟨grouped, recorded⟩
  have step := step_of_enabled sb enabled
  exact ⟨step_grouped step grouped, step_recorded step grouped recorded⟩

/-- Group commit never splits an operation. In every state that any number of
threads can reach, the counter counts the open operations, a commit goes on
only while there are none, the header is the set of blocks logged since the
last commit, the disk has been written by commits alone, and no operation has
writes in two of them or in one and the current group. -/
theorem group_commit {d : Disk} {as : List (Action n)}
    (legal : (log sb n).Legal (init n d) as) :
    let s := (log sb n).after (init n d) as
    let h := history sb n d as
    s.outstanding = s.operations ∧
    (s.committing = true → s.outstanding = 0) ∧
    (s.outstanding = 0 → s.committing = false → s.lh.block = []) ∧
    Holds s.lh h.writes ∧
    (s.device.writes = h.commits.flatMap fun c => commitWrites sb.logstart c.lh c.cache) ∧
    (∀ c ∈ h.commits, Holds c.lh c.writes) ∧
    h.groups.Pairwise Apart ∧
    s.stopped ≠ some .logCommitting ∧
    ∀ p, s.thread p = .asleep → s.committing = true ∨ 1 ≤ s.outstanding := by
  intro s h
  obtain ⟨grouped, recorded⟩ : Grouped s ∧ Recorded sb s h := run_recorded legal
  have count := grouped.count
  refine ⟨count, ?_, ?_, recorded.pending, recorded.disk, recorded.done, recorded.apart,
    grouped.calm, ?_⟩
  · intro busy
    exact count.trans (congrArg Nat.cast (grouped.quiet busy))
  · intro none calm
    have zero : s.operations = 0 := by omega
    rw [grouped.empty zero calm]
    rfl
  · intro p asleep
    obtain busy | some := grouped.sleeper p asleep
    · exact .inl busy
    · exact .inr (by omega)

/-- The steps of log_write(b). -/
def writes (p : Fin n) (b : UInt32) : List (Action n) :=
  [⟨p, .logWrite b Bytes.zero⟩, ⟨p, .record⟩]

/-- Two operations that share a block go to the disk together. -/
theorem two_operations_one_commit :
    let as : List (Action 2) := [⟨0, .beginOp⟩, ⟨0, .enter⟩, ⟨1, .beginOp⟩, ⟨1, .enter⟩] ++
      writes 0 40 ++ writes 1 40 ++ [⟨1, .endOp⟩] ++ writes 0 41 ++
      [⟨0, .endOp⟩, ⟨0, .commit⟩, ⟨0, .finish⟩]
    let h := history mkfs 2 (fun _ => Bytes.zero) as
    h.commits.map Commit.writes = [[(0, 40), (1, 40), (0, 41)]] ∧
    (∀ c ∈ h.commits, Holds c.lh c.writes) ∧ h.groups.Pairwise Apart := by
  intro as h
  have legal : (log mkfs 2).Legal (init 2 fun _ => Bytes.zero) as := by decide +kernel
  obtain ⟨_, _, _, _, _, done, apart, _⟩ := group_commit legal
  exact ⟨by decide +kernel, done, apart⟩

end Xv6.Log
