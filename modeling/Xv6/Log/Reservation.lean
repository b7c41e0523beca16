import Xv6.Log.History

/-! The space begin_op() reserves. The reservation is for LOGSIZE blocks, and
so is the header; but the log area that mkfs makes has LOGSIZE blocks with the
header among them, and log_write() refuses to go on when all but one of the
LOGSIZE blocks are in use. -/

namespace Xv6.Log
open Lib
variable {n : Nat} {sb : Superblock}

/-- How many different blocks have been written. -/
def blocks (writes : List (Nat × UInt32)) : Nat := (writes.map Prod.snd).toFinset.card

theorem Holds.length {lh : LogHeader} {writes : List (Nat × UInt32)} (h : Holds lh writes) :
    lh.block.length = blocks writes := by
  have same : lh.block.toFinset = (writes.map Prod.snd).toFinset := by
    ext b
    rw [List.mem_toFinset, List.mem_toFinset]
    exact h.2 b
  rw [blocks, ← same, List.toFinset_card_of_nodup h.1]

/-! ## The limit of log_write() -/

def Act.isLogWrite : Act → Bool
  | .logWrite _ _ => true
  | _ => false

theorem step_tooBig {s s' : State n} {p : Fin n} {act : Act} (step : Step sb s p act s')
    (running : s.stopped = none) :
    s'.stopped = some .tooBig ↔ act.isLogWrite = true ∧
      (s.lh.block.length ≥ logSize ∨ (s.lh.block.length : Int) ≥ sb.nlog - 1) := by
  cases step with
  | tooBig b data here full => exact ⟨fun _ => ⟨rfl, full⟩, fun _ => rfl⟩
  | outsideOfTrans b data here room => simp [State.stop, Act.isLogWrite]; omega
  | logWrite b data here room => simp [State.set, Act.isLogWrite, running]; omega
  | overrun | logCommitting => simp [State.stop, Act.isLogWrite]
  | beginOp | wake | sleep | opens | record | endLast | endOther | commit | finish =>
    simp [State.set, State.wakeup, Act.isLogWrite, running]

/-- A call of log_write() comes when fewer than LOGSIZE - 1 different blocks
have been logged since the last commit. -/
def LogsInTime (_ : State n) (h : History n) (a : Action n) : Prop :=
  a.act.isLogWrite = true → blocks h.writes < logSize - 1

instance (s : State n) (h : History n) (a : Action n) : Decidable (LogsInTime s h a) :=
  inferInstanceAs (Decidable (_ → _))

def NotTooBig (sb : Superblock) (s : State n) (a : Action n) : Prop :=
  (perform sb s a).stopped ≠ some .tooBig

theorem logsInTime_iff {s : State n} {h : History n} {a : Action n} (size : sb.nlog = logSize)
    (enabled : Enabled s a) (inv : Recorded sb s h) : LogsInTime s h a ↔ NotTooBig sb s a := by
  have length := inv.pending.length
  have stops := step_tooBig (step_of_enabled sb enabled) enabled.1
  unfold LogsInTime NotTooBig
  rw [Ne, stops, not_and, size, length]
  constructor
  · intro early call
    have := early call
    omega
  · intro room call
    have := room call
    omega

/-- With the log that mkfs makes, no call of log_write() panics over a too big
transaction just when each one comes before LOGSIZE - 1 different blocks have
been logged. -/
theorem not_too_big_iff {d : Disk} {as : List (Action n)} (size : sb.nlog = logSize)
    (legal : (log sb n).Legal (init n d) as) :
    (log sb n).Every (NotTooBig sb) (init n d) as ↔
      (log sb n).EveryTracked note LogsInTime (init n d) (.start n) as := by
  apply Iff.symm
  apply (log sb n).everyTracked_iff_every (I := fun s h => Grouped s ∧ Recorded sb s h) ?_ ?_ legal
    ⟨init_grouped n d, init_recorded sb n d⟩
  · rintro s a h enabled ⟨grouped, recorded⟩
    have step := step_of_enabled sb enabled
    exact ⟨step_grouped step grouped, step_recorded step grouped recorded⟩
  · rintro s a h enabled ⟨_, recorded⟩
    exact logsInTime_iff size enabled recorded

/-- A small operation. -/
theorem one_block_in_time :
    let as : List (Action 1) :=
      [⟨0, .beginOp⟩, ⟨0, .enter⟩] ++ writes 0 40 ++ writes 0 40 ++ [⟨0, .endOp⟩]
    (log mkfs 1).Every (NotTooBig mkfs) (init 1 fun _ => Bytes.zero) as := by
  intro as
  have legal : (log mkfs 1).Legal (init 1 fun _ => Bytes.zero) as := by decide +kernel
  exact (not_too_big_iff rfl legal).mpr (by decide +kernel)

/-- The blocks thread `p` passes to log_write(). -/
def passed (p : Fin n) (as : List (Action n)) : List UInt32 :=
  as.filterMap fun a =>
    match a.act with
    | .logWrite b _ => if a.proc = p then some b else none
    | _ => none

/-- Three operations are admitted together, and each writes no more than
MAXOPBLOCKS blocks; the last block of the last operation is refused. -/
theorem third_operation_too_big :
    let admitted : List (Action 3) := [⟨0, .beginOp⟩, ⟨0, .enter⟩, ⟨1, .beginOp⟩, ⟨1, .enter⟩,
      ⟨2, .beginOp⟩, ⟨2, .enter⟩]
    let as := admitted ++ (List.range 10).flatMap (fun i => writes 0 (.ofNat (100 + i))) ++
      (List.range 10).flatMap (fun i => writes 1 (.ofNat (200 + i))) ++
      (List.range 9).flatMap (fun i => writes 2 (.ofNat (300 + i))) ++
      [⟨2, .logWrite 309 Bytes.zero⟩]
    mkfs.nlog = logSize ∧ (log mkfs 3).Legal (init 3 fun _ => Bytes.zero) as ∧
    (∀ p, (passed p as).toFinset.card ≤ maxOpBlocks) ∧
    ((log mkfs 3).after (init 3 fun _ => Bytes.zero) as).stopped = some .tooBig := by
  decide +kernel

/-! ## What the reservation does cover -/

/-- The blocks operation `o` has logged. -/
def blocksOf (o : Nat) (writes : List (Nat × UInt32)) : Finset UInt32 :=
  ((writes.filter fun w => w.1 = o).map Prod.snd).toFinset

theorem blocksOf_append_self (o : Nat) (writes : List (Nat × UInt32)) (b : UInt32) :
    blocksOf o (writes ++ [(o, b)]) = insert b (blocksOf o writes) := by
  ext c
  simp [blocksOf]

theorem blocksOf_append_of_ne {o o' : Nat} (h : o' ≠ o) (writes : List (Nat × UInt32))
    (b : UInt32) : blocksOf o (writes ++ [(o', b)]) = blocksOf o writes := by
  simp [blocksOf, h]

theorem mem_block_of_mem_blocksOf {lh : LogHeader} {writes : List (Nat × UInt32)}
    (h : Holds lh writes) {o : Nat} {b : UInt32} (mem : b ∈ blocksOf o writes) : b ∈ lh.block := by
  rw [h.2 b]
  obtain ⟨w, hw, rfl⟩ := List.mem_map.mp (List.mem_toFinset.mp mem)
  exact List.mem_map.mpr ⟨w, (List.mem_filter.mp hw).1, rfl⟩

/-- No operation logs more than MAXOPBLOCKS different blocks. -/
def Modest (s : State n) (h : History n) (a : Action n) : Prop :=
  ∀ b, a.act = .record → s.thread a.proc = .logWrite b →
    (insert b (blocksOf (h.op a.proc) h.writes)).card ≤ maxOpBlocks

/-- What is left of the reservation of a thread. -/
def leftOf (h : History n) (p : Fin n) (t : Thread) : Nat :=
  if t.isOpen then maxOpBlocks - (blocksOf (h.op p) h.writes).card else 0

/-- The header has room for what is left of all reservations. -/
structure Reserved (s : State n) (h : History n) : Prop where
  room : s.lh.block.length + tally (leftOf h) s.thread ≤ logSize
  fits : s.stopped ≠ some .overrun

namespace Reserved
variable {s s' : State n} {h : History n}

/-- Steps that log nothing and open nothing. -/
theorem keep (inv : Reserved s h) (lh : s'.lh = s.lh)
    (closed : ∀ q, (s'.thread q).isOpen = true → (s.thread q).isOpen = true)
    (fits : s'.stopped ≠ some .overrun) : Reserved s' h := by
  have less : tally (leftOf h) s'.thread ≤ tally (leftOf h) s.thread := by
    apply tally_le
    intro q
    unfold leftOf
    split
    case isTrue here => rw [if_pos (closed q here)]
    case isFalse => exact Nat.zero_le _
  have room := inv.room
  exact ⟨by rw [lh]; omega, fits⟩

/-- An operation that has logged its block `b` has paid for it. -/
theorem record (inv : Reserved s h) (recorded : Recorded sb s h) {p : Fin n} {b : UInt32}
    {lh : LogHeader} (here : (s.thread p).isOpen = true) (absorb : s.lh.absorb b = some lh)
    (modest : (insert b (blocksOf (h.op p) h.writes)).card ≤ maxOpBlocks) :
    Reserved ({ s with lh := lh }.set p .inOp)
      { h with writes := h.writes ++ [(h.op p, b)] } := by
  let h' : History n := { h with writes := h.writes ++ [(h.op p, b)] }
  refine ⟨?_, inv.fits⟩
  have change := tally_change (w := leftOf h') (v := leftOf h)
    (f := Function.update s.thread p .inOp) (g := s.thread) p (by
      intro q other
      rw [Function.update_of_ne other]
      unfold leftOf
      split
      case isTrue open' =>
        have differs : h.op p ≠ h.op q := fun eq => other (recorded.distinct p q here open' eq).symm
        rw [blocksOf_append_of_ne differs]
      case isFalse => rfl)
  have before : leftOf h p (s.thread p) = maxOpBlocks - (blocksOf (h.op p) h.writes).card :=
    if_pos here
  have after : leftOf h' p (Function.update s.thread p .inOp p) =
      maxOpBlocks - (insert b (blocksOf (h.op p) h.writes)).card := by
    rw [Function.update_self, ← blocksOf_append_self]
    rfl
  have more : (blocksOf (h.op p) h.writes).card ≤ (insert b (blocksOf (h.op p) h.writes)).card :=
    Finset.card_le_card (Finset.subset_insert _ _)
  have room := inv.room
  change lh.block.length + tally (leftOf h') (Function.update s.thread p .inOp) ≤ logSize
  unfold LogHeader.absorb at absorb
  split at absorb
  case isTrue known =>
    cases absorb
    omega
  case isFalse fresh =>
    split at absorb
    case isTrue =>
      cases absorb
      have new : b ∉ blocksOf (h.op p) h.writes :=
        fun mem => fresh (mem_block_of_mem_blocksOf recorded.pending mem)
      rw [Finset.card_insert_of_notMem new] at after modest
      simp only [List.length_append, List.length_singleton]
      omega
    case isFalse => cases absorb

/-- An operation with some of its reservation left finds room in the header. -/
theorem not_full (inv : Reserved s h) (recorded : Recorded sb s h) {p : Fin n} {b : UInt32}
    (here : (s.thread p).isOpen = true)
    (modest : (insert b (blocksOf (h.op p) h.writes)).card ≤ maxOpBlocks) :
    s.lh.absorb b ≠ none := by
  unfold LogHeader.absorb
  split
  case isTrue => simp
  case isFalse fresh =>
    have new : b ∉ blocksOf (h.op p) h.writes :=
      fun mem => fresh (mem_block_of_mem_blocksOf recorded.pending mem)
    rw [Finset.card_insert_of_notMem new] at modest
    have left : leftOf h p (s.thread p) = maxOpBlocks - (blocksOf (h.op p) h.writes).card :=
      if_pos here
    have least := le_tally (leftOf h) s.thread p
    have room := inv.room
    rw [dif_pos (by omega)]
    simp

end Reserved

theorem left_le (h : History n) (s : State n) :
    tally (leftOf h) s.thread ≤ maxOpBlocks * s.operations := by
  rw [State.operations, ← tally_mul]
  apply tally_le
  intro p
  unfold leftOf
  split
  · omega
  · exact Nat.zero_le _

theorem Reserved.of_none {s : State n} (none : s.operations = 0) (empty : s.lh = .empty)
    (fits : s.stopped ≠ some .overrun) (h : History n) : Reserved s h := by
  have least := left_le h s
  rw [none] at least
  refine ⟨?_, fits⟩
  rw [empty]
  exact Nat.le_trans (Nat.add_le_add_left least _) (Nat.zero_le _)

theorem step_reserved {s s' : State n} {p : Fin n} {act : Act} {h : History n}
    (step : Step sb s p act s') (grouped : Grouped s)
    (recorded : Recorded sb s h) (modest : Modest s h ⟨p, act⟩) (inv : Reserved s h) :
    Reserved s' (note s ⟨p, act⟩ h) := by
  have fits := inv.fits
  have grouped' := step_grouped step grouped
  cases step with
  | beginOp here | wake here =>
    exact inv.keep rfl (fun q => open_of_set (by simp [Thread.isOpen])) fits
  | sleep here full =>
    simp only [note, State.not_admits full, ↓reduceIte]
    exact inv.keep rfl (fun q => open_of_set (by simp [Thread.isOpen])) fits
  | opens here calm room =>
    have admits : s.Admits := ⟨calm, room⟩
    simp only [note, admits, ↓reduceIte]
    have count := grouped.count
    have more := s.operations_set p .inOp
    simp only [here, Thread.isOpen, Bool.false_eq_true, ↓reduceIte] at more
    have least := left_le { h with next := h.next + 1, op := Function.update h.op p h.next }
      (s.set p .inOp)
    refine ⟨?_, fits⟩
    change s.lh.block.length + tally _ (s.set p .inOp).thread ≤ logSize
    simp only [maxOpBlocks] at room least
    omega
  | tooBig | outsideOfTrans => exact inv.keep rfl (fun q => id) (by simp [State.stop])
  | overrun here absorb =>
    exact absurd absorb (inv.not_full recorded (by rw [here]; rfl) (modest _ rfl here))
  | logWrite b data here room unwritten =>
    exact inv.keep rfl (fun q => open_of_set (s := s) fun _ => by rw [here]; rfl) fits
  | @record b lh here absorb =>
    simp only [note, here, absorb, Option.isSome_some, ↓reduceIte]
    exact inv.record recorded (by rw [here]; rfl) absorb (modest b rfl here)
  | logCommitting here busy => exact inv.keep rfl (fun q => id) (by simp [State.stop])
  | endLast here calm last =>
    exact inv.keep rfl (fun q => open_of_set (s := s) (by simp [Thread.isOpen])) fits
  | endOther here calm other | finish here =>
    exact inv.keep rfl (fun q hq =>
      open_of_set (s := s) (t := .idle) (by simp [Thread.isOpen]) (open_of_wakeup hq)) fits
  | commit here =>
    have nobody := grouped'.quiet (grouped.committer p (by rw [here]; rfl)).1
    exact .of_none nobody rfl fits _

/-- The header is never overrun by operations that log no more than MAXOPBLOCKS
different blocks each: that much space is reserved for them. -/
theorem header_not_overrun {d : Disk} {as : List (Action n)}
    (legal : (log sb n).Legal (init n d) as)
    (modest : (log sb n).EveryTracked note Modest (init n d) (.start n) as) :
    ((log sb n).after (init n d) as).stopped ≠ some .overrun := by
  have inv := (log sb n).track_invariant_of_everyTracked (f := note) (Q := Modest)
    (I := fun s h => Grouped s ∧ Recorded sb s h ∧ Reserved s h) ?_ legal modest
    ⟨init_grouped n d, init_recorded sb n d, ?_⟩
  · exact inv.2.2.fits
  · rintro s a h enabled modest ⟨grouped, recorded, reserved⟩
    have step := step_of_enabled sb enabled
    exact ⟨step_grouped step grouped, step_recorded step grouped recorded,
      step_reserved step grouped recorded modest reserved⟩
  · exact .of_none (State.operations_eq_zero.mpr fun _ => rfl) rfl (by simp [init]) _

theorem one_block_fits :
    let as : List (Action 1) := [⟨0, .beginOp⟩, ⟨0, .enter⟩] ++ writes 0 40
    let s := (log mkfs 1).after (init 1 fun _ => Bytes.zero) as
    s.lh.block = [40] ∧ s.stopped ≠ some .overrun := by
  intro as s
  refine ⟨by decide +kernel, header_not_overrun (by decide +kernel) ?_⟩
  simp only [as, writes, List.cons_append, List.nil_append, System.EveryTracked]
  refine ⟨nofun, nofun, nofun, fun b _ here => ?_, trivial⟩
  obtain rfl : 40 = b := Thread.logWrite.inj here
  decide +kernel

end Xv6.Log
