import Xv6.Log.Commit

/-! A crash at any point of commit(), and further crashes during recovery,
leave all of a transaction or nothing of it. -/

namespace Xv6.Log
open Lib

/-- A transaction as log_write() collects it: distinct home blocks outside the
log area, and room in the area for the header and a copy of each. -/
structure LogHeader.Valid (start size : Nat) (lh : LogHeader) : Prop where
  nodup : lh.block.Nodup
  room : lh.block.length < size
  outside : ∀ b ∈ lh.block, b.toNat < start ∨ start + size ≤ b.toNat

variable {start size : Nat} {lh : LogHeader}

/-! ## What is written -/

theorem LogHeader.mem_entries {e : UInt32 × Nat} (h : e ∈ lh.entries) :
    e.1 ∈ lh.block ∧ e.2 < lh.block.length := by
  obtain ⟨_, bound, eq⟩ := List.mem_zipIdx h
  rw [Nat.zero_add] at bound
  constructor
  · rw [eq]
    exact List.getElem_mem _
  · exact bound

theorem LogHeader.exists_entry {b : UInt32} (h : b ∈ lh.block) : ∃ i, (b, i) ∈ lh.entries := by
  obtain ⟨i, bound, rfl⟩ := List.getElem_of_mem h
  exact ⟨i, List.mk_mem_zipIdx_iff_getElem?.mpr (List.getElem?_eq_getElem bound)⟩

/-- The copies are inside the log area and behind the header, the home blocks
outside of it. -/
theorem LogHeader.Valid.apart (valid : lh.Valid start size) {e f : UInt32 × Nat}
    (he : e ∈ lh.entries) (hf : f ∈ lh.entries) :
    logBlock start e.2 ≠ start ∧ f.1.toNat ≠ start ∧ logBlock start e.2 ≠ f.1.toNat := by
  have room := valid.room
  have index := (LogHeader.mem_entries he).2
  have outside := valid.outside f.1 (LogHeader.mem_entries hf).1
  unfold logBlock
  omega

theorem LogHeader.Valid.copies_nodup (start : Nat) (lh : LogHeader) (v : UInt32 × Nat → Block) :
    ((lh.entries.map fun e => (logBlock start e.2, v e)).map Prod.fst).Nodup := by
  have positions : (lh.entries.map Prod.snd).Nodup := by
    rw [LogHeader.entries, List.zipIdx_map_snd]
    exact List.nodup_range' _
  have shift := positions.map (f := logBlock start) (by
    intro i j h
    unfold logBlock at h
    omega)
  simpa [List.map_map, Function.comp_def] using shift

theorem LogHeader.Valid.homes_nodup (valid : lh.Valid start size) (v : UInt32 × Nat → Block) :
    ((lh.entries.map fun e => (e.1.toNat, v e)).map Prod.fst).Nodup := by
  have homes : (lh.entries.map Prod.fst).Nodup := by
    rw [LogHeader.entries, List.zipIdx_map_fst]
    exact valid.nodup
  have numbers := homes.map (f := UInt32.toNat) (fun _ _ => UInt32.toNat.inj)
  simpa [List.map_map, Function.comp_def] using numbers

/-- The writes of install_trans() and of the write_head() after it. -/
def installWrites (start : Nat) (lh : LogHeader) (new : Nat → Block) (hb : Block) :
    List (Nat × Block) :=
  (lh.entries.map fun e => (e.1.toNat, new e.1.toNat)) ++ [(start, writeEntries hb .empty)]

/-- Copies that hold the new contents are what install_trans() installs. -/
theorem install_writes (valid : lh.Valid start size) {m : Device Nat Block} {new : Nat → Block}
    (copies : ∀ e ∈ lh.entries, m.cache (logBlock start e.2) = new e.1.toNat) :
    ∃ hb, (writeHead start .empty (installTrans start lh m)).writes =
      m.writes ++ installWrites start lh new hb := by
  have install := Device.copy_eq (fun e : UInt32 × Nat => e.1.toNat)
    (fun e => logBlock start e.2) (l := lh.entries)
    (fun e he f hf => (valid.apart hf he).2.2.symm) m
  have contents : (lh.entries.map fun e => (e.1.toNat, m.cache (logBlock start e.2))) =
      lh.entries.map fun e => (e.1.toNat, new e.1.toNat) := by
    apply List.map_congr_left
    intro e he
    rw [copies e he]
  rw [contents] at install
  refine ⟨(installTrans start lh m).cache start, ?_⟩
  simp only [writeHead, Device.write, installTrans, install, installWrites, List.append_assoc]

/-- commit() writes the copies, the header, the home blocks and the header. -/
theorem commitWrites_eq (valid : lh.Valid start size) (some : 0 < lh.block.length)
    (cache : Nat → Block) :
    ∃ hb hb', commitWrites start lh cache =
      (lh.entries.map fun e => (logBlock start e.2, cache e.1.toNat)) ++
        (start, writeEntries hb lh) :: installWrites start lh cache hb' := by
  have log := Device.copy_eq (fun e : UInt32 × Nat => logBlock start e.2)
    (fun e => e.1.toNat) (l := lh.entries)
    (fun e he f hf => (valid.apart he hf).2.2) ⟨cache, []⟩
  have copies : ∀ e ∈ lh.entries,
      (writeHead start lh (writeLog start lh ⟨cache, []⟩)).cache (logBlock start e.2) =
        cache e.1.toNat := by
    intro e he
    have other := (valid.apart he he).1
    simp only [writeHead, Device.write, Function.update_of_ne other, writeLog, log]
    exact written_of_mem (LogHeader.Valid.copies_nodup start lh _)
      (List.mem_map.mpr ⟨e, he, rfl⟩) cache
  obtain ⟨hb', install⟩ := install_writes valid copies
  refine ⟨(writeLog start lh ⟨cache, []⟩).cache start, hb', ?_⟩
  rw [commitWrites, commit, if_pos some, install]
  simp only [writeHead, Device.write, writeLog, log, List.nil_append, List.append_assoc,
    List.singleton_append]

/-! ## What is on the disk -/

/-- The log is empty, and the blocks outside of it are as given. -/
structure Settled (start size : Nat) (target d : Disk) : Prop where
  empty : (d start).word 0 = 0
  outside : ∀ b, b < start ∨ start + size ≤ b → d b = target b

/-- The log holds the given contents of its home blocks; the other blocks
outside of it are as given. -/
structure Pending (start size : Nat) (lh : LogHeader) (target d : Disk) : Prop where
  head : readEntries (d start) = lh
  copies : ∀ e ∈ lh.entries, d (logBlock start e.2) = target e.1.toNat
  outside : ∀ b, b < start ∨ start + size ≤ b → (∀ e ∈ lh.entries, b ≠ e.1.toNat) → d b = target b

theorem written_take_of_not_mem {ws : List (Nat × Block)} {a : Nat}
    (h : ∀ w ∈ ws, a ≠ w.1) (i : Nat) (d : Disk) : written d (ws.take i) a = d a := by
  apply written_of_not_mem
  intro mem
  obtain ⟨w, hw, rfl⟩ := List.mem_map.mp mem
  exact h w (List.mem_of_mem_take hw) rfl

variable {target d : Disk}

/-- Installing a pending transaction keeps it pending until the header is cleared. -/
theorem Pending.install_part (pending : Pending start size lh target d)
    (valid : lh.Valid start size) (i : Nat) :
    Pending start size lh target
      (written d ((lh.entries.map fun e => (e.1.toNat, target e.1.toNat)).take i)) := by
  have kept (a : Nat) (h : ∀ e ∈ lh.entries, a ≠ e.1.toNat) :
      written d ((lh.entries.map fun e => (e.1.toNat, target e.1.toNat)).take i) a = d a := by
    apply written_take_of_not_mem
    intro w hw
    obtain ⟨e, he, rfl⟩ := List.mem_map.mp hw
    exact h e he
  constructor
  case head =>
    rw [kept start fun e he => (valid.apart he he).2.1.symm]
    exact pending.head
  case copies =>
    intro e he
    rw [kept _ fun f hf => (valid.apart he hf).2.2]
    exact pending.copies e he
  case outside =>
    intro b out other
    rw [kept b other]
    exact pending.outside b out other

theorem Pending.install (pending : Pending start size lh target d)
    (valid : lh.Valid start size) (hb : Block) :
    Settled start size target (written d (installWrites start lh target hb)) := by
  have room := valid.room
  rw [installWrites, written_append]
  constructor
  case empty => simp [writeEntries_empty]
  case outside =>
    intro b out
    have other : b ≠ start := by omega
    simp only [written_cons, written_nil, Function.update_of_ne other]
    by_cases home : ∃ e ∈ lh.entries, b = e.1.toNat
    · obtain ⟨e, he, rfl⟩ := home
      exact written_of_mem (valid.homes_nodup _) (List.mem_map.mpr ⟨e, he, rfl⟩) d
    · have whole := (pending.install_part valid lh.entries.length).outside b out
        fun e he eq => home ⟨e, he, eq⟩
      rwa [List.take_of_length_le (by simp)] at whole

/-- Installation that is cut short. -/
theorem Pending.install_take (pending : Pending start size lh target d)
    (valid : lh.Valid start size) (hb : Block) (i : Nat) :
    Pending start size lh target (written d ((installWrites start lh target hb).take i)) ∨
      Settled start size target (written d ((installWrites start lh target hb).take i)) := by
  have length : (installWrites start lh target hb).length = lh.entries.length + 1 := by
    simp [installWrites]
  by_cases early : i ≤ lh.entries.length
  · left
    rw [installWrites, List.take_append_of_le_length (by simpa using early)]
    exact pending.install_part valid i
  · right
    rw [List.take_of_length_le (by omega)]
    exact pending.install valid hb

/-! ## Recovery -/

theorem recoverWrites_pending (pending : Pending start size lh target d)
    (valid : lh.Valid start size) :
    ∃ hb, recoverWrites start d = installWrites start lh target hb := by
  have copies : ∀ e ∈ lh.entries, (⟨d, []⟩ : Device Nat Block).cache (logBlock start e.2) =
      target e.1.toNat := pending.copies
  obtain ⟨hb, install⟩ := install_writes valid copies
  refine ⟨hb, ?_⟩
  simp only [recoverWrites, recoverFromLog, pending.head]
  simpa using install

theorem recoverWrites_settled (settled : Settled start size target d) :
    recoverWrites start d = [(start, writeEntries (d start) .empty)] := by
  simp [recoverWrites, recoverFromLog, readEntries_of_zero settled.empty, installTrans,
    LogHeader.empty, LogHeader.entries, Device.copy, writeHead, Device.write]

theorem Settled.clear (settled : Settled start size target d) (room : 0 < size) (hb : Block) :
    Settled start size target (written d [(start, writeEntries hb .empty)]) := by
  constructor
  case empty => simp [writeEntries_empty]
  case outside =>
    intro b out
    have other : b ≠ start := by omega
    simp only [written_cons, written_nil, Function.update_of_ne other]
    exact settled.outside b out

/-- However often recovery is interrupted, it settles what was pending. -/
theorem restarted_settles (valid : lh.Valid start size) {d' : Disk}
    (h : Restarted (recoverWrites start) d d')
    (inv : Pending start size lh target d ∨ Settled start size target d) :
    Settled start size target d' := by
  have room : 0 < size := Nat.zero_lt_of_lt valid.room
  apply Restarted.rule (I := fun d => Pending start size lh target d ∨ Settled start size target d)
    (P := Settled start size target) _ _ h inv
  · rintro d i (pending | settled)
    · obtain ⟨hb, eq⟩ := recoverWrites_pending pending valid
      rw [eq]
      exact pending.install_take valid hb i
    · right
      rw [recoverWrites_settled settled]
      cases i with
      | zero => exact settled
      | succ i =>
        rw [List.take_of_length_le (by simp)]
        exact settled.clear room _
  · rintro d (pending | settled)
    · obtain ⟨hb, eq⟩ := recoverWrites_pending pending valid
      rw [eq]
      exact pending.install valid hb
    · rw [recoverWrites_settled settled]
      exact settled.clear room _

/-! ## A crash in commit() -/

/-- The disk with the transaction done. -/
def committed (lh : LogHeader) (cache d : Disk) : Disk :=
  fun b => if ∃ e ∈ lh.entries, b = e.1.toNat then cache b else d b

theorem committed_home {e : UInt32 × Nat} (h : e ∈ lh.entries) (cache d : Disk) :
    committed lh cache d e.1.toNat = cache e.1.toNat := if_pos ⟨e, h, rfl⟩

/-- Until the header is written the log stays empty. -/
theorem commit_before_head (valid : lh.Valid start size) (empty : (d start).word 0 = 0)
    (v : UInt32 × Nat → Block) (i : Nat) :
    Settled start size d
      (written d ((lh.entries.map fun e => (logBlock start e.2, v e)).take i)) := by
  have kept (a : Nat) (h : ∀ e ∈ lh.entries, a ≠ logBlock start e.2) :
      written d ((lh.entries.map fun e => (logBlock start e.2, v e)).take i) a = d a := by
    apply written_take_of_not_mem
    intro w hw
    obtain ⟨e, he, rfl⟩ := List.mem_map.mp hw
    exact h e he
  constructor
  case empty =>
    rw [kept start fun e he => (valid.apart he he).1.symm]
    exact empty
  case outside =>
    intro b out
    apply kept
    intro e he
    have index := (LogHeader.mem_entries he).2
    have room := valid.room
    unfold logBlock
    omega

/-- The write of the header makes the transaction pending. -/
theorem commit_head (valid : lh.Valid start size) (cache d : Disk) (hb : Block) :
    Pending start size lh (committed lh cache d)
      (written d ((lh.entries.map fun e => (logBlock start e.2, cache e.1.toNat)) ++
        [(start, writeEntries hb lh)])) := by
  rw [written_append]
  constructor
  case head => simp [readEntries_writeEntries]
  case copies =>
    intro e he
    have other := (valid.apart he he).1
    simp only [written_cons, written_nil, Function.update_of_ne other]
    rw [committed_home he]
    exact written_of_mem (LogHeader.Valid.copies_nodup start lh _)
      (List.mem_map.mpr ⟨e, he, rfl⟩) d
  case outside =>
    intro b out home
    have room := valid.room
    have other : b ≠ start := by omega
    simp only [written_cons, written_nil, Function.update_of_ne other]
    rw [committed, if_neg (by rintro ⟨e, he, eq⟩; exact home e he eq)]
    apply written_of_not_mem
    intro mem
    simp only [List.map_map, List.mem_map, Function.comp_apply] at mem
    obtain ⟨e, he, rfl⟩ := mem
    have index := (LogHeader.mem_entries he).2
    unfold logBlock at out
    omega

/-- The header block decides: before it is written nothing of the transaction
is on the disk, from then on recovery can complete it. -/
theorem commit_take (valid : lh.Valid start size) (some : 0 < lh.block.length)
    (empty : (d start).word 0 = 0) (cache : Disk) (i : Nat) :
    let d' := written d ((commitWrites start lh cache).take i)
    if lh.block.length < i then
      Pending start size lh (committed lh cache d) d' ∨ Settled start size (committed lh cache d) d'
    else Settled start size d d' := by
  intro d'
  obtain ⟨hb, hb', eq⟩ := commitWrites_eq valid some cache
  have length : lh.entries.length = lh.block.length := List.length_zipIdx
  by_cases late : lh.block.length < i
  · rw [if_pos late]
    have same : installWrites start lh cache hb' =
        installWrites start lh (committed lh cache d) hb' := by
      unfold installWrites
      congr 1
      apply List.map_congr_left
      intro e he
      rw [committed_home he]
    obtain ⟨j, rfl⟩ : ∃ j, i = lh.block.length + 1 + j := ⟨i - lh.block.length - 1, by omega⟩
    have cut : (commitWrites start lh cache).take (lh.block.length + 1 + j) =
        ((lh.entries.map fun e => (logBlock start e.2, cache e.1.toNat)) ++
          [(start, writeEntries hb lh)]) ++
        (installWrites start lh (committed lh cache d) hb').take j := by
      rw [eq, List.append_cons, List.take_append, same]
      congr 1
      · exact List.take_of_length_le (by simp; omega)
      · congr 1
        simp
        omega
    simp only [d', cut, written_append _ (_ ++ _)]
    exact (commit_head valid cache d hb).install_take valid hb' j
  · rw [if_neg late]
    simp only [d', eq]
    rw [List.take_append_of_le_length (by simp; omega)]
    exact commit_before_head valid empty _ i

theorem crash_settles (valid : lh.Valid start size) (empty : (d start).word 0 = 0) (cache : Disk)
    (i : Nat) {d' : Disk}
    (h : Restarted (recoverWrites start) (written d ((commitWrites start lh cache).take i)) d') :
    Settled start size (if lh.block.length < i then committed lh cache d else d) d' := by
  by_cases some : 0 < lh.block.length
  · have cut := commit_take valid some empty cache i
    split at cut
    case isTrue late =>
      rw [if_pos late]
      exact restarted_settles valid h cut
    case isFalse early =>
      rw [if_neg early]
      exact restarted_settles valid h (.inr cut)
  · -- nothing was logged and commit() writes nothing
    have none : lh.block = [] := List.eq_nil_of_length_eq_zero (by omega)
    have same : committed lh cache d = d := by
      funext b
      simp [committed, LogHeader.entries, none]
    have nothing : commitWrites start lh cache = [] := by
      simp [commitWrites, commit, none]
    rw [nothing, List.take_nil, written_nil] at h
    rw [same, ite_self]
    exact restarted_settles valid h (.inr ⟨empty, fun _ _ => rfl⟩)

/-- Crash atomicity: when a recovery has run to its end, after a crash at any
point of commit() and any number of crashes in earlier recoveries, the home
blocks of the transaction are all new if the first write_head() reached the
disk and all old otherwise. -/
theorem crash_atomic (valid : lh.Valid start size) (empty : (d start).word 0 = 0) (cache : Disk)
    (i : Nat) {d' : Disk}
    (h : Restarted (recoverWrites start) (written d ((commitWrites start lh cache).take i)) d') :
    (∀ b ∈ lh.block, d' b.toNat = if lh.block.length < i then cache b.toNat else d b.toNat) ∧
    (∀ b, b < start ∨ start + size ≤ b → (∀ e ∈ lh.block, b ≠ e.toNat) → d' b = d b) ∧
    (d' start).word 0 = 0 := by
  have settled := crash_settles valid empty cache i h
  refine ⟨?_, ?_, settled.empty⟩
  · intro b hb
    rw [settled.outside b.toNat (valid.outside b hb)]
    obtain ⟨j, entry⟩ := LogHeader.exists_entry hb
    split
    · exact committed_home entry cache d
    · rfl
  · intro b out other
    rw [settled.outside b out]
    split
    · apply if_neg
      rintro ⟨e, he, rfl⟩
      exact other e.1 (LogHeader.mem_entries he).1 rfl
    · rfl

/-- Two blocks, a crash right after the header was written, and a crash after
the first block was installed. -/
theorem two_blocks_recovered :
    let old : Disk := fun _ => Bytes.zero
    let new : Disk := fun b _ => UInt8.ofNat b
    let lh : LogHeader := ⟨[500, 501], by decide⟩
    let crashed := written old ((commitWrites 2 lh new).take 3)
    let again := written crashed ((recoverWrites 2 crashed).take 1)
    let recovered := written again (recoverWrites 2 again)
    (∀ b ∈ lh.block, recovered b.toNat = new b.toNat) ∧ recovered 502 = old 502 ∧
      (recovered 2).word 0 = 0 := by
  intro old new lh crashed again recovered
  have valid : lh.Valid 2 30 := ⟨by decide, by decide, by simp [lh]⟩
  have runs : Restarted (recoverWrites 2) crashed recovered := .crash _ 1 (.done _)
  obtain ⟨homes, others, empty⟩ := crash_atomic valid (Bytes.word_zero 0) new 3 runs
  refine ⟨fun b hb => ?_, others 502 (by omega) (by simp [lh]), empty⟩
  rw [homes b hb, if_pos (by decide)]

end Xv6.Log
