import Xv6.Lib.Writes
import Xv6.Fs.Layout

/-! The redo log of log.c: the block writes of commit() and of recovery, and
what is on the disk if they are cut short at any point. -/

namespace Xv6.Log
open Lib

abbrev Disk := Nat → Block

/-- The in-memory log header: `block[0..n)`. The array has LOGSIZE entries. -/
structure LogHeader where
  block : List UInt32
  fits : block.length ≤ logSize
  deriving DecidableEq

@[ext] theorem LogHeader.ext {lh lh' : LogHeader} (h : lh.block = lh'.block) : lh = lh' := by
  cases lh
  cases lh'
  cases h
  rfl

def LogHeader.empty : LogHeader := ⟨[], by simp⟩

/-- The entries with their positions in the array. -/
def LogHeader.entries (lh : LogHeader) : List (UInt32 × Nat) := lh.block.zipIdx

/-- The header block as write_head() leaves it; entries past `n` are not touched. -/
def writeEntries (hb : Block) (lh : LogHeader) : Block :=
  lh.entries.foldl (fun hb e => hb.setWord (e.2 + 1) e.1) (hb.setWord 0 (UInt32.ofNat lh.block.length))

/-- read_head(). A negative count makes the loop end at once; a count above
LOGSIZE would run over the end of the array, and is cut off here. -/
def readEntries (hb : Block) : LogHeader where
  block := (List.range (min (hb.word 0).toInt32.toNatClampNeg logSize)).map fun i => hb.word (i + 1)
  fits := by
    rw [List.length_map, List.length_range]
    exact Nat.min_le_right _ _

section
variable (start : Nat)

/-- Where the copy of entry `i` is kept. -/
def logBlock (i : Nat) : Nat := start + i + 1

def writeLog (lh : LogHeader) : Device Nat Block → Device Nat Block :=
  Device.copy (fun e => logBlock start e.2) (fun e => e.1.toNat) lh.entries

def writeHead (lh : LogHeader) (m : Device Nat Block) : Device Nat Block :=
  m.write start (writeEntries (m.cache start) lh)

def installTrans (lh : LogHeader) : Device Nat Block → Device Nat Block :=
  Device.copy (fun e => e.1.toNat) (fun e => logBlock start e.2) lh.entries

def commit (lh : LogHeader) (m : Device Nat Block) : Device Nat Block :=
  if 0 < lh.block.length then
    writeHead start .empty (installTrans start lh (writeHead start lh (writeLog start lh m)))
  else m

def recoverFromLog (m : Device Nat Block) : Device Nat Block :=
  writeHead start .empty (installTrans start (readEntries (m.cache start)) m)

/-- The block writes of commit(), for a buffer cache with the given contents. -/
def commitWrites (lh : LogHeader) (cache : Nat → Block) : List (Nat × Block) :=
  (commit start lh ⟨cache, []⟩).writes

/-- The block writes of recovery on a disk nothing of which is cached. -/
def recoverWrites (d : Disk) : List (Nat × Block) := (recoverFromLog start ⟨d, []⟩).writes

/-- What commit() writes does not depend on what was written before. -/
theorem commit_writes (lh : LogHeader) (m : Device Nat Block) :
    (commit start lh m).writes = m.writes ++ commitWrites start lh m.cache := by
  have before : m = (⟨m.cache, []⟩ : Device Nat Block).behind m.writes := by simp [Device.behind]
  have commutes (m : Device Nat Block) (ws : List (Nat × Block)) :
      commit start lh (m.behind ws) = (commit start lh m).behind ws := by
    unfold commit
    split
    · simp only [writeHead, writeLog, installTrans, Device.copy_behind]
      rw [Device.write_behind, Device.copy_behind]
      exact Device.write_behind ws _ _ _
    · rfl
  have eq := congrArg Device.writes (commutes ⟨m.cache, []⟩ m.writes)
  rw [← before] at eq
  exact eq

end

/-! ## The header block -/

theorem readEntries_of_zero {hb : Block} (h : hb.word 0 = 0) : readEntries hb = .empty := by
  ext1
  simp [readEntries, h, LogHeader.empty]

theorem writeEntries_empty (hb : Block) : (writeEntries hb .empty).word 0 = 0 := by
  simp only [writeEntries, LogHeader.empty, LogHeader.entries, List.zipIdx_nil, List.foldl_nil,
    List.length_nil]
  exact Bytes.word_setWord_self hb (by decide) _

/-- Storing entries from position `k` on leaves the words before them alone. -/
theorem foldl_setWord_before (l : List UInt32) {i k : Nat} (h : i ≤ k) (hb : Block) :
    ((l.zipIdx k).foldl (fun hb e => hb.setWord (e.2 + 1) e.1) hb).word i = hb.word i := by
  induction l generalizing k hb with
  | nil => rfl
  | cons v l ih =>
    rw [List.zipIdx_cons, List.foldl_cons, ih (by omega)]
    exact Bytes.word_setWord_of_ne hb (by omega) v

theorem foldl_setWord_at (l : List UInt32) {k j : Nat} (fits : 4 * (k + l.length) + 3 < bsize)
    (h : j < l.length) (hb : Block) :
    ((l.zipIdx k).foldl (fun hb e => hb.setWord (e.2 + 1) e.1) hb).word (k + j + 1) = l[j] := by
  induction l generalizing k j hb with
  | nil => simp at h
  | cons v l ih =>
    simp only [List.length_cons] at fits h
    rw [List.zipIdx_cons, List.foldl_cons]
    cases j with
    | zero =>
      rw [foldl_setWord_before l (by omega)]
      exact Bytes.word_setWord_self hb (by omega) v
    | succ j =>
      have later := ih (k := k + 1) (by omega) (by omega : j < l.length) (hb.setWord (k + 1) v)
      have index : k + (j + 1) + 1 = k + 1 + j + 1 := by omega
      rw [index, later]
      rfl

theorem writeEntries_count (hb : Block) (lh : LogHeader) :
    ((writeEntries hb lh).word 0).toInt32.toNatClampNeg = lh.block.length := by
  have first : (writeEntries hb lh).word 0 = UInt32.ofNat lh.block.length := by
    unfold writeEntries LogHeader.entries
    rw [foldl_setWord_before _ (Nat.le_refl 0)]
    exact Bytes.word_setWord_self hb (by decide) _
  have small : lh.block.length ≤ 30 := lh.fits
  rw [first, UInt32.toInt32_ofNat']
  apply Int32.toNatClampNeg_ofNat_of_lt
  omega

/-- What write_head() has written read_head() reads back. -/
theorem readEntries_writeEntries (hb : Block) (lh : LogHeader) :
    readEntries (writeEntries hb lh) = lh := by
  have small : lh.block.length ≤ 30 := lh.fits
  have fits : lh.block.length ≤ logSize := lh.fits
  ext1
  apply List.ext_getElem
  · simp [readEntries, writeEntries_count, fits]
  · intro i _ h
    simp only [readEntries, List.getElem_map, List.getElem_range]
    have entry := foldl_setWord_at lh.block (k := 0) (j := i) (by unfold bsize; omega) h
      (hb.setWord 0 (UInt32.ofNat lh.block.length))
    rwa [Nat.zero_add] at entry

end Xv6.Log
