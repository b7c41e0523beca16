import Xv6.Log.History
import Xv6.Log.Recovery

/-! A crash at any point of a run of the log. -/

namespace Xv6.Log
open Lib
variable {start size : Nat} {lh : LogHeader} {t t' d d' : Disk}

theorem Settled.congr (settled : Settled start size t d)
    (same : ∀ b, b < start ∨ start + size ≤ b → t b = t' b) : Settled start size t' d :=
  ⟨settled.empty, fun b out => (settled.outside b out).trans (same b out)⟩

theorem committed_congr {b : Nat} (same : t b = t' b) (lh : LogHeader) (cache : Disk) :
    committed lh cache t b = committed lh cache t' b := by
  simp only [committed, same]

/-- A commit that comes to its end. -/
theorem Settled.commit (settled : Settled start size t d) (valid : lh.Valid start size) (cache : Disk) :
    Settled start size (committed lh cache t) (written d (commitWrites start lh cache)) := by
  by_cases some : 0 < lh.block.length
  · obtain ⟨hb, hb', eq⟩ := commitWrites_eq valid some cache
    have same : installWrites start lh cache hb' = installWrites start lh (committed lh cache d) hb' := by
      unfold installWrites
      congr 1
      apply List.map_congr_left
      intro e he
      rw [committed_home he]
    rw [eq, List.append_cons, same, written_append]
    refine ((commit_head valid cache d hb).install valid hb').congr fun b out => ?_
    exact committed_congr (settled.outside b out) lh cache
  · have none : lh.block = [] := List.eq_nil_of_length_eq_zero (by omega)
    have nothing : commitWrites start lh cache = [] := by simp [commitWrites, Log.commit, none]
    rw [nothing, written_nil]
    exact settled.congr fun b _ => by simp [committed, LogHeader.entries, none]

/-- The disk with the transactions of the commits done. -/
def applied (d : Disk) (cs : List Commit) : Disk := cs.foldl (fun d c => committed c.lh c.cache d) d

def allWrites (start : Nat) (cs : List Commit) : List (Nat × Block) :=
  cs.flatMap fun c => commitWrites start c.lh c.cache

theorem crash_in_commits {cs : List Commit} (valid : ∀ c ∈ cs, c.lh.Valid start size)
    (room : 0 < size) (settled : Settled start size t d) (i : Nat)
    (h : Restarted (recoverWrites start) (written d ((allWrites start cs).take i)) d') :
    ∃ j, Settled start size (applied t (cs.take j)) d' ∧
      (j = cs.length ∨ i < (allWrites start (cs.take (j + 1))).length) := by
  induction cs generalizing t d i with
  | nil =>
    have none : LogHeader.empty.Valid start size := ⟨List.nodup_nil, room, nofun⟩
    have h : Restarted (recoverWrites start) d d' := by simpa [allWrites] using h
    exact ⟨0, restarted_settles none h (.inr settled), .inl rfl⟩
  | cons c cs ih =>
    obtain ⟨first, rest⟩ := List.forall_mem_cons.mp valid
    have split (l : List Commit) : allWrites start (c :: l) =
        commitWrites start c.lh c.cache ++ allWrites start l := List.flatMap_cons
    rw [split, List.take_append] at h
    by_cases whole : (commitWrites start c.lh c.cache).length ≤ i
    · rw [List.take_of_length_le whole, written_append] at h
      obtain ⟨j, done, last⟩ := ih rest (settled.commit first c.cache) _ h
      refine ⟨j + 1, done, last.imp (congrArg (· + 1)) fun next => ?_⟩
      rw [List.take_succ_cons, split, List.length_append]
      omega
    · have next (l : List Commit) : i < (allWrites start (c :: l)).length := by
        rw [split, List.length_append]
        omega
      have cut : i - (commitWrites start c.lh c.cache).length = 0 := by omega
      rw [cut, List.take_zero, List.append_nil] at h
      have settled' := crash_settles first settled.empty c.cache i h
      split at settled'
      · refine ⟨1, settled'.congr fun b out => ?_, .inr (next _)⟩
        exact committed_congr (settled.outside b out) c.lh c.cache
      · exact ⟨0, settled'.congr settled.outside, .inr (next _)⟩

/-- After a crash at any point of any run, and any number of crashes in recovery, the disk is as
some of the commits have made it, from the first on without a gap: all of them, or up to
one whose writes were not all on the disk. -/
theorem crash_anywhere {n : Nat} {sb : Superblock} {as : List (Action n)}
    (legal : (log sb n).Legal (init n d) as) (empty : (d sb.logstart).word 0 = 0) (room : 0 < size)
    (valid : ∀ c ∈ (history sb n d as).commits, c.lh.Valid sb.logstart size) (i : Nat)
    (h : Restarted (recoverWrites sb.logstart)
      (written d (((log sb n).after (init n d) as).device.writes.take i)) d') :
    let cs := (history sb n d as).commits
    ∃ j, Settled sb.logstart size (applied d (cs.take j)) d' ∧
      (j = cs.length ∨ i < (allWrites sb.logstart (cs.take (j + 1))).length) := by
  rw [(run_recorded legal).2.disk] at h
  exact crash_in_commits valid room ⟨empty, fun _ _ => rfl⟩ i h

/-- A crash right after a commit. -/
theorem one_commit_survives :
    let d : Disk := fun _ => Bytes.zero
    let as : List (Action 1) :=
      [⟨0, .beginOp⟩, ⟨0, .enter⟩] ++ writes 0 40 ++ [⟨0, .endOp⟩, ⟨0, .commit⟩]
    let crashed := written d (((log mkfs 1).after (init 1 d) as).device.writes.take 4)
    let cs := (history mkfs 1 d as).commits
    ∃ j, Settled 2 30 (applied d (cs.take j)) (written crashed (recoverWrites 2 crashed)) ∧
      (j = 1 ∨ 4 < (allWrites 2 (cs.take (j + 1))).length) := by
  intro d as crashed cs
  have one : cs.map Commit.lh = [⟨[40], by decide⟩] := by decide +kernel
  have valid (c : Commit) (mem : c ∈ cs) : c.lh.Valid 2 30 := by
    have eq := one ▸ List.mem_map_of_mem (f := Commit.lh) mem
    rw [List.mem_singleton.mp eq]
    exact ⟨by decide, by decide, by simp⟩
  have legal : (log mkfs 1).Legal (init 1 d) as := by decide +kernel
  exact crash_anywhere legal (Bytes.word_zero 0) (by decide) valid 4 (.done crashed)

end Xv6.Log
