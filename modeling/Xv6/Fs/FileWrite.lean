import Mathlib.Order.Interval.Finset.Nat
import Xv6.Files.Ftable
import Xv6.Fs.Files

/-! filewrite(): a write is cut into pieces that fit into a transaction each. -/

namespace Xv6.Fs
open Lib Files

section code
variable (sb : Superblock) (dev : Devsw)

/-- `max`: as many bytes as go into one transaction. -/
def maxWrite : Nat := (logSize - 1 - 1 - 2) / 2 * 512

/-- The loop of filewrite(): what is left of the buffer, the offset and the inode. -/
def writePieces (inum : Nat) : Nat → Dinode → UInt32 → List UInt8 →
    Prog Disk (List UInt8 × UInt32 × Dinode)
  | 0, ip, off, src => pure (src, off, ip)
  | fuel + 1, ip, off, src =>
    if src = [] then pure (src, off, ip)
    else do
      let n1 := min src.length maxWrite
      let (r, ip) ← writei sb dev inum ip (src.take n1) off
      let off := if r > 0 then off + .ofNat r.toNat else off
      if r < 0 then pure (src, off, ip)
      else if r ≠ n1 then .halt -- short filewrite
      else writePieces inum fuel ip off (src.drop n1)

/-- Write to file `f`, whose inode is `ip` in memory. -/
def filewrite {π : Type} (pipewrite : π → List UInt8 → Prog Disk Int) (f : File π Nat) (ip : Dinode)
    (src : List UInt8) : Prog Disk (Int × File π Nat × Dinode) :=
  if f.writable = false then pure (-1, f, ip)
  else match f.type with
    | .pipe p => do
      let r ← pipewrite p src
      pure (r, f, ip)
    | .inode inum => do
      let (left, off, ip) ← writePieces sb dev inum src.length ip f.off src
      pure (if left = [] then (src.length : Int) else -1, { f with off := off }, ip)
    | .none => .halt

end code

/-! ## The loop -/

section loop
variable {sb : Superblock} {dev : Devsw} {d d' : Disk} {i : Nat} {ip ip' : Dinode}
  {off off' : UInt32} {src left : List UInt8}

/-- Two writes that follow each other are one. -/
theorem spliced_spliced {c a b : List UInt8} {off : Nat} (le : off ≤ c.length) :
    spliced (spliced c off a) (off + a.length) b = spliced c off (a ++ b) := by
  have length : (c.take off ++ a).length = off + a.length := by
    rw [List.length_append, List.length_take, Nat.min_eq_left le]
  have front : (spliced c off a).take (off + a.length) = c.take off ++ a := by
    rw [spliced, ← length, List.take_left]
  have back : (spliced c off a).drop (off + a.length + b.length) =
      c.drop (off + (a ++ b).length) := by
    rw [← List.drop_drop, spliced, ← length, List.drop_left, List.drop_drop, List.length_append,
      List.length_append, List.length_take, Nat.min_eq_left le, Nat.add_assoc]
  rw [spliced, front, back, spliced, List.append_assoc (c.take off)]

theorem spliced_nil {c : List UInt8} (off : Nat) : spliced c off [] = c := by
  rw [spliced, List.append_nil, List.length_nil, Nat.add_zero, List.take_append_drop]

/-- The blocks that writei() takes. -/
theorem writei_free (sound : sb.Sound) (wf : WellFormed sb d) (hi : i < sb.ninodes)
    (live : (d.dinode sb i).type ≠ 0) (file : (d.dinode sb i).type ≠ tDev)
    (short : src.length < 2 ^ 32)
    (ok : ¬ Refused (d.dinode sb i) off.toNat src.length) {r : Int}
    (h : writei sb dev i (d.dinode sb i) src off d = some ((r, ip'), d')) :
    d'.free sb + growth (blocksFor (d.dinode sb i).size.toNat)
      (blocksAfter (d.dinode sb i) off.toNat src.length) = d.free sb := by
  have held := wf.held hi live
  have shape := wf.shape i hi live
  have bounds : off.toNat ≤ (d.dinode sb i).size.toNat ∧
      off.toNat + src.length ≤ maxfile * bsize := by
    unfold Refused at ok
    omega
  obtain ⟨-, ip₁, d₁, loop, ends⟩ := writei_cases dev file short ok h
  obtain ⟨-, written⟩ := writeLoop_spec sound (Nat.le_refl _) held shape
    (Nat.le_trans bounds.1 (le_blocksFor _)) bounds.2 loop
  have free := written.free
  obtain ⟨-, -, -, rfl⟩ | ⟨-, -, rfl⟩ := ends
  · rw [free_congr fun b hb => Disk.used_setDinode sound hi hb _]
    exact free
  · exact free

/-- Where the loop stands: `done` has been written at `off`. -/
structure Progress (sb : Superblock) (d : Disk) (i : Nat) (off : UInt32) (done : List UInt8)
    (d' : Disk) (off' : UInt32) : Prop where
  wellFormed : WellFormed sb d'
  type : (d'.dinode sb i).type = (d.dinode sb i).type
  moved : off'.toNat = off.toNat + done.length
  size : (d'.dinode sb i).size.toNat =
    if done = [] then (d.dinode sb i).size.toNat
    else max (d.dinode sb i).size.toNat (off.toNat + done.length)
  content : d'.content (d'.dinode sb i) = spliced (d.content (d.dinode sb i)) off.toNat done
  started : done ≠ [] → off.toNat ≤ (d.dinode sb i).size.toNat

theorem Progress.refl (wf : WellFormed sb d) (i : Nat) (off : UInt32) :
    Progress sb d i off [] d off :=
  ⟨wf, rfl, rfl, by rw [if_pos rfl], (spliced_nil _).symm, fun no => absurd rfl no⟩

theorem Progress.trans {d₁ d₂ : Disk} {off₁ off₂ : UInt32} {a b : List UInt8}
    (first : Progress sb d i off a d₁ off₁) (rest : Progress sb d₁ i off₁ b d₂ off₂)
    (nonempty : a ≠ []) : Progress sb d i off (a ++ b) d₂ off₂ := by
  have le := first.started nonempty
  have size₁ := first.size
  rw [if_neg nonempty] at size₁
  refine ⟨rest.wellFormed, rest.type.trans first.type, ?_, ?_, ?_, fun _ => le⟩
  · rw [rest.moved, first.moved, List.length_append, Nat.add_assoc]
  · rw [if_neg (List.append_ne_nil_of_left_ne_nil nonempty b), rest.size, first.moved, size₁,
      List.length_append]
    split
    · next none => rw [none, List.length_nil, Nat.add_zero]
    · omega
  · rw [rest.content, first.content, first.moved, spliced_spliced]
    rw [length_content]
    exact le

/-- One turn of the loop. -/
theorem Progress.piece (sound : sb.Sound) (wf : WellFormed sb d) (hi : i < sb.ninodes)
    (live : (d.dinode sb i).type ≠ 0) (file : (d.dinode sb i).type ≠ tDev)
    (ok : ¬ Refused (d.dinode sb i) off.toNat src.length) (nonempty : src ≠ []) {r : Int}
    (h : writei sb dev i (d.dinode sb i) src off d = some ((r, ip'), d')) :
    r = src.length ∧ d'.dinode sb i = ip' ∧ Progress sb d i off src d' (off + .ofNat src.length) := by
  have bounds : off.toNat ≤ (d.dinode sb i).size.toNat ∧
      off.toNat + src.length ≤ maxfile * bsize := by
    unfold Refused at ok
    omega
  have limit : maxfile * bsize < 2 ^ 31 := by decide
  obtain ⟨rfl, held, wrote⟩ := writei_spec sound dev (wf.held hi live) file (wf.shape i hi live) rfl
    (by omega) ok h
  refine ⟨rfl, wrote.stored, wrote.wellFormed held wf, ?_, ?_, ?_, ?_, fun _ => bounds.1⟩
  · rw [wrote.stored, wrote.same]
  · rw [UInt32.toNat_add, UInt32.toNat_ofNat']
    omega
  · rw [if_neg nonempty, wrote.stored, wrote.size]
  · rw [wrote.stored, wrote.content]

theorem length_piece (src : List UInt8) :
    (src.take (min src.length maxWrite)).length = min src.length maxWrite := by
  rw [List.length_take]
  omega

/-- A piece that is refused ends the loop. -/
theorem writePieces_refused {fuel : Nat} (file : ip.type ≠ tDev) (small : src.length < 2 ^ 31)
    (nonempty : src ≠ []) (refused : Refused ip off.toNat (min src.length maxWrite)) :
    writePieces sb dev i (fuel + 1) ip off src d = some ((src, off, ip), d) := by
  have length := length_piece src
  rw [writePieces, if_neg nonempty]
  refine Prog.bind_eq_some.mpr ⟨_, _, writei_refused dev file (by omega) (by rwa [length]), ?_⟩
  rfl

/-- After any other piece the loop goes on behind it. -/
theorem writePieces_piece (fuel : Nat) (sound : sb.Sound) (wf : WellFormed sb d) (hi : i < sb.ninodes)
    (live : (d.dinode sb i).type ≠ 0) (file : (d.dinode sb i).type ≠ tDev)
    (nonempty : src ≠ [])
    (ok : ¬ Refused (d.dinode sb i) off.toNat (min src.length maxWrite)) {r : Int}
    (wrote : writei sb dev i (d.dinode sb i) (src.take (min src.length maxWrite)) off d =
      some ((r, ip'), d')) :
    Progress sb d i off (src.take (min src.length maxWrite)) d'
      (off + .ofNat (min src.length maxWrite)) ∧
    writePieces sb dev i (fuel + 1) (d.dinode sb i) off src d =
      writePieces sb dev i fuel (d'.dinode sb i) (off + .ofNat (min src.length maxWrite))
        (src.drop (min src.length maxWrite)) d' := by
  have length := length_piece src
  have pos : 0 < src.length := List.length_pos_of_ne_nil nonempty
  have step : 0 < maxWrite := by decide
  obtain ⟨rfl, rfl, piece⟩ := Progress.piece sound wf hi live file (by rwa [length])
    (List.ne_nil_of_length_pos (by omega)) wrote
  rw [length] at piece wrote
  refine ⟨piece, ?_⟩
  have grows : ((min src.length maxWrite : Nat) : Int) > 0 := by omega
  have whole : ¬ ((min src.length maxWrite : Nat) : Int) < 0 := by omega
  simp only [writePieces, nonempty, bind, wrote, grows, whole, ne_eq, not_true_eq_false, ↓reduceIte,
    Int.toNat_natCast]

/-- The loop stops at the first piece that is refused. -/
theorem writePieces_spec (sound : sb.Sound) (hi : i < sb.ninodes) {fuel : Nat}
    (enough : src.length ≤ fuel) (small : src.length < 2 ^ 31) (wf : WellFormed sb d)
    (live : (d.dinode sb i).type ≠ 0) (file : (d.dinode sb i).type ≠ tDev)
    (h : writePieces sb dev i fuel (d.dinode sb i) off src d = some ((left, off', ip'), d')) :
    ∃ done, src = done ++ left ∧ ip' = d'.dinode sb i ∧ Progress sb d i off done d' off' ∧
      (left ≠ [] → Refused ip' off'.toNat (min left.length maxWrite)) ∧
      (done ≠ [] → ¬ Refused (d.dinode sb i) off.toNat (min src.length maxWrite)) := by
  have ends {d : Disk} {off : UInt32} {src : List UInt8} (wf : WellFormed sb d)
      (stop : src ≠ [] → Refused (d.dinode sb i) off.toNat (min src.length maxWrite))
      (h : some ((src, off, d.dinode sb i), d) = some ((left, off', ip'), d')) :
      ∃ done, src = done ++ left ∧ ip' = d'.dinode sb i ∧ Progress sb d i off done d' off' ∧
        (left ≠ [] → Refused ip' off'.toNat (min left.length maxWrite)) ∧
        (done ≠ [] → ¬ Refused (d.dinode sb i) off.toNat (min src.length maxWrite)) := by
    simp only [Option.some.injEq, Prod.mk.injEq] at h
    obtain ⟨⟨rfl, rfl, rfl⟩, rfl⟩ := h
    exact ⟨[], rfl, rfl, .refl wf i off, stop, fun no => absurd rfl no⟩
  induction fuel generalizing d off src with
  | zero =>
    have empty := List.eq_nil_of_length_eq_zero (Nat.le_zero.mp enough)
    exact ends wf (fun no => absurd empty no) h
  | succ fuel ih =>
    by_cases empty : src = []
    · rw [writePieces, if_pos empty] at h
      exact ends wf (fun no => absurd empty no) h
    by_cases refused : Refused (d.dinode sb i) off.toNat (min src.length maxWrite)
    · rw [writePieces_refused file small empty refused] at h
      exact ends wf (fun _ => refused) h
    have pos : 0 < src.length := List.length_pos_of_ne_nil empty
    have step : 0 < maxWrite := by decide
    have run := h
    rw [writePieces, if_neg empty] at run
    obtain ⟨⟨r, ip₁⟩, d₁, wrote, -⟩ := Prog.bind_eq_some.mp run
    obtain ⟨piece, next⟩ := writePieces_piece fuel sound wf hi live file empty refused wrote
    rw [next] at h
    obtain ⟨done, eq, same, rest, stopped, -⟩ := ih
      (by rw [List.length_drop]; omega) (by rw [List.length_drop]; omega) piece.wellFormed
      (by rw [piece.type]; exact live) (by rw [piece.type]; exact file) h
    have some : src.take (min src.length maxWrite) ≠ [] := by
      apply List.ne_nil_of_length_pos
      rw [length_piece]
      omega
    refine ⟨src.take (min src.length maxWrite) ++ done, ?_, same, piece.trans rest some, stopped,
      fun _ => refused⟩
    rw [List.append_assoc, ← eq, List.take_append_drop]

/-- The blocks that the file needs once all is written that can be. -/
def blocksWanted (ip : Dinode) (off n : Nat) : Nat :=
  max (blocksFor ip.size.toNat) (blocksFor (min (off + n) (maxfile * bsize)))

theorem blocksFor_mono {n m : Nat} (h : n ≤ m) : blocksFor n ≤ blocksFor m :=
  Nat.div_le_div_right (by omega)

theorem blocksFor_max (n m : Nat) : blocksFor (max n m) = max (blocksFor n) (blocksFor m) := by
  rcases Nat.le_total n m with le | le
  · rw [Nat.max_eq_right le, Nat.max_eq_right (blocksFor_mono le)]
  · rw [Nat.max_eq_left le, Nat.max_eq_left (blocksFor_mono le)]

/-- With enough free blocks the loop comes to an end. -/
theorem writePieces_returns (sound : sb.Sound) (hi : i < sb.ninodes) {fuel : Nat}
    (small : src.length < 2 ^ 31) (wf : WellFormed sb d)
    (live : (d.dinode sb i).type ≠ 0) (file : (d.dinode sb i).type ≠ tDev)
    (blocks : growth (blocksFor (d.dinode sb i).size.toNat)
      (blocksWanted (d.dinode sb i) off.toNat src.length) ≤ d.free sb) :
    (writePieces sb dev i fuel (d.dinode sb i) off src).Returns d := by
  induction fuel generalizing d off src with
  | zero => exact .pure _ _
  | succ fuel ih =>
    by_cases empty : src = []
    · rw [writePieces, if_pos empty]
      exact .pure _ _
    by_cases refused : Refused (d.dinode sb i) off.toNat (min src.length maxWrite)
    · exact ⟨_, _, writePieces_refused file small empty refused⟩
    have pos : 0 < src.length := List.length_pos_of_ne_nil empty
    have step : 0 < maxWrite := by decide
    have length := length_piece src
    have bounds : off.toNat ≤ (d.dinode sb i).size.toNat ∧
        off.toNat + min src.length maxWrite ≤ maxfile * bsize := by
      unfold Refused at refused
      omega
    -- this piece and the rest need what all of it needs
    have reach : blocksFor (off.toNat + min src.length maxWrite) ≤
        blocksFor (min (off.toNat + src.length) (maxfile * bsize)) := blocksFor_mono (by omega)
    generalize after : blocksAfter (d.dinode sb i) off.toNat (min src.length maxWrite) = k
    have first : blocksFor (d.dinode sb i).size.toNat ≤ k := by
      rw [← after]
      exact Nat.le_max_left _ _
    have second : k ≤ blocksWanted (d.dinode sb i) off.toNat src.length := by
      rw [← after]
      exact max_le_max_left _ reach
    have sum := growth_add first second
    obtain ⟨⟨r, ip₁⟩, d₁, wrote⟩ : (writei sb dev i (d.dinode sb i)
        (src.take (min src.length maxWrite)) off).Returns d :=
      writei_returns sound dev (wf.held hi live) (wf.shape i hi live) (by rwa [length])
        (by rw [length, after]; omega)
    obtain ⟨piece, next⟩ := writePieces_piece fuel sound wf hi live file empty refused wrote
    have free := writei_free sound wf hi live file (by omega) (by rwa [length]) wrote
    rw [length, after] at free
    have size := piece.size
    rw [if_neg (List.ne_nil_of_length_pos (by omega)), length] at size
    have moved := piece.moved
    rw [length] at moved
    have grown : blocksFor (d₁.dinode sb i).size.toNat = k := by
      rw [size, blocksFor_max, ← after, blocksAfter]
    have wanted : blocksWanted (d₁.dinode sb i)
        (off + .ofNat (min src.length maxWrite) : UInt32).toNat
        (src.drop (min src.length maxWrite)).length =
        blocksWanted (d.dinode sb i) off.toNat src.length := by
      have rest : off.toNat + min src.length maxWrite + (src.length - min src.length maxWrite) =
          off.toNat + src.length := by omega
      rw [moved, List.length_drop, blocksWanted, rest, size, blocksFor_max, blocksWanted, max_assoc,
        Nat.max_eq_right reach]
    have rest : (writePieces sb dev i fuel (d₁.dinode sb i) (off + .ofNat (min src.length maxWrite))
        (src.drop (min src.length maxWrite))).Returns d₁ :=
      ih (by rw [List.length_drop]; omega) piece.wellFormed
        (by rw [piece.type]; exact live) (by rw [piece.type]; exact file)
        (by rw [wanted, grown]; omega)
    obtain ⟨a, d', run⟩ := rest
    exact ⟨a, d', next.trans run⟩

end loop

/-! ## All or nothing -/

section whole
variable {sb : Superblock} {dev : Devsw} {d d' : Disk} {i : Nat} {ip' : Dinode} {src : List UInt8}
  {π : Type} {pipewrite : π → List UInt8 → Prog Disk Int} {f f' : File π Nat} {r : Int}

/-- The buffer is longer than a piece, and the file has room for the first piece but not
for the buffer. -/
def CutShort (ip : Dinode) (off n : Nat) : Prop :=
  off ≤ ip.size.toNat ∧ off + maxWrite ≤ maxfile * bsize ∧ maxfile * bsize < off + n

instance (ip : Dinode) (off n : Nat) : Decidable (CutShort ip off n) :=
  inferInstanceAs (Decidable (_ ∧ _ ∧ _))

/-- A write that returned `r`, as its caller takes it: on failure the file and its offset
are as they were, otherwise the buffer is in the file and the offset behind it. -/
structure AllOrNothing (sb : Superblock) (d : Disk) (f : File π Nat) (i : Nat) (src : List UInt8)
    (r : Int) (d' : Disk) (f' : File π Nat) : Prop where
  nothing : r = -1 → (d'.dinode sb i).size = (d.dinode sb i).size ∧
    d'.content (d'.dinode sb i) = d.content (d.dinode sb i) ∧ f'.off = f.off
  all : r = src.length →
    d'.content (d'.dinode sb i) = spliced (d.content (d.dinode sb i)) f.off.toNat src ∧
      f'.off.toNat = f.off.toNat + src.length

theorem filewrite_returns (sound : sb.Sound) (wf : WellFormed sb d) (hi : i < sb.ninodes)
    (live : (d.dinode sb i).type ≠ 0) (file : (d.dinode sb i).type ≠ tDev)
    (inode : f.type = .inode i) (small : src.length < 2 ^ 31)
    (blocks : growth (blocksFor (d.dinode sb i).size.toNat)
      (blocksWanted (d.dinode sb i) f.off.toNat src.length) ≤ d.free sb) :
    (filewrite sb dev pipewrite f (d.dinode sb i) src).Returns d := by
  unfold filewrite
  split
  · exact .pure _ _
  · rw [inode]
    exact (writePieces_returns sound hi small wf live file blocks).bind fun _ _ _ => .pure _ _

theorem size_le_maxfile (wf : WellFormed sb d) (hi : i < sb.ninodes)
    (live : (d.dinode sb i).type ≠ 0) : (d.dinode sb i).size.toNat ≤ maxfile * bsize :=
  Nat.le_trans (le_blocksFor _) (Nat.mul_le_mul_right _ (wf.shape i hi live).le)

/-- A write to an inode is all or nothing exactly if it is not cut short. -/
theorem filewrite_iff (sound : sb.Sound) (wf : WellFormed sb d) (hi : i < sb.ninodes)
    (live : (d.dinode sb i).type ≠ 0) (file : (d.dinode sb i).type ≠ tDev)
    (inode : f.type = .inode i) (writable : f.writable = true) (small : src.length < 2 ^ 31)
    (run : filewrite sb dev pipewrite f (d.dinode sb i) src d = some ((r, f', ip'), d')) :
    (r = -1 ∨ r = src.length) ∧ (CutShort (d.dinode sb i) f.off.toNat src.length → r = -1) ∧
      (AllOrNothing sb d f i src r d' f' ↔
        ¬ CutShort (d.dinode sb i) f.off.toNat src.length) := by
  rw [filewrite, if_neg (by simp [writable]), inode] at run
  obtain ⟨⟨left, off', _⟩, d₁, loop, run⟩ := Prog.bind_eq_some.mp run
  obtain ⟨eq, rfl⟩ := Prog.pure_eq_some.mp run
  simp only [Prod.mk.injEq] at eq
  obtain ⟨result, rfl, rfl⟩ := eq
  obtain ⟨done, split, rfl, progress, stopped, begun⟩ :=
    writePieces_spec sound hi (Nat.le_refl _) small wf live file loop
  have size := progress.size
  have moved := progress.moved
  have total : src.length = done.length + left.length := by rw [split, List.length_append]
  have most := size_le_maxfile progress.wellFormed hi (by rw [progress.type]; exact live)
  have step : 0 < maxWrite := by decide
  have limit : maxfile * bsize < 2 ^ 31 := by decide
  -- the first piece went in, and not all of them did
  have cut (short : CutShort (d.dinode sb i) f.off.toNat src.length) : done ≠ [] ∧ left ≠ [] := by
    obtain ⟨inside, first, past⟩ := short
    have started : done ≠ [] := by
      intro none
      rw [none, List.length_nil] at moved total
      rw [if_pos none] at size
      have refused := stopped fun empty => by
        rw [empty, List.length_nil] at total
        omega
      unfold Refused at refused
      omega
    refine ⟨started, fun empty => ?_⟩
    rw [empty, List.length_nil, Nat.add_zero] at total
    rw [if_neg started] at size
    omega
  refine ⟨?_, ?_, ?_, ?_⟩
  · rw [← result]
    split
    · exact .inr rfl
    · exact .inl rfl
  · intro short
    rw [← result, if_neg (cut short).2]
  · rintro ⟨nothing, -⟩ short
    obtain ⟨started, unfinished⟩ := cut short
    have same := (nothing (by rw [← result, if_neg unfinished])).2.2
    have pos : 0 < done.length := List.length_pos_of_ne_nil started
    change off' = f.off at same
    rw [same] at moved
    omega
  · intro whole
    constructor
    · intro failed
      have unfinished : left ≠ [] := by
        intro empty
        rw [← result, if_pos empty] at failed
        omega
      have refused := stopped unfinished
      have none : done = [] := by
        by_contra started
        have passed := begun started
        rw [if_neg started] at size
        unfold Refused at refused passed
        apply whole
        unfold CutShort
        omega
      rw [none] at moved size
      have content := progress.content
      rw [none, spliced_nil] at content
      rw [if_pos rfl] at size
      exact ⟨UInt32.toNat.inj size, content, UInt32.toNat.inj moved⟩
    · intro finished
      have empty : left = [] := by
        by_contra unfinished
        rw [← result, if_neg unfinished] at finished
        omega
      rw [empty, List.append_nil] at split
      have content := progress.content
      rw [← split] at content moved
      exact ⟨content, moved⟩

/-- For every file that is open for writing on an inode other than a device: filewrite()
returns if there are blocks enough, with -1 or the length of the buffer, and it is all or
nothing if and only if the file has no room for the first piece or has room for the whole
buffer. -/
theorem filewrite_all_or_nothing_iff (sound : sb.Sound) (dev : Devsw)
    (pipewrite : π → List UInt8 → Prog Disk Int) (wf : WellFormed sb d) (hi : i < sb.ninodes)
    (live : (d.dinode sb i).type ≠ 0) (file : (d.dinode sb i).type ≠ tDev) (f : File π Nat)
    (inode : f.type = .inode i) (writable : f.writable = true) (src : List UInt8)
    (small : src.length < 2 ^ 31) :
    let ip := d.dinode sb i
    (growth (blocksFor ip.size.toNat) (blocksWanted ip f.off.toNat src.length) ≤ d.free sb →
      (filewrite sb dev pipewrite f ip src).Returns d) ∧
    ∀ r f' ip' d', filewrite sb dev pipewrite f ip src d = some ((r, f', ip'), d') →
      (r = -1 ∨ r = src.length) ∧
      (AllOrNothing sb d f i src r d' f' ↔
        ¬ (f.off.toNat ≤ ip.size.toNat ∧ f.off.toNat + maxWrite ≤ maxfile * bsize ∧
          maxfile * bsize < f.off.toNat + src.length)) := by
  intro ip
  refine ⟨filewrite_returns sound wf hi live file inode small, ?_⟩
  intro r f' ip' d' run
  obtain ⟨result, -, iff⟩ := filewrite_iff sound wf hi live file inode writable small run
  exact ⟨result, iff⟩

end whole

/-! ## The root of a new file system -/

theorem free_fresh {sb : Superblock} (roomy : Superblock.Roomy sb) :
    (freshDisk sb).free sb = sb.size - (sb.nmeta + 1) := by
  have blocks : (Finset.range sb.size).filter (fun b => (freshDisk sb).used sb b = false) =
      Finset.Ico (sb.nmeta + 1) sb.size := by
    ext b
    rw [Finset.mem_filter, Finset.mem_range, Finset.mem_Ico]
    constructor
    · rintro ⟨lt, free⟩
      rw [roomy.used_fresh lt, decide_eq_false_iff_not] at free
      omega
    · rintro ⟨le, lt⟩
      refine ⟨lt, ?_⟩
      rw [roomy.used_fresh lt, decide_eq_false_iff_not]
      omega
  rw [Disk.free, blocks, Nat.card_Ico]

theorem root_fresh : (freshDisk mkfs).dinode mkfs rootino = rootInode mkfs :=
  (mkfs_roomy.dinode_fresh mkfs_roomy.root).trans (if_pos rfl)

/-- The size of the root of a new file system. -/
theorem size_root_fresh : ((freshDisk mkfs).dinode mkfs rootino).size.toNat = 512 := by
  rw [root_fresh]
  rfl

/-- An inode of a new file system, open at offset 0. -/
def rootFile : File Unit Nat := ⟨.inode rootino, 1, true, true, 0⟩

theorem live_root_fresh : ((freshDisk mkfs).dinode mkfs rootino).type ≠ 0 ∧
    ((freshDisk mkfs).dinode mkfs rootino).type ≠ tDev := by
  rw [root_fresh]
  decide

/-- There is room for a file of any size. -/
theorem enough_fresh (n : Nat) :
    growth (blocksFor ((freshDisk mkfs).dinode mkfs rootino).size.toNat)
      (blocksWanted ((freshDisk mkfs).dinode mkfs rootino) rootFile.off.toNat n) ≤
        (freshDisk mkfs).free mkfs := by
  have most : blocksWanted ((freshDisk mkfs).dinode mkfs rootino) rootFile.off.toNat n ≤ maxfile := by
    unfold blocksWanted
    rw [size_root_fresh]
    refine max_le (by decide) ?_
    exact Nat.le_trans (blocksFor_mono (Nat.min_le_right _ _)) (by decide)
  have cost : growth 1 (blocksWanted ((freshDisk mkfs).dinode mkfs rootino) rootFile.off.toNat n) ≤
      maxfile + 1 := by
    unfold growth
    split <;> omega
  have one : blocksFor ((freshDisk mkfs).dinode mkfs rootino).size.toNat = 1 := by
    rw [size_root_fresh]
    rfl
  rw [one, free_fresh mkfs_roomy]
  exact Nat.le_trans cost (by decide)

theorem one_byte_written :
    let d := freshDisk mkfs
    ∃ r f' ip' d', filewrite mkfs ⟨fun _ => none, fun _ => none⟩ (fun _ _ => .halt) rootFile
        (d.dinode mkfs rootino) [7] d = some ((r, f', ip'), d') ∧
      AllOrNothing mkfs d rootFile rootino [7] r d' f' := by
  intro d
  obtain ⟨returns, outcome⟩ := filewrite_all_or_nothing_iff mkfs_sound ⟨fun _ => none, fun _ => none⟩
    (fun _ _ => .halt) mkfs_roomy.fresh_wellFormed mkfs_roomy.root live_root_fresh.1
    live_root_fresh.2 rootFile rfl rfl [7] (by decide)
  obtain ⟨⟨r, f', ip'⟩, d', run⟩ := returns (enough_fresh 1)
  refine ⟨r, f', ip', d', run, (outcome r f' ip' d' run).2.mpr ?_⟩
  rw [size_root_fresh]
  decide

/-- 71681 bytes at offset 0 are one more than a file can have: ten pieces are written
before the last is refused. -/
theorem long_write_cut_short :
    let d := freshDisk mkfs
    let src := List.replicate 71681 7
    ∃ f' ip' d', filewrite mkfs ⟨fun _ => none, fun _ => none⟩ (fun _ _ => .halt) rootFile
        (d.dinode mkfs rootino) src d = some ((-1, f', ip'), d') ∧
      ¬ AllOrNothing mkfs d rootFile rootino src (-1) d' f' := by
  intro d src
  have length : src.length = 71681 := List.length_replicate
  have short : CutShort (d.dinode mkfs rootino) rootFile.off.toNat src.length := by
    rw [length]
    unfold CutShort
    rw [size_root_fresh]
    decide
  obtain ⟨⟨r, f', ip'⟩, d', run⟩ : (filewrite mkfs ⟨fun _ => none, fun _ => none⟩
      (fun _ _ => .halt) rootFile (d.dinode mkfs rootino) src).Returns d :=
    filewrite_returns mkfs_sound mkfs_roomy.fresh_wellFormed mkfs_roomy.root live_root_fresh.1
      live_root_fresh.2 rfl (by rw [length]; decide) (enough_fresh _)
  obtain ⟨-, failed, iff⟩ := filewrite_iff mkfs_sound mkfs_roomy.fresh_wellFormed mkfs_roomy.root
    live_root_fresh.1 live_root_fresh.2 rfl rfl (by rw [length]; decide) run
  obtain rfl := failed short
  exact ⟨f', ip', d', run, fun whole => iff.mp whole short⟩

end Xv6.Fs
