import Xv6.Fs.Owned

/-! bmap(): what it allocates, and that nothing else changes. -/

namespace Xv6.Fs
open Lib
variable {sb : Superblock} {d d₁ d' : Disk} {node : Nat → Dinode} {i : Nat} {ip ip' : Dinode}

/-- Block `n` of the file. -/
def Disk.fileBlock (d : Disk) (ip : Dinode) (n : Nat) : Block := d.block (d.ptr ip (.file n))

/-! ## The three ways to be given a block -/

namespace Held
variable (held : Held sb d node i ip)
include held

theorem refers {p : Place} (h : d.ptr ip p ≠ 0) :
    Refers sb d (Function.update node i ip) i p (d.ptr ip p) := by
  simp [Refers, held.bound, held.live, h]

theorem ptr_area {p : Place} (h : d.ptr ip p ≠ 0) :
    sb.nmeta ≤ d.ptr ip p ∧ d.ptr ip p < sb.size :=
  held.owned.area i p _ (held.refers h)

theorem ptr_ne_fresh {p : Place} {b : Nat} (h : d.ptr ip p ≠ 0) (fresh : d.used sb b = false) :
    d.ptr ip p ≠ b := by
  intro eq
  have marked := (held.owned.used _ (held.ptr_area h).2).mpr (.inr ⟨i, p, held.refers h⟩)
  rw [eq, fresh] at marked
  cases marked

theorem ptr_inj {p q : Place} (h : d.ptr ip p ≠ 0) (eq : d.ptr ip p = d.ptr ip q) : p = q := by
  have other := held.refers (p := q) (eq ▸ h)
  rw [← eq] at other
  exact (held.owned.unique _ _ _ _ _ (held.refers h) other).2

/-- balloc() leaves the blocks of the inode alone. -/
theorem alloc_keeps {b : Nat} (alloc : Allocated sb d b d') {p : Place} (h : d.ptr ip p ≠ 0) :
    d'.block (d.ptr ip p) = d.block (d.ptr ip p) :=
  alloc.others _ (held.ptr_area h).1 (held.ptr_ne_fresh h alloc.fresh)

end Held

theorem gains_direct (sound : sb.Sound) (held : Held sb d node i ip) {n b : Nat} (h : n < ndirect) (empty : ip.addr n = 0)
    (alloc : Allocated sb d b d') :
    Gains sb d ip (.file n) b d' (ip.setAddr n (.ofNat b)) := by
  have indirect : (ip.setAddr n (.ofNat b)).addr ndirect = ip.addr ndirect := by
    rw [Dinode.addr_setAddr ip (by omega), if_neg (by omega)]
  constructor
  case bound => exact alloc.bound
  case data => exact alloc.data
  case fresh => exact alloc.fresh
  case used => exact alloc.used
  case empty => simp [Disk.ptr, h, empty]
  case nodes => exact alloc.nodes
  case same => rfl
  case others => exact fun x hx other _ => alloc.others x hx other
  case ptr =>
    intro q
    cases q with
    | indirect => simp [Disk.ptr, indirect]
    | file m =>
      by_cases direct : m < ndirect
      · simp only [Disk.ptr, direct, ↓reduceIte, Dinode.addr_setAddr ip (by omega : n ≤ ndirect),
          Place.file.injEq]
        by_cases here : m = n
        · simp only [here, ↓reduceIte, toNat_ofNat_block sound alloc.bound]
        · simp only [here, ↓reduceIte]
      · have other : m ≠ n := by omega
        have same := ptr_congr (fun h => held.alloc_keeps alloc h) (.file m)
        simp only [Disk.ptr, direct, ↓reduceIte] at same
        simp only [Disk.ptr, direct, ↓reduceIte, indirect, Place.file.injEq, other, same]

theorem gains_indirect (sound : sb.Sound) {b : Nat} (empty : ip.addr ndirect = 0)
    (alloc : Allocated sb d b d') :
    Gains sb d ip .indirect b d' (ip.setAddr ndirect (.ofNat b)) := by
  have bound := toNat_ofNat_block sound alloc.bound
  constructor
  case bound => exact alloc.bound
  case data => exact alloc.data
  case fresh => exact alloc.fresh
  case used => exact alloc.used
  case empty => simp [Disk.ptr, empty]
  case nodes => exact alloc.nodes
  case same => rfl
  case others => exact fun x hx other _ => alloc.others x hx other
  case ptr =>
    intro q
    cases q with
    | indirect => simp [Disk.ptr, Dinode.addr_setAddr, bound]
    | file m =>
      by_cases direct : m < ndirect
      · have other : m ≠ ndirect := by omega
        simp [Disk.ptr, direct, Dinode.addr_setAddr, other]
      · -- the new indirect block is zero
        simp [Disk.ptr, direct, Dinode.addr_setAddr, empty, bound, alloc.zero]

theorem gains_inner (sound : sb.Sound) (held : Held sb d node i ip) {m b : Nat} (h : m < nindirect) (used : ip.addr ndirect ≠ 0)
    (empty : (d.block (ip.addr ndirect).toNat).word m = 0) (alloc : Allocated sb d b d₁) :
    Gains sb d ip (.file (ndirect + m)) b
      (d₁.write (ip.addr ndirect).toNat
        ((d₁.block (ip.addr ndirect).toNat).setWord m (.ofNat b))) ip := by
  have here : d.ptr ip .indirect ≠ 0 := fun zero => used (UInt32.toNat.inj zero)
  have area : sb.nmeta ≤ (ip.addr ndirect).toNat := (held.ptr_area here).1
  have kept : d₁.block (ip.addr ndirect).toNat = d.block (ip.addr ndirect).toNat :=
    held.alloc_keeps alloc here
  have low : ¬ ndirect + m < ndirect := by omega
  constructor
  case bound => exact alloc.bound
  case data => exact alloc.data
  case fresh => exact alloc.fresh
  case used =>
    intro c hc
    rw [Disk.used_write_data sound area hc]
    exact alloc.used c hc
  case empty => simp [Disk.ptr, used, low, empty]
  case nodes =>
    intro j hj
    rw [Disk.dinode_write_data sound area hj]
    exact alloc.nodes j hj
  case same => rfl
  case others =>
    intro x hx other apart
    exact (Disk.write_of_ne _ apart _).trans (alloc.others x hx other)
  case ptr =>
    intro q
    cases q with
    | indirect => simp [Disk.ptr]
    | file n =>
      by_cases direct : n < ndirect
      · have other : n ≠ ndirect + m := by omega
        simp [Disk.ptr, direct, other]
      · simp only [Disk.ptr, direct, used, ↓reduceIte, Disk.write_self, kept, Place.file.injEq]
        by_cases eq : n = ndirect + m
        · have index : n - ndirect = m := by omega
          have fits : 4 * m + 3 < bsize := by
            simp only [nindirect, bsize] at h ⊢
            omega
          rw [if_pos eq, index, Bytes.word_setWord_self _ fits, toNat_ofNat_block sound alloc.bound]
        · have index : n - ndirect ≠ m := by omega
          rw [if_neg eq, Bytes.word_setWord_of_ne _ index]

/-! ## A file that grows -/

/-- Among the data blocks only those of the inode have changed. -/
def Confined (sb : Superblock) (d d' : Disk) (ip' : Dinode) : Prop :=
  ∀ x, sb.nmeta ≤ x → (∀ p, d'.ptr ip' p ≠ x) → d'.block x = d.block x

/-- The inode may have been given blocks; nothing else has changed, and the
blocks it had are as they were. -/
structure Extends (sb : Superblock) (d : Disk) (ip : Dinode) (d' : Disk) (ip' : Dinode) : Prop where
  keep : ∀ p, d.ptr ip p ≠ 0 → d'.ptr ip' p = d.ptr ip p
  same : ip' = { ip with addrs := ip'.addrs }
  frame : Confined sb d d' ip'
  nodes : ∀ j, j < sb.ninodes → d'.dinode sb j = d.dinode sb j

theorem Extends.refl (sb : Superblock) (d : Disk) (ip : Dinode) : Extends sb d ip d ip :=
  ⟨fun _ _ => rfl, rfl, fun _ _ _ => rfl, fun _ _ => rfl⟩

theorem Extends.trans {d₂ : Disk} {ip₂ : Dinode} (h : Extends sb d ip d' ip')
    (h' : Extends sb d' ip' d₂ ip₂) : Extends sb d ip d₂ ip₂ where
  keep p used := by
    have first := h.keep p used
    have second := h'.keep p (first ▸ used)
    exact second.trans first
  same := by rw [h'.same, h.same]
  frame x hx free := by
    have before : ∀ p, d'.ptr ip' p ≠ x := by
      intro p eq
      have := sb.nmeta_pos
      exact free p ((h'.keep p (by omega)).trans eq)
    exact (h'.frame x hx free).trans (h.frame x hx before)
  nodes j hj := (h'.nodes j hj).trans (h.nodes j hj)

theorem Gains.extends {p : Place} {b : Nat} (gains : Gains sb d ip p b d' ip') :
    Extends sb d ip d' ip' where
  keep q used := by
    have other : q ≠ p := by rintro rfl; exact used gains.empty
    rw [gains.ptr q, if_neg other]
  same := gains.same
  frame x hx free := by
    have := sb.nmeta_pos
    apply gains.others x hx
    · have here := free p
      rw [gains.ptr p, if_pos rfl] at here
      exact here.symm
    · intro eq
      by_cases indirect : p = .indirect
      · have empty := gains.empty
        rw [indirect] at empty
        omega
      · have here := free .indirect
        rw [gains.ptr, if_neg (Ne.symm indirect)] at here
        exact here eq.symm
  nodes := gains.nodes

/-- The blocks the file had are as they were. -/
theorem Gains.fileBlock {p : Place} {b : Nat} (gains : Gains sb d ip p b d' ip')
    (held : Held sb d node i ip) {n : Nat} (h : d.ptr ip (.file n) ≠ 0) :
    d'.fileBlock ip' n = d.fileBlock ip n := by
  rw [Disk.fileBlock, gains.extends.keep _ h]
  apply gains.others
  · exact (held.ptr_area h).1
  · exact held.ptr_ne_fresh h gains.fresh
  · intro eq
    cases held.ptr_inj h eq

theorem Shape.next {k b : Nat} (shape : Shape d ip k) (lt : k < maxfile) (nonzero : b ≠ 0)
    (file : ∀ n, d'.ptr ip' (.file n) = if n = k then b else d.ptr ip (.file n))
    (indirect : d'.ptr ip' .indirect ≠ 0 ↔ ndirect ≤ k) : Shape d' ip' (k + 1) := by
  constructor
  case le => exact lt
  case file =>
    intro n hn
    rw [file n]
    by_cases here : n = k
    · simp [here, nonzero]
    · simp only [here, ↓reduceIte, shape.file n hn]
      omega
  case indirect =>
    rw [indirect]
    omega

/-! ## bmap() -/

/-- How many blocks are allocated for block `bn` of a file with `k` blocks. -/
def cost (k bn : Nat) : Nat := if bn < k then 0 else if bn = ndirect then 2 else 1

/-- What bmap() returns for block `bn` of a file with `k` blocks: the block has
been there, or it is the next one and is new. -/
structure Mapped (sb : Superblock) (d : Disk) (ip : Dinode) (k bn b : Nat) (d' : Disk)
    (ip' : Dinode) : Prop where
  grown : Extends sb d ip d' ip'
  shape : Shape d' ip' (max k (bn + 1))
  ptr : d'.ptr ip' (.file bn) = b
  old : ∀ n, n < k → d'.fileBlock ip' n = d.fileBlock ip n
  new : bn = k → d'.block b = Bytes.zero
  free : d'.free sb + cost k bn = d.free sb
  logged : ∃ l, d'.logged = d.logged ++ l ∧ ∀ x, x ∈ l ↔
    bn = k ∧ (x = sb.bmapstart ∨ x = b ∨ ndirect ≤ bn ∧ x = d'.ptr ip' .indirect)

/-- Nothing to allocate. -/
theorem Mapped.old_block {k bn : Nat} (shape : Shape d ip k) (lt : bn < k) :
    Mapped sb d ip k bn (d.ptr ip (.file bn)) d ip where
  grown := .refl sb d ip
  shape := by rw [Nat.max_eq_left lt]; exact shape
  ptr := rfl
  old _ _ := rfl
  new eq := absurd eq (Nat.ne_of_lt lt)
  free := by simp [cost, lt]
  logged := ⟨[], by simp, fun x => by simp; omega⟩

theorem addrOrAlloc_cases {n b : Nat} (h : addrOrAlloc sb ip n d = some ((b, ip'), d')) :
    (ip.addr n ≠ 0 ∧ b = (ip.addr n).toNat ∧ ip' = ip ∧ d' = d) ∨
    (ip.addr n = 0 ∧ balloc sb d = some (b, d') ∧ ip' = ip.setAddr n (.ofNat b)) := by
  unfold addrOrAlloc at h
  split at h
  case isTrue none =>
    obtain ⟨addr, _, alloc, h⟩ := Prog.bind_eq_some.mp h
    obtain ⟨eq, rfl⟩ := Prog.pure_eq_some.mp h
    obtain ⟨rfl, rfl⟩ := Prod.mk.inj eq
    exact .inr ⟨none, alloc, rfl⟩
  case isFalse some =>
    obtain ⟨eq, rfl⟩ := Prog.pure_eq_some.mp h
    obtain ⟨rfl, rfl⟩ := Prod.mk.inj eq
    exact .inl ⟨some, rfl, rfl, rfl⟩

theorem bmap_direct (sound : sb.Sound) (held : Held sb d node i ip) {k bn b : Nat}
    (shape : Shape d ip k) (le : bn ≤ k) (direct : bn < ndirect)
    (h : addrOrAlloc sb ip bn d = some ((b, ip'), d')) :
    Held sb d' node i ip' ∧ Mapped sb d ip k bn b d' ip' := by
  have small : bn < maxfile := Nat.lt_of_lt_of_le direct (by decide)
  have here : d.ptr ip (.file bn) = (ip.addr bn).toNat := by simp [Disk.ptr, direct]
  obtain ⟨used, rfl, rfl, rfl⟩ | ⟨none, alloc, rfl⟩ := addrOrAlloc_cases h
  · have nonzero : d'.ptr ip' (.file bn) ≠ 0 := by
      rw [here]
      exact fun zero => used (UInt32.toNat.inj zero)
    have lt : bn < k := (shape.file bn small).mp nonzero
    rw [← here]
    exact ⟨held, .old_block shape lt⟩
  · have zero : d.ptr ip (.file bn) = 0 := by simp [here, none]
    have eq : bn = k := by
      have := (shape.file bn small).not.mp (by simp [zero])
      omega
    subst eq
    have alloc := balloc_spec sound held.owned alloc
    have gains := gains_direct sound held direct none alloc
    refine ⟨gains.held held, gains.extends, ?_, ?_, ?_, fun _ => alloc.zero, ?_, ?_⟩
    · rw [Nat.max_eq_right (Nat.le_succ bn)]
      apply shape.next small gains.block_ne_zero
      · intro n
        simpa using gains.ptr (.file n)
      · rw [gains.ptr]
        simp only [reduceCtorEq, ↓reduceIte, shape.indirect]
        omega
    · rw [gains.ptr, if_pos rfl]
    · intro n hn
      exact gains.fileBlock held ((shape.file n (by omega)).mpr hn)
    · have other : bn ≠ ndirect := by omega
      simpa [cost, other] using gains.free
    · refine ⟨_, alloc.logged, fun x => ?_⟩
      have low : ¬ ndirect ≤ bn := by omega
      simp [low]

/-- The entry of the indirect block for block `bn` of the file. -/
def entryOrAlloc (sb : Superblock) (addr : Nat) (ip : Dinode) (bn : Nat) :
    Prog Disk (Nat × Dinode) := do
  let d ← .get
  let a := (d.block addr).word (bn - ndirect)
  if a = 0 then
    let b ← balloc sb
    .modify fun d => d.write addr ((d.block addr).setWord (bn - ndirect) (.ofNat b))
    return (b, ip)
  else return (a.toNat, ip)

theorem bmap_of_indirect {bn : Nat} (high : ¬ bn < ndirect) (small : bn < maxfile) :
    bmap sb ip bn = addrOrAlloc sb ip ndirect >>= fun r => entryOrAlloc sb r.1 r.2 bn := by
  have index : bn - ndirect < nindirect := by
    unfold maxfile at small
    omega
  rw [bmap, if_neg high, if_pos index]
  rfl

theorem entryOrAlloc_cases {addr bn b : Nat}
    (h : entryOrAlloc sb addr ip bn d = some ((b, ip'), d')) :
    ip' = ip ∧
    (((d.block addr).word (bn - ndirect) ≠ 0 ∧
      b = ((d.block addr).word (bn - ndirect)).toNat ∧ d' = d) ∨
    ((d.block addr).word (bn - ndirect) = 0 ∧ ∃ d₁, balloc sb d = some (b, d₁) ∧
      d' = d₁.write addr ((d₁.block addr).setWord (bn - ndirect) (.ofNat b)))) := by
  obtain ⟨_, _, got, h⟩ := Prog.bind_eq_some.mp h
  obtain ⟨rfl, rfl⟩ := Prog.get_eq_some.mp got
  split at h
  case isTrue none =>
    obtain ⟨c, d₁, alloc, h⟩ := Prog.bind_eq_some.mp h
    obtain ⟨_, d₂, written, h⟩ := Prog.bind_eq_some.mp h
    obtain ⟨eq, rfl⟩ := Prog.pure_eq_some.mp h
    obtain ⟨rfl, rfl⟩ := Prod.mk.inj eq
    exact ⟨rfl, .inr ⟨none, d₁, alloc, (Prog.modify_eq_some.mp written).symm⟩⟩
  case isFalse none =>
    obtain ⟨eq, rfl⟩ := Prog.pure_eq_some.mp h
    obtain ⟨rfl, rfl⟩ := Prod.mk.inj eq
    exact ⟨rfl, .inl ⟨none, rfl, rfl⟩⟩

/-- A new block behind an indirect block that is there. -/
theorem entry_gains (sound : sb.Sound) (held : Held sb d node i ip) {bn b : Nat}
    (high : ¬ bn < ndirect) (small : bn < maxfile) (used : ip.addr ndirect ≠ 0)
    (empty : (d.block (ip.addr ndirect).toNat).word (bn - ndirect) = 0)
    (alloc : Allocated sb d b d₁)
    (eq : d' = d₁.write (ip.addr ndirect).toNat
      ((d₁.block (ip.addr ndirect).toNat).setWord (bn - ndirect) (.ofNat b))) :
    Gains sb d ip (.file bn) b d' ip ∧ d'.block b = Bytes.zero ∧
      d'.logged = d.logged ++ [sb.bmapstart, b, d.ptr ip .indirect] := by
  have index : bn - ndirect < nindirect := by
    unfold maxfile at small
    omega
  have place : ndirect + (bn - ndirect) = bn := by omega
  have gains := gains_inner sound held index used empty alloc
  rw [place, ← eq] at gains
  have there : d.ptr ip .indirect ≠ 0 := fun zero => used (UInt32.toNat.inj zero)
  have apart : b ≠ (ip.addr ndirect).toNat := (held.ptr_ne_fresh there alloc.fresh).symm
  refine ⟨gains, ?_, ?_⟩
  · rw [eq, Disk.write_of_ne _ apart]
    exact alloc.zero
  · rw [eq, Disk.logged_write, alloc.logged]
    simp [Disk.ptr]

/-- The file gets block `k` once it has its indirect block. -/
theorem Mapped.next_entry {k b : Nat} {ip₁ : Dinode} (shape : Shape d ip k) (small : k < maxfile)
    (high : ¬ k < ndirect) (grown : Extends sb d ip d₁ ip₁) (held : Held sb d₁ node i ip₁)
    (file : ∀ n, d₁.ptr ip₁ (.file n) = d.ptr ip (.file n))
    (old : ∀ n, n < k → d₁.fileBlock ip₁ n = d.fileBlock ip n)
    (there : d₁.ptr ip₁ .indirect ≠ 0) (gains : Gains sb d₁ ip₁ (.file k) b d' ip')
    (zero : d'.block b = Bytes.zero)
    (free : d₁.free sb + (if k = ndirect then 1 else 0) = d.free sb) {l : List Nat} (logged : d'.logged = d.logged ++ l)
    (mem : ∀ x, x ∈ l ↔ x = sb.bmapstart ∨ x = b ∨ x = d₁.ptr ip₁ .indirect) :
    Mapped sb d ip k k b d' ip' := by
  have indirect : d'.ptr ip' .indirect = d₁.ptr ip₁ .indirect := by
    rw [gains.ptr, if_neg (by simp)]
  refine ⟨grown.trans gains.extends, ?_, ?_, ?_, fun _ => zero, ?_, l, logged, ?_⟩
  · rw [Nat.max_eq_right (Nat.le_succ k)]
    apply shape.next small gains.block_ne_zero
    · intro n
      rw [gains.ptr, file]
      simp
    · rw [indirect]
      constructor
      · intro _; omega
      · intro _; exact there
  · rw [gains.ptr, if_pos rfl]
  · intro n hn
    rw [← old n hn]
    apply gains.fileBlock held
    rw [file]
    exact (shape.file n (by omega)).mpr hn
  · have one := gains.free
    simp only [cost, Nat.lt_irrefl, ↓reduceIte]
    split at free
    case isTrue here => simp only [here, ↓reduceIte] at free ⊢; omega
    case isFalse other => simp only [other, ↓reduceIte]; omega
  · intro x
    have le : ndirect ≤ k := by omega
    simp only [mem, indirect, le, true_and]

theorem bmap_spec (sound : sb.Sound) (held : Held sb d node i ip) {k bn b : Nat}
    (shape : Shape d ip k) (le : bn ≤ k) (small : bn < maxfile)
    (h : bmap sb ip bn d = some ((b, ip'), d')) :
    Held sb d' node i ip' ∧ Mapped sb d ip k bn b d' ip' := by
  by_cases direct : bn < ndirect
  · rw [bmap, if_pos direct] at h
    exact bmap_direct sound held shape le direct h
  rw [bmap_of_indirect direct small] at h
  obtain ⟨⟨addr, ip₁⟩, d₁, first, second⟩ := Prog.bind_eq_some.mp h
  obtain ⟨used, rfl, rfl, rfl⟩ | ⟨none, alloc, rfl⟩ := addrOrAlloc_cases first
  · -- the indirect block is there
    have here : d₁.ptr ip₁ (.file bn) =
        ((d₁.block (ip₁.addr ndirect).toNat).word (bn - ndirect)).toNat := by
      simp [Disk.ptr, direct, used]
    obtain ⟨rfl, ⟨some, rfl, rfl⟩ | ⟨empty, d₂, alloc, eq⟩⟩ := entryOrAlloc_cases second
    · have nonzero : d'.ptr ip' (.file bn) ≠ 0 := by
        rw [here]
        exact fun zero => some (UInt32.toNat.inj zero)
      rw [← here]
      exact ⟨held, .old_block shape ((shape.file bn small).mp nonzero)⟩
    · have last : bn = k := by
        have := (shape.file bn small).not.mp (by simp [here, empty])
        omega
      subst last
      have there : d₁.ptr ip' .indirect ≠ 0 := fun zero => used (UInt32.toNat.inj zero)
      obtain ⟨gains, zero, logged⟩ := entry_gains sound held direct small used empty
        (balloc_spec sound held.owned alloc) eq
      refine ⟨gains.held held, ?_⟩
      have behind : bn ≠ ndirect := by
        have := shape.indirect.mp there
        omega
      exact .next_entry shape small direct (.refl ..) held (fun _ => rfl) (fun _ _ => rfl) there
        gains zero (by simp [behind]) logged (by simp)
  · -- the indirect block is new, and so it is for the first block behind it
    have last : bn = k ∧ k = ndirect := by
      have := shape.indirect.not.mp (by simp [Disk.ptr, none])
      omega
    obtain ⟨rfl, rfl⟩ := last
    have alloc₁ := balloc_spec sound held.owned alloc
    have gains₁ := gains_indirect sound none alloc₁
    have held₁ := gains₁.held held
    have base : ((ip.setAddr ndirect (.ofNat addr)).addr ndirect).toNat = addr := by
      simp [Dinode.addr_setAddr, toNat_ofNat_block sound alloc₁.bound]
    have there : d₁.ptr (ip.setAddr ndirect (.ofNat addr)) .indirect ≠ 0 := by
      rw [gains₁.ptr, if_pos rfl]
      exact gains₁.block_ne_zero
    have used : (ip.setAddr ndirect (.ofNat addr)).addr ndirect ≠ 0 :=
      fun zero => there (by simp [Disk.ptr, zero])
    obtain ⟨rfl, ⟨some, _, _⟩ | ⟨empty, d₂, alloc, eq⟩⟩ := entryOrAlloc_cases second
    · simp [alloc₁.zero] at some
    · dsimp only at empty eq
      rw [← base] at empty eq
      obtain ⟨gains, zero, logged⟩ := entry_gains sound held₁ direct small used empty
        (balloc_spec sound held₁.owned alloc) eq
      refine ⟨gains.held held₁, ?_⟩
      rw [alloc₁.logged, List.append_assoc] at logged
      apply Mapped.next_entry shape small direct gains₁.extends held₁ _ _ there gains zero
        (by simpa using gains₁.free) logged
      · intro x
        rw [gains₁.ptr, if_pos rfl]
        simp only [List.cons_append, List.nil_append, List.mem_cons, List.not_mem_nil, or_false]
        constructor
        · rintro (h | h | h | h | h)
          · exact .inl h
          · exact .inr (.inr h)
          · exact .inl h
          · exact .inr (.inl h)
          · exact .inr (.inr h)
        · rintro (h | h | h)
          · exact .inl h
          · exact .inr (.inr (.inr (.inl h)))
          · exact .inr (.inl h)
      · intro n
        rw [gains₁.ptr, if_neg (by simp)]
      · intro n hn
        exact gains₁.fileBlock held ((shape.file n (by omega)).mpr hn)

theorem addrOrAlloc_returns {n : Nat} (enough : ip.addr n = 0 → 0 < d.free sb) :
    (addrOrAlloc sb ip n).Returns d := by
  unfold addrOrAlloc
  split
  case isTrue none => exact (balloc_returns (enough none)).bind fun _ _ _ => .pure _ _
  case isFalse => exact .pure _ _

theorem entryOrAlloc_returns {addr bn : Nat}
    (enough : (d.block addr).word (bn - ndirect) = 0 → 0 < d.free sb) :
    (entryOrAlloc sb addr ip bn).Returns d := by
  apply (Prog.Returns.get d).bind
  rintro _ _ ⟨rfl, rfl⟩
  by_cases none : (d.block addr).word (bn - ndirect) = 0
  · simp only [none, ↓reduceIte]
    apply (balloc_returns (enough none)).bind
    intro b d₁ _
    exact (Prog.Returns.modify _ d₁).bind fun _ _ _ => .pure _ _
  · simp only [none, ↓reduceIte]
    exact .pure _ _

/-- bmap() returns as long as there are blocks to allocate. -/
theorem bmap_returns (sound : sb.Sound) (held : Held sb d node i ip) {k bn : Nat}
    (shape : Shape d ip k) (le : bn ≤ k) (small : bn < maxfile) (enough : cost k bn ≤ d.free sb) :
    (bmap sb ip bn).Returns d := by
  have absent (h : d.ptr ip (.file bn) = 0) : bn = k ∧ 0 < d.free sb := by
    have last : ¬ bn < k := (shape.file bn small).not.mp (by simp [h])
    refine ⟨by omega, Nat.lt_of_lt_of_le ?_ enough⟩
    rw [cost, if_neg last]
    split
    · exact Nat.two_pos
    · exact Nat.one_pos
  by_cases direct : bn < ndirect
  · rw [bmap, if_pos direct]
    apply addrOrAlloc_returns
    intro none
    exact (absent (by simp [Disk.ptr, direct, none])).2
  rw [bmap_of_indirect direct small]
  apply (addrOrAlloc_returns fun none => (absent (by simp [Disk.ptr, direct, none])).2).bind
  rintro ⟨addr, ip₁⟩ d₁ run
  apply entryOrAlloc_returns
  intro empty
  obtain ⟨used, rfl, rfl, rfl⟩ | ⟨none, alloc, rfl⟩ := addrOrAlloc_cases run
  · dsimp only at empty
    exact (absent (by simp [Disk.ptr, direct, used, empty])).2
  · have first := shape.indirect.not.mp (by simp [Disk.ptr, none])
    have last : ¬ bn < k := by omega
    have behind : bn = ndirect := by omega
    have one := (gains_indirect sound none (balloc_spec sound held.owned alloc)).free
    rw [cost, if_neg last, if_pos behind] at enough
    omega

end Xv6.Fs
