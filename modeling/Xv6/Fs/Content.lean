import Mathlib.Data.List.GetD
import Xv6.Fs.Bmap

/-! readi() and writei(): the contents of a file are an array of bytes. -/

namespace Xv6.Fs
open Lib
variable {sb : Superblock} {d d' : Disk} {node node' : Nat → Dinode} {i : Nat} {ip ip' : Dinode}

/-! ## Writing to a block of a file -/

/-- Ownership is about the bit map and who refers to what. -/
theorem Owned.of_refers (owned : Owned sb d node)
    (used : ∀ b, b < sb.size → d'.used sb b = d.used sb b)
    (refers : ∀ j p b, Refers sb d' node' j p b ↔ Refers sb d node j p b) :
    Owned sb d' node' := by
  constructor
  case area =>
    intro j p b h
    exact owned.area j p b ((refers j p b).mp h)
  case unique =>
    intro j p k q b h h'
    exact owned.unique j p k q b ((refers j p b).mp h) ((refers k q b).mp h')
  case used =>
    intro b hb
    rw [used b hb, owned.used b hb]
    simp only [refers]

theorem Owned.congr (owned : Owned sb d node)
    (used : ∀ b, b < sb.size → d'.used sb b = d.used sb b)
    (ptr : ∀ j, j < sb.ninodes → (node j).type ≠ 0 → ∀ p, d'.ptr (node j) p = d.ptr (node j) p) :
    Owned sb d' node := by
  apply owned.of_refers used
  intro j p b
  apply and_congr_right
  intro hj
  apply and_congr_right
  intro live
  rw [ptr j hj live p]

/-- No inode has its places in a block that holds the contents of a file. -/
theorem Owned.ptr_write (owned : Owned sb d node) {n b : Nat}
    (file : Refers sb d node i (.file n) b) (v : Block) {j : Nat} (hj : j < sb.ninodes)
    (live : (node j).type ≠ 0) (p : Place) : (d.write b v).ptr (node j) p = d.ptr (node j) p := by
  apply ptr_congr
  intro nonzero
  apply Disk.write_of_ne
  intro eq
  have taken : Refers sb d node j .indirect b := ⟨hj, live, eq, eq ▸ nonzero⟩
  cases (owned.unique _ _ _ _ _ file taken).2

theorem Held.ptr_write (held : Held sb d node i ip) {n : Nat} (h : d.ptr ip (.file n) ≠ 0)
    (v : Block) (p : Place) : (d.write (d.ptr ip (.file n)) v).ptr ip p = d.ptr ip p := by
  have same := held.owned.ptr_write (held.refers h) v held.bound (by simpa using held.live) p
  simpa using same

theorem Held.write (sound : sb.Sound) (held : Held sb d node i ip) {n : Nat}
    (h : d.ptr ip (.file n) ≠ 0) (v : Block) :
    Held sb (d.write (d.ptr ip (.file n)) v) node i ip := by
  refine ⟨held.owned.congr ?_ ?_, held.bound, held.live⟩
  · intro b hb
    exact Disk.used_write_data sound (held.ptr_area h).1 hb v
  · intro j hj live p
    exact held.owned.ptr_write (held.refers h) v hj live p

theorem Held.extends_write (sound : sb.Sound) (held : Held sb d node i ip) {n : Nat}
    (h : d.ptr ip (.file n) ≠ 0) (v : Block) :
    Extends sb d ip (d.write (d.ptr ip (.file n)) v) ip where
  keep p _ := held.ptr_write h v p
  same := rfl
  frame x _ free := by
    apply Disk.write_of_ne
    intro eq
    exact free (.file n) ((held.ptr_write h v _).trans eq.symm)
  nodes j hj := Disk.dinode_write_data sound (held.ptr_area h).1 hj v

theorem Shape.congr {k : Nat} (shape : Shape d ip k) (ptr : ∀ p, d'.ptr ip' p = d.ptr ip p) :
    Shape d' ip' k :=
  ⟨shape.le, fun n hn => by rw [ptr]; exact shape.file n hn, by rw [ptr]; exact shape.indirect⟩

theorem Held.fileBlock_write (held : Held sb d node i ip) {n : Nat} (h : d.ptr ip (.file n) ≠ 0)
    (v : Block) {m : Nat} (used : d.ptr ip (.file m) ≠ 0) :
    (d.write (d.ptr ip (.file n)) v).fileBlock ip m = if m = n then v else d.fileBlock ip m := by
  rw [Disk.fileBlock, held.ptr_write h]
  by_cases here : m = n
  · subst here
    rw [if_pos rfl]
    exact Disk.write_self _ _ _
  · rw [if_neg here]
    apply Disk.write_of_ne
    intro eq
    cases held.ptr_inj used eq
    exact here rfl

/-! ## Bytes of a file -/

/-- Byte `x` of the file. -/
def Disk.byteAt (d : Disk) (ip : Dinode) (x : Nat) : UInt8 :=
  (d.fileBlock ip (x / bsize)).byte (x % bsize)

/-- The contents of the file. -/
def Disk.content (d : Disk) (ip : Dinode) : List UInt8 :=
  (List.range ip.size.toNat).map (d.byteAt ip)

/-- How many blocks `n` bytes take. -/
def blocksFor (n : Nat) : Nat := (n + (bsize - 1)) / bsize

theorem lt_blocksFor_iff (n m : Nat) : m < blocksFor n ↔ m * bsize < n := by
  simp only [blocksFor, bsize]
  omega

theorem blocksFor_le_iff (n m : Nat) : blocksFor n ≤ m ↔ n ≤ m * bsize := by
  simp only [blocksFor, bsize]
  omega

theorem div_lt_of_lt_mul {x k : Nat} (h : x < k * bsize) : x / bsize < k :=
  Nat.div_lt_of_lt_mul (by rwa [Nat.mul_comm])

/-! ## The loop of writei() -/

/-- How many blocks are allocated for a file to grow from `k` blocks to `k'`. -/
def growth (k k' : Nat) : Nat := (k' - k) + if k ≤ ndirect ∧ ndirect < k' then 1 else 0

theorem growth_add {k k₁ k₂ : Nat} (h : k ≤ k₁) (h' : k₁ ≤ k₂) :
    growth k k₁ + growth k₁ k₂ = growth k k₂ := by
  unfold growth
  split <;> split <;> split <;> omega

theorem cost_eq_growth {k bn : Nat} (h : bn ≤ k) : cost k bn = growth k (max k (bn + 1)) := by
  unfold cost growth
  split
  · rw [if_neg (by omega)]
    omega
  · split
    · rw [if_pos (by omega)]
      omega
    · rw [if_neg (by omega)]
      omega

/-- The bytes from `off` on of a file with `k` blocks have been replaced by
`src`, and the file has `k'` blocks now. -/
structure Written (sb : Superblock) (d : Disk) (ip : Dinode) (k off : Nat) (src : List UInt8)
    (d' : Disk) (ip' : Dinode) (k' : Nat) : Prop where
  grown : Extends sb d ip d' ip'
  shape : Shape d' ip' k'
  le : k ≤ k'
  within : off + src.length ≤ k' * bsize
  bytes : ∀ x, x < k' * bsize → d'.byteAt ip' x =
    if off ≤ x ∧ x < off + src.length then src.getD (x - off) 0
    else if x < k * bsize then d.byteAt ip x else 0
  free : d'.free sb + growth k k' = d.free sb
  logged : ∃ l, d'.logged = d.logged ++ l ∧ ∀ x, x ∈ l ↔
    (∃ y, off ≤ y ∧ y < off + src.length ∧ x = d'.ptr ip' (.file (y / bsize))) ∨
    k < k' ∧ (x = sb.bmapstart ∨ ndirect < k' ∧ x = d'.ptr ip' .indirect)

theorem Written.nil {k off : Nat} (shape : Shape d ip k) (le : off ≤ k * bsize) :
    Written sb d ip k off [] d ip k where
  grown := .refl sb d ip
  shape := shape
  le := Nat.le_refl k
  within := le
  bytes x hx := by
    have outside : ¬ (off ≤ x ∧ x < off + ([] : List UInt8).length) := by
      rw [List.length_nil]
      omega
    rw [if_neg outside, if_pos hx]
  free := by
    unfold growth
    rw [if_neg (by omega)]
    omega
  logged := ⟨[], by simp, fun x => by simp; omega⟩

/-- Two writes in a row are one. -/
theorem Written.trans {k k₁ k₂ off : Nat} {s s' : List UInt8} {d₂ : Disk} {ip₂ : Dinode}
    (h : Written sb d ip k off s d' ip' k₁)
    (h' : Written sb d' ip' k₁ (off + s.length) s' d₂ ip₂ k₂) :
    Written sb d ip k off (s ++ s') d₂ ip₂ k₂ where
  grown := h.grown.trans h'.grown
  shape := h'.shape
  le := Nat.le_trans h.le h'.le
  within := by
    rw [List.length_append, ← Nat.add_assoc]
    exact h'.within
  bytes x hx := by
    have within := h.within
    have le : k * bsize ≤ k₁ * bsize := Nat.mul_le_mul_right bsize h.le
    rw [h'.bytes x hx, List.length_append]
    by_cases second : off + s.length ≤ x ∧ x < off + s.length + s'.length
    · have both : off ≤ x ∧ x < off + (s.length + s'.length) := by omega
      have index : x - off - s.length = x - (off + s.length) := by omega
      rw [if_pos second, if_pos both, List.getD_append_right _ _ _ _ (by omega), index]
    · rw [if_neg second]
      by_cases first : off ≤ x ∧ x < off + s.length
      · have both : off ≤ x ∧ x < off + (s.length + s'.length) := by omega
        rw [if_pos (Nat.lt_of_lt_of_le first.2 within), if_pos both, List.getD_append _ _ _ _ (by omega),
          h.bytes x (Nat.lt_of_lt_of_le first.2 within), if_pos first]
      · have neither : ¬ (off ≤ x ∧ x < off + (s.length + s'.length)) := by omega
        rw [if_neg neither]
        by_cases old : x < k₁ * bsize
        · rw [if_pos old, h.bytes x old, if_neg first]
        · rw [if_neg old, if_neg fun lt => old (Nat.lt_of_lt_of_le lt le)]
  free := by
    have first := h.free
    have second := h'.free
    have sum := growth_add h.le h'.le
    omega
  logged := by
    obtain ⟨l, eq, mem⟩ := h.logged
    obtain ⟨l', eq', mem'⟩ := h'.logged
    have le := h.le
    have le' := h'.le
    -- what the first part has touched is where it was
    have file (y : Nat) (hy : y < off + s.length) :
        d₂.ptr ip₂ (.file (y / bsize)) = d'.ptr ip' (.file (y / bsize)) := by
      have lt : y / bsize < k₁ := div_lt_of_lt_mul (Nat.lt_of_lt_of_le hy h.within)
      apply h'.grown.keep
      exact (h.shape.file _ (Nat.lt_of_lt_of_le lt h.shape.le)).mpr lt
    have indirect (high : ndirect < k₁) : d₂.ptr ip₂ .indirect = d'.ptr ip' .indirect :=
      h'.grown.keep _ (h.shape.indirect.mpr high)
    refine ⟨l ++ l', by rw [eq', eq, List.append_assoc], fun x => ?_⟩
    rw [List.mem_append, mem, mem', List.length_append]
    constructor
    · rintro ((⟨y, low, high, rfl⟩ | ⟨lt, rfl | ⟨big, rfl⟩⟩) | ⟨y, low, high, rfl⟩ | ⟨lt, h⟩)
      · exact .inl ⟨y, low, by omega, (file y high).symm⟩
      · exact .inr ⟨by omega, .inl rfl⟩
      · exact .inr ⟨by omega, .inr ⟨by omega, (indirect big).symm⟩⟩
      · exact .inl ⟨y, by omega, by omega, rfl⟩
      · exact .inr ⟨by omega, h⟩
    · rintro (⟨y, low, high, rfl⟩ | ⟨lt, rfl | ⟨big, rfl⟩⟩)
      · by_cases first : y < off + s.length
        · exact .inl (.inl ⟨y, low, first, file y first⟩)
        · exact .inr (.inl ⟨y, by omega, by omega, rfl⟩)
      · by_cases first : k < k₁
        · exact .inl (.inr ⟨first, .inl rfl⟩)
        · exact .inr (.inr ⟨by omega, .inl rfl⟩)
      · by_cases second : k₁ < k₂
        · exact .inr (.inr ⟨second, .inr ⟨big, rfl⟩⟩)
        · exact .inl (.inr ⟨by omega, .inr ⟨by omega, indirect (by omega)⟩⟩)

theorem free_congr (used : ∀ b, b < sb.size → d'.used sb b = d.used sb b) :
    d'.free sb = d.free sb := by
  unfold Disk.free
  congr 1
  apply Finset.filter_congr
  intro b hb
  rw [used b (Finset.mem_range.mp hb)]

/-- The bytes of one block of the file, after it has been written to. -/
theorem round_bytes {k off : Nat} {src : List UInt8}
    (fits : off % bsize + src.length ≤ bsize) {v : Nat → Block} (le : off / bsize ≤ k)
    (old : ∀ n, n < k → v n = d.fileBlock ip n)
    (new : off / bsize = k → v (off / bsize) = Bytes.zero) {x : Nat}
    (hx : x < max k (off / bsize + 1) * bsize) :
    (if x / bsize = off / bsize then (v (off / bsize)).splice (off % bsize) src
      else v (x / bsize)).byte (x % bsize) =
    if off ≤ x ∧ x < off + src.length then src.getD (x - off) 0
    else if x < k * bsize then d.byteAt ip x else 0 := by
  have inside : x < k * bsize ↔ x / bsize < k := by
    rw [Nat.div_lt_iff_lt_mul (by decide)]
  have block := div_lt_of_lt_mul hx
  have split := Nat.div_add_mod x bsize
  have split' := Nat.div_add_mod off bsize
  have low := Nat.mod_lt x (by decide : 0 < bsize)
  by_cases here : x / bsize = off / bsize
  · rw [here] at split
    have kept : (v (off / bsize)).byte (x % bsize) =
        if x < k * bsize then d.byteAt ip x else 0 := by
      by_cases lt : off / bsize < k
      · rw [if_pos (inside.mpr (here ▸ lt)), old _ lt, Disk.byteAt, here]
      · rw [if_neg (fun h => lt (here ▸ inside.mp h)), new (by omega), Bytes.byte_zero]
    rw [if_pos here, Bytes.byte_splice _ fits, kept]
    generalize (if x < k * bsize then d.byteAt ip x else 0) = before_write
    by_cases from_off : off ≤ x
    · have offset : x - off = x % bsize - off % bsize := by omega
      rw [if_pos (by omega), ← offset]
      by_cases before : x < off + src.length
      · have index : x - off < src.length := by omega
        rw [if_pos ⟨from_off, before⟩, List.getD_eq_getElem _ _ index,
          List.getD_eq_getElem _ _ index]
      · rw [if_neg (by omega), List.getD_eq_default _ _ (by omega)]
    · rw [if_neg (by omega), if_neg (by omega)]
  · have lt : x / bsize < k := by omega
    have outside : ¬ (off ≤ x ∧ x < off + src.length) := by
      rintro ⟨above, below⟩
      apply here
      apply Nat.div_eq_of_lt_le
      · rw [Nat.mul_comm]; omega
      · rw [Nat.add_mul, Nat.mul_comm]; omega
    rw [if_neg here, if_neg outside, if_pos (inside.mpr lt), old _ lt, Disk.byteAt]

/-- One round of the loop of writei(), with what is written in it. -/
theorem write_round (sound : sb.Sound) (held : Held sb d node i ip) {k off b : Nat}
    (shape : Shape d ip k) (le : off ≤ k * bsize) (small : off < maxfile * bsize)
    {src : List UInt8} (fits : off % bsize + src.length ≤ bsize) (nonempty : 0 < src.length)
    (h : bmap sb ip (off / bsize) d = some ((b, ip'), d')) :
    Held sb (d'.write b ((d'.block b).splice (off % bsize) src)) node i ip' ∧
      Written sb d ip k off src (d'.write b ((d'.block b).splice (off % bsize) src)) ip'
        (max k (off / bsize + 1)) := by
  have next : off / bsize ≤ k := Nat.div_le_of_le_mul (by rwa [Nat.mul_comm])
  obtain ⟨held', mapped⟩ := bmap_spec sound held shape next (div_lt_of_lt_mul small) h
  obtain rfl := mapped.ptr
  have bound := mapped.shape.le
  have nonzero : ∀ n, n < max k (off / bsize + 1) → d'.ptr ip' (.file n) ≠ 0 :=
    fun n hn => (mapped.shape.file n (by omega)).mpr hn
  have here : d'.ptr ip' (.file (off / bsize)) ≠ 0 := nonzero _ (by omega)
  have touched (y : Nat) (low : off ≤ y) (high : y < off + src.length) :
      y / bsize = off / bsize := by
    have := Nat.div_add_mod off bsize
    apply Nat.div_eq_of_lt_le
    · rw [Nat.mul_comm]; omega
    · rw [Nat.add_mul, Nat.mul_comm]; omega
  refine ⟨held'.write sound here _, ?_⟩
  constructor
  case grown => exact mapped.grown.trans (held'.extends_write sound here _)
  case shape => exact mapped.shape.congr fun p => held'.ptr_write here _ p
  case le => exact Nat.le_max_left _ _
  case within =>
    have := Nat.div_add_mod off bsize
    calc off + src.length ≤ (off / bsize + 1) * bsize := by
          rw [Nat.add_mul, Nat.mul_comm]; omega
      _ ≤ max k (off / bsize + 1) * bsize := Nat.mul_le_mul_right _ (Nat.le_max_right _ _)
  case bytes =>
    intro x hx
    rw [Disk.byteAt, held'.fileBlock_write here _ (nonzero _ (div_lt_of_lt_mul hx))]
    exact round_bytes fits next mapped.old mapped.new hx
  case free =>
    rw [free_congr fun c hc => Disk.used_write_data sound (held'.ptr_area here).1 hc _,
      ← cost_eq_growth next]
    exact mapped.free
  case logged =>
    obtain ⟨l, eq, mem⟩ := mapped.logged
    refine ⟨l ++ [d'.ptr ip' (.file (off / bsize))], by simp [eq], fun x => ?_⟩
    rw [List.mem_append, mem, List.mem_singleton]
    simp only [held'.ptr_write here]
    constructor
    · rintro (⟨last, rfl | rfl | ⟨high, rfl⟩⟩ | rfl)
      · exact .inr ⟨by omega, .inl rfl⟩
      · exact .inl ⟨off, by omega, by omega, rfl⟩
      · exact .inr ⟨by omega, .inr ⟨by omega, rfl⟩⟩
      · exact .inl ⟨off, by omega, by omega, rfl⟩
    · rintro (⟨y, low, high, rfl⟩ | ⟨more, rfl | ⟨big, rfl⟩⟩)
      · exact .inr (by rw [touched y low high])
      · exact .inl ⟨by omega, .inl rfl⟩
      · exact .inl ⟨by omega, .inr (.inr ⟨by omega, rfl⟩)⟩

/-- What a call of the loop of writei() does, at any offset up to the end of the
file. -/
theorem writeLoop_spec (sound : sb.Sound) {fuel k off : Nat} {src : List UInt8}
    (enough : src.length ≤ fuel) (held : Held sb d node i ip) (shape : Shape d ip k)
    (le : off ≤ k * bsize) (small : off + src.length ≤ maxfile * bsize)
    (h : writeLoop sb fuel ip off src d = some (ip', d')) :
    Held sb d' node i ip' ∧
      Written sb d ip k off src d' ip' (max k (blocksFor (off + src.length))) := by
  induction fuel generalizing d ip k off src with
  | zero =>
    obtain rfl := List.eq_nil_of_length_eq_zero (Nat.le_zero.mp enough)
    obtain ⟨rfl, rfl⟩ := Prog.pure_eq_some.mp h
    rw [List.length_nil, Nat.add_zero, Nat.max_eq_left ((blocksFor_le_iff off k).mpr le)]
    exact ⟨held, .nil shape le⟩
  | succ fuel ih =>
    rw [writeLoop] at h
    by_cases empty : src = []
    · subst empty
      rw [if_pos rfl] at h
      obtain ⟨rfl, rfl⟩ := Prog.pure_eq_some.mp h
      rw [List.length_nil, Nat.add_zero, Nat.max_eq_left ((blocksFor_le_iff off k).mpr le)]
      exact ⟨held, .nil shape le⟩
    rw [if_neg empty] at h
    have nonempty : 0 < src.length := List.length_pos_of_ne_nil empty
    obtain ⟨⟨b, ip₁⟩, d₁, mapped, h⟩ := Prog.bind_eq_some.mp h
    obtain ⟨_, d₂, written, h⟩ := Prog.bind_eq_some.mp h
    obtain rfl := Prog.modify_eq_some.mp written
    generalize m_eq : min src.length (bsize - off % bsize) = m at h
    have low := Nat.mod_lt off (by decide : 0 < bsize)
    have taken : (src.take m).length = m := by
      rw [List.length_take]
      omega
    have dropped : (src.drop m).length = src.length - m := List.length_drop
    have fits : off % bsize + (src.take m).length ≤ bsize := by omega
    have progress : 0 < (src.take m).length := by omega
    obtain ⟨held₂, first⟩ := write_round sound held shape le (by omega) fits progress mapped
    have within := first.within
    rw [taken] at within
    obtain ⟨held', second⟩ := ih (by omega) held₂ first.shape within (by omega) h
    refine ⟨held', ?_⟩
    have whole : Written sb d ip k off (src.take m ++ src.drop m) d' ip'
        (max (max k (off / bsize + 1)) (blocksFor (off + m + (src.drop m).length))) := by
      apply first.trans
      rw [taken]
      exact second
    have last : off + m + (src.drop m).length = off + src.length := by omega
    have block : off / bsize + 1 ≤ blocksFor (off + src.length) := by
      apply (lt_blocksFor_iff _ _).mpr
      have := Nat.div_mul_le_self off bsize
      omega
    rw [List.take_append_drop, last, Nat.max_assoc, Nat.max_eq_right block] at whole
    exact whole

/-- The loop of writei() returns as long as there are blocks to allocate. -/
theorem writeLoop_returns (sound : sb.Sound) {fuel k off : Nat} {src : List UInt8}
    (held : Held sb d node i ip) (shape : Shape d ip k)
    (le : off ≤ k * bsize) (small : off + src.length ≤ maxfile * bsize)
    (enough : growth k (max k (blocksFor (off + src.length))) ≤ d.free sb) :
    (writeLoop sb fuel ip off src).Returns d := by
  induction fuel generalizing d ip k off src with
  | zero => exact .pure _ _
  | succ fuel ih =>
    rw [writeLoop]
    by_cases empty : src = []
    · rw [if_pos empty]
      exact .pure _ _
    rw [if_neg empty]
    have nonempty : 0 < src.length := List.length_pos_of_ne_nil empty
    have low := Nat.mod_lt off (by decide : 0 < bsize)
    have next : off / bsize ≤ k := Nat.div_le_of_le_mul (by rwa [Nat.mul_comm])
    have block : off / bsize + 1 ≤ blocksFor (off + src.length) := by
      apply (lt_blocksFor_iff _ _).mpr
      have := Nat.div_mul_le_self off bsize
      omega
    have sum : growth k (max k (off / bsize + 1)) + growth (max k (off / bsize + 1))
        (max k (blocksFor (off + src.length))) = growth k (max k (blocksFor (off + src.length))) :=
      growth_add (by omega) (by omega)
    have first := bmap_returns sound held shape next (div_lt_of_lt_mul (by omega))
      (by rw [cost_eq_growth next]; omega)
    apply first.bind
    rintro ⟨b, ip₁⟩ d₁ mapped
    apply (Prog.Returns.modify _ d₁).bind
    intro _ d₂ written
    obtain rfl := Prog.modify_eq_some.mp written
    generalize m_eq : min src.length (bsize - off % bsize) = m
    have taken : (src.take m).length = m := by
      rw [List.length_take]
      omega
    have dropped : (src.drop m).length = src.length - m := List.length_drop
    have fits : off % bsize + (src.take m).length ≤ bsize := by omega
    have progress : 0 < (src.take m).length := by omega
    obtain ⟨held₂, round⟩ := write_round sound held shape le (by omega) fits progress mapped
    have within := round.within
    rw [taken] at within
    have last : off + m + (src.drop m).length = off + src.length := by omega
    have left := round.free
    apply ih held₂ round.shape within (by omega)
    rw [last, Nat.max_assoc, Nat.max_eq_right block]
    omega

/-! ## The loop of readi() -/

/-- A block that the file has is found, and nothing changes. -/
theorem bmap_old {k bn : Nat} (shape : Shape d ip k) (h : bn < k) :
    bmap sb ip bn d = some ((d.ptr ip (.file bn), ip), d) := by
  have le := shape.le
  have used := (shape.file bn (by omega)).mpr h
  by_cases direct : bn < ndirect
  · have there : ip.addr bn ≠ 0 := by
      intro zero
      simp [Disk.ptr, direct, zero] at used
    rw [bmap, if_pos direct, addrOrAlloc, if_neg there]
    simp [Disk.ptr, direct, Pure.pure]
  · have there : ip.addr ndirect ≠ 0 := by
      intro zero
      simp [Disk.ptr, direct, zero] at used
    have entry : (d.block (ip.addr ndirect).toNat).word (bn - ndirect) ≠ 0 := by
      intro zero
      simp [Disk.ptr, direct, there, zero] at used
    rw [bmap_of_indirect direct (by omega), addrOrAlloc, if_neg there]
    apply Prog.bind_eq_some.mpr
    refine ⟨_, d, rfl, ?_⟩
    apply Prog.bind_eq_some.mpr
    refine ⟨d, d, rfl, ?_⟩
    simp [entry, Disk.ptr, direct, there]

theorem readLoop_eq {fuel k off n : Nat} (enough : n ≤ fuel) (shape : Shape d ip k)
    (h : off + n ≤ k * bsize) :
    readLoop sb fuel ip off n d =
      some (((List.range n).map fun x => d.byteAt ip (off + x), ip), d) := by
  induction fuel generalizing off n with
  | zero =>
    obtain rfl := Nat.le_zero.mp enough
    rfl
  | succ fuel ih =>
    rw [readLoop]
    by_cases empty : n = 0
    · subst empty
      rfl
    rw [if_neg empty]
    have low := Nat.mod_lt off (by decide : 0 < bsize)
    apply Prog.bind_eq_some.mpr
    refine ⟨_, d, bmap_old shape (div_lt_of_lt_mul (by omega)), ?_⟩
    apply Prog.bind_eq_some.mpr
    refine ⟨d, d, rfl, ?_⟩
    generalize m_eq : min n (bsize - off % bsize) = m
    apply Prog.bind_eq_some.mpr
    refine ⟨_, d, ih (by omega) (by omega), ?_⟩
    rw [Prog.pure_eq_some]
    refine ⟨?_, rfl⟩
    have length : m + (n - m) = n := by omega
    have head : (d.fileBlock ip (off / bsize)).slice (off % bsize) m =
        (List.range m).map fun x => d.byteAt ip (off + x) := by
      apply List.map_congr_left
      intro x hx
      have lt := List.mem_range.mp hx
      have split := Nat.div_add_mod off bsize
      have block : (off + x) / bsize = off / bsize := by
        apply Nat.div_eq_of_lt_le
        · rw [Nat.mul_comm]; omega
        · rw [Nat.add_mul, Nat.mul_comm]; omega
      have offset : (off + x) % bsize = off % bsize + x := by
        have split' := Nat.div_add_mod (off + x) bsize
        rw [block] at split'
        omega
      rw [Disk.byteAt, block, offset]
    have tail : ((List.range (n - m)).map fun x => d.byteAt ip (off + m + x)) =
        (List.range (n - m)).map fun x => d.byteAt ip (off + (m + x)) := by
      simp only [Nat.add_assoc]
    have range : List.range n = List.range m ++ (List.range (n - m)).map (m + ·) := by
      rw [← List.range_add, length]
    rw [range, List.map_append, List.map_map]
    exact congrArg (·, ip) (congrArg₂ (· ++ ·) head tail)

end Xv6.Fs
