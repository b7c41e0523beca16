import Xv6.User.Malloc.Grow
import Xv6.Vm.Resize

/-! sys_sbrk() and growproc(), as far as a program can tell: the size of the process and
the memory it has. Whether the kernel finds the pages for a request is left open. -/

namespace Xv6.Malloc
open Lib
open Vm (kernbase pageCount)

structure Process where
  sz : UInt32
  /-- whether there are pages for the requests to come, one after the other -/
  pages : List Bool

/-- The size that comes from allocuvm() or deallocuvm(). -/
def resize (pages : Bool) (sz : UInt32) (n : Int32) : UInt32 :=
  if n > 0 then
    if sz + n.toUInt32 ≥ kernbase then 0
    else if sz + n.toUInt32 < sz then sz
    else if pages then sz + n.toUInt32
    else 0
  else if n < 0 then
    if sz + n.toUInt32 ≥ sz then sz else sz + n.toUInt32
  else sz

/-- New pages are full of zeros, and pages behind the size are gone. -/
def remap (mem : Nat → Option UInt8) (sz size : UInt32) (x : Nat) : Option UInt8 :=
  if x < 4096 * pageCount size then
    if x < 4096 * pageCount sz then mem x else some 0
  else none

def sbrk (n : UInt32) : Prog (World Process) UInt32 := fun w =>
  let size := resize (w.os.pages.headD false) w.os.sz n.toInt32
  let rest := w.os.pages.tail
  if n.toInt32 ≠ 0 ∧ size = 0 then
    -- deallocuvm() has left no page, so the call has nowhere to return to
    if n.toInt32 < 0 ∧ w.os.sz ≠ 0 then none
    else some (failed, { w with os := ⟨w.os.sz, rest⟩ })
  else some (w.os.sz, ⟨remap w.mem w.os.sz size, w.freep, ⟨size, rest⟩⟩)

/-! ## growproc() does the same to the pages -/

section pages
open Vm
variable {k : Symbols} {s : State} {R T : Multiset Addr} {me : Slot}

/-- What growproc() has made of the process is what `resize` gives, with some answer to
whether there are pages. -/
def Resizes (s s' : State) (me : Slot) (n r : Int32) (size : UInt32) : Prop :=
  let dir := (s.proc me).pgdir
  let sz := (s.proc me).sz
  (n ≠ 0 ∧ size = 0 ∧ r = -1 ∧ (s'.proc me).sz = sz ∧
    (0 < n.toInt → ∀ p, p < userPages → userPage s'.machine.mem dir p = userPage s.machine.mem dir p) ∧
    (n.toInt < 0 → Present s'.machine.mem dir 0)) ∨
  (¬ (n ≠ 0 ∧ size = 0) ∧ r = 0 ∧ (s'.proc me).sz = size ∧
    Present s'.machine.mem dir (pageCount size) ∧
    (∀ p, p < min (pageCount sz) (pageCount size) →
      userPage s'.machine.mem dir p = userPage s.machine.mem dir p) ∧
    ∀ p, pageCount sz ≤ p → p < pageCount size →
      ∃ e, userPage s'.machine.mem dir p = some (e, Bytes.zero))

theorem resize_pos {sz : UInt32} {n : Int32} (small : sz < kernbase) (more : 0 < n.toInt)
    (pages : Bool) :
    resize pages sz n =
      if sz + n.toUInt32 ≥ kernbase then 0 else if pages then sz + n.toUInt32 else 0 := by
  have base : kernbase.toNat = 2147483648 := rfl
  have below := UInt32.lt_iff_toNat_lt.mp small
  have bound := n.toInt_lt
  have sum := toNat_add_signed sz n
  have positive : n > 0 := Int32.lt_iff_toInt_lt.mpr more
  have order : ¬ sz + n.toUInt32 < sz := by
    rw [UInt32.lt_iff_toNat_lt]
    omega
  rw [resize, if_pos positive, if_neg order]

theorem resize_neg {sz : UInt32} {n : Int32} (less : n.toInt < 0) (pages : Bool) :
    resize pages sz n = if sz + n.toUInt32 ≥ sz then sz else sz + n.toUInt32 := by
  have zero : (0 : Int32).toInt = 0 := rfl
  have negative : n < 0 := Int32.lt_iff_toInt_lt.mpr less
  have not : ¬ n > 0 := Int32.not_lt.mpr (Int32.le_of_lt negative)
  rw [resize, if_neg not, if_pos negative]

/-- growproc() answers every request as `resize` does. -/
theorem growproc_resizes (space : Space k s.machine (s.proc me).pgdir R T)
    (present : Present s.machine.mem (s.proc me).pgdir (pageCount (s.proc me).sz))
    (small : (s.proc me).sz < kernbase) (real : (s.proc me).sz ≠ 0) (n : Int32) :
    ∃ pages r s', growproc k me n s = some (r, s') ∧
      Resizes s s' me n r (resize pages (s.proc me).sz n) := by
  have base : kernbase.toNat = 2147483648 := rfl
  have none : (0 : UInt32).toNat = 0 := rfl
  have below := UInt32.lt_iff_toNat_lt.mp small
  have sum := toNat_add_signed (s.proc me).sz n
  have nonzero (other : n.toInt ≠ 0) : n ≠ 0 := by
    rintro rfl
    exact other rfl
  obtain less | zero | more := lt_trichotomy n.toInt 0
  · have lower := n.le_toInt
    by_cases left : ((s.proc me).sz.toNat : Int) + n.toInt < 0
    · have above : (s.proc me).sz + n.toUInt32 ≥ (s.proc me).sz := by
        rw [ge_iff_le, UInt32.le_iff_toNat_le]
        omega
      refine ⟨true, 0, s, by rw [growproc_wraps small left, if_neg real], ?_⟩
      rw [resize_neg less, if_pos above]
      refine .inr ⟨fun both => real both.2, rfl, rfl, present, fun _ _ => rfl, fun p ge lt => ?_⟩
      exact absurd lt (Nat.not_lt.mpr ge)
    · have order : ¬ (s.proc me).sz + n.toUInt32 ≥ (s.proc me).sz := by
        rw [ge_iff_le, UInt32.le_iff_toNat_le]
        omega
      by_cases nothing : ((s.proc me).sz.toNat : Int) + n.toInt = 0
      · obtain ⟨s', run, same, bare⟩ := growproc_empties space present small less nothing
        refine ⟨true, -1, s', run, ?_⟩
        rw [resize_neg less, if_neg order]
        refine .inl ⟨nonzero (by omega), ?_, rfl, by rw [same], fun more => by omega, fun _ => bare⟩
        exact UInt32.toNat.inj (by omega)
      · obtain ⟨m', run, present', kept⟩ := resize_shrinks space present small less (by omega)
        have size : ¬ (n ≠ 0 ∧ (s.proc me).sz + n.toUInt32 = 0) := by
          rintro ⟨_, zero⟩
          rw [zero] at sum
          omega
        refine ⟨true, 0, _, by rw [growproc_eq run, if_neg size], ?_⟩
        rw [resize_neg less, if_neg order]
        refine .inr ⟨size, rfl, by rw [State.setProc_self], present', fun p lt => kept p (by omega), ?_⟩
        intro p ge lt
        have fewer : pageCount ((s.proc me).sz + n.toUInt32) ≤ pageCount (s.proc me).sz := by
          unfold pageCount
          omega
        omega
  · obtain rfl : n = 0 := Int32.toInt_inj.mp zero
    have run : Vm.resize k (s.proc me).pgdir (s.proc me).sz 0 s.machine =
        some ((s.proc me).sz, s.machine) := rfl
    refine ⟨true, 0, _, by rw [growproc_eq run, if_neg (fun no => no.1 rfl)], ?_⟩
    refine .inr ⟨fun no => no.1 rfl, rfl, by rw [State.setProc_self]; rfl, present,
      fun _ _ => rfl, fun p ge lt => ?_⟩
    exact absurd lt (Nat.not_lt.mpr ge)
  · obtain ⟨r, s', run, _, ⟨rfl, _, top, size, present', kept, fresh⟩ | ⟨rfl, size, kept⟩⟩ :=
      growproc_grows space present small more
    · have eq : (s'.proc me).sz = (s.proc me).sz + n.toUInt32 := UInt32.toNat.inj (by omega)
      have fits : ¬ (s.proc me).sz + n.toUInt32 ≥ kernbase := by
        rw [ge_iff_le, UInt32.le_iff_toNat_le]
        omega
      refine ⟨true, 0, s', run, ?_⟩
      rw [resize_pos small more, if_neg fits, if_pos rfl]
      rw [eq] at present' kept fresh
      refine .inr ⟨?_, rfl, eq, present', kept, fresh⟩
      rintro ⟨_, zero⟩
      rw [zero] at sum
      omega
    · refine ⟨false, -1, s', run, .inl ⟨nonzero (by omega), ?_, rfl, size, fun _ => kept,
        fun less => by omega⟩⟩
      rw [resize_pos small more, if_neg Bool.false_ne_true, ite_self]

theorem one_page_resizes : ∃ (s : State) (me : Slot) (T : Multiset Addr),
    Space smallKernel s.machine (s.proc me).pgdir 0 T ∧ (s.proc me).sz = 4096 ∧
    ∃ pages r s', growproc smallKernel me 100 s = some (r, s') ∧
      Resizes s s' me 100 r (resize pages (s.proc me).sz 100) := by
  obtain ⟨s, me, T, space, present, size⟩ := one_page_process
  exact ⟨s, me, T, space, size,
    growproc_resizes space present (by rw [size]; decide) (by rw [size]; decide) 100⟩

end pages

/-! ## The requirements of malloc() -/

variable {n : UInt32} {w w' : World Process}

/-- The process is smaller than the user part of the address space. It has no memory
behind its last page, and all of that page. -/
structure InOrder (w : World Process) : Prop where
  some : w.os.sz ≠ 0
  small : w.os.sz < kernbase
  behind : ∀ x, 4096 * pageCount w.os.sz ≤ x → w.mem x = none
  last : ∀ x, w.os.sz.toNat ≤ x → x < 4096 * pageCount w.os.sz → (w.mem x).isSome

theorem toInt_toInt32 (fits : n.toNat < 2 ^ 31) : n.toInt32.toInt = n.toNat := by
  have signed : n.toInt32.toInt = n.toBitVec.toInt := rfl
  rw [signed, BitVec.toInt_eq_toNat_cond]
  exact if_pos (by show 2 * n.toNat < 2 ^ 32; omega)

theorem sbrk_answers (order : InOrder w) (pos : 0 < n.toNat) (fits : n.toNat < 2 ^ 31) :
    ∃ a w', sbrk n w = some (a, w') ∧ InOrder w' ∧ Leaves (fun p => p.sz.toNat) w w' ∧
      (a = failed ∨ Granted (fun p => p.sz.toNat) w w' a n) := by
  have base : kernbase.toNat = 2147483648 := rfl
  have below := UInt32.lt_iff_toNat_lt.mp order.small
  have signed := toInt_toInt32 fits
  have nonzero : n.toInt32 ≠ 0 := by
    intro zero
    rw [zero] at signed
    have none : (0 : Int32).toInt = 0 := rfl
    omega
  have sum : (w.os.sz + n).toNat = w.os.sz.toNat + n.toNat := by
    rw [UInt32.toNat_add]
    exact Nat.mod_eq_of_lt (by omega)
  have size := resize_pos order.small (by omega : 0 < n.toInt32.toInt) (w.os.pages.headD false)
  have word : n.toInt32.toUInt32 = n := rfl
  rw [word] at size
  by_cases granted : w.os.sz + n < kernbase ∧ w.os.pages.headD false = true
  · obtain ⟨room, pages⟩ := granted
    have top := UInt32.lt_iff_toNat_lt.mp room
    rw [if_neg (UInt32.not_le.mpr room), if_pos pages] at size
    have some : ¬ (n.toInt32 ≠ 0 ∧ w.os.sz + n = 0) := by
      rintro ⟨_, zero⟩
      rw [zero] at sum
      have none : (0 : UInt32).toNat = 0 := rfl
      omega
    have more : 4096 * pageCount w.os.sz ≤ 4096 * pageCount (w.os.sz + n) := by
      unfold pageCount
      omega
    have first : w.os.sz.toNat ≤ 4096 * pageCount w.os.sz := by
      unfold pageCount
      omega
    have whole : (w.os.sz + n).toNat ≤ 4096 * pageCount (w.os.sz + n) := by
      unfold pageCount
      omega
    have there (x : Nat) (low : w.os.sz.toNat ≤ x) (high : x < 4096 * pageCount (w.os.sz + n)) :
        (remap w.mem w.os.sz (w.os.sz + n) x).isSome := by
      rw [remap, if_pos high]
      by_cases old : x < 4096 * pageCount w.os.sz
      · rw [if_pos old]
        exact order.last x low old
      · rw [if_neg old]
        rfl
    refine ⟨w.os.sz, ⟨remap w.mem w.os.sz (w.os.sz + n), w.freep, ⟨w.os.sz + n, w.os.pages.tail⟩⟩, ?_,
      ⟨fun zero => some ⟨nonzero, zero⟩, room, fun x behind => ?_, fun x low high => there x ?_ high⟩,
      ⟨rfl, ?_, fun x inside => ?_⟩, .inr ⟨Nat.le_refl _, ?_, ?_, fun x low high => there x low ?_⟩⟩
    · simp only [sbrk, size, if_neg some]
    · exact if_neg (Nat.not_lt.mpr behind)
    · have : (w.os.sz + n).toNat ≤ x := low
      omega
    · show w.os.sz.toNat ≤ (w.os.sz + n).toNat
      omega
    · have inside : x < w.os.sz.toNat := inside
      show remap w.mem w.os.sz (w.os.sz + n) x = w.mem x
      rw [remap, if_pos (by omega), if_pos (by omega)]
    · exact Nat.le_of_eq sum.symm
    · show (w.os.sz + n).toNat < 2 ^ 32
      omega
    · omega
  · have none : resize (w.os.pages.headD false) w.os.sz n.toInt32 = 0 := by
      rw [size]
      by_cases room : w.os.sz + n ≥ kernbase
      · rw [if_pos room]
      · rw [if_neg room, if_neg fun pages => granted ⟨UInt32.not_le.mp room, pages⟩]
    have up : ¬ (n.toInt32 < 0 ∧ w.os.sz ≠ 0) := by
      rintro ⟨less, _⟩
      have := Int32.lt_iff_toInt_lt.mp less
      have zero : (0 : Int32).toInt = 0 := rfl
      omega
    refine ⟨failed, { w with os := ⟨w.os.sz, w.os.pages.tail⟩ }, ?_,
      ⟨order.some, order.small, order.behind, order.last⟩, ⟨rfl, Nat.le_refl _, fun _ _ => rfl⟩, .inl rfl⟩
    simp only [sbrk, none, if_neg up]
    exact if_pos ⟨nonzero, trivial⟩

def processSbrk : Sbrk Process where
  run := sbrk
  top p := p.sz.toNat
  Sane := InOrder
  sane_of_mapped order os mapped := by
    refine ⟨os ▸ order.some, os ▸ order.small, fun x behind => ?_, fun x low high => ?_⟩
    · rw [os] at behind
      have gone := order.behind x behind
      rw [← Option.isNone_iff_eq_none, ← Option.not_isSome, mapped x, gone]
      decide
    · rw [os] at low high
      rw [mapped x]
      exact order.last x low high
  answers n w order pos fits := sbrk_answers order pos fits

end Xv6.Malloc
