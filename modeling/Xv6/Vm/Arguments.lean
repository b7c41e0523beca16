import Xv6.Vm.UserMemory

/-! exec.c: the arguments of a new program go to its stack, one below the other,
and below them the words that main() finds. -/

namespace Xv6.Vm
open Lib

/-- Where exec() puts a string of `len` bytes and its terminator. -/
def place (sp : Addr) (len : Nat) : Addr := (sp - UInt32.ofNat (len + 1)) &&& ~~~3

/-- Where the strings go. -/
def places : Addr → List (List UInt8) → List Addr
  | _, [] => []
  | sp, arg :: args => place sp arg.length :: places (place sp arg.length) args

/-- The stack pointer behind them. -/
def bottom : Addr → List (List UInt8) → Addr
  | sp, [] => sp
  | sp, arg :: args => bottom (place sp arg.length) args

/-- The addresses between the kernel's memory and the devices, for which no
space has page tables. -/
def InHole (va : Addr) : Prop := 0x8E000000 ≤ va ∧ va < devspace

instance (va : Addr) : Decidable (InHole va) := inferInstanceAs (Decidable (_ ∧ _))

/-- In the stack page of a program of `sz` bytes. -/
def InStack (sz va : Addr) : Prop := sz.toNat ≤ va.toNat + 4096 ∧ va.toNat < sz.toNat

instance (sz va : Addr) : Decidable (InStack sz va) := inferInstanceAs (Decidable (_ ∧ _))

/-- No argument whose turn comes is put into the hole; it ends with the first
that is not in the stack page. -/
def Clear (sz : Addr) : Addr → List (List UInt8) → Prop
  | _, [] => True
  | sp, arg :: args =>
    let va := place sp arg.length
    ¬ InHole va ∧ (InStack sz va → Clear sz va args)

section place
variable {sp sz : Addr} {len : Nat}

/-- The stack pointer goes down by a multiple of 4 that the string just needs,
or round to the upper half. -/
theorem place_cases (low : sz.toNat ≤ sp.toNat + 4096) (high : sp.toNat ≤ sz.toNat)
    (room : 8192 ≤ sz.toNat) (whole : sz.toNat % 4096 = 0) (small : sz.toNat < 2147483648)
    (short : len < 2147483648) :
    ((place sp len).toNat + (len + 1) ≤ sp.toNat ∧ sp.toNat < (place sp len).toNat + (len + 1) + 4) ∨
      2147483648 ≤ (place sp len).toNat := by
  have size : (UInt32.ofNat (len + 1)).toNat = len + 1 := toNat_ofNat_small (by omega)
  have mask : (place sp len).toNat = 4 * ((sp - UInt32.ofNat (len + 1)).toNat / 4) := by
    rw [place, UInt32.toNat_and]
    exact and_high_mask (k := 2) (UInt32.toNat_lt _) (by decide)
  rw [mask, UInt32.toNat_sub, size]
  omega

/-- The same by the words that the string takes. -/
theorem place_words (sp : Addr) (len : Nat) (aligned : sp.toNat % 4 = 0) (short : len < 2147483648) :
    (place sp len).toNat + 4 * ((len + 4) / 4) = sp.toNat ∨
      (place sp len).toNat + 4 * ((len + 4) / 4) = sp.toNat + 4294967296 := by
  have bound := sp.toNat_lt
  have size : (UInt32.ofNat (len + 1)).toNat = len + 1 := toNat_ofNat_small (by omega)
  have mask : (place sp len).toNat = 4 * ((sp - UInt32.ofNat (len + 1)).toNat / 4) := by
    rw [place, UInt32.toNat_and]
    exact and_high_mask (k := 2) (UInt32.toNat_lt _) (by decide)
  rw [mask, UInt32.toNat_sub, size]
  omega

theorem piece_of_high {va : Addr} (high : 2147483648 ≤ va.toNat) (clear : ¬ InHole va) :
    KernelPiece (pageOf va / 1024) := by
  have bound := va.toNat_lt
  have stop : (0x8E000000 : UInt32).toNat = 2382364672 := rfl
  have start : devspace.toNat = 4261412864 := rfl
  rw [InHole, UInt32.le_iff_toNat_le, UInt32.lt_iff_toNat_lt, stop, start] at clear
  unfold KernelPiece pageOf
  omega

/-- Strings shorter than the program do not come to the hole. -/
theorem clear_of_shorter {args : List (List UInt8)} (low : sz.toNat ≤ sp.toNat + 4096)
    (high : sp.toNat ≤ sz.toNat) (aligned : sp.toNat % 4 = 0) (small : sz.toNat < 2147483648)
    (shorter : ∀ arg ∈ args, arg.length < sz.toNat) : Clear sz sp args := by
  have start : devspace.toNat = 4261412864 := rfl
  have stop : (0x8E000000 : UInt32).toNat = 2382364672 := rfl
  induction args generalizing sp with
  | nil => trivial
  | cons arg args ih =>
    have less := shorter arg (List.mem_cons_self ..)
    have bound := (place sp arg.length).toNat_lt
    have words := place_words sp arg.length aligned (by omega)
    refine ⟨?_, fun inside => ih inside.1 (Nat.le_of_lt inside.2) (by omega)
      fun arg' mem => shorter arg' (List.mem_cons_of_mem _ mem)⟩
    rintro ⟨ge, lt⟩
    rw [UInt32.le_iff_toNat_le, stop] at ge
    rw [UInt32.lt_iff_toNat_lt, start] at lt
    omega

/-- The bytes that the strings take, each rounded up to words. -/
def stringBytes : List (List UInt8) → Nat
  | [] => 0
  | arg :: args => 4 * ((arg.length + 4) / 4) + stringBytes args

theorem places_fit {args : List (List UInt8)} (low : sz.toNat ≤ sp.toNat + 4096)
    (high : sp.toNat ≤ sz.toNat) (aligned : sp.toNat % 4 = 0) (room : 8192 ≤ sz.toNat)
    (small : sz.toNat < 2147483648) (short : ∀ arg ∈ args, arg.length < 2147483648) :
    ((∀ va ∈ places sp args, InStack sz va) ↔ sz.toNat + stringBytes args ≤ sp.toNat + 4096) ∧
      ((∀ va ∈ places sp args, InStack sz va) →
        (bottom sp args).toNat + stringBytes args = sp.toNat) := by
  induction args generalizing sp with
  | nil => exact ⟨⟨fun _ => low, fun _ => List.forall_mem_nil _⟩, fun _ => rfl⟩
  | cons arg args ih =>
    rw [places, List.forall_mem_cons, stringBytes, bottom]
    have less := short arg (List.mem_cons_self ..)
    have bound := (place sp arg.length).toNat_lt
    have words := place_words sp arg.length aligned less
    by_cases inside : InStack sz (place sp arg.length)
    · have under := inside.2
      obtain ⟨all, total⟩ := ih inside.1 (by omega) (by omega)
        fun arg' mem => short arg' (List.mem_cons_of_mem _ mem)
      refine ⟨⟨fun fit => ?_, fun fit => ⟨inside, all.mpr (by omega)⟩⟩, fun fit => ?_⟩
      · have := all.mp fit.2
        omega
      · have := total fit.2
        omega
    · refine ⟨⟨fun fit => absurd fit.1 inside, fun fit => ?_⟩, fun fit => absurd fit.1 inside⟩
      exact absurd ⟨by omega, by omega⟩ inside

end place

/-- Strings in memory, the next always below the one before. -/
structure Strings (f : Nat → Option UInt8) (lo hi : Nat) (ps : List Addr) (args : List (List UInt8)) :
    Prop where
  count : ps.length = args.length
  reads : ∀ x ∈ ps.zip args, Reads f x.1.toNat (x.2 ++ [0])
  between : ∀ x ∈ ps.zip args, lo ≤ x.1.toNat ∧ x.1.toNat + (x.2.length + 1) ≤ hi
  apart : (ps.zip args).Pairwise fun x y => y.1.toNat + (y.2.length + 1) ≤ x.1.toNat

theorem Strings.nil (f : Nat → Option UInt8) (lo hi : Nat) : Strings f lo hi [] [] where
  count := rfl
  reads := List.forall_mem_nil _
  between := List.forall_mem_nil _
  apart := .nil

theorem Strings.cons {f : Nat → Option UInt8} {lo hi : Nat} {p : Addr} {ps : List Addr}
    {arg : List UInt8} {args : List (List UInt8)} (strings : Strings f lo p.toNat ps args)
    (first : Reads f p.toNat (arg ++ [0])) (low : lo ≤ p.toNat)
    (high : p.toNat + (arg.length + 1) ≤ hi) : Strings f lo hi (p :: ps) (arg :: args) where
  count := by rw [List.length_cons, List.length_cons, strings.count]
  reads := List.forall_mem_cons.mpr ⟨first, strings.reads⟩
  between := by
    refine List.forall_mem_cons.mpr ⟨⟨low, high⟩, fun x mem => ?_⟩
    obtain ⟨ge, le⟩ := strings.between x mem
    exact ⟨ge, by omega⟩
  apart := List.pairwise_cons.mpr ⟨fun x mem => (strings.between x mem).2, strings.apart⟩

theorem Strings.congr {f g : Nat → Option UInt8} {lo hi : Nat} {ps : List Addr}
    {args : List (List UInt8)} (strings : Strings f lo hi ps args)
    (same : ∀ a, lo ≤ a → a < hi → g a = f a) : Strings g lo hi ps args where
  count := strings.count
  reads x mem := by
    obtain ⟨ge, le⟩ := strings.between x mem
    have length : (x.2 ++ [0]).length = x.2.length + 1 := by simp
    exact (strings.reads x mem).congr fun a low high => same a (by omega) (by omega)
  between := strings.between
  apart := strings.apart

section push
variable {k : Symbols} {m m' : Machine} {R T : Multiset Addr} {dir cur sz sp va : Addr}

/-- The word at address 0 of the caller, which uva2ka() takes for the entry of a
page that has no table, makes it return 0. -/
def Refuses (mem : Addr → Page) (cur : Addr) : Prop :=
  ∃ page, leaf mem cur 0 = some page ∧
    ((mem page).word 0 &&& pteP = 0 ∨ (mem page).word 0 &&& pteU = 0 ∨
      p2v (pteAddr ((mem page).word 0)) = 0)

theorem Refuses.congr {mem mem' : Addr → Page} (refuses : Refuses mem cur)
    (same : ∀ q ∈ pages mem cur, mem' q = mem q) : Refuses mem' cur := by
  obtain ⟨page, at_0, word⟩ := refuses
  refine ⟨page, ?_, ?_⟩
  · rw [leaf, (view_congr same).2.1]
    exact at_0
  · rwa [same page (mem_pages.mpr (.inr (.inr ⟨0, by decide, at_0⟩)))]

theorem uva2ka_refuses {uva : Addr} (absent : table m.mem dir (pageOf uva / 1024) = none)
    (refuses : Refuses m.mem cur) : uva2ka cur dir uva m = some (0, m) := by
  obtain ⟨page, at_0, word⟩ := refuses
  rw [uva2ka_hole absent at_0]
  obtain absent | hidden | null := word
  · rw [if_pos absent]
  · rw [if_pos hidden, ite_self]
  · rw [null, ite_self, ite_self]

/-- The upper half of a space is refused. -/
theorem uva2ka_upper (half : Half m.mem dir) (high : 2147483648 ≤ va.toNat)
    (guard : InHole va → Refuses m.mem cur) :
    uva2ka cur dir (pgrounddown va) m = some (0, m) := by
  by_cases there : table m.mem dir (pageOf va / 1024) = none
  · apply uva2ka_refuses
    · rwa [pageOf_pgrounddown]
    · apply guard
      by_contra clear
      exact half.complete _ (piece_of_high high clear) there
  · rw [uva2ka_table (by rwa [pageOf_pgrounddown]), pageOf_pgrounddown]
    cases at_va : leaf m.mem dir (pageOf va) with
    | none => rw [if_pos (entry_eq_none_iff.mp at_va)]
    | some q =>
      rw [if_pos (half.hidden _ q _ at_va), ite_self]
      unfold userPages pageOf
      omega

theorem copyout_upper {bytes : List UInt8} (half : Half m.mem dir) (high : 2147483648 ≤ va.toNat)
    (guard : InHole va → Refuses m.mem cur) (more : bytes ≠ []) :
    copyout cur dir va bytes m = some (false, m) := by
  simp only [copyout, copyoutLoop, more, ↓reduceIte, bind, uva2ka_upper half high guard]
  rfl

/-- A string is copied if and only if its place is in the stack page. -/
theorem copyout_string (cur : Addr) {arg : List UInt8} (space : Space k m dir R T) (stacked : Stacked m.mem dir sz)
    (low : sz.toNat ≤ sp.toNat + 4096) (high : sp.toNat ≤ sz.toNat) (short : arg.length < 2147483648)
    (guard : InHole (place sp arg.length) → Refuses m.mem cur) :
    ∃ ok m', copyout cur dir (place sp arg.length) (arg ++ [0]) m = some (ok, m') ∧
      Keeps k m m' dir R T ∧ Stacked m'.mem dir sz ∧
      (ok = true ↔ InStack sz (place sp arg.length)) ∧
      (ok = true → (place sp arg.length).toNat + (arg.length + 1) ≤ sp.toNat ∧
        Stored k m m' dir R T
          (overlay (userByte m.mem dir) (place sp arg.length).toNat (arg ++ [0]))) := by
  have length : (arg ++ [0]).length = arg.length + 1 := by simp
  have more : arg ++ [0] ≠ [] := by simp
  obtain ⟨under, tight⟩ | above :=
    place_cases low high stacked.room stacked.whole stacked.small short
  · by_cases fits : sz.toNat ≤ (place sp arg.length).toNat + 4096
    · obtain ⟨m', run, stored⟩ := copyout_fits cur (arg ++ [0]) space stacked fits
        (by omega)
      exact ⟨true, m', run, stored.toKeeps, stacked.congr stored.same stored.ptes,
        ⟨fun _ => ⟨fits, by omega⟩, fun _ => rfl⟩, fun _ => ⟨under, stored⟩⟩
    · obtain ⟨m', run, keeps, stacked'⟩ := copyoutLoop_low cur (place sp arg.length)
        space stacked more (by omega) (by omega) (Nat.lt_succ_self _)
      refine ⟨false, m', run, keeps, stacked', ?_, fun no => absurd no Bool.false_ne_true⟩
      exact ⟨fun no => absurd no Bool.false_ne_true, fun inside => absurd inside.1 fits⟩
  · have small := stacked.small
    refine ⟨false, m, copyout_upper stacked.toHalf above guard more,
      .refl space.split, stacked, ?_, fun no => absurd no Bool.false_ne_true⟩
    refine ⟨fun no => absurd no Bool.false_ne_true, fun inside => ?_⟩
    have under := inside.2
    omega

/-- All strings go to the stack page, or exec() fails. -/
theorem pushArgs_exact (cur : Addr) {args : List (List UInt8)} (ustack : List UInt32)
    (space : Space k m dir R T)
    (stacked : Stacked m.mem dir sz) (low : sz.toNat ≤ sp.toNat + 4096) (high : sp.toNat ≤ sz.toNat)
    (short : ∀ arg ∈ args, arg.length < 2147483648) (mine : ∀ q ∈ pages m.mem cur, q ∈ R)
    (guard : Clear sz sp (args.take (maxarg - ustack.length)) ∨ Refuses m.mem cur) :
    ∃ r m', pushArgs cur dir args sp ustack m = some (r, m') ∧ Keeps k m m' dir R T ∧
      Stacked m'.mem dir sz ∧
      ((r = none ∧ ((∃ va ∈ places sp args, ¬ InStack sz va) ∨ maxarg < ustack.length + args.length)) ∨
       (r = some (bottom sp args, ustack ++ places sp args) ∧ (∀ va ∈ places sp args, InStack sz va) ∧
        (args ≠ [] → ustack.length + args.length ≤ maxarg) ∧ pte m'.mem dir = pte m.mem dir ∧
        sz.toNat ≤ (bottom sp args).toNat + 4096 ∧ (bottom sp args).toNat ≤ sp.toNat ∧
        (∀ a, a < 2147483648 → a < (bottom sp args).toNat ∨ sp.toNat ≤ a →
          userByte m'.mem dir a = userByte m.mem dir a) ∧
        Strings (userByte m'.mem dir) (bottom sp args).toNat sp.toNat (places sp args) args)) := by
  induction args generalizing m sp ustack with
  | nil =>
    refine ⟨_, m, rfl, .refl space.split, stacked, .inr ⟨by rw [places, List.append_nil]; rfl, ?_,
      fun no => absurd rfl no, rfl, low, Nat.le_refl _, fun _ _ _ => rfl, .nil ..⟩⟩
    exact List.forall_mem_nil _
  | cons arg args ih =>
    by_cases many : ustack.length ≥ maxarg
    · refine ⟨none, m, by rw [pushArgs, if_pos many]; rfl, .refl space.split, stacked,
        .inl ⟨rfl, .inr (by rw [List.length_cons]; omega)⟩⟩
    obtain ⟨left, taken⟩ : ∃ left, maxarg - ustack.length = left + 1 := ⟨_, (Nat.succ_pred (by omega)).symm⟩
    rw [taken, List.take_succ_cons] at guard
    obtain ⟨ok, m₁, copied, keeps, stacked₁, fits, result⟩ := copyout_string cur space stacked
      low high (short arg (List.mem_cons_self ..)) fun hole => guard.resolve_left fun clear =>
        clear.1 hole
    have step : pushArgs cur dir (arg :: args) sp ustack m =
        if ok = true then pushArgs cur dir args (place sp arg.length)
          (ustack ++ [place sp arg.length]) m₁
        else some (none, m₁) := by
      rw [pushArgs, if_neg many]
      simp only [bind]
      rw [show copyout cur dir ((sp - UInt32.ofNat (arg.length + 1)) &&& ~~~3) (arg ++ [0]) m =
        some (ok, m₁) from copied]
      cases ok with
      | false => rfl
      | true => rfl
    cases ok with
    | false =>
      refine ⟨none, m₁, by rw [step, if_neg Bool.false_ne_true], keeps, stacked₁, .inl ⟨rfl, .inl ?_⟩⟩
      refine ⟨_, List.mem_cons_self .., fun inside => ?_⟩
      exact absurd (fits.mpr inside) Bool.false_ne_true
    | true =>
      have inside := fits.mp rfl
      obtain ⟨under, stored⟩ := result rfl
      have same q (mem : q ∈ pages m.mem cur) := keeps.frame q (mine q mem)
      have rest : left = maxarg - (ustack ++ [place sp arg.length]).length := by
        rw [List.length_append, List.length_singleton]
        omega
      obtain ⟨r, m', run, keeps', stacked', outcome⟩ := ih (ustack ++ [place sp arg.length])
        (space.of_keeps keeps) stacked₁ inside.1 (by have := inside.2; omega)
        (fun arg' mem => short arg' (List.mem_cons_of_mem _ mem))
        (by rwa [pages_congr (view_congr same).1 (view_congr same).2.1])
        (guard.imp (fun clear => rest ▸ clear.2 inside) fun refuses => refuses.congr same)
      refine ⟨r, m', by rw [step, if_pos rfl, run], keeps.trans keeps', stacked', ?_⟩
      rw [List.length_append, List.length_singleton] at outcome
      obtain ⟨failed, ⟨va, mem, outside⟩ | many'⟩ | ⟨done, all, few, ptes, low', high', below, strings⟩ :=
        outcome
      · exact .inl ⟨failed, .inl ⟨va, List.mem_cons_of_mem _ mem, outside⟩⟩
      · exact .inl ⟨failed, .inr (by rw [List.length_cons]; omega)⟩
      · have length : (arg ++ [0]).length = arg.length + 1 := by simp
        refine .inr ⟨?_, ?_, ?_, ptes.trans stored.ptes, low', by rw [bottom]; omega, ?_, ?_⟩
        · rw [done, bottom, places, List.append_assoc, List.singleton_append]
        · intro va mem
          rw [places, List.mem_cons] at mem
          obtain rfl | mem := mem
          · exact inside
          · exact all va mem
        · intro _
          by_cases last : args = []
          · rw [last, List.length_singleton]
            omega
          · have := few last
            rw [List.length_cons]
            omega
        · intro a user outside
          rw [bottom] at outside
          rw [below a user (by omega), stored.bytes a user, overlay_outside (by omega)]
        · have small := stacked.small
          refine strings.cons ?_ high' under
          apply (reads_overlay _ _ _).congr
          intro a ge lt
          rw [below a (by omega) (.inr ge), stored.bytes a (by omega)]

/-! ## The words that main() finds -/

/-- exec() from the arguments to the commit. -/
def pushStack (cur pgdir : Addr) (entry : UInt32) (argv : List (List UInt8)) (sz : Addr) :
    Prog Machine (Option Image) := do
  match ← pushArgs cur pgdir argv sz [] with
  | none => pure none
  | some (sp, ustack) => do
    let argc := UInt32.ofNat ustack.length
    let words := [0xffffffff, argc, sp - (argc + 1) * 4] ++ ustack ++ [0]
    let sp := sp - (3 + argc + 1) * 4
    if ← copyout cur pgdir sp (bytesOf words) then
      pure (some ⟨pgdir, sz, entry, sp⟩)
    else
      pure none

/-- The new stack pointer. -/
def stackTop (sz : Addr) (argv : List (List UInt8)) : Addr :=
  bottom sz argv - UInt32.ofNat (4 * (argv.length + 4))

/-- The strings and the words all go to the stack page. -/
def AllFit (sz : Addr) (argv : List (List UInt8)) : Prop :=
  (∀ va ∈ places sz argv, InStack sz va) ∧ InStack sz (stackTop sz argv)

instance (sz : Addr) (argv : List (List UInt8)) : Decidable (AllFit sz argv) :=
  inferInstanceAs (Decidable (_ ∧ _))

/-- What main() finds from the stack pointer on: a return address, the number of
arguments, the address of the pointers to them, the pointers and a 0. The
strings are above that, each below the one before. -/
def Layout (f : Nat → Option UInt8) (sz esp : Addr) (argv : List (List UInt8)) : Prop :=
  ∃ ps : List Addr,
    Reads f esp.toNat
      (bytesOf ([0xffffffff, UInt32.ofNat argv.length, esp + 12] ++ ps ++ [0])) ∧
    Strings f (esp.toNat + 4 * (argv.length + 4)) sz.toNat ps argv ∧
    sz.toNat ≤ esp.toNat + 4096 ∧ esp.toNat + 4 * (argv.length + 4) ≤ sz.toNat

/-- The bytes that the strings and the words take. -/
def stackBytes (argv : List (List UInt8)) : Nat := stringBytes argv + 4 * (argv.length + 4)

theorem allFit_iff {sz : Addr} {argv : List (List UInt8)} (whole : sz.toNat % 4096 = 0)
    (room : 8192 ≤ sz.toNat) (small : sz.toNat < 2147483648) (few : argv.length ≤ maxarg)
    (short : ∀ arg ∈ argv, arg.length < 2147483648) :
    AllFit sz argv ↔ stackBytes argv ≤ 4096 := by
  have many : argv.length ≤ 32 := few
  obtain ⟨all, total⟩ := places_fit (by omega) (Nat.le_refl sz.toNat) (by omega) room small short
  have size : (UInt32.ofNat (4 * (argv.length + 4))).toNat = 4 * (argv.length + 4) :=
    toNat_ofNat_small (by omega)
  have top : (stackTop sz argv).toNat =
      (4294967296 - 4 * (argv.length + 4) + (bottom sz argv).toNat) % 4294967296 := by
    rw [stackTop, UInt32.toNat_sub, size]
  have bound := (bottom sz argv).toNat_lt
  unfold AllFit InStack stackBytes
  constructor
  · rintro ⟨fit, low, high⟩
    have := total fit
    omega
  · intro fits
    have fit := all.mpr (by omega)
    have := total fit
    exact ⟨fit, by omega, by omega⟩

theorem bytesOf_length (ws : List UInt32) : (bytesOf ws).length = 4 * ws.length := by
  simp [bytesOf, Nat.mul_comm]

theorem Layout.congr {f g : Nat → Option UInt8} {sz esp : Addr} {argv : List (List UInt8)}
    (layout : Layout f sz esp argv) (same : ∀ a, a < sz.toNat → g a = f a) : Layout g sz esp argv := by
  obtain ⟨ps, words, strings, low, high⟩ := layout
  refine ⟨ps, words.congr fun a _ lt => same a ?_, strings.congr fun a _ lt => same a lt, low, high⟩
  have count := strings.count
  simp only [bytesOf_length, List.length_append, List.length_cons, List.length_nil] at lt
  omega

theorem places_length (sp : Addr) (args : List (List UInt8)) :
    (places sp args).length = args.length := by
  induction args generalizing sp with
  | nil => rfl
  | cons arg args ih => rw [places, List.length_cons, List.length_cons, ih]

/-- The arithmetic of the stack pointer, for a table of at most 32 pointers. -/
theorem table_words (sp : Addr) {c : Nat} (few : c ≤ maxarg) :
    (3 + UInt32.ofNat c + 1) * 4 = UInt32.ofNat (4 * (c + 4)) ∧
      sp - (UInt32.ofNat c + 1) * 4 = sp - UInt32.ofNat (4 * (c + 4)) + 12 := by
  have many : c ≤ 32 := few
  have count : (UInt32.ofNat c).toNat = c := toNat_ofNat_small (by omega)
  have whole : (UInt32.ofNat (4 * (c + 4))).toNat = 4 * (c + 4) := toNat_ofNat_small (by omega)
  have three : (3 : UInt32).toNat = 3 := rfl
  have one : (1 : UInt32).toNat = 1 := rfl
  have four : (4 : UInt32).toNat = 4 := rfl
  have twelve : (12 : UInt32).toNat = 12 := rfl
  have bound := sp.toNat_lt
  constructor
  · apply UInt32.toNat.inj
    rw [UInt32.toNat_mul, UInt32.toNat_add, UInt32.toNat_add, count, whole, three, one, four]
    omega
  · have small : ((UInt32.ofNat c + 1) * 4).toNat = 4 * (c + 1) := by
      rw [UInt32.toNat_mul, UInt32.toNat_add, count, one, four]
      omega
    apply UInt32.toNat.inj
    rw [UInt32.toNat_add, UInt32.toNat_sub, UInt32.toNat_sub, small, whole, twelve]
    omega

theorem pushStack_exact {argv : List (List UInt8)} (space : Space k m dir R T)
    (stacked : Stacked m.mem dir sz) (short : ∀ arg ∈ argv, arg.length < 2147483648)
    (mine : ∀ q ∈ pages m.mem cur, q ∈ R)
    (guard : Clear sz sz (argv.take maxarg) ∨ Refuses m.mem cur) (entry : UInt32) :
    ∃ r m', pushStack cur dir entry argv sz m = some (r, m') ∧ Keeps k m m' dir R T ∧
      Stacked m'.mem dir sz ∧
      ((r = none ∧ ¬ (AllFit sz argv ∧ argv.length ≤ maxarg)) ∨
       (r = some ⟨dir, sz, entry, stackTop sz argv⟩ ∧ AllFit sz argv ∧ argv.length ≤ maxarg ∧
        pte m'.mem dir = pte m.mem dir ∧
        (∀ a, a < sz.toNat - 4096 → userByte m'.mem dir a = userByte m.mem dir a) ∧
        Layout (userByte m'.mem dir) sz (stackTop sz argv) argv)) := by
  have room := stacked.room
  have small := stacked.small
  obtain ⟨r, m₁, pushed, keeps, stacked₁, outcome⟩ := pushArgs_exact cur [] space
    stacked (by omega) (Nat.le_refl _) short mine guard
  rw [List.length_nil, Nat.zero_add] at outcome
  obtain ⟨rfl, failed⟩ | ⟨rfl, inside, few, ptes, low, high, below, strings⟩ := outcome
  · refine ⟨none, m₁, ?_, keeps, stacked₁, .inl ⟨rfl, ?_⟩⟩
    · simp only [pushStack, bind, pushed]
      rfl
    · rintro ⟨fit, few⟩
      obtain ⟨va, mem, outside⟩ | many := failed
      · exact outside (fit.1 va mem)
      · omega
  replace few : argv.length ≤ maxarg := by
    by_cases none : argv = []
    · rw [none]
      exact Nat.zero_le _
    · exact few none
  have many : argv.length ≤ 32 := few
  have length := places_length sz argv
  have whole : (UInt32.ofNat (4 * (argv.length + 4))).toNat = 4 * (argv.length + 4) :=
    toNat_ofNat_small (by omega)
  have top : (stackTop sz argv).toNat + 4 * (argv.length + 4) = (bottom sz argv).toNat := by
    rw [stackTop, UInt32.toNat_sub_of_le, whole]
    · omega
    · rw [UInt32.le_iff_toNat_le, whole]
      omega
  generalize words : ([0xffffffff, UInt32.ofNat argv.length, stackTop sz argv + 12] ++
    places sz argv ++ [0] : List UInt32) = ws
  have size : (bytesOf ws).length = 4 * (argv.length + 4) := by
    rw [bytesOf_length, ← words]
    simp only [List.length_append, List.length_cons, List.length_nil, length]
    omega
  have step (ok : Bool) (m' : Machine)
      (copied : copyout cur dir (stackTop sz argv) (bytesOf ws) m₁ = some (ok, m')) :
      pushStack cur dir entry argv sz m =
        some (if ok = true then some ⟨dir, sz, entry, stackTop sz argv⟩ else none, m') := by
    rw [← words] at copied
    obtain ⟨down, pointer⟩ := table_words (bottom sz argv) few
    simp only [pushStack, bind, pushed, List.nil_append, length, down, pointer]
    rw [show copyout cur dir (bottom sz argv - UInt32.ofNat (4 * (argv.length + 4)))
      (bytesOf ([0xffffffff, UInt32.ofNat argv.length,
        bottom sz argv - UInt32.ofNat (4 * (argv.length + 4)) + 12] ++ places sz argv ++ [0])) m₁ =
      some (ok, m') from copied]
    cases ok with
    | false => rfl
    | true => rfl
  by_cases fits : sz.toNat ≤ (stackTop sz argv).toNat + 4096
  · obtain ⟨m', copied, stored⟩ := copyout_fits cur (bytesOf ws)
      (space.of_keeps keeps) stacked₁ fits (by omega)
    refine ⟨_, m', step true m' copied, keeps.trans stored.toKeeps,
      stacked₁.congr stored.same stored.ptes,
      .inr ⟨rfl, ⟨inside, fits, by omega⟩, few, stored.ptes.trans ptes, ?_, places sz argv, ?_, ?_, fits,
        by omega⟩⟩
    · intro a lt
      rw [stored.bytes a (by omega), overlay_outside (.inl (by omega)), below a (by omega) (by omega)]
    · rw [words]
      apply (reads_overlay _ _ _).congr
      intro a _ lt
      exact stored.bytes a (by omega)
    · rw [top]
      apply strings.congr
      intro a ge lt
      rw [stored.bytes a (by omega), overlay_outside (.inr (by omega))]
  · have more : bytesOf ws ≠ [] := by
      rw [← List.length_pos_iff, size]
      omega
    obtain ⟨m', copied, keeps', stacked'⟩ := copyoutLoop_low cur (stackTop sz argv)
      (space.of_keeps keeps) stacked₁ more (by omega) (by omega)
      (Nat.lt_succ_self _)
    exact ⟨_, m', step false m' copied, keeps.trans keeps', stacked',
      .inl ⟨rfl, fun fit => fits fit.1.2.1⟩⟩

end push
end Xv6.Vm
