import Xv6.Vm.Launch

/-! exec.c: a long argument takes the stack pointer round to addresses that have
no page table. There uva2ka() takes the word at address 0 of the caller for the
entry, and exec() may write to any page. -/

namespace Xv6.Vm
open Lib

/-! ## Lookups -/

/-- A call of copyout() looks up the page at `x`, and the memory is then `m'`. -/
inductive Looks (cur pgdir : Addr) : Addr → List UInt8 → Machine → Addr → Machine → Prop
  | here {va : Addr} {bytes : List UInt8} {m : Machine} (more : bytes ≠ []) :
      Looks cur pgdir va bytes m (pgrounddown va) m
  | next {va pa x : Addr} {bytes : List UInt8} {m m₁ m' : Machine} (more : bytes ≠ [])
      (found : uva2ka cur pgdir (pgrounddown va) m = some (pa, m₁)) (nonzero : pa ≠ 0)
      (rest : let off := (va - pgrounddown va).toNat
        let n := min (4096 - off) bytes.length
        Looks cur pgdir (pgrounddown va + 4096) (bytes.drop n)
          (m₁.write pa ((m₁.mem pa).splice off (bytes.take n))) x m') :
      Looks cur pgdir va bytes m x m'

/-- The calls of copyout() with which exec() fills the stack: one for each
string, as long as they succeed, and one for the words. -/
inductive Copies (cur pgdir : Addr) :
    List (List UInt8) → Addr → List UInt32 → Machine → Addr → List UInt8 → Machine → Prop
  | string {arg : List UInt8} {args : List (List UInt8)} {sp : Addr} {ustack : List UInt32}
      {m : Machine} (few : ustack.length < maxarg) :
      Copies cur pgdir (arg :: args) sp ustack m (place sp arg.length) (arg ++ [0]) m
  | later {arg bytes : List UInt8} {args : List (List UInt8)} {sp va : Addr} {ustack : List UInt32}
      {m m₁ m' : Machine} (few : ustack.length < maxarg)
      (copied : copyout cur pgdir (place sp arg.length) (arg ++ [0]) m = some (true, m₁))
      (rest : Copies cur pgdir args (place sp arg.length) (ustack ++ [place sp arg.length]) m₁
        va bytes m') :
      Copies cur pgdir (arg :: args) sp ustack m va bytes m'
  | words {sp argc : Addr} {ustack : List UInt32} {m : Machine}
      (count : argc = UInt32.ofNat ustack.length) :
      Copies cur pgdir [] sp ustack m (sp - (3 + argc + 1) * 4)
        (bytesOf ([0xffffffff, argc, sp - (argc + 1) * 4] ++ ustack ++ [0])) m

/-- The calls of copyout() that exec() makes. -/
def ExecCopies (k : Symbols) (s : State) (me : Slot) (file : Option Program)
    (argv : List (List UInt8)) (dir va : Addr) (bytes : List UInt8) (m : Machine) : Prop :=
  ∃ prog m₁ sz m₂, file = some prog ∧ prog.magic = elfMagic ∧ setupkvm k s.machine = some (dir, m₁) ∧
    dir ≠ 0 ∧ prepare k prog dir m₁ = some (some sz, m₂) ∧
    Copies (s.proc me).pgdir dir argv sz [] m₂ va bytes m

/-- The page has an entry or the copy fails here, and what is written to is a
page of the user's. -/
def Backed (cur dir x : Addr) (m : Machine) : Prop :=
  (table m.mem dir (pageOf x / 1024) ≠ none ∨ uva2ka cur dir x m = some (0, m)) ∧
  ∀ pa m', uva2ka cur dir x m = some (pa, m') → pa ≠ 0 →
    leaf m.mem dir (pageOf x) = some pa ∧ pte m.mem dir (pageOf x) &&& pteU ≠ 0

section lookups
variable {k : Symbols} {m m' : Machine} {R T : Multiset Addr} {dir cur sz sp va x : Addr}
  {bytes : List UInt8} {args : List (List UInt8)} {ustack : List UInt32}

theorem backed_of_table (there : table m.mem dir (pageOf x / 1024) ≠ none) : Backed cur dir x m := by
  refine ⟨.inl there, fun pa m' found nonzero => ?_⟩
  rw [uva2ka_table there, Option.some.injEq, Prod.mk.injEq] at found
  by_cases absent : pte m.mem dir (pageOf x) &&& pteP = 0
  · rw [if_pos absent] at found
    exact absurd found.1.symm nonzero
  by_cases hidden : pte m.mem dir (pageOf x) &&& pteU = 0
  · rw [if_neg absent, if_pos hidden] at found
    exact absurd found.1.symm nonzero
  · rw [if_neg absent, if_neg hidden] at found
    exact ⟨by rw [leaf, entry, if_pos absent, found.1], hidden⟩

theorem backed_of_zero (found : uva2ka cur dir x m = some (0, m)) : Backed cur dir x m := by
  refine ⟨.inr found, fun pa m' found' nonzero => ?_⟩
  rw [found, Option.some.injEq, Prod.mk.injEq] at found'
  exact absurd found'.1.symm nonzero

theorem Looks.of_nil (looks : Looks cur dir va [] m x m') : Backed cur dir x m' := by
  cases looks with
  | here more => exact absurd rfl more
  | next more => exact absurd rfl more

/-- Below the end of the program there is a table everywhere. -/
theorem Looks.low (looks : Looks cur dir va bytes m x m') (space : Space k m dir R T)
    (stacked : Stacked m.mem dir sz) (within : va.toNat + bytes.length ≤ sz.toNat) :
    Backed cur dir x m' := by
  have whole := stacked.whole
  have small := stacked.small
  induction looks with
  | here more =>
    have some_bytes := List.length_pos_iff.mpr more
    apply backed_of_table
    rw [pageOf_pgrounddown]
    apply stacked.table_some
    unfold pageOf
    omega
  | @next va pa x bytes m m₁ m' more found nonzero rest ih =>
    have some_bytes := List.length_pos_iff.mpr more
    have inside : pageOf va < sz.toNat / 4096 := by
      unfold pageOf
      omega
    have user : pageOf va < userPages := by
      unfold pageOf userPages
      omega
    have there : table m.mem dir (pageOf (pgrounddown va) / 1024) ≠ none := by
      rw [pageOf_pgrounddown]
      exact stacked.table_some inside
    obtain rfl : m₁ = m := by
      rw [uva2ka_table there, Option.some.injEq, Prod.mk.injEq] at found
      exact found.2.symm
    obtain ⟨at_va, _⟩ := (backed_of_table there).2 pa m₁ found nonzero
    rw [pageOf_pgrounddown] at at_va
    have off := toNat_within va
    have next : (pgrounddown va + 4096).toNat = 4096 * pageOf va + 4096 := by
      rw [toNat_next, toNat_pgrounddown]
      rw [toNat_pgrounddown]
      omega
    rw [off] at ih
    generalize part : min (4096 - va.toNat % 4096) bytes.length = c at ih
    have stored := write_bytes (va.toNat % 4096) (bytes.take c) space.split space.nodup user at_va
      (by rw [List.length_take]; omega)
    by_cases last : bytes.length ≤ c
    · dsimp only at rest
      rw [off, part, List.drop_eq_nil_of_le last] at rest
      exact rest.of_nil
    · apply ih (space.of_keeps stored.toKeeps) (stacked.congr stored.same stored.ptes)
      rw [next, List.length_drop]
      unfold pageOf
      omega

/-- In the upper half the first lookup is the last. -/
theorem Looks.upper (looks : Looks cur dir va bytes m x m') (half : Half m.mem dir)
    (high : 2147483648 ≤ va.toNat) (guard : InHole va → Refuses m.mem cur) : Backed cur dir x m' := by
  have refused := uva2ka_upper half high guard
  cases looks with
  | here more => exact backed_of_zero refused
  | next more found nonzero =>
    rw [refused, Option.some.injEq, Prod.mk.injEq] at found
    exact absurd found.1.symm nonzero

theorem Copies.backed (copies : Copies cur dir args sp ustack m va bytes m')
    (space : Space k m dir R T) (stacked : Stacked m.mem dir sz)
    (low : sz.toNat ≤ sp.toNat + 4096) (high : sp.toNat ≤ sz.toNat)
    (few : ustack.length + args.length ≤ maxarg) (short : ∀ arg ∈ args, arg.length < 2147483648)
    (mine : ∀ q ∈ pages m.mem cur, q ∈ R) (guard : Clear sz sp args ∨ Refuses m.mem cur)
    {m₁ : Machine} (looks : Looks cur dir va bytes m' x m₁) : Backed cur dir x m₁ := by
  have room := stacked.room
  induction copies with
  | @string arg args sp ustack m _ =>
    have length : (arg ++ [0]).length = arg.length + 1 := by simp
    have less := short arg (List.mem_cons_self ..)
    obtain ⟨under, _⟩ | above := place_cases low high room stacked.whole stacked.small less
    · exact looks.low space stacked (by omega)
    · exact looks.upper stacked.toHalf above fun hole => guard.resolve_left fun clear => clear.1 hole
  | @later arg bytes args sp va ustack m m₂ m' _ copied rest ih =>
    obtain ⟨ok, m₃, copied', keeps, stacked', fits, _⟩ := copyout_string cur space stacked low high
      (short arg (List.mem_cons_self ..)) fun hole => guard.resolve_left fun clear => clear.1 hole
    rw [copied, Option.some.injEq, Prod.mk.injEq] at copied'
    obtain ⟨rfl, rfl⟩ := copied'
    have inside := fits.mp rfl
    have same q (held : q ∈ pages m.mem cur) := keeps.frame q (mine q held)
    rw [List.length_cons] at few
    refine ih (space.of_keeps keeps) stacked' inside.1 (Nat.le_of_lt inside.2) ?_
      (fun arg' mem => short arg' (List.mem_cons_of_mem _ mem))
      (by rwa [pages_congr (view_congr same).1 (view_congr same).2.1])
      (guard.imp (fun clear => clear.2 inside) fun refuses => refuses.congr same) looks
    rw [List.length_append, List.length_singleton]
    omega
  | @words sp argc ustack m count =>
    subst count
    have many : ustack.length ≤ 32 := few
    have size : (UInt32.ofNat (4 * (ustack.length + 4))).toNat = 4 * (ustack.length + 4) :=
      toNat_ofNat_small (by omega)
    apply looks.low space stacked
    simp only [bytesOf_length, List.length_append, List.length_cons, List.length_nil]
    rw [(table_words sp many).1, UInt32.toNat_sub_of_le, size]
    · omega
    · rw [UInt32.le_iff_toNat_le, size]
      omega

/-- If a string's place is in the hole, copyout() looks there. -/
theorem copies_hole (cur : Addr) (ustack : List UInt32) (space : Space k m dir R T) (stacked : Stacked m.mem dir sz)
    (low : sz.toNat ≤ sp.toNat + 4096) (high : sp.toNat ≤ sz.toNat)
    (few : ustack.length + args.length ≤ maxarg) (short : ∀ arg ∈ args, arg.length < 2147483648)
    (reached : ¬ Clear sz sp args) :
    ∃ va bytes m', Copies cur dir args sp ustack m va bytes m' ∧ bytes ≠ [] ∧
      table m'.mem dir (pageOf va / 1024) = none ∧ ∀ q ∈ R, m'.mem q = m.mem q := by
  induction args generalizing m sp ustack with
  | nil => exact absurd trivial reached
  | cons arg args ih =>
    rw [List.length_cons] at few
    by_cases hole : InHole (place sp arg.length)
    · refine ⟨_, _, m, .string (by omega), by simp, ?_, fun _ _ => rfl⟩
      have stop : (0x8E000000 : UInt32).toNat = 2382364672 := rfl
      have start : devspace.toNat = 4261412864 := rfl
      obtain ⟨ge, lt⟩ := hole
      rw [UInt32.le_iff_toNat_le, stop] at ge
      rw [UInt32.lt_iff_toNat_lt, start] at lt
      apply stacked.hole
      · unfold pageOf
        omega
      · unfold pageOf
        omega
    · obtain ⟨ok, m₁, copied, keeps, stacked₁, fits, _⟩ := copyout_string cur space stacked low high
        (short arg (List.mem_cons_self ..)) fun yes => absurd yes hole
      rw [Clear, not_and] at reached
      obtain ⟨inside, further⟩ := Classical.not_imp.mp (reached hole)
      obtain rfl := fits.mpr inside
      obtain ⟨va, bytes, m', copies, more, absent, frame⟩ := ih (ustack ++ [place sp arg.length])
        (space.of_keeps keeps) stacked₁ inside.1 (Nat.le_of_lt inside.2)
        (by rw [List.length_append, List.length_singleton]; omega)
        (fun arg' mem => short arg' (List.mem_cons_of_mem _ mem)) further
      refine ⟨va, bytes, m', .later (by omega) copied copies, more, absent, fun q other => ?_⟩
      rw [frame q other, keeps.frame q other]

/-- A lookup in the hole goes wrong unless the caller's word stops it. -/
theorem refuses_of_backed (absent : table m.mem dir (pageOf x / 1024) = none)
    (backed : Backed cur dir x m) : Refuses m.mem cur := by
  have zero := backed.1.resolve_left (not_not.mpr absent)
  cases at_0 : leaf m.mem cur 0 with
  | none =>
    simp only [uva2ka, bind, Prog.get, walkpgdir_find, absent, Option.map_none, nullWord, at_0] at zero
    cases zero
  | some page =>
    refine ⟨page, at_0, ?_⟩
    rw [uva2ka_hole absent at_0, Option.some.injEq, Prod.mk.injEq] at zero
    by_cases clear : (m.mem page).word 0 &&& pteP = 0
    · exact .inl clear
    by_cases hidden : (m.mem page).word 0 &&& pteU = 0
    · exact .inr (.inl hidden)
    · rw [if_neg clear, if_neg hidden] at zero
      exact .inr (.inr zero.1)

end lookups

section exec
variable {k : Symbols} {s : State} {me : Slot} {R T : Multiset Addr} {file : List UInt8}
  {prog : Program} {argv : List (List UInt8)}

/-- When exec() comes to the arguments, the new space is in order and the
caller's is as it was. -/
theorem prepared_space {dir sz : Addr} {m₁ m₂ : Machine} (length : file.length < 4294967296)
    (caller : Space k s.machine (s.proc me).pgdir R T) (is : Program.ofFile file = some prog)
    (made : setupkvm k s.machine = some (dir, m₁)) (nonzero : dir ≠ 0)
    (prepared : prepare k prog dir m₁ = some (some sz, m₂)) :
    sz = imageSize prog ∧ Stacked m₂.mem dir sz ∧
      Space k m₂ dir (pages s.machine.mem (s.proc me).pgdir + R) T ∧
      ∀ q ∈ pages s.machine.mem (s.proc me).pgdir, m₂.mem q = s.machine.mem q := by
  obtain ⟨frame, ⟨zero, _⟩ | ⟨_, split, fresh⟩⟩ := setupkvm_spec caller.split caller.nodup made
  · exact absurd zero nonzero
  have space : Space k m₁ dir (pages s.machine.mem (s.proc me).pgdir + R) T :=
    ⟨split, caller.nodup, caller.valid⟩
  obtain ⟨r, m, prepared', keeps, result⟩ :=
    prepare_exact (ofFile_reads is) length space fresh.loading
  rw [prepared, Option.some.injEq, Prod.mk.injEq] at prepared'
  obtain ⟨rfl, rfl⟩ := prepared'
  obtain ⟨size, stacked, _⟩ := result sz rfl
  refine ⟨size, stacked, space.of_keeps keeps, fun q held => ?_⟩
  have other : q ∈ pages s.machine.mem (s.proc me).pgdir + R := Multiset.mem_add.mpr (.inl held)
  rw [keeps.frame q other, frame q other]

/-- With a string in the hole, and a word at address 0 that makes a page of it,
exec() looks up a page that has no entry. -/
theorem exec_unbacked (length : file.length < 4294967296)
    (caller : Space k s.machine (s.proc me).pgdir R T) (is : Program.ofFile file = some prog)
    (few : argv.length ≤ maxarg) (short : ∀ arg ∈ argv, arg.length < 2147483648)
    (ready : Ready k prog s.machine) (hole : ¬ Clear (imageSize prog) (imageSize prog) argv)
    (taken : ¬ Refuses s.machine.mem (s.proc me).pgdir) :
    ∃ dir va bytes m x m', ExecCopies k s me (Program.ofFile file) argv dir va bytes m ∧
      Looks (s.proc me).pgdir dir va bytes m x m' ∧ ¬ Backed (s.proc me).pgdir dir x m' := by
  obtain ⟨magic, dir, m₁, sz, m₂, made, nonzero, prepared⟩ := ready
  obtain ⟨rfl, stacked, space, same⟩ := prepared_space length caller is made nonzero prepared
  obtain ⟨va, bytes, m, copies, more, absent, frame⟩ := copies_hole (s.proc me).pgdir [] space stacked
    (Nat.le_add_right _ _) (Nat.le_refl _) (by rwa [List.length_nil, Nat.zero_add]) short hole
  refine ⟨dir, va, bytes, m, pgrounddown va, m,
    ⟨prog, m₁, _, m₂, is, magic, made, nonzero, prepared, copies⟩, .here more, fun backed => ?_⟩
  have refuses := refuses_of_backed (by rwa [pageOf_pgrounddown]) backed
  have unchanged q (held : q ∈ pages s.machine.mem (s.proc me).pgdir) :
      m.mem q = s.machine.mem q := by
    rw [frame q (Multiset.mem_add.mpr (.inl held)), same q held]
  apply taken
  apply refuses.congr
  rw [pages_frame unchanged]
  exact fun q held => (unchanged q held).symm

/-- The lookups of exec() are all backed by a page table, unless the program can
be loaded, a string's place is in the hole, and the caller's word at address 0
makes a page of it. -/
theorem lookups_backed_iff (length : file.length < 4294967296)
    (caller : Space k s.machine (s.proc me).pgdir R T) (small : (s.proc me).sz ≤ kernbase)
    (few : argv.length < maxarg) (fits : ∀ arg ∈ argv, arg.length < (s.proc me).sz.toNat) :
    (∀ dir va bytes m, ExecCopies k s me (Program.ofFile file) argv dir va bytes m →
      ∀ x m', Looks (s.proc me).pgdir dir va bytes m x m' → Backed (s.proc me).pgdir dir x m') ↔
    ∀ prog, Program.ofFile file = some prog → Ready k prog s.machine →
      Clear (imageSize prog) (imageSize prog) argv ∨ Refuses s.machine.mem (s.proc me).pgdir := by
  have base : kernbase.toNat = 2147483648 := rfl
  rw [UInt32.le_iff_toNat_le] at small
  have short (arg : List UInt8) (mem : arg ∈ argv) : arg.length < 2147483648 := by
    have := fits arg mem
    omega
  constructor
  · intro backed prog is ready
    by_contra bad
    rw [not_or] at bad
    obtain ⟨dir, va, bytes, m, x, m', copies, looks, unbacked⟩ :=
      exec_unbacked length caller is (Nat.le_of_lt few) short ready bad.1 bad.2
    exact unbacked (backed dir va bytes m copies x m' looks)
  · rintro guard dir va bytes m ⟨prog, m₁, sz, m₂, is, magic, made, nonzero, prepared, copies⟩ x m' looks
    obtain ⟨rfl, stacked, space, same⟩ := prepared_space length caller is made nonzero prepared
    refine copies.backed space stacked (Nat.le_add_right _ _) (Nat.le_refl _) ?_ short ?_ ?_ looks
    · rw [List.length_nil, Nat.zero_add]
      exact Nat.le_of_lt few
    · rw [pages_frame same]
      exact fun q held => Multiset.mem_add.mpr (.inl held)
    · exact (guard prog is ⟨magic, dir, m₁, _, m₂, made, nonzero, prepared⟩).imp_right
        fun refuses => refuses.congr same

end exec

theorem imageSize_bare (prog : Program) (bare : prog.phdrs = []) : imageSize prog = 8192 := by
  rw [imageSize, bare]
  rfl

theorem ls_lookups_backed : ∃ (s : State) (me : Slot) (T : Multiset Addr),
    Space smallKernel s.machine (s.proc me).pgdir ((s.proc me).kstack ::ₘ 0) T ∧
    (s.proc me).sz = 4096 ∧
    ∀ dir va bytes m,
      ExecCopies smallKernel s me (Program.ofFile bareElf) [[108, 115]] dir va bytes m →
      ∀ x m', Looks (s.proc me).pgdir dir va bytes m x m' → Backed (s.proc me).pgdir dir x m' := by
  obtain ⟨s, me, T, caller, _, size, _⟩ := running_process (by decide : 4096 < kernbase) (by decide)
  have backed := lookups_backed_iff (by decide : bareElf.length < 4294967296) caller
    (by rw [size]; decide) (by decide : ([[108, 115]] : List (List UInt8)).length < maxarg)
    (by rw [size]; decide)
  refine ⟨s, me, T, caller, size, backed.mpr ?_⟩
  rintro prog is _
  rw [bareElf_program, Option.some.injEq] at is
  rw [← is, imageSize_bare _ rfl]
  exact .inl (clear_of_shorter (by decide) (by decide) (by decide) (by decide) (by decide))

/-- A process of 33 MB that has stored the entry of a page at address 0: the next
one that kalloc() will return. -/
theorem hole_caller : ∃ (s : State) (me : Slot) (T : Multiset Addr) (page : Addr),
    Space smallKernel s.machine (s.proc me).pgdir ((s.proc me).kstack ::ₘ 0) T ∧
    (s.proc me).sz = 0x2100000 ∧ (s.proc me).state = .running ∧
    69 + ((pages s.machine.mem (s.proc me).pgdir).card + 1) ≤ T.card ∧
    leaf s.machine.mem (s.proc me).pgdir 0 = some page ∧
    (s.machine.mem page).word 0 = v2p s.machine.freelist ||| (pteW ||| pteU) ||| pteP := by
  have count : pageCount 0x2100000 = 8448 := by decide
  obtain ⟨s, me, T, caller, present, size, state, all, cost⟩ :=
    running_process (by decide : 0x2100000 < kernbase) (by decide)
  obtain ⟨page, at_0⟩ := Option.ne_none_iff_exists'.mp ((present 0 (by decide)).mpr (by rw [count]; decide))
  obtain ⟨keeps, tables, ptes⟩ := write_leaf caller.split caller.nodup (by decide) at_0
    ((s.machine.mem page).setWord 0 (v2p s.machine.freelist ||| (pteW ||| pteU) ||| pteP))
  refine ⟨{ s with machine := s.machine.write page _ }, me, T, page, caller.of_keeps keeps, size, state,
    ?_, ?_, ?_⟩
  · rw [pages_congr tables ptes]
    omega
  · rw [leaf, ptes]
    exact at_0
  · rw [Machine.write_self, Bytes.word_setWord_self _ (by decide)]
    rfl

/-- The length of an argument that goes to the last word of the hole. -/
def longLength : Nat := 33562627

theorem longLength_place : place 8192 longLength = 0xFDFFFFFC := by decide

theorem long_in_hole {arg : List UInt8} (length : arg.length = longLength) :
    ¬ Clear 8192 8192 [arg] := by
  rw [Clear, length, longLength_place]
  exact fun clear => clear.1 (by decide)

/-- The word makes a page of the hole. -/
theorem not_refuses {k : Symbols} {mem : Addr → Page} {cur page v : Addr} (valid : k.Valid v)
    (at_0 : leaf mem cur 0 = some page)
    (word : (mem page).word 0 = v2p v ||| (pteW ||| pteU) ||| pteP) : ¬ Refuses mem cur := by
  have made := entry_or valid.v2p_aligned (by decide : (pteW ||| pteU).toNat < 4096)
  rw [entry, if_pos (or_present _), Option.some.injEq] at made
  rintro ⟨page', at_0', bad⟩
  rw [at_0, Option.some.injEq] at at_0'
  rw [← at_0', word, made] at bad
  obtain absent | hidden | null := bad
  · exact or_present _ absent
  · exact or_user _ hidden
  · exact valid.ne_zero null

theorem hole_lookup_unbacked : ∃ (s : State) (me : Slot) (T : Multiset Addr) (arg : List UInt8),
    Space smallKernel s.machine (s.proc me).pgdir ((s.proc me).kstack ::ₘ 0) T ∧
    (s.proc me).sz = 0x2100000 ∧ 0 ∉ arg ∧ arg.length < (s.proc me).sz.toNat ∧
    ∃ dir va bytes m x m',
      ExecCopies smallKernel s me (Program.ofFile bareElf) [arg] dir va bytes m ∧
      Looks (s.proc me).pgdir dir va bytes m x m' ∧ ¬ Backed (s.proc me).pgdir dir x m' := by
  obtain ⟨s, me, T, page, caller, size, _, room, at_0, word⟩ := hole_caller
  obtain ⟨m₁, m₂, made, nonzero, prepared, space, _⟩ := prepare_bare
    ⟨elfMagic, 0, [], readFile bareElf⟩ rfl caller.split caller.nodup caller.valid
    (by rw [Multiset.card_add, Multiset.card_cons, Multiset.card_zero]; exact room)
  have valid := space.held_valid (mem_pages.mpr (.inl rfl))
  have length : (List.replicate longLength (0xFF : UInt8)).length = longLength := List.length_replicate
  refine ⟨s, me, T, List.replicate longLength 0xFF, caller, size,
    fun null => absurd (List.eq_of_mem_replicate null) (by decide), by rw [size, length]; decide, ?_⟩
  refine exec_unbacked (by decide) caller bareElf_program (by decide) ?_
    ⟨rfl, _, m₁, _, m₂, made, nonzero, prepared⟩ ?_ (not_refuses valid at_0 word)
  · intro arg mem
    rw [List.mem_singleton.mp mem, length]
    decide
  · rw [imageSize_bare _ rfl]
    exact long_in_hole length

/-! ## A directory that was written over -/

section panic
variable {k : Symbols} {m m' : Machine} {R T : Multiset Addr} {dir cur va : Addr}

end panic

/-! ## exec() as a whole -/

section survives
variable {k : Symbols} {s : State} {me : Slot} {R T : Multiset Addr} {file : List UInt8}
  {argv : List (List UInt8)}

end survives

end Xv6.Vm
