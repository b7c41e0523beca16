import Xv6.Vm.Arguments
import Xv6.Vm.Boot
import Xv6.Vm.Processes
import Xv6.Vm.Segments

/-! exec.c as a whole: it comes back from every file, and the process then finds
the program's segments and its arguments in memory. -/

namespace Xv6.Vm
open Lib

/-- exec() from the program headers to the guard page. -/
def prepare (k : Symbols) (prog : Program) (pgdir : Addr) : Prog Machine (Option UInt32) := do
  match ← loadSegments k prog pgdir prog.phdrs 0 with
  | none => pure none
  | some sz => do
    let sz := pgroundup sz
    let sz ← allocuvm k pgdir sz (sz + 2 * 4096)
    if sz = 0 then
      pure none
    else do
      clearpteu pgdir (sz - 2 * 4096)
      pure (some sz)

theorem build_eq (k : Symbols) (cur : Addr) (prog : Program) (argv : List (List UInt8)) (pgdir : Addr)
    (m : Machine) :
    build k cur prog argv pgdir m =
      match prepare k prog pgdir m with
      | none => none
      | some (none, m') => some (none, m')
      | some (some sz, m') => pushStack cur pgdir prog.entry argv sz m' := by
  simp only [build, prepare, pushStack, bind]
  cases loadSegments k prog pgdir prog.phdrs 0 m with
  | none => rfl
  | some loaded =>
    obtain ⟨_ | sz, m₁⟩ := loaded
    · rfl
    dsimp only
    cases allocuvm k pgdir (pgroundup sz) (pgroundup sz + 2 * 4096) m₁ with
    | none => rfl
    | some grown =>
      obtain ⟨r, m₂⟩ := grown
      dsimp only
      by_cases zero : r = 0
      · simp only [zero, ↓reduceIte]
        rfl
      · simp only [zero, ↓reduceIte]
        cases clearpteu pgdir (r - 2 * 4096) m₂ with
        | none => rfl
        | some cleared => rfl

/-- The size of the program in memory, with the guard page and the stack. -/
def imageSize (prog : Program) : UInt32 := pgroundup (segmentsEnd prog.phdrs 0) + 2 * 4096

theorem imageSize_whole (prog : Program) : (imageSize prog).toNat % 4096 = 0 := by
  have low : (pgroundup (segmentsEnd prog.phdrs 0)).toNat % 4096 = 0 := aligned_pgroundup _
  have two : (2 * 4096 : UInt32).toNat = 8192 := rfl
  rw [imageSize, UInt32.toNat_add, two]
  omega

section prepare
variable {k : Symbols} {m m' : Machine} {R T : Multiset Addr} {dir cur sz : Addr} {file : List UInt8}
  {prog : Program}

theorem and_not_user (e : UInt32) : e &&& ~~~pteU &&& pteU = 0 := by
  rw [UInt32.and_assoc]
  exact UInt32.and_zero

/-- The page under the stack is taken from the user. -/
theorem clearpteu_exact (space : Space k m dir R T) (loading : Loading m.mem dir sz)
    (whole : sz.toNat % 4096 = 0) (room : 8192 ≤ sz.toNat) :
    ∃ m', clearpteu dir (sz - 2 * 4096) m = some ((), m') ∧ Keeps k m m' dir R T ∧
      Stacked m'.mem dir sz ∧
      ∀ a, a < 2147483648 → userByte m'.mem dir a = userByte m.mem dir a := by
  have base : kernbase.toNat = 2147483648 := rfl
  have two : (2 * 4096 : UInt32).toNat = 8192 := rfl
  have small := UInt32.lt_iff_toNat_lt.mp loading.small
  have guard : pageOf (sz - 2 * 4096) + 2 = sz.toNat / 4096 := by
    rw [pageOf, UInt32.toNat_sub_of_le _ _ (UInt32.le_iff_toNat_le.mpr (by rw [two]; exact room)), two]
    omega
  have count : pageCount sz = sz.toNat / 4096 := by
    unfold pageCount
    omega
  generalize sz - 2 * 4096 = uva at guard ⊢
  have user : pageOf uva < userPages := by
    unfold userPages
    omega
  have mapped := (loading.present _ user).mpr (by omega)
  obtain ⟨t, at_uva⟩ : ∃ t, table m.mem dir (pageOf uva / 1024) = some t := by
    apply Option.ne_none_iff_exists'.mp
    intro absent
    rw [leaf, pte_of_none absent, entry_zero] at mapped
    exact mapped rfl
  have parts := Multiset.nodup_add.mp (space.split.nodup space.nodup)
  have apart := space.distinct
  obtain ⟨tables, ptes⟩ := store_entry apart at_uva
    ((m.mem t).word (pageOf uva % 1024) &&& ~~~pteU)
  generalize after : m.store t (pageOf uva % 1024)
    ((m.mem t).word (pageOf uva % 1024) &&& ~~~pteU) = m₁ at tables ptes
  have mine : t ∈ pages m.mem dir := mem_pages.mpr (.inr (.inl ⟨_, at_uva⟩))
  have leaves : leaf m₁.mem dir = leaf m.mem dir := by
    funext n
    rw [leaf, ptes]
    by_cases here : n = pageOf uva
    · rw [here, Function.update_self, entry_clear, leaf, pte_of_table at_uva]
    · rw [Function.update_of_ne here, leaf]
  have bytes : ∀ q, q ≠ t → m₁.mem q = m.mem q := by
    intro q ne
    rw [← after]
    exact store_other m ne _ _
  refine ⟨m₁, ?_, ⟨?_, ?_, ?_⟩, ⟨loading.toHalf.keep ?_ ?_, whole, room, by omega, ?_, ?_, ?_⟩, ?_⟩
  · simp only [clearpteu, bind, walkpgdir_find, at_uva, Option.map_some, Prog.modify, after]
  · rw [pages, tables, leaves, ← after]
    exact space.split.write space.nodup (Multiset.mem_add.mpr (.inl mine)) _
  · intro p other
    apply bytes
    rintro rfl
    exact Multiset.disjoint_left.mp parts.2.2 mine other
  · rw [tables]
    exact fun _ _ at_i => at_i
  · rw [tables]
    exact fun _ _ at_i => at_i
  · intro n kernel
    rw [ptes, Function.update_of_ne (by omega)]
  · intro n low
    rw [leaves, ← count]
    exact loading.present n low
  · intro n lt
    rw [ptes]
    by_cases here : n = pageOf uva
    · rw [here, Function.update_self, and_not_user]
      exact ⟨fun no => absurd rfl no, fun no => absurd guard no⟩
    · rw [Function.update_of_ne here]
      exact ⟨fun _ => by omega, fun _ => loading.usable n (by omega)⟩
  · rw [tables]
    exact loading.hole
  · intro a low
    have page : a / 4096 < userPages := by
      unfold userPages
      omega
    cases at_a : leaf m.mem dir (a / 4096) with
    | none =>
      rw [userByte, userByte, userPage_eq_none.mpr at_a, userPage_eq_none.mpr (by rwa [leaves])]
    | some q =>
      rw [userByte_of_leaf at_a, userByte_of_leaf (by rwa [leaves]), bytes]
      rintro rfl
      exact apart.leaf_ne_table _ _ _ page at_a at_uva

/-- exec() up to the guard page does not panic, whatever the file is. -/
theorem prepare_exact (reads : prog.read = readFile file) (length : file.length < 4294967296)
    (space : Space k m dir R T) (loading : Loading m.mem dir 0) :
    ∃ r m', prepare k prog dir m = some (r, m') ∧ Keeps k m m' dir R T ∧
      ∀ sz, r = some sz → sz = imageSize prog ∧ Stacked m'.mem dir sz ∧
        SegmentsIn (userByte m'.mem dir) file prog.phdrs ∧
        ∀ ph a, some ph ∈ prog.phdrs → ph.Covers a → a + 8192 < sz.toNat := by
  obtain ⟨r₁, m₁, loaded, keeps₁, result₁⟩ :=
    loadSegments_exact prog.phdrs reads length space loading
  have stops {m' : Machine} (keeps : Keeps k m m' dir R T)
      (run : prepare k prog dir m = some (none, m')) :
      ∃ r m', prepare k prog dir m = some (r, m') ∧ Keeps k m m' dir R T ∧
        ∀ sz, r = some sz → sz = imageSize prog ∧ Stacked m'.mem dir sz ∧
          SegmentsIn (userByte m'.mem dir) file prog.phdrs ∧
          ∀ ph a, some ph ∈ prog.phdrs → ph.Covers a → a + 8192 < sz.toNat :=
    ⟨none, m', run, keeps, fun _ no => absurd no (Option.some_ne_none _).symm⟩
  cases r₁ with
  | none =>
    apply stops keeps₁
    simp only [prepare, bind, loaded]
    rfl
  | some sz₁ =>
  obtain ⟨size, loading₁, _, _, segments, within⟩ := result₁ sz₁ rfl
  have base : kernbase.toNat = 2147483648 := rfl
  have two : (2 * 4096 : UInt32).toNat = 8192 := rfl
  have small₁ := UInt32.lt_iff_toNat_lt.mp loading₁.small
  have round := toNat_pgroundup (a := sz₁) (by omega)
  have sum : (pgroundup sz₁ + 2 * 4096).toNat = (pgroundup sz₁).toNat + 8192 := by
    rw [toNat_add_page, two]
    rw [two]
    omega
  by_cases large : pgroundup sz₁ + 2 * 4096 ≥ kernbase
  · apply stops keeps₁
    simp only [prepare, bind, loaded, allocuvm, large, ↓reduceIte]
    rfl
  have small := UInt32.lt_iff_toNat_lt.mp (UInt32.not_le.mp large)
  have count : pageCount (pgroundup sz₁) = pageCount sz₁ := by
    unfold pageCount
    omega
  have loading₁' : Loading m₁.mem dir (pgroundup sz₁) := by
    refine ⟨loading₁.toHalf, UInt32.lt_iff_toNat_lt.mpr (by omega), ?_, ?_, loading₁.hole⟩
    · rw [count]
      exact loading₁.present
    · rw [count]
      exact loading₁.usable
  have space₁ := space.of_keeps keeps₁
  obtain ⟨r₂, m₂, grown, keeps₂, result₂⟩ := loading₁'.allocuvm space₁ (pgroundup sz₁ + 2 * 4096)
  by_cases zero : r₂ = 0
  · apply stops (keeps₁.trans keeps₂)
    simp only [prepare, bind, loaded, grown, zero, ↓reduceIte]
    rfl
  obtain ⟨loading₂, _, above, which, same₂⟩ := result₂.resolve_left zero
  have top : r₂ = pgroundup sz₁ + 2 * 4096 := by
    obtain eq | eq := which
    · rw [eq, UInt32.le_iff_toNat_le] at above
      omega
    · exact eq
  have size₂ : r₂.toNat = (pgroundup sz₁).toNat + 8192 := by rw [top, sum]
  obtain ⟨m₃, cleared, keeps₃, stacked, same₃⟩ := clearpteu_exact (space₁.of_keeps keeps₂) loading₂
    (by omega) (by omega)
  refine ⟨some r₂, m₃, ?_, (keeps₁.trans keeps₂).trans keeps₃, ?_⟩
  · simp only [prepare, bind, loaded, grown, zero, ↓reduceIte, cleared]
    rfl
  rintro _ ⟨⟩
  refine ⟨by rw [top, imageSize, size], stacked, segments.congr ?_, ?_⟩
  · intro ph a mem covers
    have lt := within ph a mem covers
    have user : userPage m₂.mem dir (a / 4096) = userPage m₁.mem dir (a / 4096) := by
      apply same₂
      unfold pageCount
      omega
    rw [same₃ a (by omega), userByte, userByte, user]
  · intro ph a mem covers
    have lt := within ph a mem covers
    omega

end prepare

/-! ## A new program -/

/-- There is memory for the program: exec() comes to its arguments. -/
def Ready (k : Symbols) (prog : Program) (m : Machine) : Prop :=
  prog.magic = elfMagic ∧ ∃ dir m₁ sz m₂, setupkvm k m = some (dir, m₁) ∧ dir ≠ 0 ∧
    prepare k prog dir m₁ = some (some sz, m₂)

/-- The program of the file is in memory, with its arguments. -/
structure Launched (mem : Addr → Page) (file : List UInt8) (prog : Program)
    (argv : List (List UInt8)) (image : Image) : Prop where
  size : image.sz = imageSize prog
  stacked : Stacked mem image.pgdir image.sz
  segments : SegmentsIn (userByte mem image.pgdir) file prog.phdrs
  within : ∀ ph a, some ph ∈ prog.phdrs → ph.Covers a → a < image.sz.toNat
  entry : image.entry = prog.entry
  layout : Layout (userByte mem image.pgdir) image.sz image.sp argv

section launch
variable {k : Symbols} {m m' : Machine} {R T : Multiset Addr} {cur : Addr} {file : List UInt8}
  {prog : Program} {argv : List (List UInt8)} {image : Image}

theorem Launched.congr {mem mem' : Addr → Page} (launched : Launched mem file prog argv image)
    (same : ∀ p ∈ pages mem image.pgdir, mem' p = mem p) : Launched mem' file prog argv image := by
  obtain ⟨tables, ptes, users⟩ := view_congr same
  have small := launched.stacked.small
  have bytes a (lt : a < image.sz.toNat) : userByte mem' image.pgdir a = userByte mem image.pgdir a := by
    rw [userByte, users (a / 4096) (by unfold userPages; omega), userByte]
  refine ⟨launched.size, launched.stacked.congr tables ptes, ?_, launched.within, launched.entry, ?_⟩
  · exact launched.segments.congr fun ph a mem covers => bytes a (launched.within ph a mem covers)
  · exact launched.layout.congr bytes

/-- Arguments for a program of `sz` bytes: no string goes to the hole, or what
the caller has at address 0 makes no page of it. -/
structure Admitted (mem : Addr → Page) (cur sz : Addr) (argv : List (List UInt8)) : Prop where
  short : ∀ arg ∈ argv, arg.length < 2147483648
  guard : Clear sz sz (argv.take maxarg) ∨ Refuses mem cur

theorem ofFile_reads (is : Program.ofFile file = some prog) : prog.read = readFile file := by
  unfold Program.ofFile at is
  dsimp only at is
  split at is
  · cases is
  · rw [← Option.some.inj is]

/-- exec() up to the commit comes back from every file. -/
theorem load_exact (length : file.length < 4294967296) (split : Split k m R T) (nodup : T.Nodup)
    (valid : ∀ q ∈ T, k.Valid q) (mine : ∀ q ∈ pages m.mem cur, q ∈ R)
    (admitted : ∀ prog, Program.ofFile file = some prog → (imageSize prog).toNat < 2147483648 →
      Admitted m.mem cur (imageSize prog) argv) :
    ∃ r m', load k cur (Program.ofFile file) argv m = some (r, m') ∧ (∀ p ∈ R, m'.mem p = m.mem p) ∧
      ((r = none ∧ ∀ prog, Program.ofFile file = some prog → Ready k prog m →
          ¬ (stackBytes argv ≤ 4096 ∧ argv.length ≤ maxarg)) ∨
       ∃ prog image, Program.ofFile file = some prog ∧ Ready k prog m ∧ r = some image ∧
          stackBytes argv ≤ 4096 ∧ Split k m' (pages m'.mem image.pgdir + R) T ∧ Launched m'.mem file prog argv image) := by
  cases program : Program.ofFile file with
  | none => exact ⟨none, m, rfl, fun _ _ => rfl, .inl ⟨rfl, fun _ no => absurd no (by simp)⟩⟩
  | some prog =>
  by_cases bad : prog.magic ≠ elfMagic
  · refine ⟨none, m, by rw [load, if_pos bad]; rfl, fun _ _ => rfl, .inl ⟨rfl, ?_⟩⟩
    rintro _ ⟨⟩ ready
    exact absurd ready.1 bad
  obtain ⟨dir, m₁, made⟩ := setupkvm_returns split nodup
  obtain ⟨frame₁, ⟨rfl, _⟩ | ⟨nonzero, split₁, fresh⟩⟩ := setupkvm_spec split nodup made
  · refine ⟨none, m₁, ?_, frame₁, .inl ⟨rfl, ?_⟩⟩
    · simp only [load, bad, ↓reduceIte, bind, made]
      rfl
    · rintro _ ⟨⟩ ⟨_, dir, m₁', sz, m₂, made', nonzero, _⟩
      rw [made, Option.some.injEq, Prod.mk.injEq] at made'
      exact absurd made'.1.symm nonzero
  have space₁ : Space k m₁ dir R T := ⟨split₁, nodup, valid⟩
  obtain ⟨r₂, m₂, prepared, keeps₂, result₂⟩ :=
    prepare_exact (ofFile_reads program) length space₁ fresh.loading
  have frame₂ p (other : p ∈ R) : m₂.mem p = m.mem p :=
    (keeps₂.frame p other).trans (frame₁ p other)
  -- the label `bad`, with the new space to be given back
  have gives_up {m₃ : Machine} (keeps : Keeps k m₁ m₃ dir R T)
      (built : build k cur prog argv dir m₁ = some (none, m₃)) :
      ∃ m', load k cur (some prog) argv m = some (none, m') ∧ ∀ p ∈ R, m'.mem p = m.mem p := by
    obtain ⟨_, m', freed⟩ := freevm_returns (space₁.of_keeps keeps)
    refine ⟨m', ?_, fun p other => ?_⟩
    · simp only [load, bad, ↓reduceIte, bind, made, nonzero, built, freed]
      rfl
    · rw [(freevm_spec keeps.split nodup freed).2 p other, keeps.frame p other, frame₁ p other]
  cases r₂ with
  | none =>
    obtain ⟨m', run, frame⟩ := gives_up keeps₂ (by rw [build_eq, prepared])
    refine ⟨none, m', run, frame, .inl ⟨rfl, ?_⟩⟩
    rintro _ ⟨⟩ ⟨_, dir', m₁', sz, m₂', made', _, prepared'⟩
    rw [made, Option.some.injEq, Prod.mk.injEq] at made'
    obtain ⟨rfl, rfl⟩ := made'
    rw [prepared, Option.some.injEq, Prod.mk.injEq] at prepared'
    exact absurd prepared'.1.symm (Option.some_ne_none sz)
  | some sz =>
  obtain ⟨rfl, stacked, segments, within⟩ := result₂ sz rfl
  have ready : Ready k prog m := ⟨not_not.mp bad, dir, m₁, _, m₂, made, nonzero, prepared⟩
  have same q (held : q ∈ pages m.mem cur) := frame₂ q (mine q held)
  obtain ⟨tables, ptes, _⟩ := view_congr same
  obtain ⟨short, guard⟩ := admitted prog program stacked.small
  have fits (few : argv.length ≤ maxarg) :=
    allFit_iff stacked.whole stacked.room stacked.small few short
  obtain ⟨r₃, m₃, pushed, keeps₃, stacked₃, outcome⟩ := pushStack_exact (space₁.of_keeps keeps₂) stacked
    short (by rwa [pages_congr tables ptes]) (guard.imp_right fun refuses => refuses.congr same)
    prog.entry
  have keeps := keeps₂.trans keeps₃
  have built : build k cur prog argv dir m₁ = some (r₃, m₃) := by
    rw [build_eq, prepared]
    exact pushed
  obtain ⟨rfl, failed⟩ | ⟨rfl, fit, few, _, below, layout⟩ := outcome
  · obtain ⟨m', run, frame⟩ := gives_up keeps built
    refine ⟨none, m', run, frame, .inl ⟨rfl, ?_⟩⟩
    rintro _ ⟨⟩ _ ⟨fit, few⟩
    exact failed ⟨(fits few).mpr fit, few⟩
  · refine ⟨_, m₃, ?_, ?_, .inr ⟨prog, ⟨dir, imageSize prog, prog.entry, stackTop (imageSize prog) argv⟩,
      rfl, ready, rfl, (fits few).mp fit, keeps.split, ⟨rfl, stacked₃, ?_, ?_, rfl, layout⟩⟩⟩
    · simp only [load, bad, ↓reduceIte, bind, made, nonzero, built]
      rfl
    · intro p other
      rw [keeps.frame p other, frame₁ p other]
    · apply segments.congr
      intro ph a mem covers
      have lt := within ph a mem covers
      exact below a (by omega)
    · intro ph a mem covers
      have lt := within ph a mem covers
      show a < (imageSize prog).toNat
      omega

end launch

/-- What a process runs: its space, and the registers of its trap frame. -/
def State.image (s : State) (me : Slot) : Image :=
  let page := s.machine.mem (s.proc me).kstack
  ⟨(s.proc me).pgdir, (s.proc me).sz, page.word 1019, page.word 1022⟩

section exec
variable {k : Symbols} {s : State} {me : Slot} {R T : Multiset Addr} {file : List UInt8}
  {argv : List (List UInt8)}

theorem exec_exact (length : file.length < 4294967296)
    (caller : Space k s.machine (s.proc me).pgdir ((s.proc me).kstack ::ₘ R) T)
    (admitted : ∀ prog, Program.ofFile file = some prog → (imageSize prog).toNat < 2147483648 →
      Admitted s.machine.mem (s.proc me).pgdir (imageSize prog) argv) (path : List UInt8) :
    ∃ r s', exec k me path (Program.ofFile file) argv s = some (r, s') ∧
      ((r = -1 ∧ ∀ prog, Program.ofFile file = some prog → Ready k prog s.machine →
          ¬ (stackBytes argv ≤ 4096 ∧ argv.length ≤ maxarg)) ∨
       (r = 0 ∧ ∃ prog, Program.ofFile file = some prog ∧ Ready k prog s.machine ∧
          stackBytes argv ≤ 4096 ∧ Launched s'.machine.mem file prog argv (s'.image me))) := by
  obtain ⟨r, m₁, loaded, frame, outcome⟩ := load_exact length caller.split caller.nodup caller.valid
    (fun q held => Multiset.mem_add.mpr (.inl held)) admitted
  obtain ⟨rfl, failed⟩ | ⟨prog, image, program, ready, rfl, fit, split₁, launched⟩ := outcome
  · refine ⟨-1, { s with machine := m₁ }, ?_, .inl ⟨rfl, failed⟩⟩
    simp only [exec, bind, Prog.get, onMachine, Prog.onPart, loaded]
    rfl
  generalize stack : (s.proc me).kstack = kstack at *
  generalize old : (s.proc me).pgdir = pgdir at *
  have parts := Multiset.nodup_add.mp (split₁.nodup caller.nodup)
  have others := Multiset.nodup_add.mp parts.2.1
  have mine : kstack ∈ pages s.machine.mem pgdir + kstack ::ₘ R :=
    Multiset.mem_add.mpr (.inr (Multiset.mem_cons_self ..))
  -- the trap frame is written to
  generalize written : (m₁.store kstack 1019 image.entry).store kstack 1022 image.sp = m₂
  have rest q (ne : q ≠ kstack) : m₂.mem q = m₁.mem q := by
    rw [← written, store_other _ ne, store_other _ ne]
  have split₂ : Split k m₂ (pages m₁.mem image.pgdir + (pages s.machine.mem pgdir + kstack ::ₘ R)) T := by
    rw [← written]
    exact (split₁.write caller.nodup (Multiset.mem_add.mpr (.inr mine)) _).write caller.nodup
      (Multiset.mem_add.mpr (.inr mine)) _
  have fresh q (held : q ∈ pages m₁.mem image.pgdir) : m₂.mem q = m₁.mem q := by
    apply rest
    rintro rfl
    exact Multiset.disjoint_left.mp parts.2.2 held mine
  have same q (held : q ∈ pages s.machine.mem pgdir) : m₂.mem q = s.machine.mem q := by
    rw [rest, frame q (Multiset.mem_add.mpr (.inl held))]
    rintro rfl
    exact Multiset.disjoint_left.mp others.2.2 held (Multiset.mem_cons_self ..)
  rw [← pages_frame same, add_left_comm] at split₂
  -- and the old space is given back
  obtain ⟨_, m₃, freed⟩ := freevm_returns ⟨split₂, caller.nodup, caller.valid⟩
  have frame₃ := (freevm_spec split₂ caller.nodup freed).2
  have frame_kstack : m₃.mem kstack = m₂.mem kstack :=
    frame₃ kstack (Multiset.mem_add.mpr (.inr (Multiset.mem_cons_self ..)))
  refine ⟨0, ({ s with machine := m₃ } : State).setProc me
    { s.proc me with name := progName path, pgdir := image.pgdir, sz := image.sz }, ?_,
    .inr ⟨rfl, prog, program, ready, fit, ?_⟩⟩
  · simp only [exec, bind, Prog.get, onMachine, Prog.onPart, loaded, change, Prog.modify, stack, old,
      State.setProc, written, freed]
    rfl
  · have now : (({ s with machine := m₃ } : State).setProc me
        { s.proc me with name := progName path, pgdir := image.pgdir, sz := image.sz }).image me =
        image := by
      unfold State.image
      rw [State.setProc_self]
      dsimp only [State.setProc]
      rw [stack, frame_kstack, ← written, store_self, store_self,
        Bytes.word_setWord_of_ne _ (by decide), Bytes.word_setWord_self _ (by decide),
        Bytes.word_setWord_self _ (by decide)]
    rw [now]
    apply launched.congr
    intro q held
    rw [State.setProc]
    exact (frame₃ q (Multiset.mem_add.mpr (.inl held))).trans (fresh q held)

end exec

/-! ## A process, and a program without segments -/

/-- A process that has `sz` bytes, with most of the memory free. -/
theorem running_process {sz : Addr} (small : sz < kernbase) (many : 66 + 2 * pageCount sz ≤ 56320) :
    ∃ (s : State) (me : Slot) (T : Multiset Addr),
      Space smallKernel s.machine (s.proc me).pgdir ((s.proc me).kstack ::ₘ 0) T ∧
      Present s.machine.mem (s.proc me).pgdir (pageCount sz) ∧ (s.proc me).sz = sz ∧
      (s.proc me).state = .running ∧ T.card = 56320 ∧
      (pages s.machine.mem (s.proc me).pgdir).card ≤ 65 + 2 * pageCount sz := by
  obtain ⟨m₀, T, _, pool, size⟩ := pool_kinit2
  obtain ⟨dir, _, m, _, _, space, _, present, cost⟩ := pool.make_space small (by omega)
  obtain ⟨v, m', got⟩ := kalloc_returns m
  obtain ⟨_, _, all⟩ | ⟨_, _, mem, split⟩ := space.split.kalloc got
  · rw [all, Multiset.add_zero] at size
    omega
  rw [← mem, Multiset.add_zero] at split
  let me : Slot := ⟨0, by decide⟩
  let p : Process := { (blank m').proc me with state := .running, pgdir := dir, kstack := v, sz := sz }
  have mine : ((blank m').setProc me p).proc me = p := State.setProc_self ..
  refine ⟨(blank m').setProc me p, me, T, ?_, ?_, ?_, ?_, size, ?_⟩
  · rw [mine]
    refine ⟨?_, space.nodup, space.valid⟩
    rw [Multiset.add_cons, Multiset.add_zero]
    exact split
  · rw [mine]
    show Present m'.mem dir (pageCount sz)
    rw [mem]
    exact present
  · rw [mine]
  · rw [mine]
  · rw [mine]
    show (pages m'.mem dir).card ≤ _
    rw [mem]
    exact cost

/-- The bytes of a file that has an ELF header and nothing else. -/
def bareElf : List UInt8 := [0x7F, 0x45, 0x4C, 0x46] ++ List.replicate 48 0

theorem bareElf_program :
    Program.ofFile bareElf = some ⟨elfMagic, 0, [], readFile bareElf⟩ := rfl

section bare
variable {k : Symbols} {m m' : Machine} {R T : Multiset Addr}

/-- The new directory is the first free page. -/
theorem setupkvm_first {v : Addr} (run : setupkvm k m = some (v, m')) (nonzero : v ≠ 0) :
    v = m.freelist := by
  rw [setupkvm, Prog.bind_eq_some] at run
  obtain ⟨dir, m₁, got, run⟩ := run
  have first : dir = m.freelist := by
    simp only [kalloc, bind, Prog.get, pure] at got
    by_cases free : m.freelist ≠ 0
    · simp only [free, ne_eq, not_false_eq_true, ↓reduceIte, Prog.modify, Option.some.injEq,
        Prod.mk.injEq] at got
      exact got.1.symm
    · simp only [free, ↓reduceIte, Option.some.injEq, Prod.mk.injEq] at got
      exact got.1.symm
  by_cases zero : dir = 0
  · rw [if_pos zero] at run
    exact absurd (Prog.pure_eq_some.mp run).1.symm nonzero
  rw [if_neg zero, if_neg (by decide)] at run
  simp only [Prog.bind_eq_some] at run
  obtain ⟨_, _, _, ok, m₂, _, run⟩ := run
  cases ok with
  | false => exact absurd (Prog.pure_eq_some.mp run).1.symm nonzero
  | true => rw [← (Prog.pure_eq_some.mp run).1, first]

/-- Without segments exec() needs two pages and a table besides the kernel part. -/
theorem prepare_bare (prog : Program) (bare : prog.phdrs = []) (split : Split k m R T) (nodup : T.Nodup)
    (valid : ∀ q ∈ T, k.Valid q) (room : 69 + R.card ≤ T.card) :
    ∃ m₁ m₂, setupkvm k m = some (m.freelist, m₁) ∧ m.freelist ≠ 0 ∧
      prepare k prog m.freelist m₁ = some (some 8192, m₂) ∧ Space k m₂ m.freelist R T ∧
      Stacked m₂.mem m.freelist 8192 ∧ ∀ p ∈ R, m₂.mem p = m.mem p := by
  obtain ⟨dir, m₁, made⟩ := setupkvm_returns split nodup
  obtain ⟨frame, ⟨_, L, few, _, all⟩ | ⟨nonzero, split₁, fresh⟩⟩ := setupkvm_spec split nodup made
  · rw [all, Multiset.card_add] at room
    omega
  obtain rfl := setupkvm_first made nonzero
  have space₁ : Space k m₁ m.freelist R T := ⟨split₁, nodup, valid⟩
  have loading := fresh.loading
  have none : pageCount 0 = 0 := by decide
  have two : pageCount 8192 = 2 := by decide
  obtain ⟨r, m₂, grown, ⟨rfl, grown', _⟩ | ⟨_, _, out⟩⟩ :=
    allocuvm_exact space₁ (by decide : (0 : Addr) ≤ 8192) (by decide) loading.present
  · have space₂ := space₁.of_keeps grown'.toKeeps
    have loading₂ := loading.grown grown' (by decide) (by decide)
    obtain ⟨m₃, cleared, keeps, stacked, _⟩ := clearpteu_exact space₂ loading₂ (by decide) (by decide)
    refine ⟨m₁, m₃, made, nonzero, ?_, space₂.of_keeps keeps, stacked, ?_⟩
    · have nonempty : (8192 : UInt32) ≠ 0 := by decide
      simp only [prepare, bare, loadSegments, bind, pure]
      rw [show pgroundup 0 = 0 from rfl, show (0 : UInt32) + 2 * 4096 = 8192 from rfl, grown]
      simp only [nonempty, ↓reduceIte, cleared]
    · intro p other
      rw [keeps.frame p other, grown'.frame p other, frame p other]
  · rw [none, two, fresh.card] at out
    omega

end bare

/-! ## The arguments -/

/-- main() finds the arguments if they fit in the stack page, and exec() fails
if they do not. With no arguments exec() fails for reasons of memory or of the
file only. -/
theorem main_finds_arguments {k : Symbols} {s : State} {me : Slot} {R T : Multiset Addr}
    {file : List UInt8} {argv : List (List UInt8)} (length : file.length < 4294967296)
    (caller : Space k s.machine (s.proc me).pgdir ((s.proc me).kstack ::ₘ R) T)
    (few : argv.length < maxarg)
    (shorter : ∀ prog, Program.ofFile file = some prog →
      ∀ arg ∈ argv, arg.length < (imageSize prog).toNat) (path : List UInt8) :
    ∃ r s', exec k me path (Program.ofFile file) argv s = some (r, s') ∧
      (r = 0 → Layout (userByte s'.machine.mem (s'.image me).pgdir) (s'.image me).sz
        (s'.image me).sp argv) ∧
      (4096 < stackBytes argv → r = -1) ∧
      (stackBytes argv ≤ 4096 → ∀ s₀, exec k me path (Program.ofFile file) [] s = some (0, s₀) →
        r = 0) := by
  have admitted (prog : Program) (is : Program.ofFile file = some prog)
      (small : (imageSize prog).toNat < 2147483648) :
      Admitted s.machine.mem (s.proc me).pgdir (imageSize prog) argv := by
    have less := shorter prog is
    refine ⟨fun arg mem => Nat.lt_trans (less arg mem) small, .inl ?_⟩
    apply clear_of_shorter (Nat.le_add_right _ _) (Nat.le_refl _) _ small
    · exact fun arg mem => less arg (List.mem_of_mem_take mem)
    · have whole := imageSize_whole prog
      omega
  obtain ⟨r, s', run, outcome⟩ := exec_exact length caller admitted path
  refine ⟨r, s', run, ?_⟩
  obtain ⟨rfl, failed⟩ | ⟨rfl, prog, _, _, fit, launched⟩ := outcome
  · refine ⟨fun no => absurd no (by decide), fun _ => rfl, fun fit s₀ run₀ => ?_⟩
    have nothing (sz : Addr) : Admitted s.machine.mem (s.proc me).pgdir sz [] :=
      ⟨List.forall_mem_nil _, .inl trivial⟩
    obtain ⟨r', s₁, run', outcome'⟩ := exec_exact length caller (fun prog _ _ => nothing _) path
    rw [run₀, Option.some.injEq, Prod.mk.injEq] at run'
    obtain ⟨rfl, rfl⟩ := run'
    obtain ⟨no, _⟩ | ⟨_, prog, program, ready, _⟩ := outcome'
    · exact absurd no (by decide)
    · exact absurd ⟨fit, Nat.le_of_lt few⟩ (failed prog program ready)
  · exact ⟨fun _ => launched.layout, fun large => by omega, fun _ _ _ => rfl⟩

/-- `ls` without segments is started with its name as its argument. -/
theorem ls_finds_its_name : ∃ (s : State) (me : Slot) (T : Multiset Addr) (s' : State),
    Space smallKernel s.machine (s.proc me).pgdir ((s.proc me).kstack ::ₘ 0) T ∧
    exec smallKernel me [108, 115] (Program.ofFile bareElf) [[108, 115]] s = some (0, s') ∧
    Layout (userByte s'.machine.mem (s'.image me).pgdir) (s'.image me).sz (s'.image me).sp
      [[108, 115]] := by
  have one : pageCount 4096 = 1 := by decide
  obtain ⟨s, me, T, caller, _, _, _, size, cost⟩ := running_process (by decide : 4096 < kernbase)
    (by decide)
  obtain ⟨m₁, m₂, made, nonzero, prepared, _⟩ := prepare_bare
    ⟨elfMagic, 0, [], readFile bareElf⟩ rfl caller.split caller.nodup caller.valid
    (by rw [Multiset.card_add, Multiset.card_cons, Multiset.card_zero]; omega)
  have ready : Ready smallKernel ⟨elfMagic, 0, [], readFile bareElf⟩ s.machine :=
    ⟨rfl, _, m₁, _, m₂, made, nonzero, prepared⟩
  have nothing (sz : Addr) : Admitted s.machine.mem (s.proc me).pgdir sz [] :=
    ⟨List.forall_mem_nil _, .inl trivial⟩
  obtain ⟨r₀, s₀, run₀, outcome₀⟩ := exec_exact (by decide : bareElf.length < 4294967296) caller
    (fun prog _ _ => nothing _) [108, 115]
  have done : r₀ = 0 := by
    obtain ⟨_, failed⟩ | ⟨done, _⟩ := outcome₀
    · exact absurd (by decide) (failed _ bareElf_program ready)
    · exact done
  obtain ⟨r, s', run, layout, _, succeeds⟩ := main_finds_arguments
    (by decide : bareElf.length < 4294967296) caller
    (by decide : ([[108, 115]] : List (List UInt8)).length < maxarg) (fun prog is arg mem => by
      rw [bareElf_program, Option.some.injEq] at is
      rw [← is, List.mem_singleton.mp mem]
      decide) [108, 115]
  have r_zero := succeeds (by decide) s₀ (done ▸ run₀)
  exact ⟨s, me, T, s', caller, r_zero ▸ run, layout r_zero⟩

end Xv6.Vm
