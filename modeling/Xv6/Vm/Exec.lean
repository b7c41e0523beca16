import Xv6.Vm.Copy

/-! exec.c: a new address space from a program file and arguments. -/

namespace Xv6.Vm
open Lib

def maxarg : Nat := 32

def elfMagic : UInt32 := 0x464C457F

def elfProgLoad : UInt32 := 1

structure Proghdr where
  type : UInt32
  off : UInt32
  vaddr : UInt32
  filesz : UInt32
  memsz : UInt32

/-- What exec() reads from the file. -/
structure Program where
  magic : UInt32
  entry : UInt32
  /-- The program headers, up to one that cannot be read. -/
  phdrs : List (Option Proghdr)
  /-- What readi() delivers at an offset, of a number of bytes asked for. -/
  read : UInt32 → UInt32 → List UInt8

/-! ## Loading -/

/-- The loop of loaduvm(). -/
def loadLoop (prog : Program) (pgdir addr offset sz : UInt32) : Nat → UInt32 → Prog Machine Bool
  | 0, _ => .halt
  | fuel + 1, i =>
    if i < sz then do
      match ← walkpgdir pgdir (addr + i) false with
      | none => .halt -- loaduvm: address should exist
      | some (pgtab, j) => do
        let m ← .get
        let page := p2v (pteAddr ((m.mem pgtab).word j))
        let n := if sz - i < 4096 then sz - i else 4096
        let bytes := (prog.read (offset + i) n).take n.toNat
        .modify fun m => m.write page ((m.mem page).splice 0 bytes)
        if bytes.length = n.toNat then
          loadLoop prog pgdir addr offset sz fuel (i + 4096)
        else
          pure false
    else
      pure true

/-- Load a program segment. The pages must already be mapped. -/
def loaduvm (prog : Program) (pgdir addr offset sz : UInt32) : Prog Machine Bool :=
  if addr % 4096 ≠ 0 then
    .halt -- loaduvm: addr must be page aligned
  else
    loadLoop prog pgdir addr offset sz 1048576 0

/-- The loop of exec() over the program headers. -/
def loadSegments (k : Symbols) (prog : Program) (pgdir : Addr) :
    List (Option Proghdr) → UInt32 → Prog Machine (Option UInt32)
  | [], sz => pure (some sz)
  | none :: _, _ => pure none
  | some ph :: phs, sz =>
    if ph.type ≠ elfProgLoad then
      loadSegments k prog pgdir phs sz
    else if ph.memsz < ph.filesz then
      pure none
    else if ph.vaddr + ph.memsz < ph.vaddr then
      pure none
    else do
      let sz ← allocuvm k pgdir sz (ph.vaddr + ph.memsz)
      if sz = 0 then
        pure none
      else if ph.vaddr % 4096 ≠ 0 then
        pure none
      else do
        if ← loaduvm prog pgdir ph.vaddr ph.off ph.filesz then
          loadSegments k prog pgdir phs sz
        else
          pure none

/-! ## The stack -/

/-- Clear PTE_U on a page. -/
def clearpteu (pgdir uva : Addr) : Prog Machine Unit := do
  match ← walkpgdir pgdir uva false with
  | none => .halt -- clearpteu
  | some (pgtab, j) => .modify fun m => m.store pgtab j ((m.mem pgtab).word j &&& ~~~pteU)

/-- The word at address 0 under the current page table. -/
def nullWord (cur : Addr) : Prog Machine UInt32 := do
  let m ← .get
  match leaf m.mem cur 0 with
  | some page => pure ((m.mem page).word 0)
  | none => .halt -- page fault

/-- Map a user address to a kernel address. The result of walkpgdir() is not
looked at: where there is no table, the entry is read through a null pointer,
which leads to the memory of the process that calls. -/
def uva2ka (cur pgdir uva : Addr) : Prog Machine Addr := do
  let m ← .get
  let e ← match ← walkpgdir pgdir uva false with
    | some (pgtab, j) => pure ((m.mem pgtab).word j)
    | none => nullWord cur
  if e &&& pteP = 0 then
    pure 0
  else if e &&& pteU = 0 then
    pure 0
  else
    pure (p2v (pteAddr e))

/-- Copy bytes to a user address. Each turn of the loop copies some byte. -/
def copyoutLoop (cur pgdir : Addr) : Nat → Addr → List UInt8 → Prog Machine Bool
  | 0, _, _ => .halt
  | fuel + 1, va, bytes =>
    if bytes = [] then
      pure true
    else do
      let va0 := pgrounddown va
      let pa0 ← uva2ka cur pgdir va0
      if pa0 = 0 then
        pure false
      else do
        let off := (va - va0).toNat
        let n := min (4096 - off) bytes.length
        .modify fun m => m.write pa0 ((m.mem pa0).splice off (bytes.take n))
        copyoutLoop cur pgdir fuel (va0 + 4096) (bytes.drop n)

def copyout (cur pgdir va : Addr) (bytes : List UInt8) : Prog Machine Bool :=
  copyoutLoop cur pgdir (bytes.length + 1) va bytes

/-- Push argument strings; the result is the stack pointer and where they are. -/
def pushArgs (cur pgdir : Addr) : List (List UInt8) → Addr → List UInt32 →
    Prog Machine (Option (Addr × List UInt32))
  | [], sp, ustack => pure (some (sp, ustack))
  | arg :: args, sp, ustack =>
    if ustack.length ≥ maxarg then
      pure none
    else do
      let sp := (sp - UInt32.ofNat (arg.length + 1)) &&& ~~~3
      if ← copyout cur pgdir sp (arg ++ [0]) then
        pushArgs cur pgdir args sp (ustack ++ [sp])
      else
        pure none

def bytesOf (ws : List UInt32) : List UInt8 := ws.flatMap fun w => (List.range 4).map (byteOf w)

structure Image where
  pgdir : Addr
  sz : UInt32
  entry : UInt32
  sp : Addr

/-- exec() from the program headers to the stack; `none` is the label `bad`. -/
def build (k : Symbols) (cur : Addr) (prog : Program) (argv : List (List UInt8)) (pgdir : Addr) :
    Prog Machine (Option Image) := do
  match ← loadSegments k prog pgdir prog.phdrs 0 with
  | none => pure none
  | some sz => do
    let sz := pgroundup sz
    let sz ← allocuvm k pgdir sz (sz + 2 * 4096)
    if sz = 0 then
      pure none
    else do
      clearpteu pgdir (sz - 2 * 4096)
      match ← pushArgs cur pgdir argv sz [] with
      | none => pure none
      | some (sp, ustack) => do
        let argc := UInt32.ofNat ustack.length
        let words := [0xffffffff, argc, sp - (argc + 1) * 4] ++ ustack ++ [0]
        let sp := sp - (3 + argc + 1) * 4
        if ← copyout cur pgdir sp (bytesOf words) then
          pure (some ⟨pgdir, sz, prog.entry, sp⟩)
        else
          pure none

/-- exec() up to the commit. The file is `none` if the path has none, or its
header is short. -/
def load (k : Symbols) (cur : Addr) (file : Option Program) (argv : List (List UInt8)) :
    Prog Machine (Option Image) :=
  match file with
  | none => pure none
  | some prog =>
    if prog.magic ≠ elfMagic then
      pure none
    else do
      let pgdir ← setupkvm k
      if pgdir = 0 then
        pure none
      else do
        match ← build k cur prog argv pgdir with
        | some image => pure (some image)
        | none => do
          freevm k pgdir
          pure none

/-! ## The space of a new program -/

section loading
variable {k : Symbols} {m m' : Machine} {R T : Multiset Addr} {dir sz : Addr}

/-- A store to a user page leaves the spaces as they are. -/
theorem write_leaf {n : Nat} {page : Addr} (split : Split k m (pages m.mem dir + R) T)
    (nodup : T.Nodup) (user : n < userPages) (at_n : leaf m.mem dir n = some page) (x : Page) :
    Keeps k m (m.write page x) dir R T ∧ table (m.write page x).mem dir = table m.mem dir ∧
      pte (m.write page x).mem dir = pte m.mem dir := by
  have parts := Multiset.nodup_add.mp (split.nodup nodup)
  have apart := distinct parts.1
  have mine : page ∈ pages m.mem dir := mem_pages.mpr (.inr (.inr ⟨n, user, at_n⟩))
  obtain ⟨tables, ptes⟩ := view_write (m := m) (apart.leaf_ne n page user at_n)
    (fun i => apart.leaf_ne_table n page i user at_n) x
  refine ⟨⟨?_, ?_, ?_⟩, tables, ptes⟩
  · rw [pages_congr tables ptes]
    exact split.write nodup (Multiset.mem_add.mpr (.inl mine)) x
  · intro p other
    apply Machine.write_other
    rintro rfl
    exact Multiset.disjoint_left.mp parts.2.2 mine other
  · intro i t at_i
    rw [tables]
    exact at_i

end loading

/-! ## Copies to the stack -/

section stack
variable {k : Symbols} {m m' : Machine} {R T : Multiset Addr} {dir sz cur : Addr}

theorem pageOf_pgrounddown (a : Addr) : pageOf (pgrounddown a) = pageOf a := by
  rw [pageOf, toNat_pgrounddown]
  omega

theorem toNat_ofNat_small {n : Nat} (lt : n < 4294967296) : (UInt32.ofNat n).toNat = n :=
  UInt32.toNat_ofNat_of_lt' lt

theorem entry_clear (e : UInt32) : entry (e &&& ~~~pteU) = entry e := by
  have flag : (e &&& ~~~pteU) &&& pteP = e &&& pteP := by
    rw [UInt32.and_assoc]
    rfl
  have addr : pteAddr (e &&& ~~~pteU) = pteAddr e := by
    rw [pteAddr, UInt32.and_assoc]
    rfl
  rw [entry, entry, flag, addr]

end stack
end Xv6.Vm
