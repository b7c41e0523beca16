import Xv6.Lib.Memory
import Xv6.Vm.Machine

/-! syscall.c: the arguments of system calls. A function is modelled by its result, which is
`none` for -1, and the user addresses that it reads on the way. -/

namespace Xv6.Syscall
open Lib
open Vm (kernbase)

/-- A result, and the addresses that were read for it. -/
abbrev Probe (α : Type) := Option α × List UInt32

/-- `x`, and then `f` with its result unless it has failed. -/
def Probe.andThen {α β : Type} (x : Probe α) (f : α → Probe β) : Probe β :=
  match x.1 with
  | some a => ((f a).1, x.2 ++ (f a).2)
  | none => (none, x.2)

/-! ## The functions -/

section code
variable (sz : UInt32) (m : Memory)

def fetchint (addr : UInt32) : Probe UInt32 :=
  if addr ≥ sz ∨ addr + 4 > sz then (none, [])
  else (some (m.word addr), [addr, addr + 1, addr + 2, addr + 3])

/-- The loop of fetchstr(), which looks for the end of the string. -/
def fetchLoop : Nat → UInt32 → Probe UInt32
  | 0, _ => (none, [])
  | fuel + 1, s =>
    if s < sz then
      if m s = 0 then (some s, [s])
      else ((fetchLoop fuel (s + 1)).1, s :: (fetchLoop fuel (s + 1)).2)
    else (none, [])

/-- The length of the string at `addr`. -/
def fetchstr (addr : UInt32) : Probe UInt32 :=
  if addr ≥ sz then (none, [])
  else (fetchLoop sz m ((sz - addr).toNat + 1) addr).andThen fun s => (some (s - addr), [])

variable (esp : UInt32)

def argint (n : UInt32) : Probe UInt32 := fetchint sz m (esp + 4 + 4 * n)

def argptr (n : UInt32) (size : Int32) : Probe UInt32 :=
  (argint sz m esp n).andThen fun i =>
    if size < 0 ∨ i ≥ sz ∨ i + size.toUInt32 > sz then (none, []) else (some i, [])

/-- The string that an argument points to, with its length. -/
def argstr (n : UInt32) : Probe (UInt32 × UInt32) :=
  (argint sz m esp n).andThen fun addr =>
    (fetchstr sz m addr).andThen fun len => (some (addr, len), [])

/-- The loop of sys_exec(): the strings of argv from `i` on, with their lengths. -/
def execLoop (uargv : UInt32) : Nat → UInt32 → Probe (List (UInt32 × UInt32))
  | 0, _ => (none, []) -- i >= NELEM(argv)
  | left + 1, i =>
    (fetchint sz m (uargv + 4 * i)).andThen fun uarg =>
      if uarg = 0 then (some [], [])
      else (fetchstr sz m uarg).andThen fun len =>
        (execLoop uargv left (i + 1)).andThen fun rest => (some ((uarg, len) :: rest), [])

/-- The path and argv that exec() is called with. -/
def sysExec : Probe ((UInt32 × UInt32) × List (UInt32 × UInt32)) :=
  (argstr sz m esp 0).andThen fun path =>
    (argint sz m esp 1).andThen fun uargv =>
      (execLoop sz m uargv 32 0).andThen fun argv => (some (path, argv), [])

end code

/-! ## What is read and accepted -/

/-- The `len` bytes from `a` on are below `sz`; the sum is exact. -/
def Below (sz a : UInt32) (len : Nat) : Prop := a.toNat + len ≤ sz.toNat

/-- Every address read is below `sz`, and the result is as `P` says. -/
structure Inside {α : Type} (sz : UInt32) (x : Probe α) (P : α → Prop) : Prop where
  reads : ∀ a ∈ x.2, a < sz
  result : ∀ r, x.1 = some r → P r

variable {α β : Type} {sz addr esp n : UInt32} {m : Memory}

theorem Inside.none {P : α → Prop} : Inside sz (none, []) P := by
  constructor
  · simp
  · simp

theorem Inside.some {P : α → Prop} {r : α} (h : P r) : Inside sz (some r, []) P := by
  constructor
  · simp
  · simpa using h

theorem Inside.andThen {x : Probe α} {f : α → Probe β} {P : α → Prop} {Q : β → Prop}
    (first : Inside sz x P) (rest : ∀ a, P a → Inside sz (f a) Q) :
    Inside sz (x.andThen f) Q := by
  obtain ⟨_ | a, reads⟩ := x
  · exact ⟨first.reads, fun r no => by cases no⟩
  · have next := rest a (first.result a rfl)
    refine ⟨fun b there => ?_, next.result⟩
    obtain there | there := List.mem_append.mp there
    · exact first.reads b there
    · exact next.reads b there

theorem fetchint_inside (small : sz < kernbase) (m : Memory) (addr : UInt32) :
    Inside sz (fetchint sz m addr) fun _ => Below sz addr 4 := by
  have base : kernbase.toNat = 2147483648 := rfl
  have bound := UInt32.lt_iff_toNat_lt.mp small
  unfold fetchint
  split
  · exact .none
  next fits =>
    obtain ⟨low, high⟩ := not_or.mp fits
    have low := UInt32.lt_iff_toNat_lt.mp (UInt32.not_le.mp low)
    have offset (i : UInt32) (le : i.toNat ≤ 4) : (addr + i).toNat = addr.toNat + i.toNat := by
      rw [UInt32.toNat_add]
      exact Nat.mod_eq_of_lt (by omega)
    have four : (4 : UInt32).toNat = 4 := rfl
    have ends := UInt32.le_iff_toNat_le.mp (UInt32.not_lt.mp high)
    rw [offset 4 (by decide), four] at ends
    have next (i : UInt32) (lt : i.toNat < 4) : addr + i < sz := by
      rw [UInt32.lt_iff_toNat_lt, offset i (by omega)]
      omega
    refine ⟨?_, fun r _ => ends⟩
    simp only [List.mem_cons, List.not_mem_nil, or_false]
    rintro a (rfl | rfl | rfl | rfl)
    · exact UInt32.lt_iff_toNat_lt.mpr low
    · exact next 1 (by decide)
    · exact next 2 (by decide)
    · exact next 3 (by decide)

theorem fetchLoop_inside (m : Memory) (fuel : Nat) (s : UInt32) :
    Inside sz (fetchLoop sz m fuel s) fun e => s ≤ e ∧ e < sz ∧ m e = 0 := by
  induction fuel generalizing s with
  | zero => exact .none
  | succ fuel ih =>
    rw [fetchLoop]
    split
    next lt =>
      split
      next zero => exact ⟨by simpa using lt, by simpa using ⟨lt, zero⟩⟩
      · refine ⟨fun a there => ?_, fun e found => ?_⟩
        · obtain rfl | there := List.mem_cons.mp there
          · exact lt
          · exact (ih (s + 1)).reads a there
        · obtain ⟨le, rest⟩ := (ih (s + 1)).result e found
          have bound := UInt32.lt_iff_toNat_lt.mp lt
          have one : (1 : UInt32).toNat = 1 := rfl
          have := sz.toNat_lt
          refine ⟨?_, rest⟩
          rw [UInt32.le_iff_toNat_le, UInt32.toNat_add, one] at le
          exact UInt32.le_iff_toNat_le.mpr (by omega)
    · exact .none

/-- A string that is accepted ends with its NUL below `sz`. -/
def Str (sz : UInt32) (m : Memory) (addr len : UInt32) : Prop :=
  Below sz addr (len.toNat + 1) ∧ m (addr + len) = 0

theorem fetchstr_inside (m : Memory) (addr : UInt32) :
    Inside sz (fetchstr sz m addr) (Str sz m addr) := by
  unfold fetchstr
  split
  · exact .none
  · refine (fetchLoop_inside m _ addr).andThen fun e ⟨from_addr, lt, zero⟩ => .some ⟨?_, ?_⟩
    · have := UInt32.le_iff_toNat_le.mp from_addr
      have := UInt32.lt_iff_toNat_lt.mp lt
      rw [Below, UInt32.toNat_sub_of_le _ _ from_addr]
      omega
    · rw [UInt32.add_comm, UInt32.sub_add_cancel]
      exact zero

theorem argint_inside (small : sz < kernbase) (m : Memory) (esp n : UInt32) :
    Inside sz (argint sz m esp n) fun _ => Below sz (esp + 4 + 4 * n) 4 :=
  fetchint_inside small m _

theorem argptr_inside (small : sz < kernbase) (m : Memory) (esp n : UInt32) (size : Int32) :
    Inside sz (argptr sz m esp n size) fun i =>
      Below sz (esp + 4 + 4 * n) 4 ∧ 0 ≤ size.toInt ∧ Below sz i size.toInt.toNat := by
  refine (argint_inside small m esp n).andThen fun i word => ?_
  split
  · exact .none
  next fits =>
    obtain ⟨positive, fits⟩ := not_or.mp fits
    obtain ⟨low, high⟩ := not_or.mp fits
    have base : kernbase.toNat = 2147483648 := rfl
    have bound := UInt32.lt_iff_toNat_lt.mp small
    have nonneg : 0 ≤ size.toInt := by
      have := Int32.le_iff_toInt_le.mp (Int32.not_lt.mp positive)
      exact this
    have low := UInt32.lt_iff_toNat_lt.mp (UInt32.not_le.mp low)
    have high := UInt32.le_iff_toNat_le.mp (UInt32.not_lt.mp high)
    have top := size.toInt_lt
    have sum := toNat_add_signed i size
    refine .some ⟨word, nonneg, ?_⟩
    unfold Below
    omega

theorem argstr_inside (small : sz < kernbase) (m : Memory) (esp n : UInt32) :
    Inside sz (argstr sz m esp n) fun r => Below sz (esp + 4 + 4 * n) 4 ∧ Str sz m r.1 r.2 :=
  (argint_inside small m esp n).andThen fun addr word =>
    (fetchstr_inside m addr).andThen fun _ string => .some ⟨word, string⟩

theorem execLoop_inside (small : sz < kernbase) (m : Memory) (uargv : UInt32) (left : Nat)
    (i : UInt32) : Inside sz (execLoop sz m uargv left i) fun l => ∀ r ∈ l, Str sz m r.1 r.2 := by
  induction left generalizing i with
  | zero => exact .none
  | succ left ih =>
    refine (fetchint_inside small m _).andThen fun uarg _ => ?_
    split
    · exact .some nofun
    · refine (fetchstr_inside m uarg).andThen fun len string => ?_
      refine (ih (i + 1)).andThen fun rest strings => .some ?_
      exact List.forall_mem_cons.mpr ⟨string, strings⟩

theorem sysExec_inside (small : sz < kernbase) (m : Memory) (esp : UInt32) :
    Inside sz (sysExec sz m esp) fun r =>
      Str sz m r.1.1 r.1.2 ∧ ∀ a ∈ r.2, Str sz m a.1 a.2 := by
  refine (argstr_inside small m esp 0).andThen fun path ⟨_, string⟩ => ?_
  refine (argint_inside small m esp 1).andThen fun uargv _ => ?_
  exact (execLoop_inside small m uargv 32 0).andThen fun argv strings => .some ⟨string, strings⟩

/-- The arguments of system calls are read from, and accepted in, the memory of the process
alone. -/
theorem arguments_inside (small : sz < kernbase) (m : Memory) (esp : UInt32) :
    (∀ addr, Inside sz (fetchint sz m addr) fun _ => Below sz addr 4) ∧
    (∀ addr, Inside sz (fetchstr sz m addr) (Str sz m addr)) ∧
    (∀ n, Inside sz (argint sz m esp n) fun _ => Below sz (esp + 4 + 4 * n) 4) ∧
    (∀ n size, Inside sz (argptr sz m esp n size) fun i =>
      Below sz (esp + 4 + 4 * n) 4 ∧ 0 ≤ size.toInt ∧ Below sz i size.toInt.toNat) ∧
    (∀ n, Inside sz (argstr sz m esp n) fun r =>
      Below sz (esp + 4 + 4 * n) 4 ∧ Str sz m r.1 r.2) ∧
    Inside sz (sysExec sz m esp) fun r =>
      Str sz m r.1.1 r.1.2 ∧ ∀ a ∈ r.2, Str sz m a.1 a.2 :=
  ⟨fetchint_inside small m, fetchstr_inside m, argint_inside small m esp,
    argptr_inside small m esp, argstr_inside small m esp, sysExec_inside small m esp⟩

/-- A process of one page passes 16 bytes at address 0. -/
theorem one_page_arguments :
    (argptr 4096 (fun _ => 0) 0 0 16).1 = some 0 ∧ Below 4096 0 16 := by
  have accepted : (argptr 4096 (fun _ => 0) 0 0 16).1 = some 0 := by decide
  obtain ⟨_, _, _, block, _⟩ := arguments_inside (by decide : 4096 < kernbase) (fun _ => 0) 0
  exact ⟨accepted, ((block 0 16).result 0 accepted).2.2⟩

end Xv6.Syscall
