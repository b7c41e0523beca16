import Xv6.Vm.Duplicate
import Xv6.Vm.Resize

/-! fork() without memory or a slot for the child: what it leaves behind. -/

namespace Xv6.Vm
open Lib

section fork
variable {k : Symbols} {s : State} {R T : Multiset Addr} {me p : Slot} {m : Machine} {v : Addr}

theorem copyuvm_returns {pgdir sz : Addr} (space : Space k m pgdir R T) (small : sz < kernbase)
    (full : ∀ n, n < pageCount sz → leaf m.mem pgdir n ≠ none) : (copyuvm k pgdir sz).Returns m := by
  have base : kernbase.toNat = 2147483648 := rfl
  have below := UInt32.lt_iff_toNat_lt.mp small
  have zero : pageOf 0 = 0 := by decide
  refine .bind (setupkvm_returns space.split space.nodup) fun d m₁ made => ?_
  obtain ⟨frame, ⟨rfl, _⟩ | ⟨nonzero, split₁, fresh⟩⟩ := setupkvm_spec space.split space.nodup made
  · exact .pure _ _
  · rw [if_neg nonzero]
    have mine (p : Addr) (held : p ∈ pages m.mem pgdir) : p ∈ pages m.mem pgdir + R :=
      Multiset.mem_add.mpr (.inl held)
    obtain ⟨tables, ptes, _⟩ := view_congr fun p held => frame p (mine p held)
    obtain ⟨r, m', loop, _⟩ := copyLoop_exact pgdir sz 0 ⟨split₁, space.nodup, space.valid⟩ (by omega)
      (by decide) (by rw [UInt32.toNat_zero]; omega) (by rw [pages_congr tables ptes]; exact mine)
      (fun n lt => by rw [leaf, ptes]; exact full n lt) (zero ▸ fresh.filled.leaves)
      (fun n lt => absurd (zero ▸ lt) (Nat.not_lt_zero n)) (by decide : 0 < 1048576)
      (by unfold pageCount; omega)
    exact ⟨r, m', loop⟩

/-! ## The slot of the child -/

/-- A slot that allocproc() was at. -/
def State.tried (s : State) (p : Slot) (m : Machine) (state : ProcState) (kstack : Addr) : State :=
  { s with machine := m, nextpid := s.nextpid + 1 }.setProc p
    { s.proc p with state := state, pid := s.nextpid, kstack := kstack }

theorem allocproc_eq (found : (slots.find? fun p => (s.proc p).state == .unused) = some p)
    (got : kalloc s.machine = some (v, m)) :
    allocproc s = some (if v = 0 then (none, s.tried p m .unused 0) else (some p, s.tried p m .embryo v)) := by
  by_cases zero : v = 0
  all_goals
    simp [allocproc, bind, pure, Prog.get, found, change, Prog.modify, onMachine, Prog.onPart,
      State.setProc, State.tried, got, zero]

/-- fork() when copyuvm() fails. -/
theorem fork_eq {m₁ m₂ : Machine} (alloc : allocproc s = some (some p, s.tried p m .embryo v)) (other : me ≠ p)
    (copy : copyuvm k (s.proc me).pgdir (s.proc me).sz m = some (0, m₁))
    (freed : kfree k v m₁ = some ((), m₂)) :
    fork k me s = some (-1, (s.tried p m₂ .unused 0).setProc p
      { s.proc p with state := .unused, pid := s.nextpid, kstack := 0, pgdir := 0 }) := by
  simp [fork, bind, pure, alloc, Prog.get, change, Prog.modify, onMachine, Prog.onPart,
      State.setProc, State.tried, copy, freed, other]

/-! ## What is left behind -/

/-- Slots in use, open files and the pages of `S` are as they were, and no other slot is in
use. Pages are lost unless `clean`. -/
structure Failed (k : Symbols) (s s' : State) (S T : Multiset Addr) (clean : Prop) : Prop where
  procs : ∀ q, (s.proc q).state ≠ .unused → s'.proc q = s.proc q
  unused : ∀ q, (s.proc q).state = .unused → (s'.proc q).state = .unused
  files : s'.files = s.files
  kept : ∀ a ∈ S, s'.machine.mem a = s.machine.mem a
  pages : ∃ L, Split k s'.machine (L + S) T ∧ (L = 0 ↔ clean)

theorem Failed.of_slot {v : Process} {S : Multiset Addr} {clean : Prop} {pid : Int32}
    (free : (s.proc p).state = .unused) (still : v.state = .unused)
    (kept : ∀ a ∈ S, m.mem a = s.machine.mem a) (pages : ∃ L, Split k m (L + S) T ∧ (L = 0 ↔ clean)) :
    Failed k s ({ s with machine := m, nextpid := pid }.setProc p v) S T clean where
  procs q busy := State.setProc_other _ (by rintro rfl; exact busy free) _
  unused q free := by
    by_cases here : q = p
    · rw [here, State.setProc_self, still]
    · rw [State.setProc_other _ here]
      exact free
  files := rfl
  kept := kept
  pages := pages

/-- With no slot or not enough memory fork() fails. Pages are lost if it ran out of memory
at the page tables of the child. -/
theorem fork_fails {f : Nat} (space : Space k s.machine (s.proc me).pgdir R T)
    (full : ∀ n, n < pageCount (s.proc me).sz → leaf s.machine.mem (s.proc me).pgdir n ≠ none)
    (small : (s.proc me).sz < kernbase) (busy : (s.proc me).state ≠ .unused)
    (count : T.card = f + (pages s.machine.mem (s.proc me).pgdir + R).card)
    (short : (∀ q, (s.proc q).state ≠ .unused) ∨ f ≤ copyCost (s.proc me).sz) :
    ∃ s', fork k me s = some (-1, s') ∧
      Failed k s s' (pages s.machine.mem (s.proc me).pgdir + R) T
        ((∀ q, (s.proc q).state ≠ .unused) ∨ f = 0 ∨ Undone (f - 1)) := by
  have base : kernbase.toNat = 2147483648 := rfl
  have below := UInt32.lt_iff_toNat_lt.mp small
  cases found : slots.find? fun p => (s.proc p).state == .unused with
  | none =>
    have none (q : Slot) : (s.proc q).state ≠ .unused := by
      simpa using List.find?_eq_none.mp found q (List.mem_finRange q)
    refine ⟨s, ?_, fun _ _ => rfl, fun _ free => free, rfl, fun _ _ => rfl, 0, ?_, ?_⟩
    · simp [fork, allocproc, bind, pure, Prog.get, found]
    · rw [Multiset.zero_add]
      exact space.split
    · exact ⟨fun _ => .inl none, fun _ => rfl⟩
  | some p =>
    have free : (s.proc p).state = .unused := by simpa using List.find?_some found
    have other : me ≠ p := by
      rintro rfl
      exact busy free
    have some : ¬ ∀ q, (s.proc q).state ≠ .unused := fun none => none p free
    obtain ⟨v, m, got⟩ := kalloc_returns s.machine
    have alloc := allocproc_eq found got
    obtain ⟨rfl, rfl, all⟩ | ⟨nonzero, valid, mem, split⟩ := space.split.kalloc got
    · -- no page for the kernel stack
      refine ⟨s.tried p s.machine .unused 0, ?_, .of_slot free rfl (fun _ _ => rfl) ⟨0, ?_, ?_⟩⟩
      · simp [fork, bind, pure, alloc]
      · rw [Multiset.zero_add]
        exact space.split
      · rw [all] at count
        exact ⟨fun _ => .inr (.inl (by omega)), fun _ => rfl⟩
    · rw [if_neg nonzero] at alloc
      rw [← mem, ← Multiset.add_cons] at split
      obtain ⟨d, m₁, copy⟩ := copyuvm_returns ⟨split, space.nodup, space.valid⟩ small (by rwa [mem])
      have held := Multiset.card_le_card split.le
      rw [Multiset.add_cons, Multiset.card_cons, mem] at held
      have count' : T.card = (f - 1) + (pages m.mem (s.proc me).pgdir + v ::ₘ R).card := by
        rw [Multiset.add_cons, Multiset.card_cons, mem]
        omega
      obtain ⟨frame, ⟨_, enough, _⟩ | ⟨rfl, _, L, split₁, leak⟩⟩ :=
        copyuvm_spec split space.nodup count' (by omega) copy
      · have := short.resolve_left some
        omega
      obtain ⟨_, m₂, freed⟩ := kfree_returns valid m₁
      rw [Multiset.add_cons, Multiset.add_cons, mem] at split₁
      obtain ⟨split₂, frame'⟩ := split₁.kfree space.nodup freed
      refine ⟨_, fork_eq alloc other copy freed, ?_⟩
      rw [State.tried, State.setProc_setProc]
      refine .of_slot free rfl (fun a mine => ?_) ⟨L, split₂, leak.trans ?_⟩
      · have apart : a ≠ v := by
          rintro rfl
          exact (Multiset.nodup_cons.mp (split₁.nodup space.nodup)).1 (Multiset.mem_add.mpr (.inr mine))
        rw [frame' a apart, frame a (by rw [Multiset.add_cons, mem]; exact Multiset.mem_cons_of_mem mine), mem]
      · refine ⟨fun undone => .inr (.inr undone), ?_⟩
        rintro (none | rfl | undone)
        · exact absurd none some
        · omega
        · exact undone

end fork

/-- A process of one page forks while all other pages are in use. -/
theorem last_page_fork_fails : ∃ (s s' : State) (me : Slot) (R T : Multiset Addr),
    Space smallKernel s.machine (s.proc me).pgdir R T ∧ (s.proc me).sz = 4096 ∧
    fork smallKernel me s = some (-1, s') ∧
    Split smallKernel s'.machine (pages s.machine.mem (s.proc me).pgdir + R) T := by
  obtain ⟨s₀, me, T, space, present, size⟩ := one_page_process
  obtain ⟨F, free, all⟩ := space.split
  let s : State := { s₀ with
    machine := { s₀.machine with freelist := 0 }
    proc := fun q => { s₀.proc q with state := if q = me then .running else .unused } }
  have used : pages s.machine.mem (s.proc me).pgdir + F = T := by
    rw [← all, Multiset.add_zero, Multiset.add_comm]
  have space' : Space smallKernel s.machine (s.proc me).pgdir F T :=
    ⟨⟨[], ⟨rfl, nofun, free.once⟩, (Multiset.zero_add _).trans used⟩, space.nodup, space.valid⟩
  obtain ⟨s', run, failed⟩ := fork_fails (f := 0) space'
    (fun n lt => (present n (Nat.lt_of_lt_of_le lt (by rw [size]; decide))).mpr lt)
    (by rw [size]; decide) (by simp [s]) (by rw [used, Nat.zero_add]) (.inr (Nat.zero_le _))
  obtain ⟨L, split, clean⟩ := failed.pages
  obtain rfl := clean.mpr (.inr (.inl rfl))
  exact ⟨s, s', me, F, T, space', size, run, by rwa [Multiset.zero_add] at split⟩

end Xv6.Vm
