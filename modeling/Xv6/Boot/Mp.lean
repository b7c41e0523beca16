import Mathlib.Logic.Function.Basic
import Xv6.Lib.Memory
import Xv6.Vm.Machine

/-! mp.c: the search for a multiprocessor configuration table, and the loop over its
entries. Memory is read only; that it is mapped where the table is, is not modelled. -/

namespace Xv6.Mp
open Lib
open Vm (p2v)

/-! ## The configuration table -/

def sum (m : Memory) (addr : UInt32) (len : Nat) : UInt8 :=
  (List.range len).foldl (fun s i => s + m (addr + .ofNat i)) 0

def half (m : Memory) (p : UInt32) : UInt32 := (m p).toUInt32 + 256 * (m (p + 1)).toUInt32

def maxCpu : Nat := 8

/-- What mpinit() sets; `ports` are the values sent with outb(). -/
structure Globals where
  ismp : Bool
  ncpu : Nat
  apicid : Fin maxCpu → UInt8
  ioapicid : UInt8
  lapic : UInt32
  ports : List (UInt16 × UInt8)

def mpproc : UInt8 := 0x00

def mpbus : UInt8 := 0x01

def mpioapic : UInt8 := 0x02

def mpiointr : UInt8 := 0x03

def mplintr : UInt8 := 0x04

def addCpu (g : Globals) (id : UInt8) : Globals :=
  if h : g.ncpu < maxCpu then
    { g with apicid := Function.update g.apicid ⟨g.ncpu, h⟩ id, ncpu := g.ncpu + 1 }
  else g

/-- The switch: where the cursor is then, and the variables. -/
def entry (m : Memory) (p : UInt32) (g : Globals) : UInt32 × Globals :=
  if m p = mpproc then (p + 20, addCpu g (m (p + 1)))
  else if m p = mpioapic then (p + 8, { g with ioapicid := m (p + 1) })
  else if m p = mpbus ∨ m p = mpiointr ∨ m p = mplintr then (p + 8, g)
  else (p, { g with ismp := false }) -- break leaves the switch, not the loop

/-- The loop over the entries; `none` if it has not ended within the fuel. -/
def entries (m : Memory) (e : UInt32) : Nat → UInt32 → Globals → Option Globals
  | 0, _, _ => none
  | fuel + 1, p, g =>
    if p < e then entries m e fuel (entry m p g).1 (entry m p g).2 else some g

variable {m : Memory} {e p n : UInt32} {g g' : Globals}

end Xv6.Mp
