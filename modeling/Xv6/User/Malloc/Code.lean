import Xv6.Lib.Prog
import Xv6.Lib.Words

/-! umalloc.c. The memory of the process has a byte wherever a page is mapped, and an
access elsewhere ends the program. What sbrk() acts on is left open. -/

namespace Xv6.Malloc
open Lib

/-- sizeof(Header) -/
def unit : UInt32 := 8

structure World (σ : Type) where
  mem : Nat → Option UInt8
  freep : UInt32
  os : σ

section code
variable {σ : Type}

def load (a : UInt32) : Prog (World σ) UInt32 := fun w =>
  match readWord w.mem a.toNat with
  | some v => some (v, w)
  | none => none

def store (a v : UInt32) : Prog (World σ) Unit := fun w =>
  match readWord w.mem a.toNat with
  | some _ => some ((), { w with mem := writeWord w.mem a.toNat v })
  | none => none

/-- `p->s.ptr` -/
def ptr (p : UInt32) : Prog (World σ) UInt32 := load p

/-- `p->s.size` -/
def size (p : UInt32) : Prog (World σ) UInt32 := load (p + 4)

def setPtr (p v : UInt32) : Prog (World σ) Unit := store p v

def setSize (p v : UInt32) : Prog (World σ) Unit := store (p + 4) v

def setFreep (p : UInt32) : Prog (World σ) Unit := .modify fun w => { w with freep := p }

/-! ## free() -/

/-- The search for the place of bp, from p on. -/
def freeLoop (bp : UInt32) : Nat → UInt32 → Prog (World σ) UInt32
  | 0, _ => .halt
  | fuel + 1, p => do
    let next ← ptr p
    if bp > p ∧ bp < next then return p
    else if p ≥ next ∧ (bp > p ∨ bp < next) then return p
    else freeLoop bp fuel next

/-- The block bp is joined with the one behind it, if it ends there, and linked. -/
def joinNext (bp p : UInt32) : Prog (World σ) Unit := do
  let n ← size bp
  let next ← ptr p
  if bp + unit * n = next then do
    let m ← size next
    setSize bp (n + m)
    let next ← ptr p
    let q ← ptr next
    setPtr bp q
  else setPtr bp next

/-- The block p is joined with bp, if it ends there, or linked to it. -/
def joinPrev (bp p : UInt32) : Prog (World σ) Unit := do
  let n ← size p
  if p + unit * n = bp then do
    let m ← size bp
    setSize p (n + m)
    let q ← ptr bp
    setPtr p q
  else setPtr p bp

def free (fuel : Nat) (ap : UInt32) : Prog (World σ) Unit := do
  let w ← .get
  let p ← freeLoop (ap - unit) fuel w.freep
  joinNext (ap - unit) p
  joinPrev (ap - unit) p
  setFreep p

/-! ## malloc() -/

/-- (char*)-1 -/
def failed : UInt32 := 0xFFFFFFFF

/-- The number of units that morecore() asks for. -/
def moreUnits (nu : UInt32) : UInt32 := if nu < 4096 then 4096 else nu

def morecore (sbrk : UInt32 → Prog (World σ) UInt32) (fuel : Nat) (nu : UInt32) :
    Prog (World σ) UInt32 := do
  let p ← sbrk (moreUnits nu * unit)
  if p = failed then return 0
  else do
    setSize p (moreUnits nu)
    free fuel (p + unit)
    let w ← .get
    return w.freep

/-- The block p is taken, or its upper end. -/
def take (nunits prevp p : UInt32) : Prog (World σ) UInt32 := do
  let n ← size p
  if n = nunits then do
    let q ← ptr p
    setPtr prevp q
    setFreep prevp
    return p + unit
  else do
    setSize p (n - nunits)
    setSize (p + unit * (n - nunits)) nunits
    setFreep prevp
    return p + unit * (n - nunits) + unit

/-- The loop of malloc(); a round takes one unit of fuel, and each call of free() has
as much as is left. -/
def mallocLoop (sbrk : UInt32 → Prog (World σ) UInt32) (nunits : UInt32) :
    Nat → UInt32 → UInt32 → Prog (World σ) UInt32
  | 0, _, _ => .halt
  | fuel + 1, prevp, p => do
    let n ← size p
    if n ≥ nunits then take nunits prevp p
    else do
      let w ← .get
      if p = w.freep then do
        let p ← morecore sbrk fuel nunits
        if p = 0 then return 0
        else do
          let q ← ptr p
          mallocLoop sbrk nunits fuel p q
      else do
        let q ← ptr p
        mallocLoop sbrk nunits fuel p q

def unitsFor (nbytes : UInt32) : UInt32 := (nbytes + unit - 1) / unit + 1

/-- The list of free blocks before the first call: base alone. -/
def initBase (base : UInt32) : Prog (World σ) Unit := do
  setPtr base base
  setFreep base
  setSize base 0

def malloc (base : UInt32) (sbrk : UInt32 → Prog (World σ) UInt32) (fuel : Nat) (nbytes : UInt32) :
    Prog (World σ) UInt32 := do
  let w ← .get
  .when (w.freep = 0) (initBase base)
  let w ← .get
  let p ← ptr w.freep
  mallocLoop sbrk (unitsFor nbytes) fuel w.freep p

end code
end Xv6.Malloc
