import FunRiscv.Asm.Instruction
import FunRiscv.BitSet.Basic

/-!
# Live ranges

The live range of a virtual register goes from the first instruction that writes it to the last
one in which it occurs.

* `LiveRange`: a range, with whether a call lies strictly inside.
* `liveRanges`: the ranges of a listing, in the order in which they start. A register must be
  written before it is read.
-/

namespace FunRiscv

/-- The range of places in which a virtual register holds a value. -/
structure LiveRange where
  reg : Reg
  start : Nat
  stop : Nat
  /-- Whether a call lies strictly inside the range. -/
  crossesCall : Bool := false
deriving DecidableEq, Repr, Inhabited

/-- A virtual register that is read before it is written. -/
structure UnwrittenRegister where
  reg : Reg
  place : Nat
deriving DecidableEq, Repr, Inhabited

namespace LiveRange

/-- Whether a range is that of a register. -/
def isOf (r : Reg) (v : LiveRange) : Bool := v.reg == r

/-- Extends the range of a register up to a place. -/
def extend (ranges : List LiveRange) (r : Reg) (place : Nat) : List LiveRange :=
  ranges.map fun v => if v.isOf r then { v with stop := place } else v

/-- The ranges after a register is read. -/
def read (place : Nat) (ranges : List LiveRange) (r : Reg) :
    Except UnwrittenRegister (List LiveRange) :=
  if !r.isVirtual then .ok ranges
  else if ranges.any (isOf r) then .ok (extend ranges r place)
  else .error ⟨r, place⟩

/-- The ranges after a register is written. -/
def write (place : Nat) (ranges : List LiveRange) (r : Reg) : List LiveRange :=
  if !r.isVirtual then ranges
  else if ranges.any (isOf r) then extend ranges r place
  else ⟨r, place, place, false⟩ :: ranges

/-- The ranges after an instruction, the latest to start first. -/
def step (ranges : List LiveRange) (place : Nat) (i : Instr) :
    Except UnwrittenRegister (List LiveRange) := do
  let ranges ← i.reads.foldlM (read place) ranges
  return write place ranges i.dest

/-- The ranges after instructions, the first of which stands at a place. -/
def scan (ranges : List LiveRange) :
    (place : Nat) → Listing → Except UnwrittenRegister (List LiveRange)
  | _, [] => .ok ranges
  | place, i :: code => do
    let ranges ← step ranges place i
    scan ranges (place + 1) code

end LiveRange

/-- The places of the calls in instructions, the first of which stands at a place. -/
def callsFrom (place : Nat) (calls : BitSet) : Listing → BitSet
  | [] => calls
  | i :: code => callsFrom (place + 1) (if i.isCall then calls.insert place else calls) code

/-- The live ranges of a listing, in the order in which they start. -/
def liveRanges (code : Listing) : Except UnwrittenRegister (List LiveRange) := do
  let ranges ← LiveRange.scan [] 0 code
  let calls := callsFrom 0 .empty code
  return ranges.reverse.map fun v => { v with crossesCall := calls.anyFrom (v.start + 1) v.stop }

end FunRiscv
