import FunRiscv.Alloc.Heap
import FunRiscv.Alloc.LiveRange

/-!
# Register allocation

Virtual registers get machine registers by a scan over their live ranges. A range that a call
lies in takes a register that calls preserve; any other prefers one that they do not. When no
register is left, the range that ends last goes to the stack, where each value has a word of its
own and passes through scratch registers. The ranges that are still to come and those that hold a
register are kept in heaps.

* `Pools`: the registers to choose from.
* `LinearScan`: the state of the scan, and `LinearScan.visit`: its step.
* `Placement.realize`: puts the choice into the instructions.
* `allocate`: both together.
-/

namespace FunRiscv

/-- The registers to choose from. -/
structure Pools where
  /-- Registers that calls may change. -/
  temps : List Reg
  /-- Registers that calls preserve. -/
  saved : List Reg
deriving DecidableEq, Repr, Inhabited

/-- The registers `t0` to `t4`, and `s1` to `s11`. -/
def Pools.standard : Pools where
  temps := [⟨5⟩, ⟨6⟩, ⟨7⟩, ⟨28⟩, ⟨29⟩]
  saved := [⟨9⟩, ⟨18⟩, ⟨19⟩, ⟨20⟩, ⟨21⟩, ⟨22⟩, ⟨23⟩, ⟨24⟩, ⟨25⟩, ⟨26⟩, ⟨27⟩]

/-- The size of a word on the stack. -/
def wordSize : Nat := 4

/-- The places given to virtual registers. -/
structure Placement where
  /-- Virtual registers with their machine registers. -/
  assigned : List (Reg × Reg) := []
  /-- Virtual registers on the stack with their offsets, the latest first. -/
  spilled : List (Reg × Int32) := []
deriving DecidableEq, Repr, Inhabited

namespace Placement

/-- The machine register of a virtual register; one that has none reads as zero. -/
def home (p : Placement) (r : Reg) : Reg := (p.assigned.lookup r).getD .zero

/-- The offset of a virtual register on the stack. -/
def slot? (p : Placement) (r : Reg) : Option Int32 := p.spilled.lookup r

/-- Gives a machine register to a virtual one. -/
def assign (p : Placement) (r home : Reg) : Placement :=
  { p with assigned := (r, home) :: p.assigned }

/-- Moves a virtual register to the next free word on the stack. -/
def spill (p : Placement) (base : Int32) (r : Reg) : Placement where
  assigned := p.assigned.filter (·.1 != r)
  spilled := (r, base + Int32.ofNat wordSize * Int32.ofNat p.spilled.length) :: p.spilled

end Placement

/-! ### The scan -/

/-- The state of the scan. -/
structure LinearScan where
  freeTemps : BitSet
  freeSaved : BitSet
  /-- The preserved registers that were chosen at some time. -/
  used : BitSet := {}
  /-- The ranges that hold a machine register, as a heap by their ends. -/
  active : Array LiveRange := #[]
  placement : Placement := {}

namespace LinearScan

/-- The order of ranges to visit: by start, then by register. -/
def startsBefore (v w : LiveRange) : Bool :=
  if v.start ≠ w.start then v.start < w.start else v.reg.number < w.reg.number

/-- The order of active ranges: by end, then by register. -/
def endsBefore (v w : LiveRange) : Bool :=
  if v.stop ≠ w.stop then v.stop < w.stop else v.reg.number < w.reg.number

/-- The state before the first range. -/
def start (pools : Pools) : LinearScan where
  freeTemps := .ofList (pools.temps.map (·.number))
  freeSaved := .ofList (pools.saved.map (·.number))

/-- Makes a machine register free again. -/
def release (s : LinearScan) (r : Reg) : LinearScan :=
  if r.isSaved then { s with freeSaved := s.freeSaved.insert r.number }
  else { s with freeTemps := s.freeTemps.insert r.number }

/-- Takes a machine register. -/
def take (s : LinearScan) (r : Reg) : LinearScan :=
  if r.isSaved then
    { s with freeSaved := s.freeSaved.erase r.number, used := s.used.insert r.number }
  else { s with freeTemps := s.freeTemps.erase r.number }

variable [Heap]

/-- Frees the registers of the ranges that end at or before a place, at most `count` of them. -/
def expire (place : Nat) : (count : Nat) → LinearScan → LinearScan
  | 0, s => s
  | count + 1, s =>
    match Heap.pop? endsBefore s.active with
    | some (v, rest) =>
      if v.stop ≤ place then expire place count
        ({ s with active := rest }.release (s.placement.home v.reg)) else s
    | none => s

/-- The register to take for a range: of those that calls may change if there is one and no call
lies in the range, else of those that calls preserve. The lowest is taken. -/
def choose? (s : LinearScan) (v : LiveRange) : Option Reg :=
  match if v.crossesCall then none else s.freeTemps.first? with
  | some n => some ⟨n⟩
  | none => s.freeSaved.first?.map Reg.mk

/-- Whether a range could use the register of an active one. -/
def suits (s : LinearScan) (v other : LiveRange) : Bool :=
  !v.crossesCall || (s.placement.home other.reg).isSaved

/-- The active range, with its place, that ends last among those whose register a range could use;
of several, the first in the heap. -/
def victim? (s : LinearScan) (v : LiveRange) : Option (LiveRange × Nat) :=
  (s.active.toList.zipIdx.filter fun (w, _) => s.suits v w).foldl (fun best (w, i) =>
    match best with
    | none => some (w, i)
    | some (b, j) => if b.stop < w.stop then some (w, i) else some (b, j)) none

/-- Places one range. -/
def visit (base : Int32) (s : LinearScan) (v : LiveRange) : LinearScan :=
  let s := expire v.start s.active.size s
  match s.choose? v with
  | some r =>
    let s := s.take r
    { s with placement := s.placement.assign v.reg r, active := Heap.push endsBefore s.active v }
  | none =>
    match s.victim? v with
    | none => { s with placement := s.placement.spill base v.reg }
    | some (old, i) =>
      if old.stop ≤ v.stop then { s with placement := s.placement.spill base v.reg }
      else
        let r := s.placement.home old.reg
        { s with
          placement := (s.placement.spill base old.reg).assign v.reg r
          active := Heap.replace endsBefore s.active i v }

/-- Places ranges one after the other, in the order in which they start. -/
def run (pools : Pools) (base : Int32) (ranges : List LiveRange) : LinearScan :=
  (Heap.inOrder startsBefore ranges).foldl (visit base) (start pools)

end LinearScan

/-! ### Putting the placement into code -/

/-- The registers that values on the stack pass through. -/
def scratch : List Reg := [.t5, .t6]

namespace Placement

/-- The distinct registers on the stack among some registers, in the order of their
first occurrence. -/
def stacked (p : Placement) (rs : List Reg) : List (Reg × Int32) :=
  rs.eraseDups.filterMap fun r => (p.slot? r).map (r, ·)

/-- The place from which a register is read, where some registers were loaded into the
scratch registers. -/
def source (p : Placement) (loaded : List (Reg × Reg)) (r : Reg) : Reg :=
  if !r.isVirtual then r
  else
    match loaded.lookup r with
    | some s => s
    | none => p.home r

/-- The place to which a register is written. -/
def target (p : Placement) (r : Reg) : Reg :=
  if !r.isVirtual then r
  else
    match p.slot? r with
    | some _ => .t5
    | none => p.home r

/-- An instruction on machine registers, with the loads before it and the store after it that values
on the stack need. -/
def realizeInstr (p : Placement) (i : Instr) : Listing :=
  let stacked := p.stacked i.reads
  let loads := (scratch.zip stacked).map fun (s, _, offset) => Instr.load .lw s .sp offset
  let loaded := (stacked.map (·.1)).zip scratch
  let stores := match if i.dest.isVirtual then p.slot? i.dest else none with
    | some offset => [Instr.store .sw .t5 .sp offset]
    | none => []
  loads ++ i.mapRegs p.target (p.source loaded) :: stores

/-- A listing on machine registers. -/
def realize (p : Placement) (code : Listing) : Listing := code.flatMap p.realizeInstr

end Placement

/-- The outcome of allocation. -/
structure Allocation where
  code : Listing
  placement : Placement
  /-- The preserved registers that the code writes, in increasing order. -/
  saved : List Reg

/-- How many words on the stack the code needs. -/
def Allocation.spills (a : Allocation) : Nat := a.placement.spilled.length

/-- Gives machine registers to the virtual registers of a listing. Words on the stack start at an
offset from the stack pointer. -/
def allocate [Heap] (pools : Pools) (base : Int32) (code : Listing) :
    Except UnwrittenRegister Allocation := do
  let ranges ← liveRanges code
  let s := LinearScan.run pools base ranges
  return {
    code := s.placement.realize code, placement := s.placement
    saved := s.used.toList.map Reg.mk }

end FunRiscv
