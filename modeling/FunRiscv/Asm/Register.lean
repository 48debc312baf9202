/-!
# Registers

Integer registers are numbered: the first 32 numbers are the registers of the machine, in the
order of their encoding, and every later number is a virtual register, which stands for a value
that has no place yet.

* `Reg`: a register.
* `Reg.isVirtual`, `Reg.isSaved`: virtual registers, and the registers that a called
  function has to preserve.
* `Reg.arg?`: the registers that carry arguments.
* `Reg.text`, `Reg.ofText?`: how registers are written.
-/

namespace FunRiscv

/-- A register, by its number. -/
structure Reg where
  number : Nat
deriving DecidableEq, Repr, Inhabited

namespace Reg

/-- How many registers the machine has. -/
def machineCount : Nat := 32

/-- The names of the machine's registers, in the order of their numbers. -/
def machineNames : List String :=
  ["zero", "ra", "sp", "gp", "tp", "t0", "t1", "t2", "s0", "s1", "a0", "a1", "a2", "a3", "a4", "a5",
    "a6", "a7", "s2", "s3", "s4", "s5", "s6", "s7", "s8", "s9", "s10", "s11", "t3",
    "t4", "t5", "t6"]

/-- The register that always reads as zero. -/
def zero : Reg := ⟨0⟩

/-- The return address. -/
def ra : Reg := ⟨1⟩

/-- The stack pointer. -/
def sp : Reg := ⟨2⟩

/-- The first argument, and the result of a function. -/
def a0 : Reg := ⟨10⟩

/-- The first scratch register. -/
def t5 : Reg := ⟨30⟩

/-- The second scratch register. -/
def t6 : Reg := ⟨31⟩

/-- The virtual register of an index. -/
def virtual (n : Nat) : Reg := ⟨machineCount + n⟩

/-- Whether a register is virtual. -/
def isVirtual (r : Reg) : Bool := machineCount ≤ r.number

/-- Whether the number of a register is one of those that a called function has to preserve. -/
def isSavedNumber (n : Nat) : Bool := n == 8 || n == 9 || (18 ≤ n && n ≤ 27)

/-- Whether a called function has to preserve the register. -/
def isSaved (r : Reg) : Bool := isSavedNumber r.number

/-- How many arguments are passed in registers. -/
def argCount : Nat := 8

/-- The register of an argument that is known to be passed in one. -/
def arg (i : Nat) : Reg := ⟨a0.number + i⟩

/-- The register of an argument, if it is passed in one. -/
def arg? (i : Int) : Option Reg := if 0 ≤ i ∧ i < argCount then some (arg i.toNat) else none

/-- How a register is written: a machine register by its name, a virtual one by its index. -/
def text (r : Reg) : String :=
  match machineNames[r.number]? with
  | some name => name
  | none => "v" ++ toString (r.number - machineCount)

/-- How a number is written where a register is expected. A negative number belongs to
no register. -/
def codeText (n : Int) : String := if n < 0 then "Reg(" ++ toString n ++ ")" else text ⟨n.toNat⟩

/-- The register that is written as a text. -/
def ofText? (s : String) : Option Reg :=
  match machineNames.findIdx? (· == s) with
  | some n => some ⟨n⟩
  | none =>
    match s.toList with
    | 'v' :: digits =>
      if !digits.isEmpty && digits.all Char.isDigit then (String.ofList digits).toNat?.map
        virtual else none
    | _ => none

end Reg

end FunRiscv
