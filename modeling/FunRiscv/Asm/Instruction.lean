import FunRiscv.Asm.Register

/-!
# Instructions

* `Instr`: one line of a listing. Besides machine instructions these are the usual pseudo
  instructions, labels and comments.
* `Instr.dest`, `Instr.reads`: the register that an instruction writes and those that it reads.
* `Instr.mapRegs`: replaces registers, those written and those read each in their own way.
* `Instr.text`: how an instruction is written.
-/

namespace FunRiscv

/-! ### Operations -/

/-- Operations on two registers. -/
inductive RegOp where
  | add | sub | xor | or | and | sll | srl | sra | slt | sltu | mul | div | divu | rem | remu
deriving DecidableEq, Repr, Inhabited

/-- Operations on a register and an immediate number. -/
inductive ImmOp where
  | addi | xori | ori | andi | slli | srli | srai | slti | sltiu
deriving DecidableEq, Repr, Inhabited

/-- Loads from memory. -/
inductive LoadOp where
  | lw | lh | lb | lhu | lbu
deriving DecidableEq, Repr, Inhabited

/-- Stores to memory. -/
inductive StoreOp where
  | sw | sh | sb
deriving DecidableEq, Repr, Inhabited

/-- Conditional branches. -/
inductive BranchOp where
  | beq | bne | blt | bge | bltu | bgeu
deriving DecidableEq, Repr, Inhabited

namespace RegOp

def all : List RegOp :=
  [add, sub, xor, or, and, sll, srl, sra, slt, sltu, mul, div, divu, rem, remu]

def text : RegOp → String
  | add => "add" | sub => "sub" | xor => "xor" | or => "or" | and => "and" | sll => "sll" | srl =>
  "srl" | sra => "sra"
  | slt => "slt" | sltu => "sltu" | mul => "mul" | div => "div" | divu => "divu" | rem =>
  "rem" | remu => "remu"

def ofText? (s : String) : Option RegOp := all.find? (·.text == s)

end RegOp

namespace ImmOp

def all : List ImmOp := [addi, xori, ori, andi, slli, srli, srai, slti, sltiu]

def text : ImmOp → String
  | addi => "addi" | xori => "xori" | ori => "ori" | andi => "andi" | slli => "slli" | srli =>
  "srli" | srai => "srai"
  | slti => "slti" | sltiu => "sltiu"

def ofText? (s : String) : Option ImmOp := all.find? (·.text == s)

end ImmOp

namespace LoadOp

def all : List LoadOp := [lw, lh, lb, lhu, lbu]

def text : LoadOp → String
  | lw => "lw" | lh => "lh" | lb => "lb" | lhu => "lhu" | lbu => "lbu"

def ofText? (s : String) : Option LoadOp := all.find? (·.text == s)

end LoadOp

namespace StoreOp

def all : List StoreOp := [sw, sh, sb]

def text : StoreOp → String
  | sw => "sw" | sh => "sh" | sb => "sb"

def ofText? (s : String) : Option StoreOp := all.find? (·.text == s)

end StoreOp

namespace BranchOp

def all : List BranchOp := [beq, bne, blt, bge, bltu, bgeu]

def text : BranchOp → String
  | beq => "beq" | bne => "bne" | blt => "blt" | bge => "bge" | bltu => "bltu" | bgeu => "bgeu"

def ofText? (s : String) : Option BranchOp := all.find? (·.text == s)

end BranchOp

/-! ### Lines -/

/-- One line of a listing. -/
inductive Instr where
  | reg (op : RegOp) (rd rs1 rs2 : Reg)
  | imm (op : ImmOp) (rd rs : Reg) (value : Int32)
  | load (op : LoadOp) (rd base : Reg) (offset : Int32)
  | store (op : StoreOp) (src base : Reg) (offset : Int32)
  | branch (op : BranchOp) (rs1 rs2 : Reg) (target : String)
  | jal (rd : Reg) (target : String)
  | jalr (rd rs : Reg) (offset : Int32)
  | lui (rd : Reg) (value : Int32)
  | auipc (rd : Reg) (value : Int32)
  | ecall
  | li (rd : Reg) (value : Int32)
  | la (rd : Reg) (target : String)
  | mv (rd rs : Reg)
  | label (name : String)
  | comment (note : String)
deriving DecidableEq, Repr, Inhabited

/-- A sequence of lines. -/
abbrev Listing := List Instr

namespace Instr

/-- The register that an instruction writes; the zero register if it writes none. -/
def dest : Instr → Reg
  | reg _ rd _ _ | imm _ rd _ _ | load _ rd _ _ | jal rd _ | jalr rd _ _ | lui rd _ | auipc rd _
  | li rd _ | la rd _ | mv rd _ => rd
  | store .. | branch .. | ecall | label _ | comment _ => .zero

/-- The registers that an instruction reads, in the order of its operands. -/
def reads : Instr → List Reg
  | reg _ _ rs1 rs2 | branch _ rs1 rs2 _ => [rs1, rs2]
  | imm _ _ rs _ | jalr _ rs _ | mv _ rs => [rs]
  | load _ _ base _ => [base]
  | store _ src base _ => [src, base]
  | jal .. | lui .. | auipc .. | ecall | li .. | la .. | label _ | comment _ => []

/-- Replaces the register written by its image under `written` and each register read by its
image under `read`. -/
def mapRegs (written read : Reg → Reg) : Instr → Instr
  | reg op rd rs1 rs2 => reg op (written rd) (read rs1) (read rs2)
  | imm op rd rs value => imm op (written rd) (read rs) value
  | load op rd base offset => load op (written rd) (read base) offset
  | store op src base offset => store op (read src) (read base) offset
  | branch op rs1 rs2 target => branch op (read rs1) (read rs2) target
  | jal rd target => jal (written rd) target
  | jalr rd rs offset => jalr (written rd) (read rs) offset
  | lui rd value => lui (written rd) value
  | auipc rd value => auipc (written rd) value
  | ecall => ecall
  | li rd value => li (written rd) value
  | la rd target => la (written rd) target
  | mv rd rs => mv (written rd) (read rs)
  | label name => label name
  | comment note => comment note

/-- Whether an instruction is a call: a jump that leaves its return address in the
register for it. -/
def isCall : Instr → Bool
  | jal rd _ => rd == .ra
  | _ => false

/-- How a number is written. -/
def number (n : Int32) : String := toString n.toInt

/-- An operand in memory: an offset from a register. -/
def place (offset : Int32) (base : Reg) : String := number offset ++ "(" ++ base.text ++ ")"

/-- An operation with its operands. -/
def line (op : String) (operands : List String) : String :=
  "    " ++ op ++ " " ++ String.intercalate ", " operands

/-- How an instruction is written. -/
def text : Instr → String
  | reg op rd rs1 rs2 => line op.text [rd.text, rs1.text, rs2.text]
  | imm op rd rs value => line op.text [rd.text, rs.text, number value]
  | load op rd base offset => line op.text [rd.text, place offset base]
  | store op src base offset => line op.text [src.text, place offset base]
  | branch op rs1 rs2 target => line op.text [rs1.text, rs2.text, target]
  | jal rd target => line "jal" [rd.text, target]
  | jalr rd rs offset => line "jalr" [rd.text, place offset rs]
  | lui rd value => line "lui" [rd.text, number value]
  | auipc rd value => line "auipc" [rd.text, number value]
  | ecall => "    ecall"
  | li rd value => line "li" [rd.text, number value]
  | la rd target => line "la" [rd.text, target]
  | mv rd rs => line "mv" [rd.text, rs.text]
  | label name => name ++ ":"
  | comment note => "    # " ++ note

end Instr

/-- A listing as text, one instruction a line. -/
def Listing.text (code : Listing) : String := String.join (code.map fun i => i.text ++ "\n")

/-- Whether a number fits the immediate field of an instruction, which has twelve bits
with a sign. -/
def fitsImmediate (n : Int32) : Bool := -2048 ≤ n && n ≤ 2047

end FunRiscv
