import FunRiscv.Codegen.Error
import FunRiscv.Surface.Functions
import FunRiscv.Surface.Printer
import FunRiscv.Text.Blank

/-!
# Lowering

Statements and expressions become instructions on virtual registers. Variables live in
words of the stack frame.

* `Slots`: the words of the variables in scope.
* `LowerContext`: what stays the same in a function, and `Supply`: the numbers of labels, registers
  and words handed out.
* `lowerExpr`: the code of an expression with the register that holds its value.
* `lowerBody`: the code of a function's statements, with the words that its variables take.
-/

namespace FunRiscv

/-- Where the first variable lies in the frame. -/
def slotBase : Nat := 8

/-- The size of a variable in the frame. -/
def slotSize : Nat := 4

/-- The variables in scope with their offsets in the frame. Of two entries for a name
the first counts. -/
abbrev Slots := List (String × Int32)

/-- The label of a function. -/
def functionLabel (name : String) : String :=
  if name == "main" then "main" else
    "function." ++ String.ofList (name.toList.map fun c => if c == '/' then '_' else c)

/-- What stays the same while a function is lowered. -/
structure LowerContext where
  /-- The qualified names of the program's functions. -/
  functions : List String
  /-- What qualifies the name of the function. -/
  path : String
  /-- The label of the function's end. -/
  exit : String
  /-- How deeply blocks and expressions may be nested. -/
  maxDepth : Int
  /-- Whether statements are shown in comments. -/
  comments : Bool
deriving Repr, Inhabited

/-- The label of the function that a name means: a qualified name, or one relative to the current
function's module. -/
def LowerContext.functionLabel? (c : LowerContext) (name : String) : Option String :=
  if c.functions.contains name then some (functionLabel name)
  else if c.path ≠ "" && c.functions.contains (c.path ++ name) then
  some (functionLabel (c.path ++ name))
  else none

/-- How many labels, registers and words of the frame were handed out. Labels count through
the whole program. -/
structure Supply where
  labels : Nat := 0
  regs : Nat := 0
  slots : Nat := 0
deriving DecidableEq, Repr, Inhabited

/-- An action that hands out numbers and may fail. -/
abbrev Lowering := StateT Supply (Except CodegenError)

namespace Lowering

/-- Fails at a place. -/
def fail {α : Type} (loc : Location) (cause : CodegenCause) : Lowering α := throw ⟨loc, cause⟩

/-- A new label. -/
def newLabel (stem : String) : Lowering String := do
  let s ← get
  set { s with labels := s.labels + 1 }
  return stem ++ "_" ++ toString (s.labels + 1)

/-- A new virtual register. -/
def newReg : Lowering Reg := do
  let s ← get
  set { s with regs := s.regs + 1 }
  return .virtual s.regs

/-- A new word of the frame. -/
def newSlot : Lowering Int32 := do
  let s ← get
  set { s with slots := s.slots + 1 }
  return Int32.ofNat (slotBase + slotSize * s.slots)

/-- Fails if a place is nested too deeply. -/
def checkDepth (c : LowerContext) (depth : Nat) (loc : Location) : Lowering Unit :=
  if c.maxDepth < depth then fail loc (.nesting c.maxDepth) else pure ()

/-- A new register with a number in it. -/
def constant (n : Int32) : Lowering (Listing × Reg) := do
  let r ← newReg
  return ([.li r n], r)

/-! ### Expressions -/

/-- The greatest literal without a sign. -/
def maxUnsigned : Nat := 0xffffff

/-- The least literal with a sign. -/
def minSigned : Int := -0x800000

/-- The greatest literal with a sign. -/
def maxSigned : Int := 0x7fffff

/-- The value of a variable or the address of a function. -/
def loadVariable (c : LowerContext) (slots : Slots) (loc : Location) (name : String) :
    Lowering (Listing × Reg) := do
  let r ← newReg
  match slots.lookup name with
  | some offset => return ([.load .lw r .sp offset], r)
  | none =>
    match c.functionLabel? name with
    | some l => return ([.la r l], r)
    | none => fail loc (.undefinedVariable name)

/-- The instructions of an operator on two registers, with the result in a third; a fourth is taken
from `t` if it is needed. -/
def operatorCode (op : Operator) (d l r : Reg) (t : Reg) : Listing :=
  match op with
  | .add => [.reg .add d l r]
  | .sub => [.reg .sub d l r]
  | .mul => [.reg .mul d l r]
  | .div => [.reg .div d l r]
  | .mod => [.reg .rem d l r]
  | .and => [.reg .and d l r]
  | .or => [.reg .or d l r]
  | .xor => [.reg .xor d l r]
  | .shl => [.reg .sll d l r]
  | .shr => [.reg .sra d l r]
  | .lt => [.reg .slt d l r]
  | .gt => [.reg .slt d r l]
  | .eq => [.reg .sub t l r, .imm .sltiu d t 1]
  | .ne => [.reg .sub t l r, .reg .sltu d .zero t]
  | .le => [.reg .slt t r l, .imm .xori d t 1]
  | .ge => [.reg .slt t l r, .imm .xori d t 1]
  | .pow => []

/-- Whether an operator needs a register for an intermediate value. -/
def needsIntermediate : Operator → Bool
  | .eq | .ne | .le | .ge => true
  | _ => false

/-- The code of an operator on two registers with the register of its result. -/
def operator (op : Operator) (l r : Reg) : Lowering (Listing × Reg) := do
  let d ← newReg
  let t ← if needsIntermediate op then newReg else pure d
  return (operatorCode op d l r t, d)

/-- The label of the function that a call goes to. The callee has to be the name of a function. -/
def callee (c : LowerContext) (slots : Slots) (loc : Location) (f : Expr) (args : Nat)
    (named : Bool) : Lowering String :=
  match f with
  | .var vloc name =>
    match slots.lookup name, c.functionLabel? name with
    | some _, _ => fail loc (.unsupported ("call through variable " ++ name))
    | none, none => fail vloc (.undefinedVariable name)
    | none, some l =>
      if named then fail loc (.unsupported "named arguments")
      else if Reg.argCount < args then fail loc (.tooManyArgs name args)
      else pure l
  | _ => fail loc (.unsupported "indirect call")

/-- Puts values into the argument registers, from the `i`-th on. -/
def passArgs (i : Nat) : List Reg → Listing
  | [] => []
  | r :: rs => .mv (.arg i) r :: passArgs (i + 1) rs

/-- Goes to one label if a register is not zero and to another if it is; the first follows. -/
def choose (cond : Reg) (thenLabel elseLabel : String) : Listing :=
  [.branch .bne cond .zero thenLabel, .jal .zero elseLabel, .label thenLabel]

mutual

/-- The code of an expression with the register that holds its value. -/
def lowerExpr (c : LowerContext) (slots : Slots) (depth : Nat) (x : Expr) :
    Lowering (Listing × Reg) := do
  checkDepth c depth x.loc
  match x with
  | .uint loc v => if maxUnsigned < v.toNat then fail loc (.literalRange v.toNat .u24) else
    constant (Int32.ofNat v.toNat)
  | .int loc v =>
    if v.toInt < minSigned ∨ maxSigned < v.toInt then fail loc (.literalRange v.toInt .i24)
      else constant v
  | .bool _ v => constant (if v then 1 else 0)
  | .eraser _ => constant 0
  | .var loc name => loadVariable c slots loc name
  | .binOp loc op l r =>
    if op = .pow then fail loc (.unsupported "operator **")
    else do
      let (lc, lr) ← lowerExpr c slots (depth + 1) l
      let (rc, rr) ← lowerExpr c slots (depth + 1) r
      let (oc, d) ← operator op lr rr
      return (lc ++ rc ++ oc, d)
  | .call loc f as ns => do
    let l ← callee c slots loc f as.length (!ns.isEmpty)
    let (ac, rs) ← lowerArgs c slots (depth + 1) as
    let d ← newReg
    return (ac ++ passArgs 0 rs ++ [.jal .ra l, .mv d .a0], d)
  | .ifElse _ cond t e => do
    let (cc, cr) ← lowerExpr c slots (depth + 1) cond
    let d ← newReg
    let thenLabel ← newLabel "then"
    let elseLabel ← newLabel "else"
    let endLabel ← newLabel "endif"
    let (tc, tr) ← lowerExpr c slots (depth + 1) t
    let (ec, er) ← lowerExpr c slots (depth + 1) e
    return (cc ++ choose cr thenLabel elseLabel ++ tc ++ [.mv d tr, .jal .zero endLabel,
      .label elseLabel] ++ ec ++
      [.mv d er, .label endLabel], d)
  | .matchOn _ s cases => do
    let (sc, sr) ← lowerExpr c slots (depth + 1) s
    let d ← newReg
    let endLabel ← newLabel "match_end"
    let body ← lowerCases c slots (depth + 1) sr d endLabel cases
    return (sc ++ body ++ [.li d 0, .label endLabel], d)
  | .float loc _ => fail loc (.unsupported "float")
  | .str loc _ => fail loc (.unsupported "string")
  | .tuple loc _ => fail loc (.unsupported "tuple")
  | .list loc _ => fail loc (.unsupported "list")
  | .lambda loc _ _ => fail loc (.unsupported "lambda")
  | .access loc _ _ => fail loc (.unsupported "field access")
  | .missing => fail {} .gap

/-- The code of arguments, one after the other, with the registers of their values. -/
def lowerArgs (c : LowerContext) (slots : Slots) (depth : Nat) :
    List Expr → Lowering (Listing × List Reg)
  | [] => return ([], [])
  | x :: xs => do
    let (code, r) ← lowerExpr c slots depth x
    let (rest, rs) ← lowerArgs c slots depth xs
    return (code ++ rest, r :: rs)

/-- The code of the arms of a match on a register: the first arm whose pattern fits leaves its value
in `d` and goes to the end. -/
def lowerCases (c : LowerContext) (slots : Slots) (depth : Nat) (scrutinee d : Reg)
    (endLabel : String) : List Case → Lowering Listing
  | [] => return []
  | .mk _ pattern body :: rest => do
    let next ← newLabel "case"
    let (test, inner) ← lowerPattern c slots depth scrutinee next pattern
    let (code, r) ← lowerExpr c inner depth body
    let others ← lowerCases c slots depth scrutinee d endLabel rest
    return test ++ code ++ [.mv d r, .jal .zero endLabel, .label next] ++ others

/-- The code that goes to `next` unless a pattern fits a register, with the variables in
scope when it does. -/
def lowerPattern (c : LowerContext) (slots : Slots) (depth : Nat) (scrutinee : Reg)
    (next : String) : Pattern → Lowering (Listing × Slots)
  | .lit _ v => do
    let (code, r) ← lowerExpr c slots depth v
    return (code ++ [.branch .bne scrutinee r next], slots)
  | .var _ name => do
    let offset ← newSlot
    return ([.store .sw scrutinee .sp offset], (name, offset) :: slots)
  | .wild _ => return ([], slots)
  | .cons loc _ _ => fail loc (.unsupported "pattern constructor")
  | .tuple loc _ => fail loc (.unsupported "pattern tuple")
  | .missing => fail {} .gap

end

/-! ### Statements -/

/-- The comment on a statement: its place and the first line of its source form. -/
def describe (s : Stmt) : Lowering Instr :=
  match s with
  | .missing => fail {} .gap
  | s =>
    match (Node.stmt s).text with
    | .ok t => return .comment (s.loc.text ++ ": " ++
      Text.trim (String.ofList (t.toList.takeWhile (· != '\n'))))
    | .error _ => fail s.loc .undescribable

/-- The word of a variable, a new one if it has none yet, with the variables in scope after that. -/
def slotOf (slots : Slots) (name : String) : Lowering (Int32 × Slots) :=
  match slots.lookup name with
  | some offset => return (offset, slots)
  | none => do
    let offset ← newSlot
    return (offset, (name, offset) :: slots)

/-- The code that keeps the value of an expression in a variable. -/
def lowerStore (c : LowerContext) (slots : Slots) (depth : Nat) (name : String) (x : Expr) :
    Lowering (Listing × Slots) := do
  let (code, r) ← lowerExpr c slots depth x
  let (offset, slots) ← slotOf slots name
  return (code ++ [.store .sw r .sp offset], slots)

/-- The code that leaves the function with a value in the result register. The last
statement just ends. -/
def lowerReturn (c : LowerContext) (slots : Slots) (depth : Nat) (last : Bool) (x : Option Expr) :
    Lowering Listing := do
  let (code, r) ← match x with
    | none => pure ([], Reg.zero)
    | some x => lowerExpr c slots depth x
  return code ++ [.mv .a0 r] ++ if last then [] else [.jal .zero c.exit]

mutual

/-- The code of a statement in a block at a depth, with the variables in scope after it. -/
def lowerStmt (c : LowerContext) (slots : Slots) (depth : Nat) (last : Bool) (s : Stmt) :
    Lowering (Listing × Slots) := do
  let note ← if c.comments then do pure [← describe s] else pure []
  let (code, slots) ← match s with
    | .ret _ x => do
      let code ← lowerReturn c slots (depth + 1) last x
      pure (code, slots)
    | .assign _ target _ x => lowerStore c slots (depth + 1) target x
    | .use _ name x => lowerStore c slots (depth + 1) name x
    | .ifThen _ cond tl t => do
      let (cc, cr) ← lowerExpr c slots (depth + 1) cond
      let thenLabel ← newLabel "then"
      let elseLabel ← newLabel "else"
      let endLabel ← newLabel "endif"
      checkDepth c (depth + 1) tl
      let (tc, slots) ← lowerStmts c slots (depth + 1) false t
      pure (cc ++ choose cr thenLabel elseLabel ++ tc ++ [.jal .zero endLabel, .label elseLabel,
        .label endLabel], slots)
    | .ifElse _ cond tl t el e => do
      let (cc, cr) ← lowerExpr c slots (depth + 1) cond
      let thenLabel ← newLabel "then"
      let elseLabel ← newLabel "else"
      let endLabel ← newLabel "endif"
      checkDepth c (depth + 1) tl
      let (tc, slots) ← lowerStmts c slots (depth + 1) false t
      checkDepth c (depth + 1) el
      let (ec, slots) ← lowerStmts c slots (depth + 1) false e
      pure (cc ++ choose cr thenLabel elseLabel ++ tc ++ [.jal .zero endLabel, .label elseLabel] ++
        ec ++ [.label endLabel],
        slots)
    | .expr _ x => do
      let (code, _) ← lowerExpr c slots (depth + 1) x
      pure (code, slots)
    | .missing => fail {} .gap
  return (note ++ code, slots)

/-- The code of statements of a block at a depth, with the variables in scope after them. The block
is the body of the function if `top` holds. -/
def lowerStmts (c : LowerContext) (slots : Slots) (depth : Nat) (top : Bool) :
    List Stmt → Lowering (Listing × Slots)
  | [] => return ([], slots)
  | s :: ss => do
    let (code, slots) ← lowerStmt c slots depth (top && ss.isEmpty) s
    let (rest, slots) ← lowerStmts c slots depth top ss
    return (code ++ rest, slots)

end

/-- Whether statements end with a return. -/
def endsWithReturn (ss : List Stmt) : Bool :=
  match ss.getLast? with
  | some (.ret ..) => true
  | _ => false

/-- The code of a function's body. A body that does not end with a return gives zero. -/
def lowerBody (c : LowerContext) (slots : Slots) (b : Block) : Lowering Listing := do
  checkDepth c 1 b.loc
  let (code, _) ← lowerStmts c slots 1 true b.stmts
  return code ++ if endsWithReturn b.stmts then [] else [.mv .a0 .zero]

/-- The code that keeps arguments, from the `i`-th on, in variables, with the variables in
scope after that. -/
def lowerParams (i : Nat) (slots : Slots) : List Param → Lowering (Listing × Slots)
  | [] => return ([], slots)
  | p :: ps => do
    let offset ← newSlot
    let (code, slots) ← lowerParams (i + 1) ((p.name, offset) :: slots) ps
    return (.store .sw (.arg i) .sp offset :: code, slots)

end Lowering

end FunRiscv
