import Mathlib
import FunRiscv.Asm.Instruction
import FunRiscv.Proofs.Machine.Memory

/-!
# Execution of instructions

Registers hold a word or nothing: a virtual register holds nothing before it is written.

* `RegOp.eval`, `ImmOp.eval`, `BranchOp.holds`: the operations on words.
* `Instr.effect`: the word that an instruction gives to its destination, and the memory after it.
  Jumps have no effect in this sense, nor have instructions that need to know where they stand.
* `Instr.exec`: an instruction on registers and memory.
* `flow`: one step in a listing, calls and returns left out.
* `Run`: steps one after the other, with the places they were made from.
-/

namespace FunRiscv

open Machine

/-! ### Operations on words -/

/-- A word that says whether something holds. -/
def Machine.ofBool (b : Bool) : Val := if b then 1 else 0

/-- How far a word shifts: only its five low bits count. -/
def Machine.shiftAmount (y : Val) : Nat := y.toNat % 32

/-- An operation on two words. -/
def RegOp.eval (op : RegOp) (x y : Val) : Val :=
  match op with
  | .add => x + y
  | .sub => x - y
  | .xor => x ^^^ y
  | .or => x ||| y
  | .and => x &&& y
  | .sll => x <<< shiftAmount y
  | .srl => x >>> shiftAmount y
  | .sra => x.sshiftRight (shiftAmount y)
  | .slt => ofBool (x.slt y)
  | .sltu => ofBool (x.ult y)
  | .mul => x * y
  | .div => if y = 0 then -1 else x.sdiv y
  | .divu => if y = 0 then -1 else x / y
  | .rem => if y = 0 then x else x.srem y
  | .remu => if y = 0 then x else x % y

/-- An operation on a word and an immediate number. -/
def ImmOp.eval (op : ImmOp) (x y : Val) : Val :=
  match op with
  | .addi => x + y
  | .xori => x ^^^ y
  | .ori => x ||| y
  | .andi => x &&& y
  | .slli => x <<< shiftAmount y
  | .srli => x >>> shiftAmount y
  | .srai => x.sshiftRight (shiftAmount y)
  | .slti => ofBool (x.slt y)
  | .sltiu => ofBool (x.ult y)

/-- How many bytes a load reads. -/
def LoadOp.width : LoadOp → Nat
  | .lw => 4
  | .lh | .lhu => 2
  | .lb | .lbu => 1

/-- The word that a load makes of the bytes it read. -/
def LoadOp.extend (op : LoadOp) (n : Nat) : Val :=
  match op with
  | .lw | .lhu | .lbu => BitVec.ofNat 32 n
  | .lh => (BitVec.ofNat 16 n).signExtend 32
  | .lb => (BitVec.ofNat 8 n).signExtend 32

/-- How many bytes a store writes. -/
def StoreOp.width : StoreOp → Nat
  | .sw => 4
  | .sh => 2
  | .sb => 1

/-- Whether a branch is taken. -/
def BranchOp.holds (op : BranchOp) (x y : Val) : Bool :=
  match op with
  | .beq => x == y
  | .bne => x != y
  | .blt => x.slt y
  | .bge => !x.slt y
  | .bltu => x.ult y
  | .bgeu => !x.ult y

namespace Machine

/-! ### Registers and memory -/

/-- What each register holds. -/
abbrev Regs := Reg → Option Val

/-- The word in a register; the zero register always holds zero. -/
def Regs.get (f : Regs) (r : Reg) : Option Val := if r = .zero then some 0 else f r

/-- The registers with a word put into one of them, if there is a word. -/
def Regs.put (f : Regs) (r : Reg) : Option Val → Regs
  | none => f
  | some w => fun q => if q = r then some w else f q

@[simp]
theorem Regs.put_none (f : Regs) (r : Reg) : f.put r none = f := rfl

theorem Regs.put_some (f : Regs) (r q : Reg) (w : Val) :
    f.put r (some w) q = if q = r then some w else f q := rfl

theorem Regs.put_of_ne {f : Regs} {r q : Reg} (h : q ≠ r) (w : Option Val) : f.put r w q = f q := by
  cases w with
  | none => rfl
  | some w => exact if_neg h

theorem Regs.get_of_ne_zero {r : Reg} (h : r ≠ .zero) (f : Regs) : f.get r = f r := if_neg h

@[simp]
theorem Regs.get_zero (f : Regs) : f.get .zero = some 0 := rfl

/-- A place in a listing with registers and memory. -/
structure Config where
  pc : Nat
  regs : Regs
  mem : Memory
  /-- How many calls were made. -/
  calls : Nat := 0

end Machine

namespace Instr

/-! ### The effect of an instruction -/

/-- The word that an instruction gives to its destination, if it has one, and the
memory after it. -/
def effect (sym : String → Val) (get : Reg → Option Val) (m : Memory) :
    Instr → Option (Option Val × Memory)
  | reg op _ a b => (get a).bind fun x => (get b).map fun y => (some (op.eval x y), m)
  | imm op _ a v => (get a).map fun x => (some (op.eval x v.toBitVec), m)
  | load op _ base offset =>
    (get base).map fun b => (some (op.extend (m.read (b + offset.toBitVec) op.width)), m)
  | store op src base offset =>
    (get src).bind fun v => (get base).map fun b => (none, m.write (b + offset.toBitVec) op.width v)
  | lui _ v => some (some (v.toBitVec <<< 12), m)
  | li _ v => some (some v.toBitVec, m)
  | la _ target => some (some (sym target), m)
  | mv _ a => (get a).map fun x => (some x, m)
  | label _ | comment _ => some (none, m)
  | branch .. | jal .. | jalr .. | auipc .. | ecall => none

/-- The addresses that an instruction reads or writes. -/
def touches (get : Reg → Option Val) : Instr → Set Val
  | load op _ base offset => {x | ∃ b, get base = some b ∧ x ∈ span (b + offset.toBitVec) op.width}
  | store op _ base offset => {x | ∃ b, get base = some b ∧ x ∈ span (b + offset.toBitVec) op.width}
  | _ => ∅

/-- Replacing registers before an instruction is to read them elsewhere. -/
theorem effect_mapRegs (sym : String → Val) (get : Reg → Option Val) (m : Memory)
    (written read : Reg → Reg) (i : Instr) :
    (i.mapRegs written read).effect sym get m = i.effect sym (fun r => get (read r)) m := by
  cases i <;> rfl

theorem dest_mapRegs {written : Reg → Reg} (hzero : written .zero = .zero) (read : Reg → Reg)
    (i : Instr) : (i.mapRegs written read).dest = written i.dest := by
  cases i <;> first | rfl | exact hzero.symm

/-- An instruction that has an effect has it wherever the registers that it reads hold the
same and memory agrees on a region that holds all addresses it touches. Memory agrees on the
region afterwards. -/
theorem effect_mono {sym : String → Val} {get get' : Reg → Option Val} {m m' m₁ : Memory}
    {i : Instr} {w : Option Val} {keep : Set Val} (h : i.effect sym get m = some (w, m₁))
    (hread : ∀ r ∈ i.reads, ∀ x, get r = some x → get' r = some x) (htouch : i.touches get ⊆ keep)
    (hmem : ∀ x ∈ keep, m x = m' x) :
    ∃ m₁', i.effect sym get' m' = some (w, m₁') ∧ (∀ x ∈ keep, m₁ x = m₁' x) ∧
      ∀ x ∉ keep, m₁' x = m' x := by
  cases i with
  | reg op d a b =>
    obtain ⟨x, hx, h⟩ := Option.bind_eq_some_iff.1 h
    obtain ⟨y, hy, h⟩ := Option.map_eq_some_iff.1 h
    obtain ⟨rfl, rfl⟩ := Prod.mk.inj h
    exact ⟨m', by simp [effect, hread a (by simp [reads]) x hx, hread b (by simp [reads]) y hy],
      hmem, fun _ _ => rfl⟩
  | imm op d a v =>
    obtain ⟨x, hx, h⟩ := Option.map_eq_some_iff.1 h
    obtain ⟨rfl, rfl⟩ := Prod.mk.inj h
    exact ⟨m', by simp [effect, hread a (by simp [reads]) x hx], hmem, fun _ _ => rfl⟩
  | load op d base offset =>
    obtain ⟨b, hb, h⟩ := Option.map_eq_some_iff.1 h
    obtain ⟨rfl, rfl⟩ := Prod.mk.inj h
    have hsame : m.read (b + offset.toBitVec) op.width = m'.read (b + offset.toBitVec) op.width :=
      Memory.read_congr (by cases op <;> decide) fun x hx => hmem x (htouch ⟨b, hb, hx⟩)
    exact ⟨m', by simp [effect, hread base (by simp [reads]) b hb, hsame], hmem, fun _ _ => rfl⟩
  | store op src base offset =>
    obtain ⟨v, hv, h⟩ := Option.bind_eq_some_iff.1 h
    obtain ⟨b, hb, h⟩ := Option.map_eq_some_iff.1 h
    obtain ⟨rfl, rfl⟩ := Prod.mk.inj h
    refine ⟨m'.write (b + offset.toBitVec) op.width v, ?_, ?_, ?_⟩
    · simp [effect, hread src (by simp [reads]) v hv, hread base (by simp [reads]) b hb]
    · exact fun x hx => Memory.write_congr op.width v (hmem x hx)
    · exact fun x hx => Memory.write_of_not_mem v fun hspan => hx (htouch ⟨b, hb, hspan⟩)
  | lui | li | la | label | comment =>
    obtain ⟨rfl, rfl⟩ := Prod.mk.inj (Option.some.inj h)
    exact ⟨m', rfl, hmem, fun _ _ => rfl⟩
  | mv d a =>
    obtain ⟨x, hx, h⟩ := Option.map_eq_some_iff.1 h
    obtain ⟨rfl, rfl⟩ := Prod.mk.inj h
    exact ⟨m', by simp [effect, hread a (by simp [reads]) x hx], hmem, fun _ _ => rfl⟩
  | branch | jal | jalr | auipc | ecall => cases h

/-- An instruction that gives no word writes no register. -/
theorem dest_eq_zero_of_effect {sym : String → Val} {get : Reg → Option Val} {m m₁ : Memory}
    {i : Instr} (h : i.effect sym get m = some (none, m₁)) : i.dest = .zero := by
  cases i with
  | reg | imm | load | mv => simp [effect, Option.bind_eq_some_iff] at h
  | lui | li | la => simp [effect] at h
  | jal | jalr | auipc => cases h
  | store | branch | ecall | label | comment => rfl

/-- The label to which an instruction jumps or branches. -/
def jumpsTo? : Instr → Option String
  | branch _ _ _ l => some l
  | jal rd l => if rd = .zero then some l else none
  | _ => none

end Instr

/-- The place of a label in a listing; the end if it is not there. -/
def Machine.target (code : Listing) (l : String) : Nat := code.idxOf (.label l)

/-- A listing in which jumps and branches only go to later places. -/
def Listing.Forward (code : Listing) : Prop :=
  ∀ place i l, code[place]? = some i → i.jumpsTo? = some l → place < target code l

namespace Machine

/-! ### Steps -/

/-- An instruction on registers and memory. -/
def Config.exec (sym : String → Val) (i : Instr) (c : Config) : Option Config :=
  (i.effect sym c.regs.get c.mem).map fun (w, m) =>
    { c with pc := c.pc + 1, regs := c.regs.put i.dest w, mem := m }

/-- One step at a place of a listing that holds neither a call nor a return. -/
def flow (sym : String → Val) (code : Listing) (c : Config) : Option Config :=
  match code[c.pc]? with
  | none => none
  | some (.branch op a b l) =>
    (c.regs.get a).bind fun x => (c.regs.get b).map fun y =>
      { c with pc := if op.holds x y then target code l else c.pc + 1 }
  | some (.jal rd l) => if rd = .zero then some { c with pc := target code l } else none
  | some i => c.exec sym i

/-- Steps one after the other, with the places from which they were made. -/
inductive Run (step : Config → Option Config) : Config → List Nat → Config → Prop
  | nil (c : Config) : Run step c [] c
  | cons {c c' c'' : Config} {ps : List Nat} (h : step c = some c') (rest : Run step c' ps c'') :
    Run step c (c.pc :: ps) c''

namespace Run

variable {step : Config → Option Config} {c c' c'' : Config} {ps qs : List Nat}

theorem single (h : step c = some c') : Run step c [c.pc] c' := .cons h (.nil c')

theorem append (h : Run step c ps c') (h' : Run step c' qs c'') : Run step c (ps ++ qs) c'' := by
  induction h with
  | nil => exact h'
  | cons hstep _ ih => exact .cons hstep (ih h')

theorem mono {step' : Config → Option Config} (hstep : ∀ c c', step c = some c' → step' c = some c')
    (h : Run step c ps c') : Run step' c ps c' := by
  induction h with
  | nil => exact .nil _
  | cons hs _ ih => exact .cons (hstep _ _ hs) ih

end Run

/-! ### Blocks of a listing -/

/-- Instructions that stand in a listing from a place on. -/
def At (big : Listing) (place : Nat) (block : Listing) : Prop :=
  ∀ k i, block[k]? = some i → big[place + k]? = some i

theorem At.append {big block rest : Listing} {place : Nat} (h : At big place (block ++ rest)) :
    At big place block ∧ At big (place + block.length) rest := by
  constructor
  · intro k i hi
    refine h k i ?_
    rw [List.getElem?_append_left (List.getElem?_eq_some_iff.1 hi).1]
    exact hi
  · intro k i hi
    rw [Nat.add_assoc]
    refine h (block.length + k) i ?_
    rw [List.getElem?_append_right (by omega)]
    simpa using hi

theorem At.head {big rest : Listing} {place : Nat} {i : Instr} (h : At big place (i :: rest)) :
    big[place]? = some i ∧ At big (place + 1) rest := by
  have := At.append (show At big place ([i] ++ rest) from h)
  exact ⟨by simpa using this.1 0 i rfl, this.2⟩

/-! ### What a step can be -/

theorem flow_of_effect {sym : String → Val} {code : Listing} {c : Config} {i : Instr}
    {w : Option Val} {m : Memory} (hi : code[c.pc]? = some i)
    (h : i.effect sym c.regs.get c.mem = some (w, m)) :
    flow sym code c = some { c with pc := c.pc + 1, regs := c.regs.put i.dest w, mem := m } := by
  have hexec : c.exec sym i =
    some { c with pc := c.pc + 1, regs := c.regs.put i.dest w, mem := m } := by
    rw [Config.exec, h]
    rfl
  unfold flow
  rw [hi]
  cases i with
  | branch | jal => cases h
  | _ => exact hexec

theorem flow_of_branch (sym : String → Val) {code : Listing} {c : Config} {op : BranchOp}
    {a b : Reg} {l : String} {x y : Val} (hi : code[c.pc]? = some (.branch op a b l))
    (hx : c.regs.get a = some x) (hy : c.regs.get b = some y) :
    flow sym code c = some { c with pc := if op.holds x y then target code l else c.pc + 1 } := by
  unfold flow
  rw [hi]
  simp [hx, hy]

theorem flow_of_jump {sym : String → Val} {code : Listing} {c : Config} {l : String}
    (hi : code[c.pc]? = some (.jal .zero l)) :
    flow sym code c = some { c with pc := target code l } := by
  unfold flow
  rw [hi]
  rfl

/-- What one step can be: an instruction with an effect, a branch or a jump. -/
theorem flow_cases {sym : String → Val} {code : Listing} {c c' : Config}
    (h : flow sym code c = some c') :
    (∃ i w m, code[c.pc]? = some i ∧ i.effect sym c.regs.get c.mem = some (w, m) ∧
      c' = { c with pc := c.pc + 1, regs := c.regs.put i.dest w, mem := m }) ∨
    (∃ op a b l x y, code[c.pc]? = some (.branch op a b l) ∧ c.regs.get a = some x ∧
      c.regs.get b = some y ∧
      c' = { c with pc := if op.holds x y then target code l else c.pc + 1 }) ∨
    (∃ l, code[c.pc]? = some (.jal .zero l) ∧ c' = { c with pc := target code l }) := by
  unfold flow at h
  split at h
  · cases h
  · next op a b l hi =>
    obtain ⟨x, hx, h⟩ := Option.bind_eq_some_iff.1 h
    obtain ⟨y, hy, h⟩ := Option.map_eq_some_iff.1 h
    exact .inr (.inl ⟨op, a, b, l, x, y, hi, hx, hy, h.symm⟩)
  · next rd l hi =>
    split at h
    · next hrd =>
      subst hrd
      exact .inr (.inr ⟨l, hi, (Option.some.inj h).symm⟩)
    · cases h
  · next i _ _ hi =>
    obtain ⟨⟨w, m⟩, heffect, h⟩ := Option.map_eq_some_iff.1 h
    exact .inl ⟨i, w, m, hi, heffect, h.symm⟩

end Machine

end FunRiscv
