import FunRiscv.Alloc.Allocation
import FunRiscv.Codegen.Lower
import FunRiscv.Trace

/-!
# Code generation

Every function becomes a listing of its own: it takes a frame on the stack, keeps the return address
and the preserved registers that it uses there, runs its body and gives all of that back.

* `StackFrame`: the layout of a stack frame: the return address, then variables, words of spilled
  registers, preserved registers.
* `generateFunction`, `Program.generate`: the code of a function and of a program.
-/

namespace FunRiscv

/-! ### Frames -/

/-- The layout of a frame, by what it holds. -/
structure StackFrame where
  /-- How many variables it holds. -/
  slots : Nat
  /-- How many spilled registers it holds. -/
  spills : Nat
  /-- The preserved registers that it holds. -/
  saved : List Reg
deriving DecidableEq, Repr, Inhabited

namespace StackFrame

/-- Where the spilled registers start, after a number of variables. -/
def spillBase (slots : Nat) : Int32 := Int32.ofNat (slotBase + slotSize * slots)

/-- Where the preserved registers start. -/
def savedBase (f : StackFrame) : Int32 :=
  spillBase f.slots + Int32.ofNat slotSize * Int32.ofNat f.spills

/-- The size of the frame, a multiple of sixteen. -/
def size (f : StackFrame) : Int32 :=
  (f.savedBase + Int32.ofNat slotSize * Int32.ofNat f.saved.length + 15) &&& ~~~15

/-- The preserved registers with their offsets. -/
def places (f : StackFrame) : List (Reg × Int32) :=
  f.saved.zipIdx.map fun (r, i) => (r, f.savedBase + Int32.ofNat slotSize * Int32.ofNat i)

/-- Takes the frame and keeps in it what the function has to preserve. -/
def enter (f : StackFrame) : Listing :=
  [.imm .addi .sp .sp (-f.size), .store .sw .ra .sp 0] ++ f.places.map fun (r, offset) =>
    .store .sw r .sp offset

/-- Restores what was kept, gives the frame back and returns. -/
def leave (f : StackFrame) : Listing :=
  f.places.map (fun (r, offset) => .load .lw r .sp offset) ++
    [.load .lw .ra .sp 0, .imm .addi .sp .sp f.size, .jalr .zero .ra 0]

end StackFrame

/-! ### Functions and programs -/

/-- What code generation may be told. -/
structure CodegenOptions where
  /-- How deeply blocks and expressions may be nested. -/
  maxDepth : Int := 512
  /-- Whether statements are shown in comments. -/
  comments : Bool := false
deriving DecidableEq, Repr, Inhabited

/-- A function on virtual registers. -/
structure LoweredFunction where
  code : Listing
  exit : String
deriving DecidableEq, Repr, Inhabited

/-- Lowers a function of a program with the given functions. -/
def lowerFunction (opts : CodegenOptions) (functions : List String) (f : NamedFunction) :
    Lowering LoweredFunction := do
  if Reg.argCount < f.func.params.length then
    Lowering.fail f.func.loc (.tooManyParams f.name f.func.params.length)
  let exit ← Lowering.newLabel "ret"
  let (params, slots) ← Lowering.lowerParams 0 [] f.func.params
  let c : LowerContext :=
    { functions, path := pathOf f.name, exit, maxDepth := opts.maxDepth, comments := opts.comments }
  let body ← Lowering.lowerBody c slots f.func.body
  return ⟨params ++ body, exit⟩

/-- The code of a function, and the number of the last label. -/
def generateFunction (opts : CodegenOptions) (functions : List String) (labels : Nat)
    (f : NamedFunction) : Except CodegenError (Listing × Nat) := do
  let (lowered, supply) ← (lowerFunction opts functions f).run { labels }
  match allocate .standard (StackFrame.spillBase supply.slots) lowered.code with
  | .error u => throw ⟨{}, .unwritten u⟩
  | .ok a =>
    let frame : StackFrame := ⟨supply.slots, a.spills, a.saved⟩
    if !fitsImmediate frame.size then throw ⟨f.func.loc, .frameSize f.name frame.size⟩
    return ([.label (functionLabel f.name)] ++ frame.enter ++ a.code ++ [.label lowered.exit] ++
      frame.leave, supply.labels)

/-- The code of functions, one after the other; labels are numbered from the given number on. -/
def generateFunctions (opts : CodegenOptions) (functions : List String) (labels : Nat) :
    List NamedFunction → Except (Traced CodegenError) Listing
  | [] => return []
  | f :: fs => do
    let (code, labels)
      ← inContext ("func " ++ f.name) ((generateFunction opts functions labels f).mapError
        Traced.ofCause)
    let rest ← generateFunctions opts functions labels fs
    return code ++ rest

/-- The first of some functions whose label one before it has, where `seen` are the
labels of those before. -/
def duplicateLabel? (seen : List String) : List NamedFunction → Option NamedFunction
  | [] => none
  | f :: fs =>
    let l := functionLabel f.name
    if seen.contains l then some f else duplicateLabel? (l :: seen) fs

/-- The code of a program. No two functions may have one label. -/
def Program.generate (opts : CodegenOptions) (p : Program) : Except (Traced CodegenError) Listing :=
  match duplicateLabel? [] p.functions with
  | some f => failWith (⟨f.func.loc, .duplicateLabel f.name (functionLabel f.name)⟩ : CodegenError)
  | none => generateFunctions opts (p.functions.map (·.name)) 0 p.functions

end FunRiscv
