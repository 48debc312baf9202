import FunRiscv.Codegen.Generate
import FunRiscv.Config.Settings
import FunRiscv.Surface.Reader.Definition
import FunRiscv.Typing.Program

/-!
# Building programs

* `Stage`: how far a build goes.
* `Program.build`: checks, optimizes and generates code for a program.
* `compile`: reads a source text and builds it.
-/

namespace FunRiscv

/-! ### Stages -/

/-- The last stage of a build. -/
inductive Stage where
  | check | optimize | assemble
deriving DecidableEq, Repr, Inhabited

namespace Stage

def all : List Stage := [check, optimize, assemble]

def text : Stage → String
  | check => "check"
  | optimize => "optimize"
  | assemble => "assemble"

/-- The text of the stage with a code, or the code itself when no stage has it. -/
def codeText (n : Int) : String :=
  match if n < 0 then none else all[n.toNat]? with
  | some s => s.text
  | none => "Stage(" ++ toString n ++ ")"

/-- How far a code goes: one before the first stage stands for the first, one beyond the
last for the last. -/
def ofCode (n : Int) : Stage := if n ≤ 0 then check else if n = 1 then optimize else assemble

end Stage

/-! ### Errors -/

/-- Why a build fails. -/
inductive BuildCause where
  | read (cause : ReadCause)
  | settings (cause : SettingsError)
  | type (cause : TypeError)
  | pass (cause : PassError)
  | codegen (cause : CodegenError)

/-- How it is said. -/
def BuildCause.message : BuildCause → String
  | read c => c.message
  | settings c => c.message
  | type c => c.message
  | pass c => c.message
  | codegen c => c.message

/-- A failed build. -/
abbrev BuildError := Traced BuildCause

/-- An outcome whose error is put in a context of the build. -/
def stageResult {ε α : Type} (label : String) (wrap : ε → BuildCause) :
    Except (Traced ε) α → Except BuildError α
  | .ok a => .ok a
  | .error e => .error ⟨label :: e.trail, wrap e.cause⟩

/-! ### The build -/

/-- The outcome of a build. -/
structure Built where
  /-- The program, checked and, if the build went that far, optimized. -/
  program : Program
  /-- Its code, if the build went that far. -/
  code : Listing := []

/-- Records that every function was checked. -/
def Program.markChecked (p : Program) : Program :=
  Id.run (p.mapFunctions fun f => pure { f with checked := true })

/-- Builds a program up to a stage. -/
def Program.build (s : Settings) (stage : Stage) (p : Program) : Except BuildError Built := do
  if let some e := s.problem? then throw ⟨["config"], .settings e⟩
  stageResult "check" .type (p.check { stem := s.stem, limit := s.stepLimit.toNat }).1
  let p := p.markChecked
  if stage = .check then return { program := p }
  let level := (Level.ofName? s.level).getD .none
  let progress
    ← stageResult "optimize" .pass ((optimize level.passList s.maxSweeps.toNat p).run 0).1
  if stage = .optimize then return { program := progress.program }
  let opts : CodegenOptions := { maxDepth := s.maxDepth, comments := s.comments }
  let code ← stageResult "generate" .codegen (progress.program.generate opts)
  return { program := progress.program, code }

/-- Reads a source text and builds it up to a stage. -/
def compile (s : Settings) (stage : Stage) (src : Source) : Except BuildError Built := do
  let p ← stageResult "parse" .read (Program.parse src)
  p.build s stage

end FunRiscv
