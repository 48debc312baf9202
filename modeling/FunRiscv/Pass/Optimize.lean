import FunRiscv.Pass.Eta
import FunRiscv.Pass.FloatFold
import FunRiscv.Pass.Linearize
import FunRiscv.Pass.Unreachable
import FunRiscv.Text.Quoted
import FunRiscv.Trace

/-!
# Optimization

* `Pass`: a named revision of programs, which may keep a state between its runs.
* `StandardPass`: the four passes, and `Level`: which of them run.
* `optimize`: sweeps passes over a program until a sweep changes nothing or a bound is reached.
-/

namespace FunRiscv

/-! ### Passes -/

/-- A failure of a pass. -/
structure PassError where
  pass : String
  reason : String
deriving DecidableEq, Repr, Inhabited

/-- How a failure is said. -/
def PassError.message (e : PassError) : String := "pass " ++ e.pass ++ ": " ++ e.reason

/-- What a pass gives back: the very program it was given, another one, or none at all. -/
inductive PassOutcome where
  | kept
  | replaced (p : Program)
  | nothing

/-- The result of a pass, with its claim to have modified the program. -/
structure PassResult where
  outcome : PassOutcome
  modified : Bool

/-- The result that a revision stands for: an unchanged program is given back as it is. -/
def Revised.result (r : Revised Program) : PassResult :=
  if r.changed then ⟨.replaced r.value, true⟩ else ⟨.kept, false⟩

/-- Actions of passes with state `σ`. -/
abbrev PassM (σ : Type) := ExceptT (Traced PassError) (StateM σ)

/-- A named revision of programs. -/
structure Pass (σ : Type) where
  name : String
  run : Program → PassM σ PassResult

/-- The four passes. -/
inductive StandardPass where
  | eta | float | unreachable | linearize
deriving DecidableEq, Repr, Inhabited

namespace StandardPass

def name : StandardPass → String
  | eta => "eta-reduction"
  | float => "float-combination"
  | unreachable => "unreachable"
  | linearize => "linearization"

/-- Runs a pass; the state is the number of the last temporary. -/
def apply (k : StandardPass) (p : Program) (last : Int64) : Revised Program × Int64 :=
  match k with
  | eta => (p.etaReduce, last)
  | float => (p.foldFloats, last)
  | unreachable => (p.dropUnreachable, last)
  | linearize => p.linearize last

/-- The pass with its state held in a part of a larger state. -/
def toPass {σ : Type} (k : StandardPass) (read : σ → Int64) (write : Int64 → σ → σ) : Pass σ where
  name := k.name
  run p := do
    let s ← get
    let (r, last) := k.apply p (read s)
    set (write last s)
    return r.result

end StandardPass

/-! ### Levels -/

/-- How much is optimized. -/
inductive Level where
  | none | standard | aggressive
deriving DecidableEq, Repr, Inhabited

namespace Level

def all : List Level := [none, standard, aggressive]

def text : Level → String
  | none => "none"
  | standard => "standard"
  | aggressive => "aggressive"

def code : Level → Nat
  | none => 0
  | standard => 1
  | aggressive => 2

/-- The passes of a level, in the order in which they run. -/
def passes : Level → List StandardPass
  | none => []
  | standard => [.eta, .float, .linearize]
  | aggressive => [.eta, .float, .unreachable, .linearize]

/-- The text of the level with a code, or the code itself when no level has it. -/
def codeText (n : Int) : String :=
  match if n < 0 then Option.none else all[n.toNat]? with
  | some l => l.text
  | Option.none => "Level(" ++ toString n ++ ")"

/-- The level whose passes a code stands for: one beyond the last level stands for the last, one
before the first for the first. -/
def ofCode (n : Int) : Level := if n ≤ 0 then none else if n = 1 then standard else aggressive

/-- A letter without its case. The long s counts as an s. -/
def foldCase (c : Char) : Char := if c.toNat = 0x17f then 's' else c.toLower

/-- The level with a name, in letters of any case, or with a digit. -/
def ofName? (s : String) : Option Level :=
  match all.find? fun l => l.text.toList == s.toList.map foldCase with
  | some l => some l
  | Option.none => all.find? fun l => toString l.code == s

/-- The message about a name that belongs to no level. -/
def unknownName (s : String) : String := "unknown optimization level: " ++ Text.quoteText s

end Level

/-! ### Sweeps -/

/-- A program on its way through passes. -/
structure Progress where
  program : Program
  /-- Whether a pass put another program in the place of the first one. -/
  replaced : Bool := false
  /-- Whether a pass claims a modification in this sweep. -/
  modified : Bool := false

variable {σ : Type}

/-- Runs one pass. -/
def runPass (k : Pass σ) (s : Progress) : PassM σ Progress := do
  let r ← inContext ("pass " ++ k.name) (k.run s.program)
  let modified := s.modified || r.modified
  match r.outcome with
  | .kept => return { s with modified }
  | .replaced p => return { program := p, replaced := true, modified }
  | .nothing => failWith ({ pass := k.name, reason := "nil program" } : PassError)

/-- Runs passes one after the other. -/
def sweep (passes : List (Pass σ)) (s : Progress) : PassM σ Progress :=
  passes.foldlM (fun s k => runPass k s) s

/-- Sweeps passes until a sweep changes nothing, at most `bound` times. -/
def sweeps (passes : List (Pass σ)) : (bound : Nat) → Progress → PassM σ Progress
  | 0, s => return s
  | bound + 1, s => do
    let s ← sweep passes { s with modified := false }
    if s.modified then sweeps passes bound s else return s

/-- The bound on sweeps unless told otherwise. -/
def defaultSweeps : Nat := 10

/-- Optimizes a program. Without passes it is left as it is. -/
def optimize (passes : List (Pass σ)) (bound : Nat) (p : Program) : PassM σ Progress :=
  if passes.isEmpty then return { program := p } else sweeps passes bound { program := p }

/-- The passes of a level, with the number of the last temporary as their state. -/
def Level.passList (l : Level) : List (Pass Int64) := l.passes.map fun k => k.toPass id fun n _ => n

end FunRiscv
