import FunRiscv.Cli.Arguments

/-!
# Running a command line

* `Report`: what a run prints and how it ends.
* `filesOf`: the files that a run looks at.
* `run`: the run of a command line, where files are looked up by their names.
-/

namespace FunRiscv.Cli

/-- How a run ends. -/
inductive Ending where
  | success
  /-- With a message about what went wrong. -/
  | failure (message : String)
  /-- In the middle of its work. -/
  | crash
deriving DecidableEq, Repr, Inhabited

/-- The exit status. -/
def Ending.status : Ending → Nat
  | success => 0
  | failure _ => 1
  | crash => 2

/-- What a run prints and how it ends. -/
structure Report where
  output : String := ""
  ending : Ending := .success
deriving DecidableEq, Repr, Inhabited

/-- The contents of files, by their names. -/
abbrev Files := String → Option (Array UInt8)

/-! ### Settings -/

/-- The message about a file that does not exist. -/
def missingFile (name : String) : String := "open " ++ name ++ ": no such file or directory"

/-- The settings of a file, or a message about why there are none. -/
def loadSettings (files : Files) (name : String) : Except String Settings :=
  match files name with
  | none => .error ("read config: " ++ missingFile name)
  | some bytes => (Settings.read (Text.decode bytes.toList)).mapError fun e =>
    name ++ ": " ++ e.message

/-- The settings of a run: those of a file, under those of the environment, under
those of the flags. -/
def settingsOf (files : Files) (env : List (String × String)) (f : Flags) :
    Except String Settings := do
  let s ← if f.config ≠ "" then loadSettings files f.config
    else if (files settingsFile).isSome then loadSettings files settingsFile
    else pure {}
  let (s, problem) := s.withEnvironment env
  if let some e := problem then throw ("environment: " ++ e.message)
  let s := { s with
    level := if f.level ≠ "" then f.level else s.level
    jobs := if 0 < f.jobs then f.jobs else s.jobs }
  match s.problem? with
  | some e => throw e.message
  | none => return s

/-! ### Lines about files -/

/-- A text in a style, which is switched on and off twice. -/
def styled (style text : String) : String :=
  let on := "\x1b[" ++ style ++ "m"
  on ++ on ++ text ++ "\x1b[0m\x1b[0m"

/-- The line about a file that was built. -/
def okLine (text : String) : String := styled "102;30" "  OK  " ++ " " ++ styled "39" text ++ "\n"

/-- The line about a file that was not built. -/
def failLine (text : String) : String := styled "41;37" " FAIL " ++ " " ++ styled "31" text ++ "\n"

/-- How the build of a file ends. -/
inductive FileResult where
  | built (b : Built)
  | failed (message : String)
  | crashed

/-- Whether a build breaks off in the middle instead of failing. -/
def isCrash : BuildCause → Bool
  | .read (.outside _) => true
  | .codegen ⟨_, .undescribable⟩ | .codegen ⟨_, .gap⟩ => true
  | _ => false

/-- Builds a file. -/
def buildFile (files : Files) (s : Settings) (stage : Stage) (name : String) : FileResult :=
  match files name with
  | none => .failed ("read file: " ++ missingFile name)
  | some bytes =>
    match compile s stage { bytes } with
    | .ok b => .built b
    | .error e => if isCrash e.cause then .crashed else .failed (e.message BuildCause.message)

/-- What is printed about a file that was built; nothing if it cannot be printed to its end. -/
def showBuilt (c : Command) (name : String) (b : Built) : Report :=
  match c with
  | .check => { output := okLine name }
  | .opt =>
    match (Node.program b.program).text with
    | .ok text => { output := okLine name ++ text }
    | .error _ => { output := okLine name, ending := .crash }
  | .asm => { output := okLine (name ++ ": " ++ toString b.code.length ++ " instructions") ++
    Listing.text b.code }

/-- The lines about files, after those that were printed. `failed` counts the files that were not
built, of `total`. -/
def showResults (c : Command) (total : Nat) (output : String) (failed : Nat) :
    List (String × FileResult) → Report
  | [] =>
    if failed = 0 then { output }
    else { output, ending := .failure (toString failed ++ " of " ++ toString total ++
    " files failed") }
  | (name, .failed message) :: rest =>
    showResults c total (output ++ failLine (name ++ ": " ++ message)) (failed + 1) rest
  | (name, .built b) :: rest =>
    let r := showBuilt c name b
    if r.ending = .crash then { output := output ++ r.output, ending := .crash }
    else showResults c total (output ++ r.output) failed rest
  | (_, .crashed) :: _ => { output, ending := .crash }

/-! ### Runs -/

/-- Whether the build of a file broke off. -/
def FileResult.isCrashed : FileResult → Bool
  | crashed => true
  | _ => false

/-- Builds files and says how that went. If the build of one breaks off, nothing is said. -/
def runBuild (files : Files) (env : List (String × String)) (c : Command) (f : Flags)
    (names : List String) : Report :=
  match settingsOf files env f with
  | .error message => { ending := .failure (c.name ++ ": config: " ++ message) }
  | .ok s =>
    if names.isEmpty then { ending := .failure (c.name ++ ": no files") }
    else
      let results := names.map fun name => (name, buildFile files s c.stage name)
      if results.any fun (_, r) => r.isCrashed then { ending := .crash }
      else
        let r := showResults c names.length "" 0 results
        match r.ending with
        | .failure message => { r with ending := .failure (c.name ++ ": " ++ message) }
        | _ => r

/-- The run of a command line. -/
def run (files : Files) (env : List (String × String)) (args : List String) : Report :=
  match Request.ofArgs args with
  | .error e => { ending := .failure (e.message UsageError.message) }
  | .ok .overview => { output := overview }
  | .ok (.help c f) => { output := c.help f }
  | .ok (.build c f names) => runBuild files env c f names

/-- The files that a run may look at. -/
def filesOf (args : List String) : List String :=
  match Request.ofArgs args with
  | .ok (.build _ f names) => (if f.config ≠ "" then f.config else settingsFile) :: names
  | _ => []

/-- The names of the environment settings that a run may look at. -/
def settingNames : List String :=
  ["BENDC_OPT_LEVEL", "BENDC_MAX_ITERATIONS", "BENDC_JOBS", "BENDC_COMMENTS"]

end FunRiscv.Cli
