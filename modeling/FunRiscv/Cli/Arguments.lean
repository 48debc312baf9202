import FunRiscv.Build

/-!
# Command line arguments

* `Command`: the subcommands, and `Flags`: what they may be told.
* `Request`: what a command line asks for, and `Request.ofArgs`: the request of some arguments.
* `overview`, `Command.help`: what is printed about the program and about a subcommand.
-/

namespace FunRiscv.Cli

/-- The name of the program. -/
def programName : String := "bendc"

/-- The subcommands. -/
inductive Command where
  | check | opt | asm
deriving DecidableEq, Repr, Inhabited

namespace Command

def all : List Command := [check, opt, asm]

def name : Command → String
  | check => "check"
  | opt => "opt"
  | asm => "asm"

def ofName? (s : String) : Option Command := all.find? (·.name == s)

def description : Command → String
  | check => "type check files"
  | opt => "print optimized programs"
  | asm => "print RISC-V assembly"

/-- How far the files are built. -/
def stage : Command → Stage
  | check => .check
  | opt => .optimize
  | asm => .assemble

end Command

/-- The flags of a subcommand. -/
structure Flags where
  /-- The file of settings; if it is empty, the usual file is used if there is one. -/
  config : String := ""
  /-- The optimization level; if it is empty, that of the settings counts. -/
  level : String := ""
  /-- How many files are built at a time; unless it is positive, the number of the
  settings counts. -/
  jobs : Int := 0
  /-- What the log tells about. -/
  topics : String := ""
deriving DecidableEq, Repr, Inhabited

/-- The usual file of settings. -/
def settingsFile : String := "bendc.toml"

/-- What a command line asks for. -/
inductive Request where
  /-- Help about the program. -/
  | overview
  /-- Help about a subcommand, with what its flags are set to. -/
  | help (command : Command) (flags : Flags)
  | build (command : Command) (flags : Flags) (files : List String)
deriving DecidableEq, Repr, Inhabited

/-- Why arguments are no request. -/
inductive UsageError where
  | noSuchFlag
  | noValue
  | badNumber (value : String) (fault : Number.IntegerFault)
  | unexpectedArgument (arg : String)
deriving DecidableEq, Repr, Inhabited

/-- How it is said. -/
def UsageError.message : UsageError → String
  | noSuchFlag => "no such flag"
  | noValue => "flag value is required"
  | badNumber value fault =>
    "strconv.ParseInt: parsing " ++ Text.quoteText value ++ ": " ++ fault.text
  | unexpectedArgument arg => "no args expected, got " ++ arg

/-! ### Reading arguments -/

/-- Whether an argument is a flag: it starts with a dash and has more than that. -/
def isFlag (arg : String) : Bool :=
  match arg.toList with
  | '-' :: _ :: _ => true
  | _ => false

/-- Whether a character parts a flag from its value in the same argument. -/
def isSeparator (c : Char) : Bool := c == '=' || c == ' '

/-- The name of a flag without its one or two dashes, and the value after an equals
sign or a blank. -/
def splitFlag (arg : String) : String × Option String :=
  let body := match arg.toList with
    | '-' :: '-' :: cs => cs
    | '-' :: cs => cs
    | cs => cs
  match body.dropWhile (!isSeparator ·) with
  | _ :: value => (String.ofList (body.takeWhile (!isSeparator ·)), some (String.ofList value))
  | [] => (String.ofList body, none)

/-- The flags with one of them set; nothing if there is no such flag. -/
def Flags.set? (f : Flags) (name value : String) : Option (Except UsageError Flags) :=
  match name with
  | "config" => some (.ok { f with config := value })
  | "O" => some (.ok { f with level := value })
  | "j" => some ((Number.readInt value).map (fun jobs => { f with jobs }) |>.mapError
    (.badNumber value))
  | "v" => some (.ok { f with topics := value })
  | _ => none

/-- Fails at a flag. -/
def flagError {α : Type} (arg : String) (e : UsageError) : Except (Traced UsageError) α :=
  .error ⟨["parse flag", arg], e⟩

/-- Sets a flag that an argument names. -/
def setFlag (f : Flags) (arg name value : String) : Except (Traced UsageError) Flags :=
  match f.set? name value with
  | none => flagError arg .noSuchFlag
  | some (.error e) => flagError arg e
  | some (.ok f) => .ok f

/-- The request of the arguments after a subcommand. Files are kept in reverse. -/
def readArgs (c : Command) (f : Flags) (files : List String) :
    List String → Except (Traced UsageError) Request
  | [] => .ok (.build c f files.reverse)
  | arg :: rest =>
    if arg = "--" then .ok (.build c f (files.reverse ++ rest))
    else if !isFlag arg then readArgs c f (arg :: files) rest
    else
      match splitFlag arg, rest with
      | ("help", _), _ | ("h", _), _ => .ok (.help c f)
      | (name, some value), rest => do
        let f ← setFlag f arg name value
        readArgs c f files rest
      | (name, none), value :: rest => do
        let f ← setFlag f arg name value
        readArgs c f files rest
      | (name, none), [] =>
        if (f.set? name "0").isSome then flagError arg .noValue else flagError arg .noSuchFlag

/-- The request of some arguments. Without a subcommand it is one for help. -/
def Request.ofArgs : List String → Except (Traced UsageError) Request
  | [] => .ok .overview
  | arg :: rest =>
    match Command.ofName? arg with
    | some c => inContext c.name (readArgs c {} [] rest)
    | none =>
      if isFlag arg && arg ≠ "--" then flagError arg .noSuchFlag else
        .error (.ofCause (.unexpectedArgument arg))

/-! ### Help -/

/-- A line of help: a name in a column of twenty, and what it means. -/
def helpLine (name meaning : String) : String :=
  "    " ++ name ++ String.ofList (List.replicate (20 - name.length) ' ') ++ " - " ++
    meaning ++ "\n"

/-- Help about the program. -/
def overview : String :=
  programName ++ " [flags] - " ++ programName ++
    " compiles typed functional programs to RISC-V assembly\n\nSubcommands\n" ++
    String.join (Command.all.map fun c => helpLine c.name c.description)

/-- A line of help about a flag, with its value unless that is empty. -/
def flagLine (name meaning value : String) : String :=
  helpLine name (if value = "" then meaning else meaning ++ " (default " ++ value ++ ")")

/-- Help about a subcommand whose flags are set. -/
def Command.help (c : Command) (f : Flags) : String :=
  c.name ++ " [flags_and_args] - " ++ c.description ++ "\n\nFlags\n"
    ++ flagLine "config" ("config file (default " ++ settingsFile ++ " if present)") f.config
    ++ flagLine "O" "optimization level: none, standard, aggressive or 0-2" f.level
    ++ flagLine "j" "files compiled in parallel" (toString f.jobs)
    ++ flagLine "v" "verbosity topics" f.topics
    ++ helpLine "help,h=[hidden]" "print command help end exit"

end FunRiscv.Cli
