import FunRiscv.Config.TomlReader
import FunRiscv.Number.Integer
import FunRiscv.Pass.Optimize

/-!
# Settings

* `Settings`: what a build may be told, with the values it has otherwise.
* `Settings.problem?`: what is wrong with settings.
* `Settings.read`: settings from a TOML document, and `Settings.toToml`: such a document.
* `Settings.withEnvironment`: settings with those of the environment put over them.
-/

namespace FunRiscv

/-- What a build may be told. -/
structure Settings where
  /-- How the names of fresh type variables start. -/
  stem : String := "t"
  /-- How many steps unification may take. -/
  stepLimit : Int := 100000
  /-- The name of the optimization level. -/
  level : String := Level.standard.text
  /-- How many sweeps the optimizer makes. -/
  maxSweeps : Int := defaultSweeps
  /-- Whether listings show the statements. -/
  comments : Bool := false
  /-- How deeply statements and expressions may be nested. -/
  maxDepth : Int := 512
  /-- How many files are built at a time. -/
  jobs : Int := 4
deriving DecidableEq, Repr, Inhabited

/-- What is wrong with settings. -/
inductive SettingsError where
  | unknownLevel (name : String)
  | emptyStem
  | notPositive (table key : String) (value : Int)
  | badVariable (name value : String) (fault : Number.IntegerFault)
  /-- A text is no TOML, or a value has the wrong type. -/
  | malformed
deriving DecidableEq, Repr, Inhabited

/-- How it is said. -/
def SettingsError.message : SettingsError → String
  | unknownLevel name => "optimize: " ++ Level.unknownName name
  | emptyStem => "check: empty fresh-prefix"
  | notPositive table key value => table ++ ": bad " ++ key ++ ": " ++ toString value
  | badVariable name value fault =>
    name ++ ": strconv.Atoi: parsing " ++ Text.quoteText value ++ ": " ++ fault.text
  | malformed => "decode toml"

namespace Settings

/-- The first thing that is wrong with settings. -/
def problem? (s : Settings) : Option SettingsError :=
  if (Level.ofName? s.level).isNone then some (.unknownLevel s.level)
  else if s.stem = "" then some .emptyStem
  else if s.stepLimit ≤ 0 then some (.notPositive "check" "unify-step-limit" s.stepLimit)
  else if s.maxSweeps ≤ 0 then some (.notPositive "optimize" "max-iterations" s.maxSweeps)
  else if s.maxDepth ≤ 0 then some (.notPositive "codegen" "max-depth" s.maxDepth)
  else if s.jobs ≤ 0 then some (.notPositive "build" "jobs" s.jobs)
  else none

/-! ### From a document -/

/-- The value of a key, which may also stand in capitals. -/
def field? (t : Toml) (key : String) : Option Toml := t.find? [key] <|> t.find? [key.toUpper]

/-- A table of a document; none counts as an empty one. -/
def tableOf (doc : Toml) (key : String) : Except SettingsError Toml :=
  match field? doc key with
  | none => .ok .empty
  | some (.table inline fields) => .ok (.table inline fields)
  | some _ => .error .malformed

/-- A text in a table. An integer beyond those of 64 bits with a sign counts as a character
that does not exist. -/
def textOf (t : Toml) (key absent : String) : Except SettingsError String :=
  match field? t key with
  | none => .ok absent
  | some (.string s) => .ok s
  | some (.integer n) =>
    if n < Number.signedBound then .error .malformed else .ok (String.singleton (Char.ofNat 0xfffd))
  | some _ => .error .malformed

/-- An integer in a table, in 64 bits with a sign. -/
def integerOf (t : Toml) (key : String) (absent : Int) : Except SettingsError Int :=
  match field? t key with
  | none => .ok absent
  | some (.integer n) => .ok (Int64.ofInt n).toInt
  | some _ => .error .malformed

/-- A truth value in a table. -/
def booleanOf (t : Toml) (key : String) (absent : Bool) : Except SettingsError Bool :=
  match field? t key with
  | none => .ok absent
  | some (.boolean b) => .ok b
  | some _ => .error .malformed

/-- The settings of a document. What it leaves out keeps its usual value; what it has
besides is ignored. -/
def ofToml (doc : Toml) : Except SettingsError Settings := do
  let s : Settings := {}
  let check ← tableOf doc "check"
  let stem ← textOf check "fresh-prefix" s.stem
  let stepLimit ← integerOf check "unify-step-limit" s.stepLimit
  let opt ← tableOf doc "optimize"
  let level ← textOf opt "level" s.level
  let maxSweeps ← integerOf opt "max-iterations" s.maxSweeps
  let codegen ← tableOf doc "codegen"
  let comments ← booleanOf codegen "comments" s.comments
  let maxDepth ← integerOf codegen "max-depth" s.maxDepth
  let build ← tableOf doc "build"
  let jobs ← integerOf build "jobs" s.jobs
  return { stem, stepLimit, level, maxSweeps, comments, maxDepth, jobs }

/-- The settings of a text, if nothing is wrong with them. -/
def read (text : String) : Except SettingsError Settings :=
  match Toml.read? text with
  | none => .error .malformed
  | some doc => do
    let s ← ofToml doc
    match s.problem? with
    | some e => .error e
    | none => .ok s

/-! ### To a document -/

/-- A character of a quoted text. -/
def quotedChar (c : Char) : List Char :=
  let code := c.toNat % 0x10000
  if c.toNat = 8 then ['\\', 'b']
  else if c = '\t' then ['\\', 't']
  else if c = '\n' then ['\\', 'n']
  else if c.toNat = 12 then ['\\', 'f']
  else if c = '\r' then ['\\', 'r']
  else if c = '"' then ['\\', '"']
  else if c = '\\' then ['\\', '\\']
  else if code < 31 then '\\' :: 'u' :: (Text.hex 4 code).map Char.toUpper
  else [c]

/-- A text in quotes. -/
def quoted (s : String) : String := "\"" ++ String.ofList (s.toList.flatMap quotedChar) ++ "\""

/-- The settings as a document, tables and keys in alphabetic order. -/
def toToml (s : Settings) : String :=
  "\n[build]\n  jobs = " ++ toString s.jobs
    ++ "\n\n[check]\n  fresh-prefix = " ++ quoted s.stem ++ "\n  unify-step-limit = " ++
    toString s.stepLimit ++ "\n\n[codegen]\n  comments = " ++ toString s.comments ++
    "\n  max-depth = " ++ toString s.maxDepth ++ "\n\n[optimize]\n  level = " ++ quoted s.level ++
    "\n  max-iterations = " ++ toString s.maxSweeps ++ "\n"

/-! ### From the environment -/

/-- The words of a truth value that is true, besides one of their first letters. -/
def trueWords : List String :=
  ["absolutely", "affirmative", "enable", "enabled", "positive", "true", "yes"]

/-- Whether a text stands for true: a one, a `t` or `y`, or one of the words in small letters, in
capitals or with a capital. -/
def isTrue (s : String) : Bool :=
  ["1", "t", "T", "y", "Y"].contains s || trueWords.any fun w =>
    s == w || s == w.capitalize || s == w.toUpper

/-- The value of a variable. An empty one counts as unset. -/
def setting? (env : List (String × String)) (name : String) : Option String :=
  (env.lookup name).filter (· ≠ "")

/-- The number in a variable, or a given one if it is unset. -/
def number (env : List (String × String)) (name : String) (absent : Int) :
    Except SettingsError Int :=
  match setting? env name with
  | none => .ok absent
  | some v => (Number.readInt v).mapError (.badVariable name v)

/-- The settings with those of the environment put over them, and the first thing that is wrong.
Variables after a bad one are not looked at. -/
def withEnvironment (env : List (String × String)) (s : Settings) :
    Settings × Option SettingsError :=
  let s := { s with level := (setting? env "BENDC_OPT_LEVEL").getD s.level }
  match number env "BENDC_MAX_ITERATIONS" s.maxSweeps with
  | .error e => (s, some e)
  | .ok maxSweeps =>
    let s := { s with maxSweeps }
    match number env "BENDC_JOBS" s.jobs with
    | .error e => (s, some e)
    | .ok jobs =>
      let s := { s with
        jobs, comments := ((setting? env "BENDC_COMMENTS").map isTrue).getD s.comments }
      (s, s.problem?)

end Settings

end FunRiscv
