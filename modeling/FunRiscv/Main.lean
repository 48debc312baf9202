import FunRiscv.Cli.Run

/-!
# The program

Looks up the files and variables that a command line needs, runs it and prints what it says.
-/

open FunRiscv

/-- The contents of a file, if it can be read. -/
def readFile? (name : String) : IO (Option (String × Array UInt8)) := do
  try
    return some (name, (← IO.FS.readBinFile name).data)
  catch _ => return none

/-- A variable of the environment, if it is set. -/
def readVariable? (name : String) : IO (Option (String × String)) := do
  return (← IO.getEnv name).map fun value => (name, value)

def main (args : List String) : IO UInt32 := do
  let files ← (Cli.filesOf args).filterMapM readFile?
  let env ← Cli.settingNames.filterMapM readVariable?
  let report := Cli.run (fun name => files.lookup name) env args
  IO.print report.output
  if let .failure message := report.ending then IO.eprintln ("error: " ++ message)
  return UInt32.ofNat report.ending.status
