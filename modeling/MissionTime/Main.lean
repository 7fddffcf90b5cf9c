import MissionTime.CommandLine.Run

/-! The command line program. Files are read and written here and nowhere else. No other program is
started from here, so of the solvers only the internal one is at hand. The clock is looked at once, before
an invocation is carried out. -/
namespace MissionTime.CommandLine

def readFormulaFile (path : String) : IO (Except FileError String) := do
  try
    match String.fromUTF8? (← IO.FS.readBinFile path) with
    | some text => return .ok text
    | none => return .error .notText
  catch e =>
    match e with
    | .noFileOrDirectory .. => return .error .notFound
    | .inappropriateType _ _ "not a directory" => return .error .notDirectory
    | .inappropriateType .. => return .error .isDirectory
    | .invalidArgument _ _ "name too long" => return .error .nameTooLong
    | e => return .error (.other (toString e))

def printReport (report : Report) : IO Unit := do
  let err ← IO.getStderr
  err.putStrLn s!"Error: {report.message}"
  for cause in report.causes do
    err.putStrLn s!"  caused by: {cause}"
  if let some help := report.help then
    err.putStrLn s!"  help: {help}"

/-- Writes what an invocation leaves. A script that cannot be written is let go. -/
def complete (completion : Completion) : IO UInt32 := do
  if let some (path, script) := completion.script then
    try IO.FS.writeFile path script catch _ => pure ()
  match completion.result with
  | .ok text =>
    IO.print text
    return 0
  | .error e =>
    printReport e.report
    return 1

def program (arguments : List String) : IO UInt32 := do
  match Invocation.ofArguments arguments with
  | .error .showVersion =>
    IO.println versionText
    return 0
  | .error .showHelp =>
    IO.println helpText
    return 0
  | .error .misuse =>
    (← IO.getStderr).putStrLn helpText
    return 2
  | .ok invocation =>
    let host : Host := fun _ => none
    let clock := Clock.still (← IO.monoNanosNow)
    match invocation.task with
    | .batch _ _ (some path) =>
      let contents ← readFormulaFile path
      complete (invocation.run host clock fun _ => contents)
    | _ => complete (invocation.run host clock fun _ => .error .notFound)

end MissionTime.CommandLine

def main (arguments : List String) : IO UInt32 := MissionTime.CommandLine.program arguments
