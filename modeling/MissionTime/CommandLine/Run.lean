import MissionTime.CommandLine.Arguments
import MissionTime.CommandLine.Report

/-! Running an invocation. The solver is chosen first, then the format, then the formula file is
read, and only then the command is carried out; of several errors the first in this order is told. -/
namespace MissionTime.CommandLine
open Text

def versionText : String := "mltlx 0.1.0"

def helpText : String :=
  "Satisfiability checks and conflict cores for sets of temporal formulas\n\n" ++
  "Usage: mltlx [OPTIONS] <COMMAND>\n\n" ++
  "Commands:\n" ++
  "  check    Check whether the formulas are jointly satisfiable\n" ++
  "  explain  Find a minimal conflicting subset\n" ++
  "  parse    Parse one formula and print its canonical form, atoms and horizon\n" ++
  "  encode   Print the SMT-LIB script of the joint satisfiability query\n\n" ++
  "Options:\n" ++
  "  --solver <NAME>       varisat, z3, cvc5 or external\n" ++
  "  --solver-cmd <WORDS>  the command line of the external solver\n" ++
  "  --timeout <SECONDS>   time for the whole analysis; 0 sets no limit\n" ++
  "  --max-horizon <N>     the largest time step a formula may refer to\n" ++
  "  --max-nesting <N>     the nesting limit of formulas\n" ++
  "  --dump-smt <PATH>     where to write the script of the joint query\n" ++
  "  --format <FORMAT>     text or json\n" ++
  "  --file <PATH>         further formulas for a command, one on each line"

def chooseSolver (name : String) (command : Option String) : Except CommandError SolverChoice :=
  match name with
  | "varisat" => .ok .internal
  | "z3" => .ok .z3
  | "cvc5" => .ok .cvc5
  | "external" =>
    match command with
    | none => .error .solverCommandMissing
    | some command =>
      match (words command.toList).map String.ofList with
      | [] => .error .solverCommandEmpty
      | program :: arguments => .ok (.external program arguments)
  | name => .error (.unknownSolver name)

def chooseFormat : String → Except CommandError Format
  | "text" => .ok .text
  | "json" => .ok .json
  | name => .error (.unknownFormat name)

/-- The formulas of a file, one on each line. Blank lines and lines that begin with `#` are skipped. -/
def formulaLines (text : String) : List String :=
  ((text.toList.splitOn '\n').map trim).filterMap fun line =>
    match line with
    | [] => none
    | '#' :: _ => none
    | line => some (String.ofList line)

/-- What an invocation leaves: the printed text or an error, the script to be written and where, and
the backend if one was started. -/
structure Completion where
  result : Except CommandError String
  script : Option (String × String) := none
  backend : Option Backend := none

namespace Completion

def ofOutcome {α : Type} (path : Option String) (outcome : Outcome α) (render : α → String) :
    Completion where
  result := match outcome.result with
    | .ok a => .ok (render a ++ "\n")
    | .error e => .error (.analysis e)
  script := do return (← path, ← outcome.script)
  backend := outcome.backend

end Completion

def gather (files : String → Except FileError String) (formulas : List String) :
    Option String → Except CommandError (List String)
  | none => .ok formulas
  | some path =>
    match files path with
    | .ok text => .ok (formulas ++ formulaLines text)
    | .error e => .error (.unreadableFile path e)

def parseAll (maxNesting : Nat) (sources : List String) : Except AnalysisError (List Formula) :=
  sources.zipIdx.mapM fun (source, index) =>
    (Formula.parse maxNesting source).mapError fun diagnostic =>
      .unreadable index (diagnostic.attach source s!"formula[{index}]")

def encodeScript (options : Options) (sources : List String) : Except AnalysisError String := do
  let formulas ← parseAll options.maxNesting sources
  let encoding ← formulas.zipIdx.foldlM (fun encoding (f, index) =>
    (encoding.extend options.maxHorizon f).mapError (.unencodable index)) ({} : Encoding)
  return encoding.script

def runBatch (host : Host) (clock : Clock) (choice : SolverChoice) (options : Options) (format : Format)
    (path : Option String) (command : BatchCommand) (sources : List String) : Completion :=
  match command with
  | .check =>
    .ofOutcome path (.check host clock choice options sources)
      fun sat => renderCheck format sat sources.length
  | .explain =>
    let outcome := Outcome.explain host clock choice options sources
    .ofOutcome path outcome
      fun explanation => renderExplanation format explanation sources.length outcome.queries
  | .encode => { result := (encodeScript options sources).mapError .analysis }

def Settings.options (s : Settings) : Options where
  timeout := s.timeout.getD 0
  maxHorizon := s.maxHorizon.getD Encoding.defaultHorizon
  maxNesting := s.maxNesting.getD Formula.defaultNesting
  keepScript := s.scriptPath.isSome

def Invocation.run (host : Host) (clock : Clock) (files : String → Except FileError String) (i : Invocation) :
    Completion :=
  let prepared := do
    let choice ← chooseSolver (i.settings.solver.getD SolverChoice.internal.name)
      i.settings.solverCommand
    let format ← chooseFormat (i.settings.format.getD "text")
    return (choice, format)
  let options := i.settings.options
  match prepared with
  | .error e => { result := .error e }
  | .ok (choice, format) =>
    match i.task with
    | .parse source =>
      match Formula.parse options.maxNesting source with
      | .ok f => { result := .ok (renderFormula format f ++ "\n") }
      | .error diagnostic => { result := .error (.formula diagnostic) }
    | .batch command formulas file =>
      match gather files formulas file with
      | .error e => { result := .error e }
      | .ok sources => runBatch host clock choice options format i.settings.scriptPath command sources

end MissionTime.CommandLine
