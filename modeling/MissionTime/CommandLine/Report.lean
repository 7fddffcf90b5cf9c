import MissionTime.Analysis.Outcome
import MissionTime.CommandLine.Json
import MissionTime.Formula.Printer

/-! What the commands print, and how their errors are told. -/
namespace MissionTime.CommandLine

/-- An error as it is told: the outermost message and those below it. -/
structure Report where
  message : String
  causes : List String := []
  help : Option String := none
  code : Option String := none

inductive FileError
  | notFound
  | notDirectory
  | isDirectory
  | nameTooLong
  | notText
  | other (message : String)

def FileError.message : FileError → String
  | .notFound => "No such file or directory (os error 2)"
  | .notDirectory => "Not a directory (os error 20)"
  | .isDirectory => "Is a directory (os error 21)"
  | .nameTooLong => "File name too long (os error 36)"
  | .notText => "stream did not contain valid UTF-8"
  | .other message => message

inductive CommandError
  | unknownSolver (name : String)
  | solverCommandMissing
  | solverCommandEmpty
  | unknownFormat (name : String)
  | unreadableFile (path : String) (error : FileError)
  | analysis (error : AnalysisError)
  | formula (diagnostic : Diagnostic)

namespace Report

def ofDiagnostic (diagnostic : Diagnostic) : Report where
  message := diagnostic.fault.message
  help := diagnostic.fault.help?
  code := some diagnostic.fault.code

def wrap (message : String) (report : Report) : Report :=
  { report with message, causes := report.message :: report.causes }

end Report

def CommandError.report : CommandError → Report
  | .unknownSolver name =>
    { message := s!"Unknown solver: {name}. Use 'varisat', 'z3', 'cvc5' or 'external'." }
  | .solverCommandMissing => { message := "--solver external requires --solver-cmd" }
  | .solverCommandEmpty => { message := "--solver-cmd is empty" }
  | .unknownFormat name =>
    { message := s!"Unknown output format: {name}. Use 'text' or 'json'." }
  | .unreadableFile path error =>
    { message := s!"Cannot read formula file {path}", causes := [error.message] }
  | .analysis (.unreadable index diagnostic) =>
    (Report.ofDiagnostic diagnostic).wrap s!"Syntax error in formula {index}"
  | .analysis error => { message := error.message }
  | .formula diagnostic => .ofDiagnostic diagnostic

inductive Format
  | text
  | json

def verdictText (sat : Bool) : String := if sat then "sat" else "unsat"

def renderCheck (format : Format) (sat : Bool) (total : Nat) : String :=
  match format with
  | .text => verdictText sat
  | .json =>
    Json.pretty (.object [("verdict", .text (verdictText sat)), ("formulas", .number total)])

def renderExplanation (format : Format) (explanation : Explanation) (total queries : Nat) : String :=
  match format, explanation with
  | .text, .emptyInput => "empty input"
  | .text, .noConflict => "no conflict"
  | .text, .core members =>
    members.foldl (fun text member => text ++ "\n  " ++ member.source)
      s!"conflict core ({members.length} of {total} formulas, {queries} oracle queries):"
  | .json, .emptyInput =>
    Json.pretty (.object [("verdict", .text "empty_input"), ("oracle_queries", .number queries)])
  | .json, .noConflict =>
    Json.pretty (.object [("verdict", .text "no_conflict"), ("oracle_queries", .number queries)])
  | .json, .core members =>
    Json.pretty (.object [
      ("verdict", .text "core"),
      ("core", .list (members.map fun member => .text member.source)),
      ("oracle_queries", .number queries)])

namespace Json

def ofInterval (window : Interval) : Json :=
  .object [("low", .number window.low), ("high", .number window.high)]

def ofFormula : Formula → Json
  | .atom name => .object [("Atom", .text name)]
  | .not f => .object [("Not", ofFormula f)]
  | .and f g => .object [("And", .list [ofFormula f, ofFormula g])]
  | .or f g => .object [("Or", .list [ofFormula f, ofFormula g])]
  | .eventually w f => .object [("Eventually", .list [ofInterval w, ofFormula f])]
  | .always w f => .object [("Always", .list [ofInterval w, ofFormula f])]
  | .until w f g => .object [("Until", .list [ofInterval w, ofFormula f, ofFormula g])]
  | .release w f g => .object [("Release", .list [ofInterval w, ofFormula f, ofFormula g])]

end Json

def renderFormula (format : Format) (f : Formula) : String :=
  match format with
  | .text =>
    let atoms := ", ".intercalate f.atoms
    s!"formula: {f.text}\natoms: {atoms}\nhorizon: {f.horizon}"
  | .json =>
    Json.pretty (.object [
      ("formula", .text f.text),
      ("atoms", .list (f.atoms.map .text)),
      ("horizon", .number f.horizon),
      ("ast", .ofFormula f)])

end MissionTime.CommandLine
