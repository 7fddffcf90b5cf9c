import MissionTime.Analysis.Backend
import MissionTime.Analysis.Conflict

/-! Analyses from start to end: an oracle is chosen, started and asked. -/
namespace MissionTime

/-- What came of an analysis. There is no backend if none was started. -/
structure Outcome (α : Type) where
  result : Except AnalysisError α
  queries : Nat := 0
  script : Option String := none
  backend : Option Backend := none

namespace Outcome

def ofAnalysis {α : Type} (host : Host) (clock : Clock) (choice : SolverChoice) (options : Options)
    (analysis : Analysis Backend α) : Outcome α :=
  match choice.start host options.timeout with
  | .error e => { result := .error e }
  | .ok backend =>
    let (result, p) := analysis.run { oracle := backend, clock }
    { result, queries := p.queries, script := p.script, backend := some p.oracle }

def check (host : Host) (clock : Clock) (choice : SolverChoice) (options : Options)
    (sources : List String) : Outcome Bool :=
  ofAnalysis host clock choice options (Analysis.check options sources)

/-- An empty batch is explained without an oracle. -/
def explain (host : Host) (clock : Clock) (choice : SolverChoice) (options : Options)
    (sources : List String) : Outcome Explanation :=
  if sources.isEmpty then { result := .ok .emptyInput }
  else ofAnalysis host clock choice options (Analysis.explain options sources)

end Outcome
end MissionTime
