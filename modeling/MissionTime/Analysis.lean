import MissionTime.Clock
import MissionTime.Formula.Parser
import MissionTime.Encoding
import MissionTime.Oracle

/-! Questions to an oracle about batches of formula texts. Every query resets the oracle and has an
encoding of its own, so that nothing carries over from one query to the next. -/
namespace MissionTime

inductive OracleFailure
  | failed (error : OracleError)
  | undecided (reason : String)
deriving DecidableEq

def OracleFailure.message : OracleFailure → String
  | .failed error => error.message
  | .undecided reason => s!"solver returned unknown: {reason}"

inductive AnalysisError
  | unreadable (index : Nat) (diagnostic : Diagnostic)
  | unencodable (index : Nat) (error : EncodingError)
  | oracle (backend : String) (failure : OracleFailure)
  | deadline (seconds : Nat)

def AnalysisError.message : AnalysisError → String
  | .unreadable index diagnostic =>
    s!"Syntax error in formula {index}: {diagnostic.fault.message}"
  | .unencodable index error => s!"Encoding error in formula {index}: {error.message}"
  | .oracle backend failure => s!"Oracle error ({backend}): {failure.message}"
  | .deadline seconds => s!"Deadline of {seconds}s exceeded before the analysis completed"

structure Options where
  /-- The time for the whole analysis in seconds; 0 sets no limit. -/
  timeout : Nat := 0
  maxHorizon : Nat := Encoding.defaultHorizon
  maxNesting : Nat := Formula.defaultNesting
  keepScript : Bool := false

structure Requirement where
  index : Nat
  source : String
  formula : Formula

namespace Requirement

def readAll (maxNesting : Nat) (sources : List String) : Except AnalysisError (List Requirement) :=
  sources.zipIdx.mapM fun (source, index) =>
    match Formula.parse maxNesting source with
    | .ok formula => .ok ⟨index, source, formula⟩
    | .error diagnostic => .error (.unreadable index (diagnostic.attach source s!"formula[{index}]"))

def encodeAll (maxHorizon : Nat) (requirements : List Requirement) : Except AnalysisError Encoding :=
  requirements.foldlM (fun encoding r =>
    (encoding.extend maxHorizon r.formula).mapError (.unencodable r.index)) {}

end Requirement

def Encoding.load {σ : Type} [Oracle σ] (encoding : Encoding) : Call σ Unit := do
  encoding.declarations.forM Oracle.declare
  encoding.assertions.toList.forM Oracle.assertTerm

/-- An oracle in use, the clock, the deadline once the queries may begin, the number of verdicts so far, and
the script that was kept. -/
structure Progress (σ : Type) where
  oracle : σ
  clock : Clock
  deadline : Option Nat := none
  queries : Nat := 0
  script : Option String := none

abbrev Analysis (σ : Type) := ExceptT AnalysisError (StateM (Progress σ))

namespace Analysis

variable {σ : Type} [Oracle σ]

def ask {α : Type} (backend : String) (call : Call σ α) : Analysis σ α := do
  let result ← modifyGet fun p =>
    let (result, oracle) := call.run p.oracle
    (result.mapError fun e => AnalysisError.oracle backend (.failed e), { p with oracle })
  MonadExcept.ofExcept result

def consult {α : Type} (question : Option Nat → StateM Clock α) : Analysis σ α :=
  modifyGet fun p =>
    let (a, clock) := (question p.deadline).run p.clock
    (a, { p with clock })

def setDeadline (options : Options) : Analysis σ Unit :=
  modify fun p =>
    let (deadline, clock) := (Clock.deadlineAfter options.timeout).run p.clock
    { p with deadline, clock }

def checkDeadline (options : Options) : Analysis σ Unit := do
  if ← consult Clock.exceeded then throw (.deadline options.timeout)

/-- Limits the next check to the seconds that are left, but to one second at least. -/
def limitCheck (backend : String) : Analysis σ Unit := do
  match ← consult Clock.remaining with
  | some seconds => ask backend (Oracle.setTimeout (max seconds 1))
  | none => return ()

/-- Whether the oracle finds some formulas jointly satisfiable. A failure carries the name that the
backend had when the query began. -/
def consistent (options : Options) (requirements : List Requirement) : Analysis σ Bool := do
  checkDeadline options
  let encoding ← MonadExcept.ofExcept (Requirement.encodeAll options.maxHorizon requirements)
  let backend := Oracle.backend (← get).oracle
  ask backend Oracle.reset
  limitCheck backend
  ask backend encoding.load
  let verdict ← ask backend Oracle.check
  modify fun p => { p with queries := p.queries + 1 }
  match verdict with
  | .sat => return true
  | .unsat => return false
  | .unknown reason =>
    checkDeadline options
    throw (.oracle backend (.undecided reason))

/-- Reads a batch and keeps the script of the query about all of it, if that is asked for. -/
def prepare (options : Options) (sources : List String) : Analysis σ (List Requirement) := do
  let requirements ← MonadExcept.ofExcept (Requirement.readAll options.maxNesting sources)
  if options.keepScript then
    let encoding ← MonadExcept.ofExcept (Requirement.encodeAll options.maxHorizon requirements)
    modify fun p => { p with script := some encoding.script }
  return requirements

def check (options : Options) (sources : List String) : Analysis σ Bool := do
  let requirements ← prepare options sources
  setDeadline options
  consistent options requirements

end Analysis
end MissionTime
