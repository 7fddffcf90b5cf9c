import MissionTime.Analysis
import MissionTime.Oracle.Clausal
import MissionTime.Oracle.Session

/-! The oracles that an analysis can be run on, and how each is started. -/
namespace MissionTime

inductive SolverChoice
  | internal
  | z3
  | cvc5
  | external (program : String) (arguments : List String)

inductive Backend
  | clausal (state : Clausal)
  | process (session : Session)

namespace Backend

def dispatch {α : Type} (onClausal : Call Clausal α) (onSession : Call Session α) :
    Call Backend α := do
  let result ← modifyGet fun
    | .clausal state => let (result, state) := onClausal.run state; (result, Backend.clausal state)
    | .process session => let (result, session) := onSession.run session; (result, .process session)
  MonadExcept.ofExcept result

instance : Oracle Backend where
  backend
    | .clausal state => Oracle.backend state
    | .process session => Oracle.backend session
  reset := dispatch Oracle.reset Oracle.reset
  setTimeout seconds := dispatch (Oracle.setTimeout seconds) (Oracle.setTimeout seconds)
  declare name := dispatch (Oracle.declare name) (Oracle.declare name)
  assertTerm term := dispatch (Oracle.assertTerm term) (Oracle.assertTerm term)
  check := dispatch Oracle.check Oracle.check

end Backend

namespace SolverChoice

def name : SolverChoice → String
  | .internal => "varisat"
  | .z3 => "z3"
  | .cvc5 => "cvc5"
  | .external program _ => program

/-- The arguments of a program that is started with a limit for each check, which `option` writes. -/
def limited (arguments : List String) (option : Nat → String) (timeout : Nat) : List String :=
  if 0 < timeout then arguments ++ [option (Session.milliseconds timeout)] else arguments

def start (host : Host) (timeout : Nat) (choice : SolverChoice) : Except AnalysisError Backend :=
  let process (label : String) (session : Except OracleError Session) :=
    match session with
    | .ok session => .ok (.process session)
    | .error e => .error (.oracle label (.failed e))
  match choice with
  | .internal => .ok (.clausal {})
  | .z3 =>
    process "z3" <| Session.start host "z3"
      (limited ["-in", "-smt2"] (fun limit => s!"-t:{limit}") timeout) (some ":timeout")
  | .cvc5 =>
    process "cvc5" <| Session.start host "cvc5"
      (limited ["--lang", "smt2", "--incremental"] (fun limit => s!"--tlimit-per={limit}") timeout)
      (some ":tlimit-per")
  | .external program arguments =>
    process "smtlib-process" <| Session.start host program arguments none

end SolverChoice

end MissionTime
