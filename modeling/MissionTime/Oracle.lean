import MissionTime.Term

/-! Satisfiability oracles. An oracle keeps a state; each call may fail, and the state that it leaves
is the one that the next call meets, after a failure too. -/
namespace MissionTime

inductive Verdict
  | sat
  | unsat
  | unknown (reason : String)
deriving DecidableEq

def Verdict.isSat : Verdict → Bool
  | .sat => true
  | _ => false

inductive OracleError
  | unknownVariable (name : String)
  | notFound (program : String)
  | brokenPipe
  | noResponse (program command errors : String)
  | refused (answer : String)
  | other (message : String)
deriving DecidableEq

def OracleError.message : OracleError → String
  | .unknownVariable name => s!"Unknown variable: {name}"
  | .notFound program => s!"solver not found: {program}: No such file or directory (os error 2)"
  | .brokenPipe => "solver I/O error: Broken pipe (os error 32)"
  | .noResponse program command errors =>
    s!"solver error: No response from {program} for command `{command}`. stderr: {errors}"
  | .refused answer => s!"solver error: {answer}"
  | .other message => message

abbrev Call (σ : Type) := ExceptT OracleError (StateM σ)

class Oracle (σ : Type) where
  backend : σ → String
  reset : Call σ Unit
  /-- Limits each check to some seconds; 0 lifts the limit. -/
  setTimeout (seconds : Nat) : Call σ Unit
  declare (name : String) : Call σ Unit
  assertTerm (term : Term) : Call σ Unit
  check : Call σ Verdict

end MissionTime
