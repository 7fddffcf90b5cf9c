import MissionTime.Oracle
import MissionTime.Term.Printer
import MissionTime.Text.Blank

/-! Conversations with a solver process. The process reads commands line by line; it answers a request
to check with output lines or by exiting, and is silent otherwise. -/
namespace MissionTime
open Text

inductive Reply
  | print (text : String)
  | exit (errors : String)

/-- The behaviour of a solver process: its reply to a request to check, from all lines heard so far, the
request included. -/
structure Responder where
  reply : List String → Reply

def Responder.ofReplies (replies : List Reply) : Responder where
  reply heard := replies[heard.count "(check-sat)" - 1]?.getD (.exit "")

abbrev Host := String → Option Responder

/-- A started process with what it has heard, and the output that has not been read yet. -/
structure Session where
  program : String
  arguments : List String
  responder : Responder
  limitOption : Option String := none
  limit : Option Nat := none
  heard : Array String := #[]
  output : List String := []
  errors : String := ""
  running : Bool := true

namespace Session

def hear (s : Session) (line : String) : Session :=
  if s.running then
    let s := { s with heard := s.heard.push line }
    if line = "(check-sat)" then
      match s.responder.reply s.heard.toList with
      | .print text => { s with output := s.output ++ lines text }
      | .exit errors => { s with running := false, errors }
    else if line = "(exit)" then { s with running := false }
    else s
  else s

/-- Writes a command and a line feed. A command with line feeds in it is heard as several lines. -/
def send (command : String) : Call Session Unit := do
  if (← get).running then modify fun s => (lines command).foldl hear s
  else throw .brokenPipe

/-- Reads one line of output. When there is none the process is gone; then what it left on its error
channel is reported, once. -/
def receive (command : String) : Call Session String := do
  let s ← get
  match s.output with
  | line :: output =>
    set { s with output }
    return line
  | [] =>
    set { s with errors := "" }
    throw (.noResponse s.program command (String.ofList (trim s.errors.toList)))

def sendLimit : Call Session Unit := do
  match (← get).limitOption, (← get).limit with
  | some keyword, some milliseconds => send s!"(set-option {keyword} {milliseconds})"
  | _, _ => return ()

def start (host : Host) (program : String) (arguments : List String) (limitOption : Option String) :
    Except OracleError Session :=
  match host program with
  | none => .error (.notFound program)
  | some responder =>
    let (result, s) := (send "(set-logic QF_UF)").run { program, arguments, responder, limitOption }
    result.map fun () => s

def close (s : Session) : Session := (lines "(exit)").foldl hear s

def verdictOf (program line : String) : Except OracleError Verdict :=
  let response := trimEnd line.toList
  let answer := String.ofList (trim response)
  if answer = "sat" then .ok .sat
  else if answer = "unsat" then .ok .unsat
  else if answer = "unknown" ∨ answer = "timeout" then
    .ok (.unknown s!"{program} returned {String.ofList response}")
  else .error (.refused answer)

def check : Call Session Verdict := do
  send "(check-sat)"
  let line ← receive "(check-sat)"
  MonadExcept.ofExcept (verdictOf (← get).program line)

def reset : Call Session Unit := do
  send "(reset)"
  sendLimit
  send "(set-logic QF_UF)"

def milliseconds (seconds : Nat) : Nat := min (seconds * 1000) 18446744073709551615

def setTimeout (seconds : Nat) : Call Session Unit := do
  modify fun s => { s with limit := if 0 < seconds then some (milliseconds seconds) else none }
  sendLimit

instance : Oracle Session where
  backend _ := "smtlib-process"
  reset := reset
  setTimeout := setTimeout
  declare name := send s!"(declare-const {Term.quote name} Bool)"
  assertTerm term := send s!"(assert {term.text})"
  check := check

end Session
end MissionTime
