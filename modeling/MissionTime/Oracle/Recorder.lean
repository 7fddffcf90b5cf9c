import MissionTime.Oracle.Clausal

/-! An oracle that keeps a record of its queries. It answers from a list, or truthfully, and one of its
calls can be made to fail. -/
namespace MissionTime

inductive CallKind
  | reset
  | setTimeout
  | declare
  | assertTerm
  | check
deriving DecidableEq

structure PlannedFailure where
  query : Nat
  call : CallKind
  message : String

structure QueryRecord where
  declared : Array String := #[]
  asserted : Array Term := #[]
  timeout : Option Nat := none
  verdict : Option Verdict := none

structure Recorder where
  /-- The answers to give, `sat` once they are used up; truthful answers if there is no list. -/
  verdicts : Option (List Verdict) := none
  failure : Option PlannedFailure := none
  finished : Array QueryRecord := #[]
  current : Option QueryRecord := none

namespace Recorder

def queries (r : Recorder) : Array QueryRecord :=
  match r.current with
  | some record => r.finished.push record
  | none => r.finished

def failIfPlanned (call : CallKind) : Call Recorder Unit := do
  let r ← get
  match r.failure with
  | some failure =>
    if failure.call = call ∧ failure.query = r.finished.size then throw (.other failure.message)
  | none => return ()

def update (f : QueryRecord → QueryRecord) : Call Recorder Unit :=
  modify fun r => { r with current := r.current.map f }

def truth (record : QueryRecord) : Except OracleError Verdict :=
  let query : Call Clausal Verdict := do
    record.declared.toList.forM Clausal.declare
    record.asserted.toList.forM Clausal.assertTerm
    Clausal.check
  (query.run {}).1

def answer (r : Recorder) : Except OracleError Verdict :=
  match r.verdicts with
  | some verdicts => .ok (verdicts[r.finished.size]?.getD .sat)
  | none => truth (r.current.getD {})

instance : Oracle Recorder where
  backend _ := "recorder"
  reset := do
    modify fun r => { r with finished := r.queries, current := some {} }
    failIfPlanned .reset
  setTimeout seconds := do
    failIfPlanned .setTimeout
    update fun record => { record with timeout := some seconds }
  declare name := do
    failIfPlanned .declare
    update fun record => { record with declared := record.declared.push name }
  assertTerm term := do
    failIfPlanned .assertTerm
    update fun record => { record with asserted := record.asserted.push term }
  check := do
    failIfPlanned .check
    let verdict ← MonadExcept.ofExcept (← get).answer
    update fun record => { record with verdict := some verdict }
    return verdict

end Recorder
end MissionTime
