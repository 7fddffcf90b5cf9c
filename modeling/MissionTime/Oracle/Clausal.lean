import MissionTime.ClauseSet.Decision
import MissionTime.Oracle
import Std.Data.TreeMap

/-! The oracle inside the program. Each asserted term is turned into clauses with one fresh variable for
each connective, and a check searches the clauses for a satisfying assignment. -/
namespace MissionTime

structure Clausal where
  names : Std.TreeMap String Nat := ∅
  next : Nat := 0
  /-- A literal that a clause of its own makes true, once a constant has been met. -/
  truth : Option Literal := none
  clauses : ClauseSet := []

namespace Clausal

def clauseCount (s : Clausal) : Nat := s.clauses.length

def addClause (c : Clause) : Call Clausal Unit := modify fun s => { s with clauses := c :: s.clauses }

def fresh : Call Clausal Literal := do
  let s ← get
  set { s with next := s.next + 1 }
  return .of s.next true

def declare (name : String) : Call Clausal Unit := do
  let s ← get
  if !s.names.contains name then
    set { s with names := s.names.insert name s.next, next := s.next + 1 }

def literalOf (name : String) : Call Clausal Literal := do
  match (← get).names[name]? with
  | some index => return .of index true
  | none => throw (.unknownVariable name)

def trueLiteral : Call Clausal Literal := do
  match (← get).truth with
  | some l => return l
  | none =>
    let l ← fresh
    addClause [l]
    modify fun s => { s with truth := some l }
    return l

def conjunction (ls : List Literal) : Call Clausal Literal := do
  let v ← fresh
  ls.forM fun l => addClause [v.negate, l]
  addClause (ls.map Literal.negate ++ [v])
  return v

def disjunction (ls : List Literal) : Call Clausal Literal := do
  let v ← fresh
  ls.forM fun l => addClause [l.negate, v]
  addClause (ls ++ [v.negate])
  return v

mutual

/-- A literal that is equivalent to a term in every assignment that satisfies the clauses. -/
def gate : Term → Call Clausal Literal
  | .var name => literalOf name
  | .const true | .and [] => trueLiteral
  | .const false | .or [] => Literal.negate <$> trueLiteral
  | .not t => Literal.negate <$> gate t
  | .and [t] | .or [t] => gate t
  | .and ts => do
    let ls ← gates ts
    conjunction ls
  | .or ts => do
    let ls ← gates ts
    disjunction ls

def gates : List Term → Call Clausal (List Literal)
  | [] => return []
  | t :: ts => do
    let l ← gate t
    let ls ← gates ts
    return l :: ls

end

mutual

/-- Asserts a term; the operands of a conjunction are asserted one by one. -/
def assertTerm : Term → Call Clausal Unit
  | .and ts => assertAll ts
  | t => do
    let l ← gate t
    addClause [l]

def assertAll : List Term → Call Clausal Unit
  | [] => return ()
  | t :: ts => do
    assertTerm t
    assertAll ts

end

def check : Call Clausal Verdict := do
  return if (← get).clauses.satisfiable then .sat else .unsat

instance : Oracle Clausal where
  backend _ := "varisat"
  reset := set ({} : Clausal)
  setTimeout _ := return ()
  declare := declare
  assertTerm := assertTerm
  check := check

end Clausal
end MissionTime
